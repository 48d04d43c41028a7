import DocRules.Evaluation.Error

/-! # Documents

A document answers two questions about a path: which value is there, and how long is the array
there. That nothing is there is an answer to the first question and an error for the second.
-/

namespace DocRules

/-- Read access to a document by path. -/
structure Document where
  lookup : String → Except EvalError (Option Value)
  length : String → Except EvalError Nat

/-- A document given row by row. Of several rows for one path the first one counts, and a failing
row comes before a value. -/
structure Table where
  values : List (String × Value)
  lengths : List (String × Nat)
  failures : List (String × String)

def Document.ofTable (table : Table) : Document where
  lookup path :=
    match table.failures.lookup path with
    | some found => .error (.unsupportedType found)
    | none => .ok (table.values.lookup path)
  length path :=
    match table.lengths.lookup path with
    | some length => .ok length
    | none => .error (.pathNotFound path)

end DocRules

import DocRules.Evaluation.Error

/-! # Verdicts and reports

A verdict is the result of a scalar rule, or the results of a vector rule in the order of the
indices. A report adds which indices failed and how many values were bound.
-/

namespace DocRules

/-- The result or the results of a rule. -/
inductive Verdict where
  | scalar (result : Bool)
  | vector (results : List Bool)
deriving DecidableEq

namespace Verdict

/-- All results; a scalar rule has one. -/
def results : Verdict → List Bool
  | .scalar result => [result]
  | .vector results => results

def all (verdict : Verdict) : Bool :=
  verdict.results.all id

def any (verdict : Verdict) : Bool :=
  verdict.results.any id

def text (verdict : Verdict) : String :=
  "[" ++ ", ".intercalate (verdict.results.map fun b => if b then "true" else "false") ++ "]"

end Verdict

/-- An index of a vector rule at which evaluation failed, and why. -/
structure IterationFailure where
  index : Int
  error : EvalError
deriving DecidableEq

/-- A verdict, the failures behind it and the number of bound values. -/
structure Report where
  verdict : Verdict
  failures : List IterationFailure
  bindings : Nat
deriving DecidableEq

/-- The report in one line; failed iterations are mentioned if there are any. -/
def Report.text (report : Report) : String :=
  let failed := ", ".intercalate (report.failures.map fun failure => toString failure.index)
  "verdict: " ++ report.verdict.text
    ++ (if report.failures.isEmpty then "" else ", failed iterations: [" ++ failed ++ "]")
    ++ ", bindings: " ++ toString report.bindings

end DocRules

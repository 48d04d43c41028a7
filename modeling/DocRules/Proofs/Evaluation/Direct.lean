import DocRules.Proofs.Evaluation.Source

/-! # Direct evaluation

A document is a source, so a rule can be evaluated from it without a context. Reading comes first:
every loop and leaf of the rule is asked for in order, a loop for every index, and the first error
of the document is the result. Only if there is none the rule is evaluated. This is the meaning of a
rule on a document, against which the two passes are measured.

Of an expression only the paths matter that its leaves stand for (`Expr.resolved`), and of a loop only
the indices it runs over. Conditions that are alike in both ask a source the same and hold for it alike
(`Condition.consult_of_alike`, `Condition.holdsFrom_of_alike`), whatever their texts and marks are.
-/

namespace DocRules

/-- A document answers by itself: what is absent is the text of its path without quotes, and a loop
runs from its written start up to the length of its array. -/
def Source.ofDocument (document : Document) : Source where
  read path := do
    let found ← document.lookup path
    return found.getD (.string (.ofList (Text.unquote path.toList)))
  bounds header path :=
    match header.first? with
    | none => .error (.invalidIndex header.start)
    | some start => do
      let length ← document.length path
      if Decimal.fitsInt64 length then return (start, length)
      else throw (.invalidIndex (toString length))

section OfDocument

open Outcome

variable {document : Document} {path : String}

/-- A document answers a leaf with the value at its key, or with the text of the key without quotes. -/
theorem Source.read_eq_ok_iff {value : Value} :
    (ofDocument document).read path = .ok value ↔
      ∃ found, document.lookup path = .ok found ∧
        value = found.getD (.string (.ofList (Text.unquote path.toList))) := by
  simp only [ofDocument, bind_eq_ok_iff, pure_eq_ok, Except.ok.injEq]
  exact exists_congr fun found => and_congr_right fun _ => eq_comm

theorem Source.read_of_lookup {value : Value} (found : document.lookup path = .ok (some value)) :
    (ofDocument document).read path = .ok value :=
  read_eq_ok_iff.mpr ⟨some value, found, rfl⟩

/-- A document answers a loop with its written start and the length of its array. -/
theorem Source.exists_of_bounds {header : LoopHeader} {start stop : Int}
    (asked : (ofDocument document).bounds header path = .ok (start, stop)) :
    header.first? = some start ∧ ∃ length : Nat, document.length path = .ok length ∧ stop = length := by
  simp only [ofDocument] at asked
  split at asked
  · cases asked
  · rename_i first
    obtain ⟨length, measured, asked⟩ := bind_eq_ok_iff.mp asked
    split at asked
    · obtain ⟨rfl, rfl⟩ := Prod.mk.inj (Except.ok.inj asked)
      exact ⟨first, length, measured, rfl⟩
    · cases asked

end OfDocument

variable (source : Source)

/-- Ask for the leaves of an expression from left to right. -/
def Expr.consult (indices : Indices) : Expr → Except EvalError Unit
  | .leaf (.string path) indexed => (source.read (indices.leafPath path indexed)).map fun _ => ()
  | .leaf _ _ => .ok ()
  | .binary _ lhs rhs => do
    lhs.consult indices
    rhs.consult indices

/-- Ask for the loops and leaves of a condition, those in a loop for every index. -/
def Condition.consult : Indices → Condition → Except EvalError Unit
  | indices, .scalar expr => expr.consult source indices
  | indices, .loop header body => do
    (← header.rangeFrom source indices).forM fun index =>
      body.consult ((header.index, index) :: indices)

/-- A vector rule asks what a loop condition would. -/
def Rule.asLoops : Rule → Condition
  | .scalar condition => condition
  | .vector header condition => .loop header condition

def Rule.direct (policy : Policy) (document : Document) (rule : Rule) :
    Except EvalError (Verdict × List IterationFailure) := do
  rule.asLoops.consult (.ofDocument document) []
  rule.verdictFrom (.ofDocument document) [] policy

def Expr.resolved (indices : Indices) : Expr → Expr
  | .leaf (.string path) indexed => .leaf (.string (indices.leafPath path indexed)) false
  | .leaf value _ => .leaf value false
  | .binary operator lhs rhs => .binary operator (lhs.resolved indices) (rhs.resolved indices)

/-- Two conditions, each inside its own loops, have loops over the same indices and expressions over the
same paths. -/
def Condition.Alike : Condition → Indices → Condition → Indices → Prop
  | .scalar expr, indices, .scalar expr', indices' => expr.resolved indices = expr'.resolved indices'
  | .loop header body, indices, .loop header' body', indices' =>
    header.rangeFrom source indices = header'.rangeFrom source indices' ∧
      ∀ index, body.Alike ((header.index, index) :: indices) body' ((header'.index, index) :: indices')
  | _, _, _, _ => False

variable {source} {indices indices' : Indices}

theorem Expr.consult_resolved (expr : Expr) :
    (expr.resolved indices).consult source [] = expr.consult source indices := by
  induction expr with
  | leaf value indexed => cases value <;> rfl
  | binary operator lhs rhs ihl ihr => simp only [resolved, consult, ihl, ihr]

theorem Expr.valueFrom_resolved (expr : Expr) :
    (expr.resolved indices).valueFrom source [] = expr.valueFrom source indices := by
  induction expr with
  | leaf value indexed => cases value <;> rfl
  | binary operator lhs rhs ihl ihr => simp only [resolved, valueFrom, ihl, ihr]

namespace Condition

variable {condition condition' : Condition}

theorem consult_of_alike (alike : condition.Alike source indices condition' indices') :
    condition.consult source indices = condition'.consult source indices' := by
  induction condition generalizing condition' indices indices' with
  | scalar expr =>
    cases condition' with
    | scalar expr' =>
      have same : expr.resolved indices = expr'.resolved indices' := alike
      rw [consult, consult, ← Expr.consult_resolved expr, ← Expr.consult_resolved expr', same]
    | loop => exact alike.elim
  | loop header body ih =>
    cases condition' with
    | scalar => exact alike.elim
    | loop header' body' =>
      obtain ⟨ranges, bodies⟩ := alike
      simp only [consult, ranges, fun index => ih (bodies index)]

theorem holdsFrom_of_alike (alike : condition.Alike source indices condition' indices') :
    condition.holdsFrom source indices = condition'.holdsFrom source indices' := by
  induction condition generalizing condition' indices indices' with
  | scalar expr =>
    cases condition' with
    | scalar expr' =>
      have same : expr.resolved indices = expr'.resolved indices' := alike
      rw [holdsFrom, holdsFrom, ← Expr.valueFrom_resolved expr, ← Expr.valueFrom_resolved expr', same]
    | loop => exact alike.elim
  | loop header body ih =>
    cases condition' with
    | scalar => exact alike.elim
    | loop header' body' =>
      obtain ⟨ranges, bodies⟩ := alike
      simp only [holdsFrom, ranges, fun index => ih (bodies index)]

end Condition

end DocRules

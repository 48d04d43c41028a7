import DocRules.Evaluation.Apply
import DocRules.Evaluation.Pass
import DocRules.Evaluation.Verdict

/-! # Evaluating a rule from a context

The second pass asks the context only. A loop condition is the conjunction over all indices, of which
none is skipped, and fails with the first failing one. What a vector rule does with a failing index
is up to a policy.
-/

namespace DocRules

/-- What a vector rule does with a failing index. -/
inductive Policy where
  /-- The result is false, and the failure is reported. -/
  | recordFalse
  /-- The rule fails. -/
  | abort
deriving DecidableEq

/-- The bounds of a loop as the first pass recorded them. -/
def LoopHeader.recorded (header : LoopHeader) : Pass Frame := do
  let key := (← get).boundsKey header
  match (← get).bounds? key with
  | some (start, stop) => return header.frame start stop
  | none => throw (.unbound key)

def Expr.evaluate (context : Context) : Expr → Except EvalError Value
  | .leaf (.string path) indexed =>
    let key := context.leafKey path indexed
    match context.get? key with
    | some value => .ok value
    | none => .error (.unbound key)
  | .leaf value _ => .ok value
  | .binary operator lhs rhs => do
    let lhs ← lhs.evaluate context
    let rhs ← rhs.evaluate context
    return .bool (← operator.apply lhs rhs)

/-- The boolean of a value, which has to be one. -/
def Value.holds : Value → Except EvalError Bool
  | .bool b => .ok b
  | value => .error (.notBoolean value.kind)

def Condition.evaluate : Condition → Pass Bool
  | .scalar expr => do
    let value ← Pass.lift (expr.evaluate (← get))
    Pass.lift value.holds
  | .loop header body => do
    let frame ← header.recorded
    Pass.overLoop frame (fun _ all => return (← body.evaluate) && all) true

/-- The results and failures of the indices so far. -/
structure Tally where
  results : Array Bool := #[]
  failures : Array IterationFailure := #[]

namespace Tally

def add (tally : Tally) (result : Bool) : Tally :=
  { tally with results := tally.results.push result }

/-- Add a failure, whose result is false. -/
def fail (tally : Tally) (index : Int) (error : EvalError) : Tally where
  results := tally.results.push false
  failures := tally.failures.push ⟨index, error⟩

end Tally

def Condition.tally (policy : Policy) (condition : Condition) (index : Int) (tally : Tally) :
    Pass Tally :=
  tryCatch (do return tally.add (← condition.evaluate)) fun error =>
    match policy with
    | .recordFalse => return tally.fail index error
    | .abort => throw error

/-- The verdict of a rule and its failures. -/
def Rule.evaluate (policy : Policy) : Rule → Pass (Verdict × List IterationFailure)
  | .scalar condition => do return (.scalar (← condition.evaluate), [])
  | .vector header condition => do
    let frame ← header.recorded
    let tally ← Pass.overLoop frame (condition.tally policy) {}
    return (.vector tally.results.toList, tally.failures.toList)

end DocRules

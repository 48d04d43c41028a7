import DocRules.Evaluation
import DocRules.Evaluation.Build
import DocRules.Json

/-! # The engine

An engine evaluates rules against documents, every time in a new context: it binds what the rule
mentions and then evaluates the rule from what is bound.
-/

namespace DocRules

/-- An engine is the policy for failing indices of vector rules. -/
structure Engine where
  policy : Policy := .recordFalse

/-- Why a document has no verdict. -/
inductive EngineError where
  /-- The document is no JSON text. -/
  | input
  | eval (error : EvalError)
deriving DecidableEq

namespace Engine

/-- Bind what a rule mentions and evaluate it. -/
def run (engine : Engine) (rule : Rule) (document : Document) :
    Pass (Verdict × List IterationFailure) := do
  rule.bind document
  rule.evaluate engine.policy

/-- The verdict of a rule on a document, with its failures and the number of bound values. -/
def reportDocument (engine : Engine) (rule : Rule) (document : Document) :
    Except EvalError Report :=
  match (engine.run rule document).run Context.empty with
  | .ok (verdict, failures) context => .ok ⟨verdict, failures, context.size⟩
  | .error error _ => .error error

def evaluateDocument (engine : Engine) (rule : Rule) (document : Document) :
    Except EvalError Verdict :=
  (engine.reportDocument rule document).map Report.verdict

def document (bytes : ByteArray) : Except EngineError Document :=
  match Json.ofBytes? bytes with
  | some json => .ok (.ofJson json)
  | none => .error .input

/-- The verdict of a rule on the bytes of a JSON text. -/
def evaluate (engine : Engine) (rule : Rule) (bytes : ByteArray) : Except EngineError Verdict := do
  let document ← document bytes
  (engine.evaluateDocument rule document).mapError .eval

def report (engine : Engine) (rule : Rule) (bytes : ByteArray) : Except EngineError Report := do
  let document ← document bytes
  (engine.reportDocument rule document).mapError .eval

end Engine

end DocRules

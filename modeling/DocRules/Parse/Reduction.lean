import DocRules.Parse.Error
import DocRules.Rule

/-! # Reducing the words of a body to an expression

The words between the braces of a condition are read from left to right onto two stacks. An
operator that yields to the operator before it first closes that operator with its two operands;
everything else stays open until the body ends and is then closed from the right. Comparisons are
therefore closed below connectives, and operators of one tier nest to the right.
-/

namespace DocRules

/-- The operands and operators that are still open, the last one first. -/
structure Reduction where
  operands : List Expr
  operators : List Operator

namespace Reduction

def empty : Reduction :=
  ⟨[], []⟩

/-- Put an operator between the last two operands. -/
def close (operator : Operator) : List Expr → Except ParseError (List Expr)
  | rhs :: lhs :: operands =>
    let expr := Expr.binary operator lhs rhs
    if maxExprDepth < expr.depth then .error (.malformed .exprTooDeep) else .ok (expr :: operands)
  | _ => .error (.malformed .operandMissing)

def pushOperator (operator : Operator) : Reduction → Except ParseError Reduction
  | ⟨operands, []⟩ => .ok ⟨operands, [operator]⟩
  | ⟨operands, top :: operators⟩ =>
    if operator.yieldsTo top then do
      let operands ← close top operands
      return ⟨operands, operator :: operators⟩
    else .ok ⟨operands, operator :: top :: operators⟩

/-- Read a word: an operator, or the text of a leaf. -/
def push (word : String) (pending : Reduction) : Except ParseError Reduction :=
  match Operator.ofWord? word with
  | some operator => pending.pushOperator operator
  | none => .ok ⟨.ofWord word :: pending.operands, pending.operators⟩

/-- The expression of a body that has been read to its end. -/
def finish (pending : Reduction) : Except ParseError Expr := do
  let operands ← pending.operators.foldlM (fun operands operator => close operator operands)
    pending.operands
  match operands with
  | [] => .error (.malformed .conditionEmpty)
  | [expr] => .ok expr
  | _ => .error (.malformed .operandsLeft)

end Reduction

end DocRules

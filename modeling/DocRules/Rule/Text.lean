import DocRules.Rule

/-! # The text of a rule

The text of a rule is canonical: one space between two words, no parentheses, and the empty block
after every condition of a rule. Nested expressions are written one after the other, so the text
keeps the order of the words of a tree but not its shape.
-/

namespace DocRules

/-- The operands of an expression from left to right with their operators between them. -/
def Expr.text : Expr → String
  | .leaf value _ => value.text
  | .binary operator lhs rhs => lhs.text ++ " " ++ operator.word ++ " " ++ rhs.text

/-- A header is one word. -/
def LoopHeader.text (header : LoopHeader) : String :=
  header.index ++ "=" ++ header.start ++ ":" ++ header.stop

/-- A condition stands in braces, a loop with its header before its body. -/
def Condition.text : Condition → String
  | .scalar expr => "\x7b " ++ expr.text ++ " \x7d"
  | .loop header body => "\x7b FOR: " ++ header.text ++ " " ++ body.text ++ " \x7d"

/-- A vector rule is a loop before a scalar rule. -/
def Rule.text : Rule → String
  | .scalar condition => "IF: " ++ condition.text ++ " THEN: \x7b \x7d"
  | .vector header condition =>
    "FOR: " ++ header.text ++ " IF: " ++ condition.text ++ " THEN: \x7b \x7d"

end DocRules

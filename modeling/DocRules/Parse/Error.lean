import DocRules.Token

/-! # Errors of rule text

A text is refused because a token stands where another is needed, or because the rule as a whole is
malformed. The first kind names the place; the second names the reason.
-/

namespace DocRules

/-- What is needed at a place: a certain token, or a word that is a loop header. -/
inductive Expected where
  | token (wanted : Token)
  | header
deriving DecidableEq

def Expected.text : Expected → String
  | .token wanted => wanted.text
  | .header => "index=start:end"

/-- Why a rule is malformed. -/
inductive Malformation where
  | emptyRule
  | noRuleStart
  | textAfterRule
  | conditionEnds
  | conditionUnterminated
  | conditionEmpty
  | operandMissing
  | operandsLeft
  | exprTooDeep
  | loopsTooDeep
deriving DecidableEq

def Malformation.text : Malformation → String
  | .emptyRule => "empty rule"
  | .noRuleStart => "rule must start with IF: or FOR:"
  | .textAfterRule => "unexpected text after rule"
  | .conditionEnds => "unexpected end of input in condition"
  | .conditionUnterminated => "unterminated condition"
  | .conditionEmpty => "empty condition"
  | .operandMissing => "operator is missing an operand"
  | .operandsLeft => "operands left over after reduction"
  | .exprTooDeep => "expression nests too deeply"
  | .loopsTooDeep => "loops nest too deeply"

/-- Why a text is no rule. -/
inductive ParseError where
  /-- Another token, or none, stands at the byte offset. -/
  | unexpected (expected : Expected) (found : Option Token) (offset : Nat)
  | malformed (reason : Malformation)
deriving DecidableEq

def ParseError.message : ParseError → String
  | .unexpected expected found offset =>
    "syntax error at offset " ++ toString offset ++ ": expected " ++ expected.text ++ ", found "
      ++ (found.map Token.text).getD "end of input"
  | .malformed reason => "rule format is malformed: " ++ reason.text

end DocRules

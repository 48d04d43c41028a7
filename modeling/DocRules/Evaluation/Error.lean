import DocRules.Value
import DocRules.Operator

/-! # Errors of evaluation

An error says what the document, or the rule, does not allow. All but an unbound key and the
mismatches of types come from reading the document.
-/

namespace DocRules

/-- Why a rule has no result for a document. -/
inductive EvalError where
  /-- The operands of an operator are of different kinds. -/
  | typeMismatch (operator : Operator) (lhs rhs : Value.Kind)
  /-- A path leads to something that is no value. -/
  | unsupportedType (found : String)
  /-- A condition has a value that is no boolean. -/
  | notBoolean (found : Value.Kind)
  /-- A loop runs over something that is no array. -/
  | notAnArray (path : String)
  /-- A loop runs over something that is not there. -/
  | pathNotFound (path : String)
  /-- A loop starts below zero or at no number, or its array is too long. -/
  | invalidIndex (index : String)
  /-- A value or the bounds of a loop were not bound before. -/
  | unbound (key : String)
deriving DecidableEq

def EvalError.message : EvalError → String
  | .typeMismatch operator lhs rhs =>
    "type mismatch: cannot apply '" ++ operator.word ++ "' to " ++ lhs.name ++ " and " ++ rhs.name
  | .unsupportedType found => "unsupported value type '" ++ found ++ "'"
  | .notBoolean found => "expected a boolean result, found " ++ found.name
  | .notAnArray path => "expected an array at '" ++ path ++ "'"
  | .pathNotFound path => "path '" ++ path ++ "' not found in input document"
  | .invalidIndex index => "invalid loop index '" ++ index ++ "'"
  | .unbound key => "no value bound for '" ++ key ++ "'; context was not built for this rule"

end DocRules

import DocRules.Binary64.Style
import DocRules.Decimal.Numeral

/-! # Values

A value is an integer, a floating point number, a boolean or a string. A literal is read as the
first of these that it writes, in the order boolean, integer, finite number, string; paths into a
document are strings. The text of a value is a literal that reads back as the value, unless it is a
string that looks like another kind, or a number that is not finite.
-/

namespace DocRules

/-- A scalar, of a rule or of a document. -/
inductive Value where
  | int (n : Int64)
  | float (x : Binary64)
  | bool (b : Bool)
  | string (text : String)
deriving DecidableEq

namespace Value

inductive Kind where
  | int
  | float
  | bool
  | string
deriving DecidableEq

def Kind.name : Kind → String
  | .int => "int"
  | .float => "float"
  | .bool => "bool"
  | .string => "string"

def kind : Value → Kind
  | .int _ => .int
  | .float _ => .float
  | .bool _ => .bool
  | .string _ => .string

/-- A literal is read as a number only from a digit, a sign or a point on, so that the words for
infinity and for no number stay strings. -/
def startsNumeral : List Char → Bool
  | [] => false
  | c :: _ => c.isDigit || c == '-' || c == '+' || c == '.'

def finite? (literal : List Char) : Option Binary64 :=
  if startsNumeral literal then
    (Decimal.Numeral.ofChars? literal).bind fun numeral =>
      let x := numeral.toBinary64
      if x.isFinite then some x else none
  else none

/-- The value of a literal. -/
def ofLiteral (literal : String) : Value :=
  if literal = "true" then .bool true
  else if literal = "false" then .bool false
  else match Decimal.int64? literal.toList with
    | some n => .int n
    | none => match finite? literal.toList with
      | some x => .float x
      | none => .string literal

/-- Numbers in rules are positional from `0.0001` up to below `10 ^ 16`, a positive exponent has no
sign, and of two nearest shortest decimals the upper one is taken. -/
def style : Binary64.Style where
  tie := .up
  leastPositional := -4
  greatestPositional := 15
  positiveExponent := ""
  nan := "NaN"
  infinity := "inf"
  negativeInfinity := "-inf"

def text : Value → String
  | .int n => toString n.toInt
  | .float x => style.text x
  | .bool b => if b then "true" else "false"
  | .string text => text

def asBool? : Value → Option Bool
  | .bool b => some b
  | _ => none

def asString? : Value → Option String
  | .string text => some text
  | _ => none

/-- Equality of values of one kind, in which floating point numbers are compared as numbers. -/
def equal : Value → Value → Bool
  | .int m, .int n => m == n
  | .float x, .float y => x.equal y
  | .bool a, .bool b => a == b
  | .string s, .string t => s == t
  | _, _ => false

end Value

end DocRules

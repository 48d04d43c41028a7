import DocRules.Binary64.Rounding
import DocRules.Decimal.Integer

/-! # Numerals with a fraction and an exponent

A numeral is a sign, digits with a point somewhere before, between or after them, and an exponent.
At least one digit is there. Its value is the nearest number to the exact value, however many
digits there are.
-/

namespace DocRules.Decimal

/-- A numeral is `digits * 10 ^ exponent` with a sign. -/
structure Numeral where
  negative : Bool
  digits : List Char
  exponent : Int
deriving DecidableEq

namespace Numeral

def sign : List Char → Bool × List Char
  | '-' :: rest => (true, rest)
  | '+' :: rest => (false, rest)
  | rest => (false, rest)

/-- The digits after a point, if there is one, and what follows them. -/
def fraction : List Char → List Char × List Char
  | '.' :: rest => (rest.takeWhile Char.isDigit, rest.dropWhile Char.isDigit)
  | rest => ([], rest)

/-- The exponent that a text consists of, zero for the empty text. -/
def exponent? : List Char → Option Int
  | [] => some 0
  | 'e' :: rest => signed? rest
  | 'E' :: rest => signed? rest
  | _ => none

def ofChars? (text : List Char) : Option Numeral :=
  let (negative, unsigned) := sign text
  let whole := unsigned.takeWhile Char.isDigit
  let (fraction, rest) := fraction (unsigned.dropWhile Char.isDigit)
  if (whole ++ fraction).isEmpty then none
  else (exponent? rest).map fun exponent =>
    ⟨negative, whole ++ fraction, exponent - fraction.length⟩

/-- The nearest number to a numeral, which may be infinite. -/
def toBinary64 (numeral : Numeral) : Binary64 :=
  .ofMagnitude numeral.negative
    (Binary64.ofDecimal (Nat.ofDigitChars 10 numeral.digits 0) numeral.digits.length
      numeral.exponent)

end Numeral

end DocRules.Decimal

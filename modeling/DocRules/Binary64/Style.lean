import DocRules.Binary64.Shortest

/-! # Written numbers

A style says how the digits of a number are set: which way a tie between shortest decimals goes,
between which exponents the number is written positionally, what stands before a positive exponent,
and the words for what has no digits. The positional form always has a digit on both sides of the
point; the other form is a first digit, the rest after a point if there is a rest, and an exponent.
-/

namespace DocRules.Binary64

/-- The decisions of a format on how numbers are written. -/
structure Style where
  tie : Tie
  leastPositional : Int
  greatestPositional : Int
  positiveExponent : String
  nan : String
  infinity : String
  negativeInfinity : String

/-- The digits, positionally, with at least one digit before and after the point. -/
def Decimal.positional (decimal : Decimal) : String :=
  let digits := Nat.toDigits 10 decimal.digits
  let whole := digits.length + decimal.exponent
  String.ofList <|
    if 0 ≤ decimal.exponent then
      digits ++ List.replicate decimal.exponent.toNat '0' ++ ['.', '0']
    else if 0 < whole then
      digits.take whole.toNat ++ '.' :: digits.drop whole.toNat
    else
      ['0', '.'] ++ List.replicate (-whole).toNat '0' ++ digits

/-- The digits with an exponent of the first digit. -/
def Decimal.scientific (decimal : Decimal) (positiveExponent : String) : String :=
  let digits := Nat.toDigits 10 decimal.digits
  let exponent := decimal.exponent + digits.length - 1
  let fraction := digits.drop 1
  String.ofList (digits.take 1 ++ if fraction.isEmpty then [] else '.' :: fraction)
    ++ "e" ++ (if exponent < 0 then "" else positiveExponent) ++ toString exponent

def Style.magnitudeText (style : Style) (magnitude : Nat) : String :=
  if magnitude = 0 then "0.0"
  else
    let decimal := shortest style.tie magnitude
    let leading := decimal.exponent + (Nat.toDigits 10 decimal.digits).length - 1
    if style.leastPositional ≤ leading && leading ≤ style.greatestPositional then
      decimal.positional
    else
      decimal.scientific style.positiveExponent

def Style.text (style : Style) (x : Binary64) : String :=
  if x.isNaN then style.nan
  else if x.isFinite then
    (if x.negative then "-" else "") ++ style.magnitudeText x.magnitude
  else if x.negative then style.negativeInfinity
  else style.infinity

end DocRules.Binary64

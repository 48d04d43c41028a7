import DocRules.Binary64.Rounding
import DocRules.Decimal.Integer

/-! # Numbers of JSON text

A numeral without fraction and exponent is an integer; it stays exact if it fits 64 bits, signed or
not, and is a signed word where it can be. Everything else is a floating point number, computed in
two roundings: as many leading digits as fit a word of 64 bits are taken as an integer, and this is
multiplied with or divided by a power of ten. The result may differ from the nearest number in the
last bit.
-/

namespace DocRules.Json

/-- A numeral as it is written. -/
structure Numeral where
  negative : Bool
  whole : List Char
  /-- The digits after the point, none if there is no point. -/
  fraction : List Char
  exponent : Option Int
deriving DecidableEq

/-- A signed word, or a floating point number. -/
inductive Number where
  | int (n : Int64)
  | float (x : Binary64)
deriving DecidableEq

namespace Numeral

/-- One or more digits at the beginning, without a zero before other digits. -/
def whole? (text : List Char) : Option (List Char × List Char) :=
  let digits := text.takeWhile Char.isDigit
  if digits.isEmpty || (digits.head? == some '0' && digits.length != 1) then none
  else some (digits, text.dropWhile Char.isDigit)

/-- The digits after a point at the beginning, of which there is at least one. -/
def fraction? : List Char → Option (List Char × List Char)
  | '.' :: text =>
    let digits := text.takeWhile Char.isDigit
    if digits.isEmpty then none else some (digits, text.dropWhile Char.isDigit)
  | text => some ([], text)

/-- The exponent that a text consists of. -/
def exponent? : List Char → Option (Option Int)
  | [] => some none
  | 'e' :: text => (Decimal.signed? text).map some
  | 'E' :: text => (Decimal.signed? text).map some
  | _ => none

/-- The numeral after a sign. -/
def unsigned? (negative : Bool) (text : List Char) : Option Numeral := do
  let (whole, text) ← whole? text
  let (fraction, text) ← fraction? text
  let exponent ← exponent? text
  return ⟨negative, whole, fraction, exponent⟩

def ofChars? : List Char → Option Numeral
  | '-' :: text => unsigned? true text
  | text => unsigned? false text

/-- Append digits to a number while it stays below `2 ^ 64`. The first digit that does not fit ends
this, and the digits from it on are returned. -/
def appendDigits (number : Nat) : List Char → Nat × List Char
  | [] => (number, [])
  | c :: digits =>
    let longer := number * 10 + (c.toNat - '0'.toNat)
    if longer < UInt64.size then appendDigits longer digits else (number, c :: digits)

/-- The number to scale and the power of ten to scale it by, apart from the written exponent. The
digits before the point that do not fit count as powers of ten; digits after it that do not fit are
ignored. -/
def significand (numeral : Numeral) : Nat × Int :=
  let (whole, dropped) := appendDigits 0 numeral.whole
  let (number, ignored) := appendDigits whole numeral.fraction
  (number, dropped.length - (numeral.fraction.length - ignored.length : Nat))

/-- The greatest power of ten that is a floating point number. -/
def greatestPower : Nat :=
  308

def powerOfTen (exponent : Nat) : Nat :=
  Binary64.ofRatio (Nat.pow 10 exponent) 1

/-- A magnitude times a power of ten, unless that is infinite. -/
def scale? (magnitude : Nat) (exponent : Int) : Option Nat :=
  if magnitude = 0 then some 0
  else if exponent < -(greatestPower : Int) then
    scale? (Binary64.divMagnitude magnitude (powerOfTen greatestPower)) (exponent + greatestPower)
  else if exponent < 0 then
    some (Binary64.divMagnitude magnitude (powerOfTen (-exponent).toNat))
  else if exponent ≤ greatestPower then
    let product := Binary64.mulMagnitude magnitude (powerOfTen exponent.toNat)
    if product < Binary64.infinity then some product else none
  else none
termination_by (-exponent).toNat
decreasing_by simp only [greatestPower] at *; omega

/-- The greatest exponent that may be written before a number other than zero. -/
def greatestExponent : Int :=
  Int32.maxValue.toInt

/-- The magnitude of a numeral with a point, an exponent or too many digits, unless it is
infinite. -/
def magnitude? (numeral : Numeral) : Option Nat :=
  let (number, power) := numeral.significand
  let exponent := numeral.exponent.getD 0
  if number = 0 || exponent < -greatestExponent then some 0
  else if greatestExponent < exponent then none
  else scale? (Binary64.ofRatio number 1) (exponent + power)

/-- The number of a numeral without fraction and exponent, if it fits. -/
def integer? (numeral : Numeral) : Option Number :=
  match appendDigits 0 numeral.whole with
  | (number, []) =>
    if numeral.fraction.isEmpty && numeral.exponent.isNone then
      let n : Int := if numeral.negative then -(number : Int) else number
      if Decimal.fitsInt64 n && !(numeral.negative && number == 0) then some (.int (.ofInt n))
      else some (.float (.ofMagnitude numeral.negative (Binary64.ofRatio number 1)))
    else none
  | _ => none

/-- The number of a numeral, unless it is infinite. -/
def number? (numeral : Numeral) : Option Number :=
  match numeral.integer? with
  | some number => some number
  | none => numeral.magnitude?.map fun magnitude => .float (.ofMagnitude numeral.negative magnitude)

end Numeral

/-- The floating point number of a number, the nearest one to an integer. -/
def Number.toBinary64 : Number → Binary64
  | .int n => .ofInt n.toInt
  | .float x => x

end DocRules.Json

/-! # Whole numbers in decimal

A whole number is written as ASCII digits, with a sign before them where one is admitted. Reading
fails on an empty text, on any other character and outside the range of the reader.
-/

namespace DocRules.Decimal

/-- The number written by a text of one or more digits. -/
def natural? (text : List Char) : Option Nat :=
  if text.isEmpty || !text.all Char.isDigit then none else some (Nat.ofDigitChars 10 text 0)

/-- The number written by digits after an optional sign. -/
def signed? : List Char → Option Int
  | '-' :: digits => (natural? digits).map fun n => -(n : Int)
  | '+' :: digits => (natural? digits).map fun n => (n : Int)
  | digits => (natural? digits).map fun n => (n : Int)

/-- The number written by digits after an optional plus sign. -/
def unsigned? : List Char → Option Nat
  | '+' :: digits => natural? digits
  | digits => natural? digits

def fitsInt64 (n : Int) : Bool :=
  Int64.minValue.toInt ≤ n && n ≤ Int64.maxValue.toInt

def int64? (text : List Char) : Option Int64 :=
  (signed? text).bind fun n => if fitsInt64 n then some (Int64.ofInt n) else none

/-- The position in a sequence that a text writes: at most `2 ^ 64 - 1`. -/
def position? (text : List Char) : Option Nat :=
  (unsigned? text).bind fun n => if n < UInt64.size then some n else none

end DocRules.Decimal

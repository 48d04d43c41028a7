/-! # Binary floating point numbers

A number is its 64 bits: one sign bit, eleven exponent bits and a fraction of 52 bits. Without the
sign bit the word is a *magnitude*, and magnitudes count the representable numbers upwards from
zero, so comparing numbers is comparing magnitudes. Every magnitude is a whole number of units of
`2 ^ (-1074)`, the least positive number, so all arithmetic here is exact arithmetic on `Nat`.
-/

namespace DocRules

/-- A floating point number is its bits, so that the two zeros and every NaN stay apart. -/
structure Binary64 where
  bits : UInt64
deriving DecidableEq

namespace Binary64

/-- The value of the sign bit, the highest of the word. -/
def signBit : Nat :=
  Nat.pow 2 63

def fractions : Nat :=
  Nat.pow 2 52

def unitsPerOne : Nat :=
  Nat.pow 2 1074

def negative (x : Binary64) : Bool :=
  signBit ≤ x.bits.toNat

/-- The magnitude is the word without its sign bit. -/
def magnitude (x : Binary64) : Nat :=
  x.bits.toNat % signBit

def ofMagnitude (negative : Bool) (magnitude : Nat) : Binary64 :=
  ⟨UInt64.ofNat ((if negative then signBit else 0) + magnitude)⟩

/-- The magnitude of infinity: all exponent bits set, no fraction bit set. -/
def infinity : Nat :=
  2047 * fractions

/-- A number is finite if its magnitude lies below infinity. -/
def isFinite (x : Binary64) : Bool :=
  x.magnitude < infinity

/-- The magnitudes above infinity are no numbers. -/
def isNaN (x : Binary64) : Bool :=
  infinity < x.magnitude

/-- The value of a magnitude in units of the least positive number. The first fractions count units
directly; from there on each step of the exponent doubles the weight of a significand of 53 bits. -/
def units (magnitude : Nat) : Nat :=
  if magnitude < fractions then magnitude
  else (fractions + magnitude % fractions) <<< (magnitude / fractions - 1)

/-- The place of a number on the line of all magnitudes; both zeros have place zero. -/
def place (x : Binary64) : Int :=
  if x.negative then -(x.magnitude : Int) else x.magnitude

/-- Numeric equality: the zeros are equal, and a NaN differs from everything. -/
def equal (x y : Binary64) : Bool :=
  !x.isNaN && !y.isNaN && x.place == y.place

/-- Numeric order, in which a NaN is neither below nor above anything. -/
def less (x y : Binary64) : Bool :=
  !x.isNaN && !y.isNaN && x.place < y.place

end Binary64

end DocRules

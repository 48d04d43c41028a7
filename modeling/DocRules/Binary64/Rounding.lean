import DocRules.Binary64

/-! # Rounding to the nearest number

Every rounding in the library is one rule: the nearest magnitude to an exact ratio, a tie going to
the even one, and everything from half a step above the greatest finite number on going to
infinity. Products and quotients are exact ratios rounded once.
-/

namespace DocRules.Binary64

/-- The nearest whole number to `num / den`, the even one if both neighbours are equally near. -/
def roundHalfEven (num den : Nat) : Nat :=
  let quotient := num / den
  let twice := 2 * (num % den)
  if twice < den then quotient
  else if den < twice then quotient + 1
  else quotient + quotient % 2

/-- The nearest magnitude to `num / den`. The shift leaves 53 significant bits before the point;
a rounding that carries to `2 ^ 53` moves to the next exponent by itself, since the magnitude is a
sum. -/
def ofRatio (num den : Nat) : Nat :=
  let scaled := num * unitsPerOne
  let shift := (scaled / den).log2 - 52
  min infinity (shift * fractions + roundHalfEven scaled (den <<< shift))

/-- The nearest magnitude to the product of two magnitudes. -/
def mulMagnitude (x y : Nat) : Nat :=
  ofRatio (units x * units y) (unitsPerOne * unitsPerOne)

/-- The nearest magnitude to the quotient of two magnitudes. -/
def divMagnitude (x y : Nat) : Nat :=
  ofRatio (units x) (units y)

/-- The power of ten beyond which no digits that are there can make a finite, positive number. -/
def decimalReach : Nat :=
  2000

/-- The nearest magnitude to `digits * 10 ^ exponent`, where `digits` has at most `length` digits.
Far outside the range of the format the answer is infinity or zero, whatever the digits are. -/
def ofDecimal (digits length : Nat) (exponent : Int) : Nat :=
  if digits = 0 then 0
  else if (decimalReach : Int) < exponent then infinity
  else if exponent + length < -(decimalReach : Int) then 0
  else ofRatio (digits * Nat.pow 10 exponent.toNat) (Nat.pow 10 (-exponent).toNat)

def ofInt (n : Int) : Binary64 :=
  ofMagnitude (n < 0) (ofRatio n.natAbs 1)

end DocRules.Binary64

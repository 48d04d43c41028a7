import DocRules.Binary64.Rounding

/-! # The shortest decimal that reads back

The numbers that round to a magnitude form an interval: half a step below it to half a step above
it, with both ends if the magnitude is even. The shortest decimal is searched on the grids of 1, 2,
and so on up to 17 significant digits; the first grid with a point in the interval wins, and of two
such points the nearer. It is enough to look at the two grid points around the number itself.
-/

namespace DocRules.Binary64

/-- The decimal number `digits * 10 ^ exponent`. -/
structure Decimal where
  digits : Nat
  exponent : Int
deriving DecidableEq

/-- What happens when two shortest decimals are equally near. -/
inductive Tie where
  | up
  | even
deriving DecidableEq

/-- Whether `digits * 10 ^ exponent` rounds to the magnitude. -/
def readsAs (magnitude digits : Nat) (exponent : Int) : Bool :=
  let value := 2 * (digits * Nat.pow 10 exponent.toNat * unitsPerOne)
  let low := (units (magnitude - 1) + units magnitude) * Nat.pow 10 (-exponent).toNat
  let high := (units magnitude + units (magnitude + 1)) * Nat.pow 10 (-exponent).toNat
  if magnitude % 2 = 0 then low ≤ value && value ≤ high else low < value && value < high

/-- The point of the grid `10 ^ exponent` next to the magnitude that rounds to it, if there is
one. -/
def onGrid? (tie : Tie) (magnitude : Nat) (exponent : Int) : Option Decimal :=
  let num := units magnitude * Nat.pow 10 (-exponent).toNat
  let den := unitsPerOne * Nat.pow 10 exponent.toNat
  let below := num / den
  let twice := 2 * (num % den)
  let upwards := den < twice || (twice == den && (tie == .up || below % 2 == 1))
  match readsAs magnitude below exponent, readsAs magnitude (below + 1) exponent with
  | true, true => some ⟨if upwards then below + 1 else below, exponent⟩
  | true, false => some ⟨below, exponent⟩
  | false, true => some ⟨below + 1, exponent⟩
  | false, false => none

/-- The exponent of the first decimal digit of a positive magnitude. The factor `10 ^ 324` lifts
the least positive number above one. -/
def leadingExponent (magnitude : Nat) : Int :=
  (Nat.toDigits 10 (units magnitude * Nat.pow 10 324 / unitsPerOne)).length - 325

/-- The decimal with its trailing zeros moved into the exponent. -/
def Decimal.trim (decimal : Decimal) : Decimal :=
  if decimal.digits = 0 ∨ decimal.digits % 10 ≠ 0 then decimal
  else Decimal.trim ⟨decimal.digits / 10, decimal.exponent + 1⟩
termination_by decimal.digits
decreasing_by omega

/-- The shortest decimal that reads back as the positive finite magnitude, nearest to it among its
like. Should no grid have one, the exact value does. -/
def shortest (tie : Tie) (magnitude : Nat) : Decimal :=
  let leading := leadingExponent magnitude
  let found := (List.range 17).findSome? fun (more : Nat) => onGrid? tie magnitude (leading - more)
  (found.getD ⟨units magnitude * Nat.pow 5 1074, -1074⟩).trim

end DocRules.Binary64

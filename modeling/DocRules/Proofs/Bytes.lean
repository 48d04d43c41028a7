import DocRules.Bytes

/-! # Numbers read back

A number is read back from its bytes whatever follows them, in a fixed width that it fits in
(`Bytes.fixed?_ofNat`) and in the variable width (`Bytes.compact?_ofCompact`). Signed numbers of 64
bits are natural ones of 64 bits, and no two of them are the same (`Bytes.unzigzag_zigzag`).
-/

namespace DocRules.Bytes

@[simp] theorem length_ofNat (width n : Nat) : (ofNat width n).length = width := by
  induction width generalizing n with
  | zero => rfl
  | succ width ih => simp [ofNat, ih]

theorem toNat_ofNat {width n : Nat} (fits : n < Nat.pow 256 width) : toNat (ofNat width n) = n := by
  induction width generalizing n with
  | zero =>
    obtain rfl : n = 0 := Nat.lt_one_iff.mp fits
    rfl
  | succ width ih =>
    have rest : n / 256 < Nat.pow 256 width :=
      Nat.div_lt_of_lt_mul (by rw [Nat.mul_comm]; exact fits)
    have first : (UInt8.ofNat n).toNat = n % 256 := UInt8.toNat_ofNat'
    have step : toNat (ofNat (width + 1) n) =
        (UInt8.ofNat n).toNat + 256 * toNat (ofNat width (n / 256)) := rfl
    rw [step, first, ih rest, Nat.mod_add_div]

theorem take?_append (front rest : List UInt8) :
    take? front.length (front ++ rest) = some (front, rest) := by
  induction front with
  | nil => rfl
  | cons byte front ih => simp [take?, ih]

theorem take?_of_length {count : Nat} {front : List UInt8} (long : front.length = count)
    (rest : List UInt8) : take? count (front ++ rest) = some (front, rest) := by
  rw [← long, take?_append]

theorem fixed?_ofNat {width n : Nat} (fits : n < Nat.pow 256 width) (rest : List UInt8) :
    fixed? width (ofNat width n ++ rest) = some (n, rest) := by
  rw [fixed?, take?_of_length (length_ofNat width n), Option.map_some]
  simp only [toNat_ofNat fits]

theorem length_ofCompact_pos (n : Nat) : 0 < (ofCompact n).length := by
  unfold ofCompact
  repeat' split
  all_goals simp

/-- A number of variable width is read back by a reader that is wide enough for it. -/
theorem compact?_ofCompact {widest n : Nat} (fits : n < UInt64.size)
    (wide : n < UInt32.size ∨ 8 ≤ widest) (rest : List UInt8) :
    compact? widest (ofCompact n ++ rest) = some (n, rest) := by
  unfold ofCompact
  split
  · rename_i small
    have byte : (UInt8.ofNat n).toNat = n := by
      rw [UInt8.toNat_ofNat']
      exact Nat.mod_eq_of_lt (by omega)
    have below : UInt8.ofNat n < 251 := by
      rw [UInt8.lt_iff_toNat_lt, byte]
      exact small
    simp [ofNat, compact?, below, byte]
  · split
    · rename_i within
      have two : n < Nat.pow 256 2 := within
      exact fixed?_ofNat two rest
    · split
      · rename_i within
        have four : n < Nat.pow 256 4 := within
        exact fixed?_ofNat four rest
      · rename_i large
        have eight : 8 ≤ widest := wide.resolve_left large
        have read : compact? widest (253 :: ofNat 8 n ++ rest) = fixed? 8 (ofNat 8 n ++ rest) := by
          simp [compact?, eight, show ¬ (253 : UInt8) < 251 by decide]
        have within : n < Nat.pow 256 8 := fits
        rw [read, fixed?_ofNat within]

theorem unzigzag_zigzag (z : Int) : unzigzag (zigzag z) = z := by
  unfold unzigzag zigzag
  split <;> split <;> omega

/-- A signed number of 64 bits is a natural one of 64 bits. -/
theorem zigzag_lt (n : Int64) : zigzag n.toInt < UInt64.size := by
  have lower := n.le_toInt
  have upper := n.toInt_lt
  have size : UInt64.size = 18446744073709551616 := rfl
  unfold zigzag
  split <;> omega

end DocRules.Bytes

import DocRules.Binary64.Shortest
import DocRules.Proofs.Binary64.Rounding

/-! # The shortest decimal is near

The decimal that is chosen for a magnitude is near it (`shortest_near`): every grid is asked whether
its point rounds to the magnitude, the exact value is near, and to move zeros between digits and
exponent changes no value. A decimal that is near a finite magnitude is within the reach of the
format, so it is read as the magnitude (`ofDecimal_of_near`).
-/

namespace DocRules.Binary64

def Decimal.Near (magnitude : Nat) (decimal : Decimal) : Prop :=
  Binary64.Near magnitude (decimal.digits * Nat.pow 10 decimal.exponent.toNat)
    (Nat.pow 10 (-decimal.exponent).toNat)

theorem readsAs_iff {magnitude digits : Nat} {exponent : Int} :
    readsAs magnitude digits exponent = true ↔ Decimal.Near magnitude ⟨digits, exponent⟩ := by
  rw [readsAs, Decimal.Near]
  constructor
  · intro read
    split at read
    · rename_i even
      simp only [Bool.and_eq_true, decide_eq_true_eq] at read
      exact ⟨read.1, read.2, fun odd => absurd even (by omega)⟩
    · simp only [Bool.and_eq_true, decide_eq_true_eq] at read
      exact ⟨read.1.le, read.2.le, fun _ => read⟩
  · rintro ⟨low, high, ends⟩
    split
    · simp only [Bool.and_eq_true, decide_eq_true_eq]
      exact ⟨low, high⟩
    · simp only [Bool.and_eq_true, decide_eq_true_eq]
      exact ends (by omega)

/-- A grid gives a point only if it is near. -/
theorem near_of_onGrid? {tie : Tie} {magnitude : Nat} {exponent : Int} {decimal : Decimal}
    (found : onGrid? tie magnitude exponent = some decimal) : decimal.Near magnitude := by
  simp only [onGrid?] at found
  split at found
  · rename_i below above
    obtain rfl := Option.some.inj found
    split_ifs
    · exact readsAs_iff.mp above
    · exact readsAs_iff.mp below
  · rename_i below _
    obtain rfl := Option.some.inj found
    exact readsAs_iff.mp below
  · rename_i _ above
    obtain rfl := Option.some.inj found
    exact readsAs_iff.mp above
  · contradiction

private theorem near_congr {magnitude num den num' den' : Nat} (positive : 0 < den) (positive' : 0 < den')
    (same : num * den' = num' * den) : Near magnitude num den ↔ Near magnitude num' den' := by
  rw [← near_scale positive', ← @near_scale magnitude num' den' den positive, Nat.mul_comm den' num,
    Nat.mul_comm den num', same, Nat.mul_comm den' den]

/-- Moving zeros between the digits and the exponent changes no value. -/
theorem Decimal.near_mul_pow {magnitude digits zeros : Nat} {exponent : Int} :
    Near magnitude ⟨digits * Nat.pow 10 zeros, exponent⟩ ↔
      Near magnitude ⟨digits, exponent + zeros⟩ := by
  apply near_congr (Nat.pow_pos (by decide)) (Nat.pow_pos (by decide))
  have exponents : zeros + exponent.toNat + (-(exponent + zeros)).toNat =
      (exponent + zeros).toNat + (-exponent).toNat := by omega
  simp only [Nat.pow_eq, Nat.mul_assoc, ← Nat.pow_add]
  rw [exponents]

private theorem Decimal.near_trim {magnitude : Nat} {decimal : Decimal} (near : decimal.Near magnitude) :
    decimal.trim.Near magnitude := by
  fun_induction Decimal.trim decimal with
  | case1 => exact near
  | case2 decimal ends ih =>
    apply ih
    obtain ⟨digits, exponent⟩ := decimal
    simp only [not_or, not_not] at ends
    have zero : digits = digits / 10 * Nat.pow 10 1 := by
      rw [Nat.pow_eq, Nat.pow_one]
      omega
    rw [zero, Decimal.near_mul_pow] at near
    exact near

/-- The steps grow with the magnitude. -/
theorem units_lt_units_succ (magnitude : Nat) : units magnitude < units (magnitude + 1) := by
  rcases Nat.lt_or_ge (magnitude + 1) (2 * fractions) with small | large
  · rw [units_of_lt small, units_of_lt (by omega)]
    exact Nat.lt_succ_self magnitude
  · have some_fractions : 2 ≤ fractions := by decide
    have normal : fractions ≤ magnitude := by omega
    obtain ⟨exponent, rest, within, rfl⟩ := exists_exponent normal
    rw [units_mul_add within, units_succ within]
    exact Nat.mul_lt_mul_of_pos_right (Nat.lt_succ_self _) (Nat.two_pow_pos exponent)

theorem units_strictMono : StrictMono units :=
  strictMono_nat_of_lt_succ units_lt_units_succ

/-- The value of a positive magnitude itself is near it. -/
theorem near_exact {magnitude num den : Nat} (positive : 0 < den) (least : 0 < magnitude)
    (exact_value : num * unitsPerOne = units magnitude * den) : Near magnitude num den := by
  have before : units (magnitude - 1) < units magnitude := units_strictMono (by omega)
  have after := units_lt_units_succ magnitude
  have low : (units (magnitude - 1) + units magnitude) * den < 2 * (num * unitsPerOne) := by
    have := Nat.mul_lt_mul_of_pos_right before positive
    rw [exact_value, Nat.add_mul]
    omega
  have high : 2 * (num * unitsPerOne) < (units magnitude + units (magnitude + 1)) * den := by
    have := Nat.mul_lt_mul_of_pos_right after positive
    rw [exact_value, Nat.add_mul]
    omega
  exact ⟨low.le, high.le, fun _ => ⟨low, high⟩⟩

/-- The exact value of a magnitude, whose units are fractions with so many decimal places. -/
theorem near_exact_decimal {magnitude places unit : Nat} (least : 0 < magnitude)
    (decimal : unit * unitsPerOne = Nat.pow 10 places) :
    Decimal.Near magnitude ⟨units magnitude * unit, -(places : Int)⟩ := by
  apply near_exact (Nat.pow_pos (by decide)) least
  have whole : (-(places : Int)).toNat = 0 := by omega
  have fraction : (-(-(places : Int))).toNat = places := by omega
  simp only [whole, fraction, Nat.pow_eq, Nat.pow_zero, Nat.mul_one, Nat.mul_assoc]
  rw [decimal, Nat.pow_eq]

/-- The shortest decimal of a positive magnitude is near it. -/
theorem shortest_near (tie : Tie) {magnitude : Nat} (least : 0 < magnitude) :
    (shortest tie magnitude).Near magnitude := by
  rw [shortest]
  apply Decimal.near_trim
  cases found : (List.range 17).findSome? fun (more : Nat) =>
      onGrid? tie magnitude (leadingExponent magnitude - more) with
  | some decimal =>
    obtain ⟨more, -, grid⟩ := List.exists_of_findSome?_eq_some found
    exact near_of_onGrid? grid
  | none =>
    -- the number of places gets a name, so that no power of it is evaluated
    obtain ⟨places, named⟩ : ∃ places : Nat, 1074 = places := ⟨_, rfl⟩
    have decimal : Nat.pow 5 1074 * unitsPerOne = Nat.pow 10 places := by
      subst named
      decide +kernel
    have exponent : (-1074 : Int) = -(places : Int) := by omega
    rw [exponent, Option.getD_none]
    exact near_exact_decimal least decimal

section Reach

variable {magnitude digits length : Nat} {exponent : Int}

theorem digits_pos_of_near (least : 0 < magnitude) (near : Decimal.Near magnitude ⟨digits, exponent⟩) :
    digits ≠ 0 := by
  rintro rfl
  have low := near.low
  rw [Nat.zero_mul, Nat.zero_mul, Nat.mul_zero] at low
  have value : 0 < units magnitude := Nat.lt_of_le_of_lt (Nat.zero_le _) (units_strictMono least)
  have positive : 0 < (units (magnitude - 1) + units magnitude) * Nat.pow 10 (-exponent).toNat :=
    Nat.mul_pos (by omega) (Nat.pow_pos (by decide))
  exact absurd low (Nat.not_le.mpr positive)

/-- What is near a finite magnitude has no exponent beyond the reach. -/
theorem exponent_le_of_near (least : 0 < magnitude) (finite : magnitude < infinity)
    (near : Decimal.Near magnitude ⟨digits, exponent⟩) : exponent ≤ decimalReach := by
  by_contra beyond
  have positive := digits_pos_of_near least near
  obtain ⟨more, rfl⟩ : ∃ more : Nat, exponent = (decimalReach + more : Nat) :=
    ⟨(exponent - decimalReach).toNat, by omega⟩
  have whole : ((decimalReach + more : Nat) : Int).toNat = decimalReach + more := Int.toNat_natCast _
  have fraction : (-((decimalReach + more : Nat) : Int)).toNat = 0 := by omega
  have high := near.high
  simp only [whole, fraction, Nat.pow_eq, Nat.pow_zero, Nat.mul_one] at high
  have top : units magnitude + units (magnitude + 1) < 2 * units infinity := by
    have below : units magnitude < units infinity := units_strictMono finite
    have next : units (magnitude + 1) ≤ units infinity := units_strictMono.monotone finite
    omega
  have power : units infinity < 10 ^ decimalReach * unitsPerOne := by decide +kernel
  have scaled : 10 ^ decimalReach * unitsPerOne ≤ digits * 10 ^ (decimalReach + more) * unitsPerOne := by
    apply Nat.mul_le_mul_right
    calc 10 ^ decimalReach ≤ 10 ^ (decimalReach + more) := Nat.pow_le_pow_right (by decide) (by omega)
      _ ≤ digits * 10 ^ (decimalReach + more) := Nat.le_mul_of_pos_left _ (by omega)
  omega

/-- Digits that are near a positive magnitude are not below the reach. -/
theorem reach_le_of_near (least : 0 < magnitude) (bound : digits < Nat.pow 10 length)
    (near : Decimal.Near magnitude ⟨digits, exponent⟩) : -(decimalReach : Int) ≤ exponent + length := by
  by_contra beyond
  obtain ⟨more, rfl⟩ : ∃ more : Nat, exponent = -((length + decimalReach + more : Nat) : Int) :=
    ⟨(-exponent - length - decimalReach).toNat, by omega⟩
  have whole : (-((length + decimalReach + more : Nat) : Int)).toNat = 0 := by omega
  have fraction : (-(-((length + decimalReach + more : Nat) : Int))).toNat =
      length + decimalReach + more := by omega
  have low := near.low
  simp only [whole, fraction, Nat.pow_eq, Nat.pow_zero, Nat.mul_one] at low bound
  have value : 0 < units magnitude := Nat.lt_of_le_of_lt (Nat.zero_le _) (units_strictMono least)
  have power : 2 * unitsPerOne ≤ 10 ^ decimalReach := by decide +kernel
  have scaled : 10 ^ length * (2 * unitsPerOne) ≤
      (units (magnitude - 1) + units magnitude) * 10 ^ (length + decimalReach + more) := by
    calc 10 ^ length * (2 * unitsPerOne)
        ≤ 10 ^ length * 10 ^ decimalReach := Nat.mul_le_mul_left _ power
      _ = 10 ^ (length + decimalReach) := (Nat.pow_add ..).symm
      _ ≤ 10 ^ (length + decimalReach + more) := Nat.pow_le_pow_right (by decide) (by omega)
      _ ≤ _ := Nat.le_mul_of_pos_left _ (by omega)
  have below : digits * (2 * unitsPerOne) < 10 ^ length * (2 * unitsPerOne) :=
    Nat.mul_lt_mul_of_pos_right bound (by decide +kernel)
  have same : 2 * (digits * unitsPerOne) = digits * (2 * unitsPerOne) := Nat.mul_left_comm ..
  omega

/-- Digits that are near a finite magnitude are read as the magnitude. -/
theorem ofDecimal_of_near (least : 0 < magnitude) (finite : magnitude < infinity)
    (bound : digits < Nat.pow 10 length) (near : Decimal.Near magnitude ⟨digits, exponent⟩) :
    ofDecimal digits length exponent = magnitude := by
  rw [ofDecimal, if_neg (digits_pos_of_near least near),
    if_neg (Int.not_lt.mpr (exponent_le_of_near least finite near)),
    if_neg (Int.not_lt.mpr (reach_le_of_near least bound near))]
  exact ofRatio_of_near (Nat.pow_pos (by decide)) least finite near

end Reach

end DocRules.Binary64

import DocRules.Proofs.Binary64.Shortest

/-! # Ratios that need no rounding

A ratio is rounded by its value, whatever its terms are (`ofRatio_congr`), and the value of a magnitude
is rounded to the magnitude. A whole number of at most 53 bits, times a power of two, is such a value
(`units_ofRatio_of_short`), so products and quotients of such numbers are rounded once, as the exact
ratios (`mulMagnitude_of_units`, `divMagnitude_of_units`).
-/

namespace DocRules.Binary64

variable {num den num' den' magnitude : Nat}

private theorem roundHalfEven_mul {factor : Nat} (positive : 0 < factor) (num den : Nat) :
    roundHalfEven (factor * num) (factor * den) = roundHalfEven num den := by
  have quotient : factor * num / (factor * den) = num / den := Nat.mul_div_mul_left _ _ positive
  have twice : 2 * (factor * num % (factor * den)) = factor * (2 * (num % den)) := by
    rw [Nat.mul_mod_mul_left, Nat.mul_left_comm]
  simp only [roundHalfEven, quotient, twice, Nat.mul_lt_mul_left positive]

private theorem ofRatio_mul {factor : Nat} (positive : 0 < factor) (num den : Nat) :
    ofRatio (factor * num) (factor * den) = ofRatio num den := by
  have quotient : factor * (num * unitsPerOne) / (factor * den) = num * unitsPerOne / den :=
    Nat.mul_div_mul_left _ _ positive
  simp only [ofRatio, Nat.mul_assoc, quotient, Nat.shiftLeft_eq, roundHalfEven_mul positive]

theorem ofRatio_congr (positive : 0 < den) (positive' : 0 < den') (same : num * den' = num' * den) :
    ofRatio num den = ofRatio num' den' := by
  rw [← ofRatio_mul positive' num den, ← ofRatio_mul positive num' den', Nat.mul_comm den' num, same,
    Nat.mul_comm num' den, Nat.mul_comm den' den]

theorem ofRatio_le_infinity (num den : Nat) : ofRatio num den ≤ infinity :=
  Nat.min_le_left _ _

theorem ofDecimal_le_infinity (digits length : Nat) (exponent : Int) :
    ofDecimal digits length exponent ≤ infinity := by
  rw [ofDecimal]
  split_ifs
  · exact Nat.zero_le _
  · exact Nat.le_refl _
  · exact Nat.zero_le _
  · exact ofRatio_le_infinity _ _

private theorem roundHalfEven_le (num den : Nat) : roundHalfEven num den ≤ num / den + 1 := by
  rw [roundHalfEven]
  split_ifs <;> omega

/-- The exponent gets a name, so that no power of it is evaluated. -/
theorem exists_unitsPerOne_eq : ∃ exponent : Nat, exponent = 1074 ∧ unitsPerOne = 2 ^ exponent := by
  obtain ⟨exponent, named⟩ : ∃ exponent, 1074 = exponent := ⟨_, rfl⟩
  refine ⟨exponent, named.symm, ?_⟩
  unfold unitsPerOne
  rw [named]
  exact Nat.pow_eq ..

theorem unitsPerOne_pos : 0 < unitsPerOne := by
  obtain ⟨exponent, -, unit⟩ := exists_unitsPerOne_eq
  rw [unit]
  exact Nat.two_pow_pos exponent

/-- What is far below the greatest magnitude is rounded to a finite one. -/
theorem ofRatio_lt_infinity (positive : 0 < den) (small : num < 2 ^ 128 * den) :
    ofRatio num den < infinity := by
  rw [ofRatio]
  generalize scaled : num * unitsPerOne / den = whole
  generalize shifted : whole.log2 - 52 = shift
  have short : shift ≤ 1149 := by
    rcases Nat.eq_zero_or_pos whole with rfl | some_units
    · rw [Nat.log2_zero] at shifted
      omega
    · obtain ⟨exponent, size, unit⟩ := exists_unitsPerOne_eq
      have below : whole < 2 ^ (128 + exponent) := by
        rw [← scaled, Nat.div_lt_iff_lt_mul positive, Nat.pow_add, Nat.mul_right_comm, ← unit]
        exact Nat.mul_lt_mul_of_pos_right small unitsPerOne_pos
      have bits := (Nat.log2_lt (by omega)).mpr below
      omega
  have leading : whole / 2 ^ shift < 2 * fractions := by
    have bits : whole < 2 ^ (whole.log2 + 1) := Nat.lt_log2_self
    have enough : 2 ^ (whole.log2 + 1) ≤ 2 * fractions * 2 ^ shift := by
      have fractions_eq : 2 * fractions = 2 ^ 53 := rfl
      rw [fractions_eq, ← Nat.pow_add]
      exact Nat.pow_le_pow_right (by decide) (by omega)
    rw [Nat.div_lt_iff_lt_mul (Nat.two_pow_pos shift)]
    omega
  have rounded : roundHalfEven (num * unitsPerOne) (den <<< shift) ≤ whole / 2 ^ shift + 1 := by
    rw [Nat.shiftLeft_eq, ← scaled, Nat.div_div_eq_div_mul]
    exact roundHalfEven_le _ _
  have significand_le : roundHalfEven (num * unitsPerOne) (den <<< shift) ≤ 2 * fractions :=
    rounded.trans leading
  calc min infinity (shift * fractions + roundHalfEven (num * unitsPerOne) (den <<< shift))
      ≤ shift * fractions + roundHalfEven (num * unitsPerOne) (den <<< shift) := Nat.min_le_right _ _
    _ ≤ 1149 * fractions + 2 * fractions :=
      Nat.add_le_add (Nat.mul_le_mul_right _ short) significand_le
    _ < infinity := by decide

theorem ofRatio_zero (den : Nat) : ofRatio 0 den = 0 := by
  simp [ofRatio, roundHalfEven]

/-- The value of a magnitude is rounded to the magnitude. -/
theorem ofRatio_of_units (positive : 0 < den) (finite : magnitude < infinity)
    (exact_value : num * unitsPerOne = units magnitude * den) : ofRatio num den = magnitude := by
  rcases Nat.eq_zero_or_pos magnitude with rfl | least
  · have zero : units 0 = 0 := rfl
    have none : num = 0 := by
      rw [zero, Nat.zero_mul] at exact_value
      exact (Nat.mul_eq_zero.mp exact_value).resolve_right unitsPerOne_pos.ne'
    rw [none, ofRatio_zero]
  · exact ofRatio_of_near positive least finite (near_exact positive least exact_value)

/-- A whole number of at most 53 bits, times a power of two, is the value of a magnitude. -/
theorem exists_units {significand exponent : Nat} (positive : 0 < significand)
    (short : significand < 2 * fractions) (large : 52 ≤ exponent) (within : exponent ≤ 1500) :
    ∃ magnitude, magnitude < infinity ∧ units magnitude = significand * 2 ^ exponent := by
  have fractions_eq : fractions = 2 ^ 52 := rfl
  have log_le : significand.log2 ≤ 52 := by
    have bits : significand < 2 ^ 53 := short
    have below := (Nat.log2_lt (by omega)).mpr bits
    omega
  obtain ⟨missing, split⟩ : ∃ missing, significand.log2 + missing = 52 := ⟨52 - significand.log2, by omega⟩
  obtain ⟨rest_exponent, rfl⟩ : ∃ rest, exponent = missing + rest := ⟨exponent - missing, by omega⟩
  have low : fractions ≤ significand * 2 ^ missing := by
    rw [fractions_eq, ← split, Nat.pow_add]
    exact Nat.mul_le_mul_right _ (Nat.log2_self_le (by omega))
  have high : significand * 2 ^ missing < 2 * fractions := by
    have bits : significand < 2 ^ (significand.log2 + 1) := Nat.lt_log2_self
    have total : 2 * fractions = 2 ^ (significand.log2 + 1) * 2 ^ missing := by
      rw [fractions_eq, ← split, ← Nat.pow_add, ← Nat.pow_succ']
      congr 1
      omega
    rw [total]
    exact Nat.mul_lt_mul_of_pos_right bits (Nat.two_pow_pos missing)
  obtain ⟨rest, filled⟩ : ∃ rest, significand * 2 ^ missing = fractions + rest :=
    ⟨significand * 2 ^ missing - fractions, by omega⟩
  have small : rest < fractions := by omega
  refine ⟨(rest_exponent + 1) * fractions + rest, ?_, ?_⟩
  · have exponents : (rest_exponent + 1) * fractions ≤ 1501 * fractions :=
      Nat.mul_le_mul_right _ (by omega)
    rw [infinity]
    omega
  · rw [units_mul_add small, ← filled, Nat.mul_assoc, ← Nat.pow_add]

/-- The magnitude of such a number has its value. -/
theorem units_ofRatio_of_short {significand shift : Nat} (short : significand < 2 * fractions)
    (within : shift ≤ 400) :
    units (ofRatio (significand * 2 ^ shift) 1) = significand * 2 ^ shift * unitsPerOne := by
  rcases Nat.eq_zero_or_pos significand with rfl | positive
  · rw [Nat.zero_mul, ofRatio_zero, Nat.zero_mul]
    rfl
  · obtain ⟨exponent, size, unit⟩ := exists_unitsPerOne_eq
    obtain ⟨magnitude, finite, value⟩ :=
      exists_units positive short (by omega : 52 ≤ shift + exponent) (by omega)
    have exact_value : significand * 2 ^ shift * unitsPerOne = units magnitude * 1 := by
      rw [value, Nat.mul_one, unit, Nat.mul_assoc, Nat.pow_add]
    rw [ofRatio_of_units Nat.one_pos finite exact_value, exact_value, Nat.mul_one]

section Once

variable {x y m n : Nat}

/-- A product of whole numbers that are magnitudes is rounded once. -/
theorem mulMagnitude_of_units (left : units x = m * unitsPerOne) (right : units y = n * unitsPerOne) :
    mulMagnitude x y = ofRatio (m * n) 1 := by
  rw [mulMagnitude, left, right]
  apply ofRatio_congr (Nat.mul_pos unitsPerOne_pos unitsPerOne_pos) Nat.one_pos
  ring

/-- A quotient of whole numbers that are magnitudes is rounded once. -/
theorem divMagnitude_of_units (left : units x = m * unitsPerOne) (right : units y = n * unitsPerOne)
    (positive : 0 < n) : divMagnitude x y = ofRatio m n := by
  rw [divMagnitude, left, right]
  apply ofRatio_congr (Nat.mul_pos positive unitsPerOne_pos) positive
  ring

end Once

/-- Within the reach of the format a decimal is rounded as a ratio. -/
theorem ofDecimal_eq {exponent : Int} (digits length : Nat) (low : -(decimalReach : Int) ≤ exponent)
    (high : exponent ≤ decimalReach) :
    ofDecimal digits length exponent =
      ofRatio (digits * 10 ^ exponent.toNat) (10 ^ (-exponent).toNat) := by
  rw [ofDecimal]
  split_ifs
  · rename_i none
    rw [none, Nat.zero_mul, ofRatio_zero]
  · omega
  · omega
  · rfl

end DocRules.Binary64

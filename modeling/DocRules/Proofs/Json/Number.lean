import DocRules.Evaluation.Apply
import DocRules.Proofs.Binary64.Exact
import DocRules.Proofs.Json.Numeral

/-! # Numbers of JSON text against literals

A numeral is read twice. In JSON text it is the signed word that it writes, as the literal is, but a zero
with a minus sign is a floating point number there. All other numbers are floating point numbers; those of
JSON text are computed in two roundings, so they may miss the nearest number, which the literal is. Where a
whole number of at most 53 bits is scaled by few powers of ten, both roundings are of exact values, and the
number is the nearest one (`Json.Numeral.number?_of_exact`).
-/

namespace DocRules.Json.Numeral

variable {numeral : Numeral} {text : List Char}

private theorem le_ofDigitChars (number : Nat) (digits : List Char) :
    number ≤ Nat.ofDigitChars 10 digits number := by
  rw [Nat.ofDigitChars_eq_ofDigitChars_zero]
  have scaled : 1 * number ≤ 10 ^ digits.length * number :=
    Nat.mul_le_mul_right number (Nat.pow_pos (by decide))
  omega

/-- Digits are appended if the number that they make fits. -/
theorem appendDigits_of_lt {number : Nat} {digits : List Char}
    (fits : Nat.ofDigitChars 10 digits number < UInt64.size) :
    appendDigits number digits = (Nat.ofDigitChars 10 digits number, []) := by
  induction digits generalizing number with
  | nil => rfl
  | cons c digits ih =>
    rw [Nat.ofDigitChars_cons, Nat.mul_comm 10] at fits
    have longer := Nat.lt_of_le_of_lt (le_ofDigitChars _ digits) fits
    rw [appendDigits, if_pos longer, ih fits, Nat.ofDigitChars_cons, Nat.mul_comm 10]

private theorem ofDigitChars_lt_of_appendDigits {number longer : Nat} {digits : List Char}
    (fits : number < UInt64.size) (all : appendDigits number digits = (longer, [])) :
    Nat.ofDigitChars 10 digits number < UInt64.size := by
  induction digits generalizing number with
  | nil => exact fits
  | cons c digits ih =>
    simp only [appendDigits] at all
    split at all
    · rename_i within
      rw [Nat.ofDigitChars_cons, Nat.mul_comm 10]
      exact ih within all
    · simp at all

private theorem fraction_eq_nil (integer : numeral.isInteger = true) : numeral.fraction = [] := by
  simp only [isInteger, Bool.and_eq_true, List.isEmpty_iff] at integer
  exact integer.1

theorem integer?_of_lt (integer : numeral.isInteger = true) (fits : numeral.value < UInt64.size) :
    numeral.integer? =
      if Decimal.fitsInt64 numeral.signed && !(numeral.negative && numeral.value == 0) then
        some (.int (.ofInt numeral.signed))
      else some (.float (.ofMagnitude numeral.negative (Binary64.ofRatio numeral.value 1))) := by
  have whole : Nat.ofDigitChars 10 numeral.whole 0 = numeral.value := by
    rw [value, fraction_eq_nil integer, List.append_nil]
  rw [← whole] at fits
  have integer' := integer
  rw [isInteger] at integer'
  rw [integer?, appendDigits_of_lt fits]
  simp only [integer', if_true, whole, signed]
  rfl

theorem integer?_eq_none (other : ¬ (numeral.isInteger = true ∧ numeral.value < UInt64.size)) :
    numeral.integer? = none := by
  rw [integer?]
  split
  · rename_i number all
    split
    · rename_i integer
      have fraction := fraction_eq_nil integer
      have fits := ofDigitChars_lt_of_appendDigits (by decide) all
      refine absurd ⟨integer, ?_⟩ other
      rwa [value, fraction, List.append_nil]
    · rfl
  · rfl

/-- Within the reach of the format the nearest number is that of a ratio. -/
theorem nearest_eq (reach : numeral.power.natAbs ≤ Binary64.decimalReach) :
    numeral.nearest = .ofMagnitude numeral.negative
      (Binary64.ofRatio (numeral.value * 10 ^ numeral.power.toNat) (10 ^ (-numeral.power).toNat)) := by
  have low : -(Binary64.decimalReach : Int) ≤ numeral.power := by omega
  have high : numeral.power ≤ Binary64.decimalReach := by omega
  rw [nearest, Decimal.Numeral.toBinary64]
  dsimp only
  rw [Binary64.ofDecimal_eq _ _ low high, value]

private theorem power_of_isInteger (integer : numeral.isInteger = true) : numeral.power = 0 := by
  have fraction := fraction_eq_nil integer
  simp only [isInteger, Bool.and_eq_true, Option.isNone_iff_eq_none] at integer
  simp [power, fraction, integer.2]

private theorem nearest_of_isInteger (integer : numeral.isInteger = true) :
    numeral.nearest = .ofMagnitude numeral.negative (Binary64.ofRatio numeral.value 1) := by
  have power := power_of_isInteger integer
  rw [nearest_eq (by simp [power]), power]
  simp

/-- A numeral whose number is the nearest one: an integer below `2 ^ 64`, or digits of at most 53 bits that
are scaled by at most 22 powers of ten. -/
def Exact (numeral : Numeral) : Prop :=
  numeral.isInteger = true ∧ numeral.value < UInt64.size ∨
    numeral.value < 2 * Binary64.fractions ∧ numeral.power.natAbs ≤ 22 ∧
      numeral.exponent.getD 0 ≤ greatestExponent

/-- The powers of ten up to the twenty-second are floating point numbers. -/
theorem units_powerOfTen {exponent : Nat} (small : exponent ≤ 22) :
    Binary64.units (powerOfTen exponent) = 10 ^ exponent * Binary64.unitsPerOne := by
  have short : 5 ^ exponent < 2 * Binary64.fractions :=
    Nat.lt_of_le_of_lt (Nat.pow_le_pow_right (by decide) small) (by decide)
  have split : 10 ^ exponent = 5 ^ exponent * 2 ^ exponent := Nat.mul_pow 5 2 exponent
  rw [powerOfTen, Nat.pow_eq, split]
  exact Binary64.units_ofRatio_of_short short (by omega)

private theorem significand_of_lt (fits : numeral.value < UInt64.size) :
    numeral.significand = (numeral.value, -(numeral.fraction.length : Int)) := by
  have digits : numeral.value = Nat.ofDigitChars 10 numeral.fraction (Nat.ofDigitChars 10 numeral.whole 0) := by
    rw [value, Nat.ofDigitChars_append]
  rw [digits] at fits ⊢
  have whole := Nat.lt_of_le_of_lt (le_ofDigitChars _ numeral.fraction) fits
  simp [significand, appendDigits_of_lt whole, appendDigits_of_lt fits]

/-- A whole number of at most 53 bits is scaled by few powers of ten in one rounding. -/
theorem scale?_of_short {whole : Nat} {exponent : Int} (short : whole < 2 * Binary64.fractions)
    (small : exponent.natAbs ≤ 22) :
    scale? (Binary64.ofRatio whole 1) exponent =
      some (Binary64.ofRatio (whole * 10 ^ exponent.toNat) (10 ^ (-exponent).toNat)) := by
  have units : Binary64.units (Binary64.ofRatio whole 1) = whole * Binary64.unitsPerOne := by
    have exact_value := Binary64.units_ofRatio_of_short short (Nat.zero_le 400)
    rwa [Nat.pow_zero, Nat.mul_one] at exact_value
  by_cases zero : Binary64.ofRatio whole 1 = 0
  · have none : whole = 0 := by
      rw [zero] at units
      exact (Nat.mul_eq_zero.mp units.symm).resolve_right Binary64.unitsPerOne_pos.ne'
    rw [scale?, if_pos zero, none, Nat.zero_mul, Binary64.ofRatio_zero]
  · rw [scale?, if_neg zero, if_neg (by simp only [greatestPower]; omega)]
    by_cases negative : exponent < 0
    · have small' : (-exponent).toNat ≤ 22 := by omega
      have whole_power : exponent.toNat = 0 := by omega
      rw [if_pos negative, whole_power, Nat.pow_zero, Nat.mul_one,
        Binary64.divMagnitude_of_units units (units_powerOfTen small') (Nat.pow_pos (by decide))]
    · have small' : exponent.toNat ≤ 22 := by omega
      have no_division : (-exponent).toNat = 0 := by omega
      have finite : Binary64.ofRatio (whole * 10 ^ exponent.toNat) 1 < Binary64.infinity := by
        apply Binary64.ofRatio_lt_infinity Nat.one_pos
        calc whole * 10 ^ exponent.toNat
            ≤ 2 * Binary64.fractions * 10 ^ 22 :=
              Nat.mul_le_mul short.le (Nat.pow_le_pow_right (by decide) small')
          _ < 2 ^ 128 * 1 := by decide
      rw [if_neg negative, if_pos (by simp only [greatestPower]; omega)]
      simp only [Binary64.mulMagnitude_of_units units (units_powerOfTen small'), no_division, Nat.pow_zero, finite, if_true]

private theorem magnitude?_of_short (short : numeral.value < 2 * Binary64.fractions)
    (small : numeral.power.natAbs ≤ 22) (within : numeral.exponent.getD 0 ≤ greatestExponent) :
    numeral.magnitude? =
      some (Binary64.ofRatio (numeral.value * 10 ^ numeral.power.toNat) (10 ^ (-numeral.power).toNat)) := by
  have fits : numeral.value < UInt64.size := Nat.lt_trans short (by decide)
  have power : numeral.exponent.getD 0 + -(numeral.fraction.length : Int) = numeral.power := rfl
  have bounds : ¬ numeral.exponent.getD 0 < -greatestExponent := by
    have greatest : greatestExponent = 2147483647 := by decide
    omega
  have scaled := scale?_of_short short small
  rw [magnitude?, significand_of_lt fits]
  simp only [bounds, decide_false, Bool.or_false, power]
  by_cases zero : numeral.value = 0
  · simp [zero, Binary64.ofRatio_zero]
  · simp only [zero, decide_false, Bool.false_eq_true, if_false, Int.not_lt.mpr within]
    exact scaled

private theorem exists_magnitude_nearest (numeral : Numeral) :
    ∃ magnitude ≤ Binary64.infinity, numeral.nearest = .ofMagnitude numeral.negative magnitude :=
  ⟨_, Binary64.ofDecimal_le_infinity _ _ _, rfl⟩

private theorem scale?_le_infinity {magnitude scaled : Nat} {exponent : Int}
    (found : scale? magnitude exponent = some scaled) : scaled ≤ Binary64.infinity := by
  fun_induction scale? magnitude exponent with
  | case1 =>
    obtain rfl := Option.some.inj found
    exact Nat.zero_le _
  | case2 _ _ _ _ ih => exact ih found
  | case3 =>
    obtain rfl := Option.some.inj found
    exact Binary64.ofRatio_le_infinity _ _
  | case4 _ _ _ _ _ _ _ finite =>
    obtain rfl := Option.some.inj found
    exact finite.le
  | case5 => contradiction
  | case6 => contradiction

private theorem magnitude?_le_infinity {magnitude : Nat} (found : numeral.magnitude? = some magnitude) :
    magnitude ≤ Binary64.infinity := by
  simp only [magnitude?] at found
  split_ifs at found
  · obtain rfl := Option.some.inj found
    exact Nat.zero_le _
  · exact scale?_le_infinity found

/-- An integer below `2 ^ 64` has a number, which is the nearest one. -/
theorem number?_of_isInteger (integer : numeral.isInteger = true) (fits : numeral.value < UInt64.size) :
    ∃ number, numeral.number? = some number ∧ number.toBinary64 = numeral.nearest := by
  rw [number?, integer?_of_lt integer fits, nearest_of_isInteger integer]
  by_cases word : (Decimal.fitsInt64 numeral.signed && !(numeral.negative && numeral.value == 0)) = true
  · rw [if_pos word]
    refine ⟨_, rfl, ?_⟩
    simp only [Bool.and_eq_true, Bool.not_eq_true', Bool.and_eq_false_iff, beq_eq_false_iff_ne,
      Decimal.fitsInt64_iff] at word
    obtain ⟨⟨low, high⟩, signless⟩ := word
    rw [Number.toBinary64, Int64.toInt_ofInt_of_le low high, Binary64.ofInt]
    have sign : decide (numeral.signed < 0) = numeral.negative := by
      rw [signed]
      cases negative : numeral.negative with
      | true =>
        have nonzero := signless.resolve_left (by simp [negative])
        simp
        omega
      | false => simp
    have magnitude : numeral.signed.natAbs = numeral.value := by
      rw [signed]
      split <;> omega
    rw [sign, magnitude]
  · rw [if_neg word]
    exact ⟨_, rfl, rfl⟩

/-- An exact numeral has a number, which is the nearest one. -/
theorem number?_of_exact (exact_numeral : numeral.Exact) :
    ∃ number, numeral.number? = some number ∧ number.toBinary64 = numeral.nearest ∧
      numeral.nearest.isFinite = true := by
  by_cases whole : numeral.isInteger = true ∧ numeral.value < UInt64.size
  · obtain ⟨integer, fits⟩ := whole
    obtain ⟨number, read, same⟩ := number?_of_isInteger integer fits
    have finite : Binary64.ofRatio numeral.value 1 < Binary64.infinity :=
      Binary64.ofRatio_lt_infinity Nat.one_pos (Nat.lt_trans fits (by decide))
    refine ⟨number, read, same, ?_⟩
    rw [nearest_of_isInteger integer, Binary64.isFinite_ofMagnitude finite.le, decide_eq_true finite]
  · obtain ⟨short, small, within⟩ := exact_numeral.resolve_left whole
    have finite : Binary64.ofRatio (numeral.value * 10 ^ numeral.power.toNat)
        (10 ^ (-numeral.power).toNat) < Binary64.infinity := by
      apply Binary64.ofRatio_lt_infinity (Nat.pow_pos (by decide))
      calc numeral.value * 10 ^ numeral.power.toNat
          ≤ 2 * Binary64.fractions * 10 ^ 22 :=
            Nat.mul_le_mul short.le (Nat.pow_le_pow_right (by decide) (by omega))
        _ < 2 ^ 128 := by decide
        _ ≤ 2 ^ 128 * 10 ^ (-numeral.power).toNat :=
            Nat.le_mul_of_pos_right _ (Nat.pow_pos (by decide))
    have reach : numeral.power.natAbs ≤ Binary64.decimalReach := Nat.le_trans small (by decide)
    rw [number?, integer?_eq_none whole, magnitude?_of_short short small within, nearest_eq reach]
    refine ⟨_, rfl, rfl, ?_⟩
    rw [Binary64.isFinite_ofMagnitude finite.le, decide_eq_true finite]

private theorem eq_minus_zero (written : ofChars? text = some numeral) (integer : numeral.isInteger = true)
    (negative : numeral.negative = true) (zero : numeral.value = 0) : text = ['-', '0'] := by
  obtain ⟨unsigned, rfl, spells⟩ := exists_spells written
  obtain ⟨tail, -, rfl, ends, -⟩ := spells.parts.split
  have last : tail = [] := by
    have read := natural?_append spells.parts.whole_ne spells.parts.whole_digits ends
    rw [spells.natural, integer] at read
    by_contra more
    simp [more] at read
  obtain ⟨c, rest, whole⟩ := List.exists_cons_of_ne_nil spells.parts.whole_ne
  have first : c = '0' := by
    have digit := Decimal.toNat_of_isDigit (spells.parts.whole_digits c (whole ▸ List.mem_cons_self))
    have least := le_ofDigitChars (10 * 0 + (c.toNat - '0'.toNat)) (rest ++ numeral.fraction)
    rw [value, whole, List.cons_append, Nat.ofDigitChars_cons] at zero
    have code : '0'.toNat = 48 := rfl
    apply Char.toNat_inj.mp
    omega
  have single := spells.zero (by rw [whole, first]; rfl)
  rw [whole, List.length_cons] at single
  have alone : rest = [] := List.length_eq_zero_iff.mp (by omega)
  simp [negative, whole, last, first, alone]

theorem eq_minus_zero_iff (written : ofChars? text = some numeral) (integer : numeral.isInteger = true) :
    text = ['-', '0'] ↔ numeral.negative = true ∧ numeral.value = 0 := by
  constructor
  · rintro rfl
    obtain rfl := Option.some.inj written
    exact ⟨rfl, rfl⟩
  · exact fun ⟨negative, zero⟩ => eq_minus_zero written integer negative zero

theorem word?_eq_some {n : Int64} (word : numeral.word? = some n) :
    numeral.isInteger = true ∧ Decimal.fitsInt64 numeral.signed = true ∧ n = .ofInt numeral.signed ∧
      numeral.value < UInt64.size := by
  rw [word?] at word
  split at word
  · rename_i fits
    rw [Bool.and_eq_true] at fits
    obtain rfl := Option.some.inj word
    refine ⟨fits.1, fits.2, rfl, ?_⟩
    have bounds := Decimal.fitsInt64_iff.mp fits.2
    have size : UInt64.size = 2 ^ 64 := rfl
    rw [signed] at bounds
    split at bounds <;> omega
  · contradiction

/-- The number of a numeral that writes a signed word is this word, but for a zero with a sign. -/
theorem number?_of_word?_eq_some {n : Int64} (word : numeral.word? = some n) :
    numeral.number? =
      if numeral.negative = true ∧ numeral.value = 0 then some (.float (.ofMagnitude true (Binary64.ofRatio 0 1)))
      else some (.int n) := by
  obtain ⟨integer, fits, rfl, small⟩ := word?_eq_some word
  rw [number?, integer?_of_lt integer small, fits]
  by_cases zero : numeral.negative = true ∧ numeral.value = 0
  · simp [zero]
  · have signless : (numeral.negative && numeral.value == 0) = false := by
      cases both : numeral.negative && numeral.value == 0 with
      | false => rfl
      | true => exact absurd (by simpa using both) zero
    rw [signless, if_neg zero]
    rfl

/-- The number of a numeral that writes no signed word is a floating point number of its sign. -/
theorem exists_magnitude_of_word?_eq_none {number : Number} (other : numeral.word? = none)
    (read : numeral.number? = some number) :
    ∃ magnitude ≤ Binary64.infinity, number = .float (.ofMagnitude numeral.negative magnitude) := by
  by_cases whole : numeral.isInteger = true ∧ numeral.value < UInt64.size
  · obtain ⟨integer, fits⟩ := whole
    have unfit : Decimal.fitsInt64 numeral.signed = false := by simpa [word?, integer] using other
    rw [number?, integer?_of_lt integer fits, unfit] at read
    exact ⟨_, Binary64.ofRatio_le_infinity _ _, (Option.some.inj read).symm⟩
  · rw [number?, integer?_eq_none whole] at read
    obtain ⟨magnitude, found, rfl⟩ := Option.map_eq_some_iff.mp read
    exact ⟨magnitude, magnitude?_le_infinity found, rfl⟩

end DocRules.Json.Numeral

namespace DocRules.Json

def Number.asValue : Number → Value
  | .int n => .int n
  | .float x => .float x

section Comparison

variable {literal : String} {numeral : Numeral} {number : Number}

/-- A signed word is compared with itself, unless it is a zero with a sign. -/
theorem Number.apply_of_word {n : Int64} (written : Numeral.ofChars? literal.toList = some numeral)
    (read : numeral.number? = some number) (word : numeral.word? = some n) :
    Operator.eq.apply number.asValue (.int n) =
      if literal = "-0" then .error (.typeMismatch .eq .float .int) else .ok true := by
  have minusZero := Numeral.eq_minus_zero_iff written (Numeral.word?_eq_some word).1
  rw [Numeral.number?_of_word?_eq_some word] at read
  have same : literal = "-0" ↔ literal.toList = ['-', '0'] := String.toList_inj.symm
  by_cases zero : numeral.negative = true ∧ numeral.value = 0
  · rw [if_pos zero] at read
    rw [if_pos (same.mpr (minusZero.mpr zero)), ← Option.some.inj read]
    rfl
  · rw [if_neg zero] at read
    rw [if_neg (fun other => zero (minusZero.mp (same.mp other))), ← Option.some.inj read]
    exact congrArg Except.ok (beq_self_eq_true n)

/-- A number that is no signed word is compared with the nearest one. -/
theorem Number.apply_of_not_word (read : numeral.number? = some number) (other : numeral.word? = none) :
    Operator.eq.apply number.asValue
        (if numeral.nearest.isFinite then .float numeral.nearest else .string literal) =
      if numeral.nearest.isFinite then .ok (number.toBinary64 = numeral.nearest)
      else .error (.typeMismatch .eq .float .string) := by
  obtain ⟨magnitude, bound, rfl⟩ := Numeral.exists_magnitude_of_word?_eq_none other read
  obtain ⟨magnitude', bound', nearest⟩ := numeral.exists_magnitude_nearest
  by_cases finite : numeral.nearest.isFinite = true
  · rw [if_pos finite, if_pos finite, nearest]
    exact congrArg Except.ok (Binary64.equal_ofMagnitude bound bound')
  · rw [if_neg finite, if_neg finite]
    rfl

/-- A number of JSON text against the literal of the same text. -/
theorem Number.apply_ofLiteral (written : Numeral.ofChars? literal.toList = some numeral)
    (read : numeral.number? = some number) :
    Operator.eq.apply number.asValue (.ofLiteral literal) =
      if literal = "-0" then .error (.typeMismatch .eq .float .int)
      else if numeral.nearest.isFinite then .ok (number.toBinary64 = numeral.nearest)
      else .error (.typeMismatch .eq .float .string) := by
  rw [Numeral.ofLiteral_eq written]
  cases word : numeral.word? with
  | some n =>
    obtain ⟨integer, -, -, small⟩ := Numeral.word?_eq_some word
    obtain ⟨number', read', same, finite⟩ := Numeral.number?_of_exact (.inl ⟨integer, small⟩)
    obtain rfl := Option.some.inj (read.symm.trans read')
    simp only [Number.apply_of_word written read word, finite, same, if_true, decide_true]
  | none =>
    have other : literal ≠ "-0" := by
      rintro rfl
      obtain rfl := Option.some.inj written
      contradiction
    rw [if_neg other]
    exact Number.apply_of_not_word read word

end Comparison

end DocRules.Json

import DocRules.Binary64.Rounding
import Mathlib.Tactic.Linarith
import Mathlib.Tactic.Ring

/-! # What rounds to a magnitude

A ratio rounds to a magnitude if it lies between the middles of the steps below and above it, where
the middles themselves belong to the even magnitudes (`Near`). The exponent of the result is taken
from the ratio, so at a power of two a ratio from the step below has to carry into the next exponent;
this is the only case in which exponent and magnitude disagree (`ofRatio_of_near`).
-/

namespace DocRules.Binary64

/-- The nearest whole number to a ratio is the one whose half steps enclose it. -/
theorem roundHalfEven_eq {num den whole : Nat} (positive : 0 < den)
    (low : 2 * (whole * den) ≤ 2 * num + den) (high : 2 * num ≤ 2 * (whole * den) + den)
    (ends : whole % 2 = 1 → 2 * (whole * den) < 2 * num + den ∧ 2 * num < 2 * (whole * den) + den) :
    roundHalfEven num den = whole := by
  have split := Nat.div_add_mod num den
  have small := Nat.mod_lt num positive
  rw [Nat.mul_comm] at split
  rw [roundHalfEven]
  generalize num % den = rest at *
  generalize num / den = quotient at *
  have above : whole ≤ quotient + 1 := by
    by_contra beyond
    have := Nat.mul_le_mul_right den (Nat.lt_of_not_le beyond)
    rw [Nat.succ_mul, Nat.succ_mul] at this
    omega
  have below : quotient ≤ whole := by
    by_contra beyond
    have := Nat.mul_le_mul_right den (Nat.lt_of_not_le beyond)
    rw [Nat.succ_mul] at this
    omega
  obtain rfl | rfl : whole = quotient ∨ whole = quotient + 1 := by omega
  · split_ifs <;> omega
  · rw [Nat.succ_mul quotient] at low high ends
    split_ifs <;> omega

theorem units_of_lt {magnitude : Nat} (small : magnitude < 2 * fractions) :
    units magnitude = magnitude := by
  rw [units]
  split
  · rfl
  · rename_i normal
    have exponent : magnitude / fractions = 1 := by
      rw [Nat.div_eq_iff (by decide)]
      omega
    have rest : fractions + magnitude % fractions = magnitude := by
      have := Nat.div_add_mod magnitude fractions
      rw [exponent] at this
      omega
    rw [exponent, rest]
    rfl

/-- A magnitude above the first fractions is an exponent and a significand. -/
theorem exists_exponent {magnitude : Nat} (normal : fractions ≤ magnitude) :
    ∃ exponent rest, rest < fractions ∧ magnitude = (exponent + 1) * fractions + rest := by
  have split := Nat.div_add_mod magnitude fractions
  have quotient : 1 ≤ magnitude / fractions :=
    (Nat.le_div_iff_mul_le (by decide)).mpr (by rwa [Nat.one_mul])
  refine ⟨magnitude / fractions - 1, magnitude % fractions, Nat.mod_lt _ (by decide), ?_⟩
  rw [Nat.sub_add_cancel quotient, Nat.mul_comm]
  exact split.symm

theorem units_mul_add {exponent rest : Nat} (small : rest < fractions) :
    units ((exponent + 1) * fractions + rest) = (fractions + rest) * 2 ^ exponent := by
  have normal : ¬ (exponent + 1) * fractions + rest < fractions := by
    rw [Nat.succ_mul]
    omega
  have quotient : ((exponent + 1) * fractions + rest) / fractions = exponent + 1 := by
    rw [Nat.mul_comm, Nat.mul_add_div (by decide), Nat.div_eq_of_lt small, Nat.add_zero]
  have remainder : ((exponent + 1) * fractions + rest) % fractions = rest := by
    rw [Nat.mul_comm, Nat.mul_add_mod, Nat.mod_eq_of_lt small]
  rw [units, if_neg normal, quotient, remainder, Nat.shiftLeft_eq, Nat.add_sub_cancel]

/-- The magnitude after one is a step of its exponent further. -/
theorem units_succ {exponent rest : Nat} (small : rest < fractions) :
    units ((exponent + 1) * fractions + rest + 1) = (fractions + rest + 1) * 2 ^ exponent := by
  rcases Nat.lt_or_ge (rest + 1) fractions with within | carries
  · rw [Nat.add_assoc, units_mul_add within, Nat.add_assoc]
  · have full : rest + 1 = fractions := by omega
    have next : (exponent + 1) * fractions + rest + 1 = (exponent + 1 + 1) * fractions + 0 := by
      rw [Nat.succ_mul (exponent + 1)]
      omega
    rw [next, units_mul_add (by decide), Nat.add_zero, Nat.add_assoc, full, Nat.pow_succ]
    ring

/-- The magnitude before a power of two is half a step of the next exponent below it. -/
theorem units_pred_two_pow (exponent : Nat) :
    units ((exponent + 2) * fractions - 1) = (2 * fractions - 1) * 2 ^ exponent := by
  have last : (exponent + 2) * fractions - 1 = (exponent + 1) * fractions + (fractions - 1) := by
    rw [Nat.succ_mul (exponent + 1)]
    have : 0 < fractions := by decide
    omega
  rw [last, units_mul_add (by decide)]
  congr 1

/-- The shift leaves 53 significant bits, or all of them if there are no more. -/
theorem shift_eq {scaled den shift : Nat} (positive : 0 < den)
    (upper : scaled < 2 * fractions * 2 ^ shift * den)
    (lower : shift = 0 ∨ fractions * 2 ^ shift * den ≤ scaled) :
    (scaled / den).log2 - 52 = shift := by
  have bound : scaled / den < 2 ^ (53 + shift) := by
    rw [Nat.div_lt_iff_lt_mul positive, Nat.pow_add]
    exact upper
  by_cases zero : scaled / den = 0
  · have small : shift = 0 := by
      rcases lower with small | lower
      · exact small
      · have leading := (Nat.le_div_iff_mul_le positive).mpr lower
        have : 0 < fractions * 2 ^ shift := Nat.mul_pos (by decide) (Nat.two_pow_pos shift)
        omega
    rw [zero, Nat.log2_zero, small]
  · have above := (Nat.log2_lt zero).mpr bound
    rcases lower with rfl | lower
    · omega
    · have leading : 2 ^ (52 + shift) ≤ scaled / den := by
        rw [Nat.le_div_iff_mul_le positive, Nat.pow_add]
        exact lower
      have below := (Nat.le_log2 zero).mpr leading
      omega

theorem ofRatio_eq {num den shift whole : Nat} (positive : 0 < den)
    (upper : num * unitsPerOne < 2 * fractions * 2 ^ shift * den)
    (lower : shift = 0 ∨ fractions * 2 ^ shift * den ≤ num * unitsPerOne)
    (rounded : roundHalfEven (num * unitsPerOne) (den * 2 ^ shift) = whole) :
    ofRatio num den = min infinity (shift * fractions + whole) := by
  rw [ofRatio, shift_eq positive upper lower, Nat.shiftLeft_eq, rounded]

/-- A ratio lies between the middles of the steps around a magnitude; the middles belong to even
magnitudes. -/
structure Near (magnitude num den : Nat) : Prop where
  low : (units (magnitude - 1) + units magnitude) * den ≤ 2 * (num * unitsPerOne)
  high : 2 * (num * unitsPerOne) ≤ (units magnitude + units (magnitude + 1)) * den
  ends : magnitude % 2 = 1 →
    (units (magnitude - 1) + units magnitude) * den < 2 * (num * unitsPerOne) ∧
      2 * (num * unitsPerOne) < (units magnitude + units (magnitude + 1)) * den

variable {magnitude num den : Nat}

theorem near_scale {factor : Nat} (positive : 0 < factor) :
    Near magnitude (factor * num) (factor * den) ↔ Near magnitude num den := by
  have scaled : 2 * (factor * num * unitsPerOne) = factor * (2 * (num * unitsPerOne)) := by ring
  have bound (units : Nat) : units * (factor * den) = factor * (units * den) := by ring
  constructor
  · rintro ⟨low, high, ends⟩
    simp only [scaled, bound, Nat.mul_le_mul_left_iff positive, Nat.mul_lt_mul_left positive] at low high ends
    exact ⟨low, high, ends⟩
  · rintro ⟨low, high, ends⟩
    refine ⟨?_, ?_, ?_⟩
    all_goals simp only [scaled, bound, Nat.mul_le_mul_left_iff positive, Nat.mul_lt_mul_left positive]
    · exact low
    · exact high
    · exact ends

/-- What is near a magnitude is rounded to the whole number of steps whose half steps are the middles
around the magnitude, or lie beyond them. -/
theorem Near.roundHalfEven_eq {whole step : Nat} (near : Near magnitude num den)
    (positive : 0 < step)
    (low : 2 * (whole * step) ≤ (units (magnitude - 1) + units magnitude) * den + step)
    (high : (units magnitude + units (magnitude + 1)) * den ≤ 2 * (whole * step) + step)
    (parity : whole % 2 = 1 → magnitude % 2 = 1) :
    roundHalfEven (num * unitsPerOne) step = whole := by
  obtain ⟨above, below, ends⟩ := near
  apply Binary64.roundHalfEven_eq positive
  · omega
  · omega
  · intro odd
    have strict := ends (parity odd)
    omega

/-- Up to the second power of two among the magnitudes the steps are units. -/
theorem ofRatio_of_near_small (positive : 0 < den) (least : 0 < magnitude)
    (small : magnitude < 2 * fractions) (near : Near magnitude num den) :
    ofRatio num den = min infinity magnitude := by
  have before : units (magnitude - 1) = magnitude - 1 := units_of_lt (by omega)
  have next : units (magnitude + 1) = magnitude + 1 := by
    rcases Nat.lt_or_ge (magnitude + 1) (2 * fractions) with within | carries
    · exact units_of_lt within
    · have last : magnitude + 1 = (1 + 1) * fractions + 0 := by omega
      rw [last, units_mul_add (by decide)]
      ring
  have middle : (units magnitude + units (magnitude + 1)) * den = 2 * (magnitude * den) + den := by
    rw [units_of_lt small, next]
    ring
  have lower : (units (magnitude - 1) + units magnitude) * den + den = 2 * (magnitude * den) := by
    rw [units_of_lt small, before]
    obtain ⟨pred, rfl⟩ : ∃ pred, magnitude = pred + 1 := ⟨magnitude - 1, by omega⟩
    rw [Nat.add_sub_cancel]
    ring
  have rounded : roundHalfEven (num * unitsPerOne) (den * 2 ^ 0) = magnitude := by
    rw [Nat.pow_zero, Nat.mul_one]
    exact near.roundHalfEven_eq positive (by omega) (by omega) id
  have upper : num * unitsPerOne < 2 * fractions * 2 ^ 0 * den := by
    have bound : (magnitude + 1) * den ≤ 2 * fractions * 2 ^ 0 * den := Nat.mul_le_mul_right den small
    rw [Nat.succ_mul] at bound
    have high := near.high
    omega
  rw [ofRatio_eq positive upper (.inl rfl) rounded, Nat.zero_mul, Nat.zero_add]

/-- Above it, a ratio that is not below the power of two of the magnitude has its exponent. -/
theorem ofRatio_of_near_binade {exponent rest : Nat} (positive : 0 < den) (small : rest < fractions)
    (near : Near ((exponent + 1) * fractions + rest) num den)
    (reaches : fractions * 2 ^ exponent * den ≤ num * unitsPerOne)
    (low : 2 * ((fractions + rest) * (den * 2 ^ exponent)) ≤
      (units ((exponent + 1) * fractions + rest - 1) + units ((exponent + 1) * fractions + rest)) * den
        + den * 2 ^ exponent) :
    ofRatio num den = min infinity ((exponent + 1) * fractions + rest) := by
  have step : 0 < den * 2 ^ exponent := Nat.mul_pos positive (Nat.two_pow_pos exponent)
  have high : (units ((exponent + 1) * fractions + rest) +
      units ((exponent + 1) * fractions + rest + 1)) * den =
        2 * ((fractions + rest) * (den * 2 ^ exponent)) + den * 2 ^ exponent := by
    rw [units_mul_add small, units_succ small]
    ring
  have parity : (fractions + rest) % 2 = 1 → ((exponent + 1) * fractions + rest) % 2 = 1 := by
    intro odd
    have even : (exponent + 1) * fractions % 2 = 0 := by
      rw [Nat.mul_mod, (by decide : fractions % 2 = 0), Nat.mul_zero, Nat.zero_mod]
    have even' : fractions % 2 = 0 := by decide
    omega
  have rounded := near.roundHalfEven_eq step low high.le parity
  have upper : num * unitsPerOne < 2 * fractions * 2 ^ exponent * den := by
    have bound : (fractions + rest + 1) * (den * 2 ^ exponent) ≤ 2 * fractions * 2 ^ exponent * den := by
      calc (fractions + rest + 1) * (den * 2 ^ exponent)
          ≤ 2 * fractions * (den * 2 ^ exponent) := Nat.mul_le_mul_right _ (by omega)
        _ = 2 * fractions * 2 ^ exponent * den := by ring
    rw [Nat.succ_mul] at bound
    have := near.high
    omega
  rw [ofRatio_eq positive upper (.inr reaches) rounded, Nat.succ_mul, Nat.add_assoc]

/-- The units of a power of two, counted in half steps of its exponent. -/
theorem units_two_pow (exponent : Nat) :
    units ((exponent + 2) * fractions) = 2 * fractions * 2 ^ exponent := by
  have power : units ((exponent + 1 + 1) * fractions + 0) = (fractions + 0) * 2 ^ (exponent + 1) :=
    units_mul_add (by decide)
  rw [Nat.add_zero, Nat.add_zero, Nat.pow_succ] at power
  rw [power]
  ring

/-- Below a power of two a ratio has the exponent before it and is rounded up to the carry. -/
theorem ofRatio_of_near_carry {exponent : Nat} (positive : 0 < den)
    (near : Near ((exponent + 2) * fractions) num den)
    (before : num * unitsPerOne < fractions * 2 ^ (exponent + 1) * den) :
    ofRatio num den = min infinity ((exponent + 2) * fractions) := by
  have step : 0 < den * 2 ^ exponent := Nat.mul_pos positive (Nat.two_pow_pos exponent)
  have upper : num * unitsPerOne < 2 * fractions * 2 ^ exponent * den := by
    calc num * unitsPerOne < fractions * 2 ^ (exponent + 1) * den := before
      _ = 2 * fractions * 2 ^ exponent * den := by rw [Nat.pow_succ]; ring
  have low : 2 * (2 * fractions * (den * 2 ^ exponent)) ≤
      2 * (num * unitsPerOne) + den * 2 ^ exponent := by
    have middle : (units ((exponent + 2) * fractions - 1) + units ((exponent + 2) * fractions)) * den
        + den * 2 ^ exponent = 2 * (2 * fractions * (den * 2 ^ exponent)) := by
      rw [units_pred_two_pow, units_two_pow]
      obtain ⟨pred, same⟩ : ∃ pred, 2 * fractions = pred + 1 := ⟨2 * fractions - 1, by decide⟩
      rw [same, Nat.add_sub_cancel]
      ring
    have := near.low
    omega
  have reaches : fractions * 2 ^ exponent * den ≤ num * unitsPerOne := by
    have steps : 2 * fractions * (den * 2 ^ exponent) = 2 * (fractions * 2 ^ exponent * den) := by ring
    have some_step : den * 2 ^ exponent ≤ fractions * 2 ^ exponent * den := by
      calc den * 2 ^ exponent = 1 * (2 ^ exponent * den) := by ring
        _ ≤ fractions * (2 ^ exponent * den) := Nat.mul_le_mul_right _ (by decide)
        _ = fractions * 2 ^ exponent * den := by ring
    omega
  have rounded : roundHalfEven (num * unitsPerOne) (den * 2 ^ exponent) = 2 * fractions := by
    apply roundHalfEven_eq step low
    · have steps : 2 * fractions * 2 ^ exponent * den = 2 * fractions * (den * 2 ^ exponent) := by ring
      omega
    · intro odd
      exact absurd odd (by decide)
  rw [ofRatio_eq positive upper (.inr reaches) rounded, Nat.add_mul]

/-- From the second power of two on, the middle below a magnitude is at most half a step away; it is nearer
at a power of two, below which the steps are half as long. -/
theorem two_mul_le_middle {rest : Nat} (exponent den : Nat) (small : rest < fractions) :
    2 * ((fractions + rest) * (den * 2 ^ (exponent + 1))) ≤
      (units ((exponent + 2) * fractions + rest - 1) + units ((exponent + 2) * fractions + rest)) * den
        + den * 2 ^ (exponent + 1) := by
  cases rest with
  | zero =>
    simp only [Nat.add_zero]
    rw [units_pred_two_pow, units_two_pow, Nat.pow_succ]
    obtain ⟨pred, same⟩ : ∃ pred, 2 * fractions = pred + 1 := ⟨2 * fractions - 1, by decide⟩
    have doubled : 2 * (fractions * (den * (2 ^ exponent * 2))) =
        2 * (2 * fractions * (den * 2 ^ exponent)) := by ring
    rw [doubled, same, Nat.add_sub_cancel]
    linarith [Nat.zero_le (den * 2 ^ exponent)]
  | succ rest =>
    have here : units ((exponent + 2) * fractions + (rest + 1)) =
        (fractions + (rest + 1)) * 2 ^ (exponent + 1) := units_mul_add small
    have before : units ((exponent + 2) * fractions + rest) =
        (fractions + rest) * 2 ^ (exponent + 1) := units_mul_add (by omega)
    have last : (exponent + 2) * fractions + (rest + 1) - 1 = (exponent + 2) * fractions + rest := by omega
    rw [here, last, before]
    apply le_of_eq
    ring

/-- A ratio near a magnitude that is no power of two has the exponent of the magnitude. -/
theorem reaches_of_near {exponent rest : Nat} (small : rest + 1 < fractions)
    (near : Near ((exponent + 2) * fractions + (rest + 1)) num den) :
    fractions * 2 ^ (exponent + 1) * den ≤ num * unitsPerOne := by
  have low := near.low
  have middle := two_mul_le_middle exponent den small
  have steps : 2 * ((fractions + (rest + 1)) * (den * 2 ^ (exponent + 1))) =
      2 * (fractions * 2 ^ (exponent + 1) * den) + 2 * (rest * (den * 2 ^ (exponent + 1)))
        + 2 * (den * 2 ^ (exponent + 1)) := by ring
  omega

/-- A ratio near a magnitude rounds to it. -/
theorem ofRatio_of_near (positive : 0 < den) (least : 0 < magnitude) (finite : magnitude < infinity)
    (near : Near magnitude num den) : ofRatio num den = magnitude := by
  have capped : min infinity magnitude = magnitude := Nat.min_eq_right finite.le
  rw [← capped]
  rcases Nat.lt_or_ge magnitude (2 * fractions) with small | large
  · exact ofRatio_of_near_small positive least small near
  have normal : fractions ≤ magnitude := by omega
  obtain ⟨exponent, rest, within, rfl⟩ := exists_exponent normal
  cases exponent with
  | zero => omega
  | succ exponent =>
    rcases Nat.lt_or_ge (num * unitsPerOne) (fractions * 2 ^ (exponent + 1) * den)
      with before | reaches
    · cases rest with
      | zero =>
        rw [Nat.add_zero] at near ⊢
        exact ofRatio_of_near_carry positive near before
      | succ rest => exact absurd (reaches_of_near within near) (Nat.not_le.mpr before)
    · exact ofRatio_of_near_binade positive within near reaches (two_mul_le_middle exponent den within)

end DocRules.Binary64

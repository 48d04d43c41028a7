import DocRules.Json.Number
import DocRules.Proofs.Value

/-! # Numerals of JSON text as literals

A numeral of JSON text is a literal of rule text with the same parts: a sign or none, digits before and
after the point, and an exponent. Such a literal is the signed word that it writes if there is neither a
point nor an exponent and the word fits, or else the nearest number (`Json.Numeral.ofLiteral_eq`).
-/

namespace DocRules.Json.Numeral

open Decimal.Numeral (Parts)

variable {numeral : Numeral} {text : List Char}

/-- The digits as a number, without point and exponent. -/
def value (numeral : Numeral) : Nat :=
  Nat.ofDigitChars 10 (numeral.whole ++ numeral.fraction) 0

/-- The power of ten that the digits are to be scaled by. -/
def power (numeral : Numeral) : Int :=
  numeral.exponent.getD 0 - numeral.fraction.length

/-- The nearest floating point number, which may be infinite. -/
def nearest (numeral : Numeral) : Binary64 :=
  (⟨numeral.negative, numeral.whole ++ numeral.fraction, numeral.power⟩ : Decimal.Numeral).toBinary64

/-- Whether there is neither a point nor an exponent. -/
def isInteger (numeral : Numeral) : Bool :=
  numeral.fraction.isEmpty && numeral.exponent.isNone

def signed (numeral : Numeral) : Int :=
  if numeral.negative then -(numeral.value : Int) else numeral.value

/-- The signed word of a numeral without point and exponent, if it fits. -/
def word? (numeral : Numeral) : Option Int64 :=
  if numeral.isInteger && Decimal.fitsInt64 numeral.signed then some (.ofInt numeral.signed) else none

private theorem fraction_of_fraction? {tail decimals rest : List Char}
    (read : fraction? tail = some (decimals, rest)) :
    Decimal.Numeral.fraction tail = (decimals, rest) ∧ (∀ c ∈ decimals, c.isDigit = true) ∧
      (decimals = [] → rest = tail) ∧ (tail = [] → decimals = [] ∧ rest = []) := by
  unfold fraction? at read
  split at read
  · dsimp only at read
    split at read
    · contradiction
    · rename_i nonempty
      obtain ⟨rfl, rfl⟩ := Prod.mk.inj (Option.some.inj read)
      refine ⟨rfl, List.all_eq_true.mp List.all_takeWhile, ?_, nofun⟩
      intro absent
      simp [absent] at nonempty
  · rename_i plain
    obtain ⟨rfl, rfl⟩ := Prod.mk.inj (Option.some.inj read)
    refine ⟨?_, by simp, fun _ => rfl, fun empty => ⟨rfl, empty⟩⟩
    unfold Decimal.Numeral.fraction
    split
    · exact absurd rfl (plain _)
    · rfl

private theorem exponent?_of_exponent? {rest : List Char} {exponent : Option Int}
    (read : exponent? rest = some exponent) :
    Decimal.Numeral.exponent? rest = some (exponent.getD 0) ∧ (exponent = none ↔ rest = []) := by
  unfold exponent? at read
  split at read
  · obtain rfl := Option.some.inj read
    exact ⟨rfl, by simp⟩
  · obtain ⟨n, number, rfl⟩ := Option.map_eq_some_iff.mp read
    exact ⟨number, by simp⟩
  · obtain ⟨n, number, rfl⟩ := Option.map_eq_some_iff.mp read
    exact ⟨number, by simp⟩
  · contradiction

theorem natural?_append {whole tail : List Char} (nonempty : whole ≠ [])
    (all : ∀ c ∈ whole, c.isDigit = true) (ends : ∀ c ∈ tail.head?, c.isDigit = false) :
    Decimal.natural? (whole ++ tail) = if tail = [] then some (Nat.ofDigitChars 10 whole 0) else none := by
  have digits : whole.all Char.isDigit = true := List.all_eq_true.mpr all
  cases tail with
  | nil => simp [Decimal.natural?, nonempty, digits]
  | cons c tail => simp [Decimal.natural?, ends c rfl]

/-- A text without a sign that is read as a numeral. -/
structure Spells (text : List Char) (numeral : Numeral) : Prop where
  parts : Parts text numeral.whole numeral.fraction (numeral.exponent.getD 0)
  natural : Decimal.natural? text = if numeral.isInteger then some numeral.value else none
  /-- There is no zero before other digits. -/
  zero : numeral.whole.head? = some '0' → numeral.whole.length = 1

private theorem spells_of_unsigned? {negative : Bool} (read : unsigned? negative text = some numeral) :
    numeral.negative = negative ∧ Spells text numeral := by
  simp only [unsigned?, Option.bind_eq_bind, Option.bind_eq_some_iff, Option.pure_def] at read
  obtain ⟨⟨whole, tail⟩, first, ⟨decimals, rest⟩, second, exponent, third, same⟩ := read
  obtain rfl := Option.some.inj same
  simp only [whole?] at first
  split at first
  · contradiction
  · rename_i digits
    obtain ⟨rfl, rfl⟩ := Prod.mk.inj (Option.some.inj first)
    simp only [Bool.or_eq_true, not_or, List.isEmpty_iff, Bool.and_eq_true, beq_iff_eq, bne_iff_ne,
      not_and, ne_eq, not_not] at digits
    obtain ⟨nonempty, zero⟩ := digits
    have all : ∀ c ∈ text.takeWhile Char.isDigit, c.isDigit = true :=
      List.all_eq_true.mp List.all_takeWhile
    have whole : text.takeWhile Char.isDigit ++ text.dropWhile Char.isDigit = text :=
      List.takeWhile_append_dropWhile
    have ends : ∀ c ∈ (text.dropWhile Char.isDigit).head?, c.isDigit = false := by
      intro c first
      have stopped := List.head?_dropWhile_not Char.isDigit text
      rwa [Option.mem_def.mp first] at stopped
    obtain ⟨decimals_eq, decimals_digits, decimals_nil, tail_nil⟩ := fraction_of_fraction? second
    obtain ⟨exponent_eq, exponent_none⟩ := exponent?_of_exponent? third
    refine ⟨rfl, ⟨nonempty, all, decimals_digits, _, rest, whole.symm, ends, decimals_eq, exponent_eq⟩,
      ?_, zero⟩
    have read := natural?_append nonempty all ends
    rw [whole] at read
    rw [read]
    by_cases last : text.dropWhile Char.isDigit = []
    · obtain ⟨rfl, empty⟩ := tail_nil last
      obtain rfl := exponent_none.mpr empty
      simp [last, isInteger, value]
    · have fractional : decimals = [] → exponent ≠ none := by
        intro absent none
        exact last ((decimals_nil absent).symm.trans (exponent_none.mp none))
      simpa [last, isInteger] using fractional

/-- A numeral has a minus sign or none, and no plus sign. -/
theorem exists_spells (written : ofChars? text = some numeral) :
    ∃ unsigned, text = (if numeral.negative then ['-'] else []) ++ unsigned ∧ Spells unsigned numeral := by
  unfold ofChars? at written
  split at written
  · obtain ⟨negative, spells⟩ := spells_of_unsigned? written
    exact ⟨_, by simp [negative], spells⟩
  · obtain ⟨negative, spells⟩ := spells_of_unsigned? written
    exact ⟨_, by simp [negative], spells⟩

section Literal

variable (written : ofChars? text = some numeral)

include written

theorem exists_first : ∃ c rest, text = c :: rest ∧ (c = '-' ∨ c.isDigit = true) := by
  obtain ⟨unsigned, rfl, spells⟩ := exists_spells written
  obtain ⟨c, rest, rfl, digit⟩ := spells.parts.exists_digit
  cases numeral.negative with
  | true => exact ⟨_, _, rfl, .inl rfl⟩
  | false => exact ⟨_, _, rfl, .inr digit⟩

theorem isNumeralChar_of_written : text ≠ [] ∧ ∀ c ∈ text, Decimal.Numeral.isNumeralChar c = true := by
  obtain ⟨unsigned, rfl, spells⟩ := exists_spells written
  obtain ⟨c, rest, rfl, -⟩ := spells.parts.exists_digit
  have chars := spells.parts.isNumeralChar
  cases numeral.negative with
  | true => exact ⟨by simp, List.forall_mem_cons.mpr ⟨rfl, chars⟩⟩
  | false => exact ⟨by simp, chars⟩

theorem signed?_eq :
    Decimal.signed? text = if numeral.isInteger then some numeral.signed else none := by
  obtain ⟨unsigned, rfl, spells⟩ := exists_spells written
  obtain ⟨c, rest, rfl, digit⟩ := spells.parts.exists_digit
  have minus : c ≠ '-' := Decimal.ne_of_isDigit digit rfl
  have plus : c ≠ '+' := Decimal.ne_of_isDigit digit rfl
  cases sign : numeral.negative with
  | true => cases integer : numeral.isInteger <;> simp [Decimal.signed?, spells.natural, signed, sign, integer]
  | false =>
    cases integer : numeral.isInteger <;>
      simp [Decimal.signed?, spells.natural, signed, sign, integer, minus, plus]

theorem int64?_eq : Decimal.int64? text = numeral.word? := by
  rw [Decimal.int64?, signed?_eq written, word?]
  cases numeral.isInteger <;> simp

theorem finite?_eq :
    Value.finite? text = if numeral.nearest.isFinite then some numeral.nearest else none := by
  obtain ⟨unsigned, rfl, spells⟩ := exists_spells written
  obtain ⟨c, rest, rfl, digit⟩ := spells.parts.exists_digit
  have sign : Decimal.Numeral.sign ((if numeral.negative then ['-'] else []) ++ c :: rest) =
      (numeral.negative, c :: rest) := by
    cases numeral.negative with
    | true => rfl
    | false => exact Decimal.Numeral.sign_of_isDigit digit
  have starts : Value.startsNumeral ((if numeral.negative then ['-'] else []) ++ c :: rest) = true := by
    cases numeral.negative with
    | true => rfl
    | false => simp [Value.startsNumeral, digit]
  rw [Value.finite?, starts, if_pos rfl, Decimal.Numeral.ofChars?_of_parts spells.parts sign]
  rfl

end Literal

/-- A numeral as a literal is the signed word that it writes, or else the nearest number. -/
theorem ofLiteral_eq {literal : String} (written : ofChars? literal.toList = some numeral) :
    Value.ofLiteral literal = match numeral.word? with
      | some n => .int n
      | none => if numeral.nearest.isFinite then .float numeral.nearest else .string literal := by
  have notTrue : literal ≠ "true" := by rintro rfl; contradiction
  have notFalse : literal ≠ "false" := by rintro rfl; contradiction
  rw [Value.ofLiteral, if_neg notTrue, if_neg notFalse, int64?_eq written, finite?_eq written]
  cases numeral.word? with
  | some n => rfl
  | none => cases numeral.nearest.isFinite <;> rfl

end DocRules.Json.Numeral

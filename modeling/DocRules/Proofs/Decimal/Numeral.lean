import DocRules.Decimal.Numeral
import DocRules.Proofs.Decimal
import DocRules.Proofs.Text.Cut

/-! # Reading numerals

A numeral is read by its parts: the digits before the point, the digits after it, and the exponent.
Its digits are those of both parts, and every digit after the point takes one from the exponent.
-/

namespace DocRules.Decimal

namespace Numeral

/-- The parts of a numeral without a sign. -/
structure Parts (text whole decimals : List Char) (exponent : Int) : Prop where
  whole_ne : whole ≠ []
  whole_digits : ∀ c ∈ whole, c.isDigit = true
  decimals_digits : ∀ c ∈ decimals, c.isDigit = true
  split : ∃ tail rest, text = whole ++ tail ∧ (∀ c ∈ tail.head?, c.isDigit = false) ∧
    fraction tail = (decimals, rest) ∧ exponent? rest = some exponent

/-- The parts have no digits too many or too few for JSON text: no zero stands before other digits, and
there is a digit after a point. -/
structure Tidy (text whole decimals : List Char) : Prop where
  zero : whole.head? = some '0' → whole.length = 1
  point : decimals = [] → '.' ∉ text

variable {text whole decimals : List Char} {exponent : Int}

theorem ofChars?_of_parts {signed : List Char} {negative : Bool}
    (parts : Parts text whole decimals exponent) (unsigned : sign signed = (negative, text)) :
    ofChars? signed = some ⟨negative, whole ++ decimals, exponent - decimals.length⟩ := by
  obtain ⟨tail, rest, rfl, ends, read, exponent_eq⟩ := parts.split
  obtain ⟨taken, dropped⟩ := Text.cut_of_ends parts.whole_digits ends
  simp [ofChars?, unsigned, taken, dropped, read, exponent_eq, parts.whole_ne]

/-- Digits with a point among them. -/
theorem parts_of_point (nonempty : whole ≠ []) (whole_digits : ∀ c ∈ whole, c.isDigit = true)
    (decimals_digits : ∀ c ∈ decimals, c.isDigit = true) {rest : List Char}
    (ends : ∀ c ∈ rest.head?, c.isDigit = false) (exponent_eq : exponent? rest = some exponent) :
    Parts (whole ++ '.' :: (decimals ++ rest)) whole decimals exponent := by
  obtain ⟨taken, dropped⟩ := Text.cut_of_ends decimals_digits ends
  refine ⟨nonempty, whole_digits, decimals_digits, _, rest, rfl, ?_, ?_, exponent_eq⟩
  · intro c first
    obtain rfl := Option.some.inj first
    rfl
  · rw [fraction, taken, dropped]

/-- Digits with a point among them and no exponent. -/
theorem parts_of_decimals (nonempty : whole ≠ []) (whole_digits : ∀ c ∈ whole, c.isDigit = true)
    (decimals_digits : ∀ c ∈ decimals, c.isDigit = true) :
    Parts (whole ++ '.' :: decimals) whole decimals 0 := by
  have parts : Parts (whole ++ '.' :: (decimals ++ [])) whole decimals 0 :=
    parts_of_point nonempty whole_digits decimals_digits (by simp) rfl
  rwa [List.append_nil] at parts

/-- Digits with an exponent and no point. -/
theorem parts_of_exponent (nonempty : whole ≠ []) (whole_digits : ∀ c ∈ whole, c.isDigit = true)
    {power : List Char} (exponent_eq : signed? power = some exponent) :
    Parts (whole ++ 'e' :: power) whole [] exponent := by
  refine ⟨nonempty, whole_digits, by simp, _, 'e' :: power, rfl, ?_, rfl, exponent_eq⟩
  intro c first
  obtain rfl := Option.some.inj first
  rfl

/-- A numeral without a sign starts with a digit. -/
theorem Parts.exists_digit (parts : Parts text whole decimals exponent) :
    ∃ c rest, text = c :: rest ∧ c.isDigit = true := by
  obtain ⟨tail, -, rfl, -⟩ := parts.split
  obtain ⟨c, rest, rfl⟩ := List.exists_cons_of_ne_nil parts.whole_ne
  exact ⟨c, rest ++ tail, rfl, parts.whole_digits c List.mem_cons_self⟩

theorem sign_of_isDigit {c : Char} {rest : List Char} (digit : c.isDigit = true) :
    sign (c :: rest) = (false, c :: rest) := by
  have minus : c ≠ '-' := by rintro rfl; contradiction
  have plus : c ≠ '+' := by rintro rfl; contradiction
  unfold sign
  split <;> simp_all

/-- The characters of numerals. -/
def isNumeralChar (c : Char) : Bool :=
  c.isDigit || c == '.' || c == 'e' || c == 'E' || c == '-' || c == '+'

theorem isNumeralChar_of_signed? {digits : List Char} {n : Int} (read : signed? digits = some n) :
    ∀ c ∈ digits, isNumeralChar c = true := by
  intro c member
  rcases mem_of_signed? read member with digit | rfl | rfl
  · simp [isNumeralChar, digit]
  · rfl
  · rfl

private theorem isNumeralChar_of_exponent? {rest : List Char} (read : exponent? rest = some exponent) :
    ∀ c ∈ rest, isNumeralChar c = true := by
  unfold exponent? at read
  split at read
  · simp
  all_goals
    first
      | contradiction
      | intro c member
        rcases List.mem_cons.mp member with rfl | member
        · rfl
        · exact isNumeralChar_of_signed? read c member

theorem Parts.isNumeralChar (parts : Parts text whole decimals exponent) :
    ∀ c ∈ text, isNumeralChar c = true := by
  have digits {c : Char} (digit : c.isDigit = true) : Numeral.isNumeralChar c = true := by
    simp [Numeral.isNumeralChar, digit]
  obtain ⟨tail, rest, rfl, -, read, exponent_eq⟩ := parts.split
  have power := isNumeralChar_of_exponent? exponent_eq
  have after : ∀ c ∈ tail, Numeral.isNumeralChar c = true := by
    unfold fraction at read
    split at read
    · rename_i after
      obtain ⟨taken, dropped⟩ := Prod.mk.inj read
      have cut : after.takeWhile Char.isDigit ++ after.dropWhile Char.isDigit = after :=
        List.takeWhile_append_dropWhile
      rw [taken, dropped] at cut
      subst cut
      intro c member
      rcases List.mem_cons.mp member with rfl | member
      · rfl
      rcases List.mem_append.mp member with member | member
      · exact digits (parts.decimals_digits c member)
      · exact power c member
    · obtain ⟨-, rfl⟩ := Prod.mk.inj read
      exact power
  intro c member
  rcases List.mem_append.mp member with member | member
  · exact digits (parts.whole_digits c member)
  · exact after c member

end Numeral

end DocRules.Decimal

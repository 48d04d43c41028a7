import DocRules.Operator
import DocRules.Proofs.Binary64.Text
import DocRules.Proofs.Token
import DocRules.Value

/-! # Literals read back

The value of a literal has a text, and this text is a literal of the same value
(`Value.ofLiteral_text`). The text is a word of rule text if the literal is one, and it is no operator:
either it is the literal itself, or it is made of the characters of numerals, or it is a boolean.
-/

namespace DocRules

namespace Value

open Decimal Decimal.Numeral

theorem ofLiteral_of_int64? {literal : String} {n : Int64} (read : int64? literal.toList = some n) :
    ofLiteral literal = .int n := by
  have notTrue : literal ≠ "true" := by rintro rfl; contradiction
  have notFalse : literal ≠ "false" := by rintro rfl; contradiction
  simp [ofLiteral, notTrue, notFalse, read]

theorem ofLiteral_of_finite? {literal : String} {x : Binary64}
    (fractional : int64? literal.toList = none) (read : finite? literal.toList = some x) :
    ofLiteral literal = .float x := by
  have notTrue : literal ≠ "true" := by rintro rfl; contradiction
  have notFalse : literal ≠ "false" := by rintro rfl; contradiction
  simp [ofLiteral, notTrue, notFalse, fractional, read]

/-- A literal is the text of its value, if that is a string. -/
theorem eq_of_ofLiteral_string {literal text : String} (read : ofLiteral literal = .string text) :
    literal = text := by
  unfold ofLiteral at read
  repeat' split at read
  all_goals first | contradiction | exact Value.string.inj read

/-- No literal is read as an infinity or as no number. -/
theorem isFinite_of_ofLiteral {literal : String} {x : Binary64} (read : ofLiteral literal = .float x) :
    x.isFinite = true := by
  have found : finite? literal.toList = some x := by
    unfold ofLiteral at read
    repeat' split at read
    all_goals first | contradiction | skip
    rename_i y found
    obtain rfl := Value.float.inj read
    exact found
  unfold finite? at found
  split at found
  · obtain ⟨numeral, -, value⟩ := Option.bind_eq_some_iff.mp found
    dsimp only at value
    split at value
    · rename_i finite
      obtain rfl := Option.some.inj value
      exact finite
    · contradiction
  · contradiction

private theorem signs_style : style.Signs :=
  .inl rfl

variable {x : Binary64}

/-- The text of a finite number is read as the number. -/
theorem finite?_text (finite : x.isFinite = true) : finite? (style.text x).toList = some x := by
  obtain ⟨text, whole, decimals, exponent, spelled, parts, -, value⟩ :=
    Binary64.exists_parts_of_text signs_style finite
  obtain ⟨c, rest, rfl, digit⟩ := parts.exists_digit
  have unsigned : sign (style.text x).toList = (x.negative, c :: rest) := by
    rw [spelled]
    cases x.negative with
    | true => rfl
    | false => exact sign_of_isDigit digit
  have starts : startsNumeral (style.text x).toList = true := by
    rw [spelled]
    cases x.negative with
    | true => rfl
    | false => simp [startsNumeral, digit]
  simp [finite?, starts, ofChars?_of_parts parts unsigned, value, finite]

/-- Integers, booleans and finite numbers are read from their texts. -/
theorem ofLiteral_text_of_finite {value : Value} (unquoted : value.kind ≠ .string)
    (finite : ∀ x, value = .float x → x.isFinite = true) : ofLiteral value.text = value := by
  cases value with
  | int n => exact ofLiteral_of_int64? (int64?_toString n)
  | float x =>
    have finite := finite x rfl
    exact ofLiteral_of_finite? (Binary64.int64?_text style finite) (finite?_text finite)
  | bool b => cases b <;> rfl
  | string text => exact absurd rfl unquoted

/-- The text of the value of a literal is a literal of that value. -/
theorem ofLiteral_text (literal : String) : ofLiteral (ofLiteral literal).text = ofLiteral literal := by
  by_cases quoted : (ofLiteral literal).kind = .string
  · cases read : ofLiteral literal with
    | string text =>
      obtain rfl := eq_of_ofLiteral_string read
      exact read
    | _ => simp [read, kind] at quoted
  · exact ofLiteral_text_of_finite quoted fun x => isFinite_of_ofLiteral

/-- The value of a literal equals itself, as it is a number if it is a floating point number. -/
theorem equal_ofLiteral (literal : String) : (ofLiteral literal).equal (ofLiteral literal) = true := by
  cases read : ofLiteral literal with
  | float x =>
    have number := Binary64.isNaN_of_isFinite (isFinite_of_ofLiteral read)
    simp [equal, Binary64.equal, number]
  | _ => simp [equal]

/-- The text of a finite number has the characters of numerals only. -/
theorem isNumeralChar_text (finite : x.isFinite = true) :
    (style.text x).toList ≠ [] ∧ ∀ c ∈ (style.text x).toList, isNumeralChar c = true := by
  obtain ⟨text, whole, decimals, exponent, spelled, parts, -⟩ :=
    Binary64.exists_parts_of_text signs_style finite
  obtain ⟨c, rest, rfl, -⟩ := parts.exists_digit
  have chars := parts.isNumeralChar
  rw [spelled]
  cases x.negative with
  | true => exact ⟨by simp, List.forall_mem_cons.mpr ⟨rfl, chars⟩⟩
  | false => exact ⟨by simp, chars⟩

private theorem isNumeralChar_toString (n : Int) :
    (toString n).toList ≠ [] ∧ ∀ c ∈ (toString n).toList, isNumeralChar c = true := by
  refine ⟨?_, isNumeralChar_of_signed? (signed?_toString n)⟩
  obtain ⟨digits, -, nonempty, text | text⟩ := toString_eq n
  · rwa [text]
  · rw [text]
    exact List.cons_ne_nil _ _

private theorem isWordChar_of_isNumeralChar {c : Char} (numeral : isNumeralChar c = true) :
    Cursor.isWordChar c = true := by
  simp only [isNumeralChar, Bool.or_eq_true, beq_iff_eq] at numeral
  rcases numeral with ((((digit | rfl) | rfl) | rfl) | rfl) | rfl
  · have range := toNat_of_isDigit digit
    have opening : c ≠ '\x7b' := ne_of_isDigit digit rfl
    have closing : c ≠ '\x7d' := ne_of_isDigit digit rfl
    have black : Text.isSpace c = false := by
      simp only [Text.isSpace, Bool.or_eq_false_iff, Bool.and_eq_false_iff, decide_eq_false_iff_not,
        beq_eq_false_iff_ne]
      omega
    simp [Cursor.isWordChar, Cursor.isBrace, black, opening, closing]
  all_goals decide

/-- Numerals are words, and no operators. -/
theorem isWord_of_isNumeralChar {text : String} (nonempty : text.toList ≠ [])
    (chars : ∀ c ∈ text.toList, isNumeralChar c = true) :
    Token.IsWord text ∧ Operator.ofWord? text = none := by
  refine ⟨⟨nonempty, fun c member => isWordChar_of_isNumeralChar (chars c member), ?_⟩, ?_⟩
  · unfold Token.ofText
    split <;> first | rfl | exact absurd (List.all_eq_true.mpr chars) (by decide)
  · unfold Operator.ofWord?
    split <;> first | rfl | exact absurd (List.all_eq_true.mpr chars) (by decide)

/-- The text of the value of an operand is again an operand. -/
theorem isWord_text {literal : String} (word : Token.IsWord literal)
    (operand : Operator.ofWord? literal = none) :
    Token.IsWord (ofLiteral literal).text ∧ Operator.ofWord? (ofLiteral literal).text = none := by
  cases read : ofLiteral literal with
  | int n =>
    obtain ⟨nonempty, chars⟩ := isNumeralChar_toString n.toInt
    exact isWord_of_isNumeralChar nonempty chars
  | float x =>
    obtain ⟨nonempty, chars⟩ := isNumeralChar_text (isFinite_of_ofLiteral read)
    exact isWord_of_isNumeralChar nonempty chars
  | bool b => cases b <;> exact ⟨⟨by decide, List.all_eq_true.mp rfl, rfl⟩, rfl⟩
  | string text =>
    obtain rfl := eq_of_ofLiteral_string read
    exact ⟨word, operand⟩

/-- A literal is read again from the text of its value, as the same value to the last bit: no number that is
read is infinite, strings are their own texts, and the text of an operand is an operand. Conversely every
integer, boolean and finite number has a literal, which is its text. -/
theorem ofLiteral_canonical (literal : String) :
    ofLiteral (ofLiteral literal).text = ofLiteral literal ∧
    (∀ x, ofLiteral literal = .float x → x.isFinite = true) ∧
    (∀ text, ofLiteral literal = .string text → (ofLiteral literal).text = literal) ∧
    (Token.IsWord literal ∧ Operator.ofWord? literal = none →
      Token.IsWord (ofLiteral literal).text ∧ Operator.ofWord? (ofLiteral literal).text = none) ∧
    ∀ value : Value, value.kind ≠ .string → (∀ x, value = .float x → x.isFinite = true) →
      ofLiteral value.text = value := by
  refine ⟨ofLiteral_text literal, fun x => isFinite_of_ofLiteral, fun text read => ?_, fun operand => ?_,
    fun value => ofLiteral_text_of_finite⟩
  · obtain rfl := eq_of_ofLiteral_string read
    rw [read]
    rfl
  · exact isWord_text operand.1 operand.2

/-- The theorem at a literal of the negative zero. -/
theorem ofLiteral_canonical_of_negative_zero :
    Token.IsWord "-0e7" ∧ ofLiteral "-0e7" = .float ⟨0x8000000000000000⟩ ∧
    (ofLiteral "-0e7").text = "-0.0" ∧ Token.IsWord "-0.0" ∧
    ofLiteral "-0.0" = .float ⟨0x8000000000000000⟩ := by
  have word : Token.IsWord "-0e7" := ⟨by decide, List.all_eq_true.mp rfl, rfl⟩
  have read : ofLiteral "-0e7" = .float ⟨0x8000000000000000⟩ := by decide +kernel
  have text : (ofLiteral "-0e7").text = "-0.0" := by decide +kernel
  obtain ⟨again, -, -, operand, -⟩ := ofLiteral_canonical "-0e7"
  rw [text] at again operand
  exact ⟨word, read, text, (operand ⟨word, rfl⟩).1, again.trans read⟩

end Value

end DocRules

import DocRules.Json.Text
import DocRules.Proofs.Json.Number

/-! # Numbers written as JSON text

A number is written as a numeral of JSON text (`Json.exists_numeral_of_text`). The numeral of a signed word
is read as the word, and that of a floating point number has the number as its nearest one. Reading does not
always give the nearest number, so a floating point number may come back as another one of its sign
(`Binary64.reread?`); it comes back as itself if its numeral is exact.
-/

namespace DocRules

namespace Json.Numeral

open Decimal.Numeral (Parts Tidy)

variable {text whole decimals rest : List Char} {exponent : Int}

private theorem fraction?_of_fraction {tail : List Char}
    (read : Decimal.Numeral.fraction tail = (decimals, rest)) (point : decimals = [] → '.' ∉ tail) :
    fraction? tail = some (decimals, rest) := by
  unfold Decimal.Numeral.fraction at read
  split at read
  · obtain ⟨rfl, rfl⟩ := Prod.mk.inj read
    have nonempty : (List.takeWhile Char.isDigit _).isEmpty = false :=
      List.isEmpty_eq_false_iff.mpr fun none => point none List.mem_cons_self
    rw [fraction?, nonempty, if_neg Bool.false_ne_true]
  · obtain ⟨rfl, rfl⟩ := Prod.mk.inj read
    unfold fraction?
    split
    · exact absurd List.mem_cons_self (point rfl)
    · rfl

private theorem exists_exponent?_of_exponent? (read : Decimal.Numeral.exponent? rest = some exponent) :
    ∃ power, exponent? rest = some power ∧ power.getD 0 = exponent := by
  unfold Decimal.Numeral.exponent? at read
  unfold exponent?
  split at read
  · exact ⟨none, rfl, Option.some.inj read⟩
  · exact ⟨some exponent, congrArg (Option.map some) read, rfl⟩
  · exact ⟨some exponent, congrArg (Option.map some) read, rfl⟩
  · contradiction

/-- A tidy numeral is a numeral of JSON text with the same parts. -/
theorem exists_of_parts (parts : Parts text whole decimals exponent) (tidy : Tidy text whole decimals)
    (negative : Bool) :
    ∃ power, ofChars? ((if negative then ['-'] else []) ++ text) = some ⟨negative, whole, decimals, power⟩ ∧
      power.getD 0 = exponent := by
  obtain ⟨c, _, first, digit⟩ := parts.exists_digit
  have signless : ofChars? ((if negative then ['-'] else []) ++ text) = unsigned? negative text := by
    have minus : c ≠ '-' := Decimal.ne_of_isDigit digit rfl
    cases negative with
    | true => rfl
    | false =>
      rw [first]
      unfold ofChars?
      split <;> simp_all
  obtain ⟨tail, rest, rfl, ends, read, scaled⟩ := parts.split
  obtain ⟨taken, dropped⟩ := Text.cut_of_ends parts.whole_digits ends
  have zeros : (whole.isEmpty || (whole.head? == some '0' && whole.length != 1)) = false := by
    have nonempty := List.isEmpty_eq_false_iff.mpr parts.whole_ne
    by_cases zero : whole.head? = some '0'
    · simp [nonempty, tidy.zero zero]
    · simp [nonempty, zero]
  have digits : whole? (whole ++ tail) = some (whole, tail) := by
    rw [whole?, taken, dropped, zeros, if_neg Bool.false_ne_true]
  have point : fraction? tail = some (decimals, rest) :=
    fraction?_of_fraction read fun none member => tidy.point none (List.mem_append_right _ member)
  obtain ⟨power, powered, same⟩ := exists_exponent?_of_exponent? scaled
  refine ⟨power, ?_, same⟩
  simp [signless, unsigned?, digits, point, powered]

end Json.Numeral

namespace Json

open Decimal.Numeral (Parts Tidy)

private theorem signs_style : style.Signs :=
  .inr rfl

/-- The text of a finite number is a numeral without a signed word, of the sign of the number and with the
number as its nearest one. -/
theorem exists_numeral_of_text {x : Binary64} (finite : x.isFinite = true) :
    ∃ numeral, Numeral.ofChars? (style.text x).toList = some numeral ∧ numeral.negative = x.negative ∧
      numeral.nearest = x ∧ numeral.word? = none := by
  obtain ⟨text, whole, decimals, exponent, spelled, parts, tidy, value⟩ :=
    Binary64.exists_parts_of_text signs_style finite
  obtain ⟨power, written, rfl⟩ := Numeral.exists_of_parts parts tidy x.negative
  rw [← spelled] at written
  refine ⟨_, written, rfl, value, ?_⟩
  rw [← Numeral.int64?_eq written, Binary64.int64?_text style finite]

/-- The text of a signed word is a numeral that is read as the word. -/
theorem exists_numeral_of_toString (n : Int64) :
    ∃ numeral, Numeral.ofChars? (toString n.toInt).toList = some numeral ∧
      numeral.number? = some (.int n) := by
  have ofDigits (k : Nat) (negative : Bool) :
      ∃ numeral, Numeral.ofChars? ((if negative then ['-'] else []) ++ Nat.toDigits 10 k) = some numeral := by
    have all := List.all_eq_true.mp (Decimal.all_isDigit_toDigits k)
    have parts : Parts (Nat.toDigits 10 k) (Nat.toDigits 10 k) [] 0 :=
      ⟨Nat.toDigits_ne_nil, all, nofun, [], [], (List.append_nil _).symm, nofun, rfl, rfl⟩
    have tidy : Tidy (Nat.toDigits 10 k) (Nat.toDigits 10 k) [] := by
      refine ⟨fun zero => ?_, fun _ point => absurd (all _ point) (by decide)⟩
      by_cases positive : k = 0
      · rw [positive]
        rfl
      · exact absurd zero (Decimal.head?_toDigits_ne positive)
    obtain ⟨power, written, -⟩ := Numeral.exists_of_parts parts tidy negative
    exact ⟨_, written⟩
  have numeral : ∃ numeral, Numeral.ofChars? (toString n.toInt).toList = some numeral := by
    cases n.toInt with
    | ofNat k =>
      rw [Int.ofNat_eq_natCast, Decimal.toList_toString_natCast]
      exact ofDigits k false
    | negSucc k =>
      rw [Decimal.toList_toString_neg]
      exact ofDigits (k + 1) true
  obtain ⟨numeral, written⟩ := numeral
  have word : numeral.word? = some n := by
    rw [← Numeral.int64?_eq written, Decimal.int64?_toString]
  have signless : (toString n.toInt).toList ≠ ['-', '0'] := by
    intro minusZero
    have read := Decimal.signed?_toString n.toInt
    rw [minusZero] at read
    have zero : (0 : Int) = n.toInt := Option.some.inj read
    rw [← zero] at minusZero
    exact absurd minusZero (by decide)
  refine ⟨numeral, written, ?_⟩
  rw [Numeral.number?_of_word?_eq_some word, if_neg]
  rwa [← Numeral.eq_minus_zero_iff written (Numeral.word?_eq_some word).1]

end Json

namespace Binary64

/-- The number that the text of a number in JSON is read as, if it is read as one. -/
def reread? (x : Binary64) : Option Binary64 :=
  ((Json.Numeral.ofChars? (Json.style.text x).toList).bind Json.Numeral.number?).map Json.Number.toBinary64

variable {x y : Binary64}

/-- A number that is finite and has an exact numeral comes back as it is. -/
theorem reread?_of_exact {numeral : Json.Numeral} (finite : x.isFinite = true)
    (written : Json.Numeral.ofChars? (Json.style.text x).toList = some numeral) (exact_numeral : numeral.Exact) :
    x.reread? = some x := by
  obtain ⟨numeral', written', -, nearest, -⟩ := Json.exists_numeral_of_text finite
  obtain rfl := Option.some.inj (written.symm.trans written')
  obtain ⟨number, read, same, -⟩ := Json.Numeral.number?_of_exact exact_numeral
  rw [reread?, written, Option.bind_some, read, Option.map_some, same, nearest]

/-- What a number comes back as is equal to it only if it is the number itself, as the sign stays. -/
theorem equal_of_reread? (finite : x.isFinite = true) (read : x.reread? = some y) :
    x.equal y = true ↔ x = y := by
  obtain ⟨numeral, written, negative, nearest, other⟩ := Json.exists_numeral_of_text finite
  rw [reread?, written, Option.bind_some] at read
  obtain ⟨number, found, rfl⟩ := Option.map_eq_some_iff.mp read
  obtain ⟨magnitude, bound, rfl⟩ := Json.Numeral.exists_magnitude_of_word?_eq_none other found
  have below : x.magnitude ≤ infinity := by
    rw [isFinite, decide_eq_true_eq] at finite
    exact finite.le
  have same : (ofMagnitude x.negative x.magnitude).equal (ofMagnitude x.negative magnitude) =
      decide (ofMagnitude x.negative x.magnitude = ofMagnitude x.negative magnitude) :=
    equal_ofMagnitude below bound
  rw [ofMagnitude_eq] at same
  rw [Json.Number.toBinary64, negative, same, decide_eq_true_eq]

/-- What is not finite has no text that is a number. -/
theorem text_eq_null (other : x.isFinite = false) : Json.style.text x = "null" := by
  rw [Style.text, other, if_neg Bool.false_ne_true]
  split
  · rfl
  · split <;> rfl

theorem reread?_of_not_isFinite (other : x.isFinite = false) : x.reread? = none := by
  rw [reread?, text_eq_null other]
  rfl

end Binary64

end DocRules

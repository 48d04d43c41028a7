import DocRules.Decimal.Integer
import Mathlib.Algebra.Order.Ring.Nat

/-! # Whole numbers read back

The digits of a number read back as the number, and so does an integer with its sign. Digits write
less than the power of ten with as many zeros.
-/

namespace DocRules.Decimal

theorem all_isDigit_toDigits (n : Nat) : (Nat.toDigits 10 n).all Char.isDigit = true := by
  rw [List.all_eq_true]
  intro c member
  exact Nat.isDigit_of_mem_toDigits (by decide) (by decide) member

theorem natural?_toDigits (n : Nat) : natural? (Nat.toDigits 10 n) = some n := by
  have nonempty : (Nat.toDigits 10 n).isEmpty = false := by simp
  simp [natural?, nonempty, all_isDigit_toDigits]

theorem toNat_of_isDigit {c : Char} (digit : c.isDigit = true) : 48 ≤ c.toNat ∧ c.toNat ≤ 57 := by
  simp only [Char.isDigit, Bool.and_eq_true, decide_eq_true_eq, ge_iff_le,
    UInt32.le_iff_toNat_le] at digit
  exact digit

/-- Digits write less than the power of ten with as many zeros. -/
theorem ofDigitChars_lt {digits : List Char} (all : ∀ c ∈ digits, c.isDigit = true) :
    Nat.ofDigitChars 10 digits 0 < Nat.pow 10 digits.length := by
  induction digits with
  | nil => simp
  | cons c digits ih =>
    obtain ⟨here, later⟩ := List.forall_mem_cons.mp all
    have rest := ih later
    have digit : c.toNat - '0'.toNat ≤ 9 := by
      have range := toNat_of_isDigit here
      have zero : '0'.toNat = 48 := rfl
      omega
    rw [Nat.ofDigitChars_cons, Nat.mul_zero, Nat.zero_add, Nat.ofDigitChars_eq_ofDigitChars_zero]
    have leading := Nat.mul_le_mul_left (10 ^ digits.length) digit
    have step : Nat.pow 10 (c :: digits).length = Nat.pow 10 digits.length * 10 := rfl
    rw [step]
    change _ < 10 ^ digits.length at rest
    change _ < 10 ^ digits.length * 10
    omega

/-- No zero stands before the other digits of a number. -/
theorem head?_toDigits_ne {n : Nat} (positive : n ≠ 0) : (Nat.toDigits 10 n).head? ≠ some '0' := by
  have all := all_isDigit_toDigits n
  have value := @Nat.ofDigitChars_ten_toDigits n
  have length (k : Nat) (more : 0 < k) : (Nat.toDigits 10 n).length ≤ k ↔ n < 10 ^ k :=
    Nat.length_toDigits_le_iff (by decide) more
  intro zero
  generalize Nat.toDigits 10 n = digits at all value length zero
  obtain ⟨rest, rfl⟩ := List.head?_eq_some_iff.mp zero
  have later : Nat.ofDigitChars 10 rest 0 = n := by
    rw [← value, Nat.ofDigitChars_cons]
    rfl
  rw [List.all_cons, Bool.and_eq_true] at all
  have below : n < 10 ^ rest.length := later ▸ ofDigitChars_lt (List.all_eq_true.mp all.2)
  cases rest with
  | nil => exact positive later.symm
  | cons c rest =>
    have shorter := (length (c :: rest).length (by simp)).mpr below
    simp at shorter

theorem ne_of_isDigit {c sign : Char} (digit : c.isDigit = true) (other : sign.isDigit = false) :
    c ≠ sign := by
  rintro rfl
  rw [digit] at other
  contradiction

private theorem signed?_toDigits (n : Nat) : signed? (Nat.toDigits 10 n) = some (n : Int) := by
  have read := natural?_toDigits n
  have all := all_isDigit_toDigits n
  generalize Nat.toDigits 10 n = digits at read all
  cases digits with
  | nil => contradiction
  | cons c rest =>
    rw [List.all_cons, Bool.and_eq_true] at all
    have minus : c ≠ '-' := ne_of_isDigit all.1 rfl
    have plus : c ≠ '+' := ne_of_isDigit all.1 rfl
    simp [signed?, minus, plus, read]

theorem toList_toString_natCast (n : Nat) : (toString (n : Int)).toList = Nat.toDigits 10 n :=
  Nat.toList_repr

theorem toList_toString_neg (n : Nat) :
    (toString (Int.negSucc n)).toList = '-' :: Nat.toDigits 10 (n + 1) := by
  have text : toString (Int.negSucc n) = "-" ++ Nat.repr (n + 1) := rfl
  rw [text, String.toList_append, Nat.toList_repr]
  rfl

theorem signed?_toString (n : Int) : signed? (toString n).toList = some n := by
  cases n with
  | ofNat n => rw [Int.ofNat_eq_natCast, toList_toString_natCast, signed?_toDigits]
  | negSucc n =>
    rw [toList_toString_neg, signed?, natural?_toDigits]
    rfl

/-- The text of an integer reads back as the integer if a plus sign stands before what is not negative. -/
theorem signed?_toString_of_plus {plus : String} (sign : plus = "" ∨ plus = "+") (n : Int) :
    signed? ((if n < 0 then "" else plus) ++ toString n).toList = some n := by
  rcases sign with rfl | rfl
  · rw [ite_self, String.empty_append, signed?_toString]
  · cases n with
    | ofNat n =>
      rw [Int.ofNat_eq_natCast, if_neg (Int.not_lt.mpr (Int.natCast_nonneg n)), String.toList_append,
        toList_toString_natCast]
      simp [signed?, natural?_toDigits]
    | negSucc n => rw [if_pos (Int.negSucc_lt_zero n), String.empty_append, signed?_toString]

theorem fitsInt64_iff {n : Int} : fitsInt64 n = true ↔ -2 ^ 63 ≤ n ∧ n < 2 ^ 63 := by
  have least : Int64.minValue.toInt = -2 ^ 63 := rfl
  have greatest : Int64.maxValue.toInt = 2 ^ 63 - 1 := rfl
  simp only [fitsInt64, Bool.and_eq_true, decide_eq_true_eq, least, greatest]
  omega

theorem int64?_toString (n : Int64) : int64? (toString n.toInt).toList = some n := by
  have fits : fitsInt64 n.toInt = true := by
    simp only [fitsInt64, Bool.and_eq_true, decide_eq_true_eq]
    exact ⟨Int64.minValue_le_toInt n, Int64.toInt_le n⟩
  rw [int64?, signed?_toString]
  simp [fits]

/-- The text of an integer consists of digits, after a minus sign or not. -/
theorem toString_eq (n : Int) :
    ∃ digits, (∀ c ∈ digits, c.isDigit = true) ∧ digits ≠ [] ∧
      ((toString n).toList = digits ∨ (toString n).toList = '-' :: digits) := by
  cases n with
  | ofNat n =>
    exact ⟨Nat.toDigits 10 n, List.all_eq_true.mp (all_isDigit_toDigits n), Nat.toDigits_ne_nil,
      .inl (toList_toString_natCast n)⟩
  | negSucc n =>
    exact ⟨Nat.toDigits 10 (n + 1), List.all_eq_true.mp (all_isDigit_toDigits _),
      Nat.toDigits_ne_nil, .inr (toList_toString_neg n)⟩

/-- A number is written in digits and signs. -/
theorem mem_of_signed? {text : List Char} {n : Int} (read : signed? text = some n) {c : Char}
    (member : c ∈ text) : c.isDigit ∨ c = '-' ∨ c = '+' := by
  have digits {digits : List Char} {m : Nat} (read : natural? digits = some m) :
      ∀ c ∈ digits, c.isDigit := by
    simp only [natural?] at read
    split at read
    · contradiction
    · simp_all
  unfold signed? at read
  split at read <;>
    (obtain ⟨m, read, -⟩ := Option.map_eq_some_iff.mp read
     obtain ⟨k, read, -⟩ := Option.bind_eq_some_iff.mp read)
  · rcases List.mem_cons.mp member with rfl | member
    · exact .inr (.inl rfl)
    · exact .inl (digits read c member)
  · rcases List.mem_cons.mp member with rfl | member
    · exact .inr (.inr rfl)
    · exact .inl (digits read c member)
  · exact .inl (digits read c member)

/-- What is neither a digit nor a sign does not occur in the text of an integer. -/
theorem notMem_toString {c : Char} (digit : c.isDigit = false) (minus : c ≠ '-') (plus : c ≠ '+')
    (n : Int) : c ∉ (toString n).toList := by
  intro member
  rcases mem_of_signed? (signed?_toString n) member with found | found | found
  · rw [digit] at found
    contradiction
  · exact minus found
  · exact plus found

theorem openBracket_notMem_toString (n : Int) : '[' ∉ (toString n).toList :=
  notMem_toString rfl (by decide) (by decide) n

theorem position?_toString {n : Nat} (small : n < UInt64.size) :
    position? (toString (n : Int)).toList = some n := by
  have read := natural?_toDigits n
  have all := all_isDigit_toDigits n
  rw [toList_toString_natCast, position?]
  generalize Nat.toDigits 10 n = digits at read all
  cases digits with
  | nil => contradiction
  | cons c rest =>
    rw [List.all_cons, Bool.and_eq_true] at all
    have plus : c ≠ '+' := ne_of_isDigit all.1 rfl
    simp [unsigned?, plus, read, small]

end DocRules.Decimal

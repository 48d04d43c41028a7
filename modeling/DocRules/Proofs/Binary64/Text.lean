import DocRules.Binary64.Style
import DocRules.Proofs.Binary64.Shortest
import DocRules.Proofs.Decimal
import DocRules.Proofs.Decimal.Numeral

/-! # Written numbers read back

The text of a decimal is a numeral with the same value, in the positional form as well as with an
exponent (`spells_magnitudeText`). A numeral whose value is near a finite magnitude is read as the
magnitude, so the text of a finite number reads back as the number with its sign
(`exists_parts_of_text`).
-/

namespace DocRules.Binary64

/-- A text without a sign is a tidy numeral whose value is near a magnitude. -/
def Spells (magnitude : Nat) (text : List Char) : Prop :=
  ∃ whole decimals exponent, DocRules.Decimal.Numeral.Parts text whole decimals exponent ∧
    DocRules.Decimal.Numeral.Tidy text whole decimals ∧
    Decimal.Near magnitude
      ⟨Nat.ofDigitChars 10 (whole ++ decimals) 0, exponent - decimals.length⟩

private theorem digits_isDigit (n : Nat) : ∀ c ∈ Nat.toDigits 10 n, c.isDigit = true :=
  List.all_eq_true.mp (DocRules.Decimal.all_isDigit_toDigits n)

private theorem zeros_isDigit (zeros : Nat) : ∀ c ∈ List.replicate zeros '0', c.isDigit = true := by
  intro c member
  obtain rfl := List.eq_of_mem_replicate member
  rfl

variable {magnitude : Nat} {decimal : Decimal}

private theorem spells_whole {digits zeros : Nat} (positive : digits ≠ 0)
    (near : Decimal.Near magnitude ⟨digits, zeros⟩) :
    Spells magnitude (Nat.toDigits 10 digits ++ List.replicate zeros '0' ++ ['.', '0']) := by
  have all : ∀ c ∈ Nat.toDigits 10 digits ++ List.replicate zeros '0', c.isDigit = true := by
    intro c member
    rcases List.mem_append.mp member with member | member
    · exact digits_isDigit digits c member
    · exact zeros_isDigit zeros c member
  have nonempty : Nat.toDigits 10 digits ++ List.replicate zeros '0' ≠ [] :=
    List.append_ne_nil_of_left_ne_nil Nat.toDigits_ne_nil _
  have parts := DocRules.Decimal.Numeral.parts_of_decimals nonempty all (zeros_isDigit 1)
  have tidy : (Nat.toDigits 10 digits ++ List.replicate zeros '0').head? ≠ some '0' := by
    have first := DocRules.Decimal.head?_toDigits_ne positive
    cases text : Nat.toDigits 10 digits with
    | nil => exact absurd text Nat.toDigits_ne_nil
    | cons c rest => rwa [text] at first
  refine ⟨_, _, _, parts, ⟨fun zero => absurd zero tidy, by simp⟩, ?_⟩
  have value : Nat.ofDigitChars 10 (Nat.toDigits 10 digits ++ List.replicate zeros '0' ++
      List.replicate 1 '0') 0 = digits * Nat.pow 10 (zeros + 1) := by
    simp only [Nat.ofDigitChars_append, Nat.ofDigitChars_ten_toDigits,
      Nat.ofDigitChars_replicate_zero, Nat.pow_eq, Nat.pow_succ, Nat.pow_zero]
    ring
  rw [value, Decimal.near_mul_pow]
  have exponent : (0 : Int) - ((List.replicate 1 '0').length : Nat) + ((zeros + 1 : Nat) : Int) = zeros := by
    simp only [List.length_replicate]
    omega
  rwa [exponent]

private theorem spells_within {digits places : Nat} (positive : digits ≠ 0)
    (near : Decimal.Near magnitude ⟨digits, -(places : Int)⟩) (some_places : places ≠ 0)
    (before : places < (Nat.toDigits 10 digits).length) :
    Spells magnitude ((Nat.toDigits 10 digits).take ((Nat.toDigits 10 digits).length - places) ++
      '.' :: (Nat.toDigits 10 digits).drop ((Nat.toDigits 10 digits).length - places)) := by
  have all := digits_isDigit digits
  have tidy := DocRules.Decimal.head?_toDigits_ne positive
  generalize text : Nat.toDigits 10 digits = chars at all before tidy
  have nonempty : chars.take (chars.length - places) ≠ [] := by
    intro empty
    have := congrArg List.length empty
    simp only [List.length_take, List.length_nil] at this
    omega
  have decimals : ∀ c ∈ chars.drop (chars.length - places), c.isDigit = true :=
    fun c member => all c (List.mem_of_mem_drop member)
  have parts := DocRules.Decimal.Numeral.parts_of_decimals nonempty
    (fun c member => all c (List.mem_of_mem_take member)) decimals
  have first : (chars.take (chars.length - places)).head? = chars.head? := by
    rw [List.head?_take, if_neg (by omega)]
  have behind : chars.drop (chars.length - places) ≠ [] := by
    rw [ne_eq, List.drop_eq_nil_iff]
    omega
  refine ⟨_, _, _, parts, ⟨fun zero => absurd (first.symm.trans zero) tidy, fun none => absurd none behind⟩, ?_⟩
  rw [List.take_append_drop, ← text, Nat.ofDigitChars_ten_toDigits, text]
  have exponent : (0 : Int) - (chars.drop (chars.length - places)).length = -(places : Int) := by
    rw [List.length_drop]
    omega
  rwa [exponent]

private theorem spells_after {digits zeros : Nat}
    (near : Decimal.Near magnitude
      ⟨digits, -((zeros + (Nat.toDigits 10 digits).length : Nat) : Int)⟩) :
    Spells magnitude (['0', '.'] ++ List.replicate zeros '0' ++ Nat.toDigits 10 digits) := by
  have all : ∀ c ∈ List.replicate zeros '0' ++ Nat.toDigits 10 digits, c.isDigit = true := by
    intro c member
    rcases List.mem_append.mp member with member | member
    · exact zeros_isDigit zeros c member
    · exact digits_isDigit digits c member
  have parts := DocRules.Decimal.Numeral.parts_of_decimals (List.cons_ne_nil '0' [])
    (zeros_isDigit 1) all
  have behind : List.replicate zeros '0' ++ Nat.toDigits 10 digits ≠ [] :=
    List.append_ne_nil_of_right_ne_nil _ Nat.toDigits_ne_nil
  refine ⟨_, _, _, parts, ⟨fun _ => rfl, fun none => absurd none behind⟩, ?_⟩
  have value : Nat.ofDigitChars 10 (['0'] ++ (List.replicate zeros '0' ++ Nat.toDigits 10 digits)) 0 =
      digits := by
    have lead : ['0'] = List.replicate 1 '0' := rfl
    rw [lead, Nat.ofDigitChars_append, Nat.ofDigitChars_replicate_zero, Nat.mul_zero,
      Nat.ofDigitChars_append, Nat.ofDigitChars_replicate_zero, Nat.mul_zero,
      Nat.ofDigitChars_ten_toDigits]
  have exponent : (0 : Int) - (List.replicate zeros '0' ++ Nat.toDigits 10 digits).length =
      -((zeros + (Nat.toDigits 10 digits).length : Nat) : Int) := by
    rw [List.length_append, List.length_replicate]
    omega
  rw [value, exponent]
  exact near

private theorem spells_positional (least : 0 < magnitude) (near : decimal.Near magnitude) :
    Spells magnitude decimal.positional.toList := by
  obtain ⟨digits, exponent⟩ := decimal
  have positive := digits_pos_of_near least near
  simp only [Decimal.positional, String.toList_ofList]
  split_ifs with whole within
  · obtain ⟨zeros, rfl⟩ := Int.eq_ofNat_of_zero_le whole
    exact spells_whole positive near
  · obtain ⟨places, rfl⟩ : ∃ places : Nat, exponent = -(places : Int) := ⟨(-exponent).toNat, by omega⟩
    have cut : ((Nat.toDigits 10 digits).length + -(places : Int)).toNat =
        (Nat.toDigits 10 digits).length - places := by omega
    rw [cut]
    exact spells_within positive near (by omega) (by omega)
  · obtain ⟨zeros, named⟩ : ∃ zeros : Nat,
        -((Nat.toDigits 10 digits).length + exponent) = (zeros : Int) :=
      ⟨(-((Nat.toDigits 10 digits).length + exponent)).toNat, by omega⟩
    obtain rfl : exponent = -((zeros + (Nat.toDigits 10 digits).length : Nat) : Int) := by omega
    rw [named, Int.toNat_natCast]
    exact spells_after near

private theorem spells_scientific {plus : String} (sign : plus = "" ∨ plus = "+")
    (near : decimal.Near magnitude) :
    Spells magnitude (decimal.scientific plus).toList := by
  obtain ⟨digits, exponent⟩ := decimal
  have all := digits_isDigit digits
  have nonempty : Nat.toDigits 10 digits ≠ [] := Nat.toDigits_ne_nil
  have value := @Nat.ofDigitChars_ten_toDigits digits
  simp only [Decimal.scientific, String.append_assoc, String.toList_append, String.toList_ofList]
  generalize Nat.toDigits 10 digits = chars at all nonempty value
  obtain ⟨c, rest, rfl⟩ := List.exists_cons_of_ne_nil nonempty
  have power := DocRules.Decimal.signed?_toString_of_plus sign (exponent + (c :: rest).length - 1)
  rw [String.toList_append] at power
  have first : ∀ d ∈ [c], d.isDigit = true := fun d member => all d (by simp_all)
  cases rest with
  | nil =>
    have parts := DocRules.Decimal.Numeral.parts_of_exponent (List.cons_ne_nil c []) first power
    have pointless : '.' ∉ [c] ++ 'e' :: ((if exponent + ([c].length : Nat) - 1 < 0 then "" else plus).toList ++
        (toString (exponent + ([c].length : Nat) - 1)).toList) := by
      intro member
      rcases List.mem_append.mp member with point | point
      · exact absurd (first _ point) (by decide)
      · rcases List.mem_cons.mp point with same | point
        · contradiction
        · rcases DocRules.Decimal.mem_of_signed? power point with digit | same | same <;> contradiction
    refine ⟨_, _, _, parts, ⟨fun _ => rfl, fun _ => pointless⟩, ?_⟩
    have same : exponent + ([c].length : Nat) - 1 - (([] : List Char).length : Nat) = exponent := by
      simp
    rwa [List.append_nil, value, same]
  | cons d rest =>
    have decimals : ∀ e ∈ d :: rest, e.isDigit = true :=
      fun e member => all e (List.mem_cons_of_mem _ member)
    have scaled : DocRules.Decimal.Numeral.exponent? ('e' :: _) = some _ := power
    have parts := DocRules.Decimal.Numeral.parts_of_point (List.cons_ne_nil c []) first decimals (by simp)
      scaled
    refine ⟨[c], d :: rest, exponent + (c :: d :: rest).length - 1, by simpa using parts,
      ⟨fun _ => rfl, nofun⟩, ?_⟩
    have same : exponent + ((c :: d :: rest).length : Nat) - 1 - ((d :: rest).length : Nat) = exponent := by
      simp only [List.length_cons]
      omega
    rw [List.singleton_append, value, same]
    exact near

/-- A positive exponent has a plus sign or none, so that it is read. -/
def Style.Signs (style : Style) : Prop :=
  style.positiveExponent = "" ∨ style.positiveExponent = "+"

/-- The digits of a positive magnitude are near it. -/
theorem spells_magnitudeText {style : Style} (signs : style.Signs) (least : 0 < magnitude) :
    Spells magnitude (style.magnitudeText magnitude).toList := by
  rw [Style.magnitudeText, if_neg (by omega)]
  have near := shortest_near style.tie least
  dsimp only
  split
  · exact spells_positional least near
  · exact spells_scientific signs near

/-- A numeral whose value is near a finite magnitude is read as the magnitude. -/
theorem toBinary64_of_near {negative : Bool} {digits : List Char} {exponent : Int}
    (all : ∀ c ∈ digits, c.isDigit = true) (least : 0 < magnitude) (finite : magnitude < infinity)
    (near : Decimal.Near magnitude ⟨Nat.ofDigitChars 10 digits 0, exponent⟩) :
    (⟨negative, digits, exponent⟩ : DocRules.Decimal.Numeral).toBinary64 =
      ofMagnitude negative magnitude := by
  rw [DocRules.Decimal.Numeral.toBinary64,
    ofDecimal_of_near least finite (DocRules.Decimal.ofDigitChars_lt all) near]

theorem isNaN_of_isFinite {x : Binary64} (finite : x.isFinite = true) : x.isNaN = false := by
  have below : x.magnitude < infinity := by simpa [isFinite] using finite
  simpa [isNaN] using below.le

theorem ofMagnitude_eq (x : Binary64) : ofMagnitude x.negative x.magnitude = x := by
  obtain ⟨bits⟩ := x
  have bound := bits.toNat_lt
  have sign : signBit = 2 ^ 63 := rfl
  simp only [ofMagnitude, negative, magnitude, decide_eq_true_eq, sign]
  congr 1
  rw [← UInt64.toNat_inj, UInt64.toNat_ofNat']
  split <;> omega

section Magnitude

variable {isNegative : Bool} {magnitude' : Nat}

theorem magnitude_ofMagnitude (bound : magnitude ≤ infinity) :
    (ofMagnitude isNegative magnitude).magnitude = magnitude := by
  have sign : signBit = 9223372036854775808 := rfl
  have top : infinity = 9218868437227405312 := rfl
  simp only [ofMagnitude, Binary64.magnitude, UInt64.toNat_ofNat', sign]
  split <;> omega

theorem negative_ofMagnitude (bound : magnitude ≤ infinity) :
    (ofMagnitude isNegative magnitude).negative = isNegative := by
  have sign : signBit = 9223372036854775808 := rfl
  have top : infinity = 9218868437227405312 := rfl
  simp only [ofMagnitude, Binary64.negative, UInt64.toNat_ofNat', sign]
  cases isNegative <;> simp <;> omega

theorem isFinite_ofMagnitude (bound : magnitude ≤ infinity) :
    (ofMagnitude isNegative magnitude).isFinite = decide (magnitude < infinity) := by
  rw [isFinite, magnitude_ofMagnitude bound]

theorem equal_ofMagnitude (bound : magnitude ≤ infinity) (bound' : magnitude' ≤ infinity) :
    (ofMagnitude isNegative magnitude).equal (ofMagnitude isNegative magnitude') =
      decide (ofMagnitude isNegative magnitude = ofMagnitude isNegative magnitude') := by
  have same : ofMagnitude isNegative magnitude = ofMagnitude isNegative magnitude' ↔
      magnitude = magnitude' := by
    constructor
    · intro same
      rw [← magnitude_ofMagnitude bound, same, magnitude_ofMagnitude bound']
    · rintro rfl
      rfl
  rw [equal, isNaN, isNaN, place, place, magnitude_ofMagnitude bound, magnitude_ofMagnitude bound',
    negative_ofMagnitude bound, negative_ofMagnitude bound']
  simp only [same, Nat.not_lt.mpr bound, Nat.not_lt.mpr bound', decide_false, Bool.not_false, Bool.true_and]
  rw [Bool.eq_iff_iff, beq_iff_eq, decide_eq_true_iff]
  cases isNegative <;> simp

end Magnitude

/-- The text of a finite magnitude is a tidy numeral that is read as the magnitude. -/
theorem exists_parts_of_magnitudeText {style : Style} (signs : style.Signs) (finite : magnitude < infinity) :
    ∃ whole decimals exponent,
      DocRules.Decimal.Numeral.Parts (style.magnitudeText magnitude).toList whole decimals exponent ∧
      DocRules.Decimal.Numeral.Tidy (style.magnitudeText magnitude).toList whole decimals ∧
      ∀ negative, (⟨negative, whole ++ decimals, exponent - decimals.length⟩ :
        DocRules.Decimal.Numeral).toBinary64 = ofMagnitude negative magnitude := by
  rcases Nat.eq_zero_or_pos magnitude with rfl | least
  · have text : (style.magnitudeText 0).toList =
        List.replicate 1 '0' ++ '.' :: List.replicate 1 '0' := by
      rw [Style.magnitudeText, if_pos rfl]
      rfl
    rw [text]
    exact ⟨_, _, _, DocRules.Decimal.Numeral.parts_of_decimals (List.cons_ne_nil '0' [])
      (zeros_isDigit 1) (zeros_isDigit 1), ⟨fun _ => rfl, nofun⟩, fun _ => rfl⟩
  · obtain ⟨whole, decimals, exponent, parts, tidy, near⟩ := spells_magnitudeText signs least
    have all : ∀ c ∈ whole ++ decimals, c.isDigit = true := by
      intro c member
      rcases List.mem_append.mp member with member | member
      · exact parts.whole_digits c member
      · exact parts.decimals_digits c member
    exact ⟨whole, decimals, exponent, parts, tidy, fun _ => toBinary64_of_near all least finite near⟩

/-- A magnitude is written with a point or an exponent. -/
theorem mem_magnitudeText (style : Style) (magnitude : Nat) :
    '.' ∈ (style.magnitudeText magnitude).toList ∨ 'e' ∈ (style.magnitudeText magnitude).toList := by
  unfold Style.magnitudeText
  split
  · exact .inl (by decide)
  dsimp only
  split
  · rw [Decimal.positional, String.toList_ofList]
    split_ifs <;> simp
  · simp [Decimal.scientific]

/-- The text of a finite number is a tidy numeral with a minus sign or without, and is read as the
number. -/
theorem exists_parts_of_text {style : Style} (signs : style.Signs) {x : Binary64}
    (finite : x.isFinite = true) :
    ∃ text whole decimals exponent,
      (style.text x).toList = (if x.negative then ['-'] else []) ++ text ∧
      DocRules.Decimal.Numeral.Parts text whole decimals exponent ∧
      DocRules.Decimal.Numeral.Tidy text whole decimals ∧
      (⟨x.negative, whole ++ decimals, exponent - decimals.length⟩ :
        DocRules.Decimal.Numeral).toBinary64 = x := by
  have below : x.magnitude < infinity := by simpa [isFinite] using finite
  obtain ⟨whole, decimals, exponent, parts, tidy, read⟩ := exists_parts_of_magnitudeText signs below
  refine ⟨_, whole, decimals, exponent, ?_, parts, tidy, ?_⟩
  · rw [Style.text, isNaN_of_isFinite finite, finite]
    cases x.negative with
    | true => simp
    | false => simp
  · rw [read, ofMagnitude_eq]

/-- The text of a finite number is not read as an integer. -/
theorem int64?_text (style : Style) {x : Binary64} (finite : x.isFinite = true) :
    DocRules.Decimal.int64? (style.text x).toList = none := by
  have marked : '.' ∈ (style.text x).toList ∨ 'e' ∈ (style.text x).toList := by
    rw [Style.text, isNaN_of_isFinite finite, finite, if_neg Bool.false_ne_true, if_pos rfl,
      String.toList_append]
    rcases mem_magnitudeText style x.magnitude with point | power
    · exact .inl (List.mem_append_right _ point)
    · exact .inr (List.mem_append_right _ power)
  rw [DocRules.Decimal.int64?, Option.bind_eq_none_iff]
  intro n read
  rcases marked with member | member
  · rcases DocRules.Decimal.mem_of_signed? read member with digit | same | same <;> contradiction
  · rcases DocRules.Decimal.mem_of_signed? read member with digit | same | same <;> contradiction

end DocRules.Binary64

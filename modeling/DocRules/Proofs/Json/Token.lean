import DocRules.Json
import DocRules.Proofs.Json.Numeral
import DocRules.Proofs.Text.Cut

/-! # Reading tokens of JSON text

The tokens of a text are read one after the other: a mark, a string up to its closing quote, or a run of
the characters of numerals and words up to something else.
-/

namespace DocRules.Json.Token

variable {c : Char} {rest tail : List Char}

theorem ofChars?_of_isBlank (blank : isBlank c = true) : ofChars? (c :: rest) = ofChars? rest := by
  rw [ofChars?, if_pos blank]

/-- A character that is a mark is neither a blank nor a quote. -/
theorem ofChars?_of_mark {mark : Token} (read : mark? c = some mark) :
    ofChars? (c :: rest) = (ofChars? rest).map (mark :: ·) := by
  have black : isBlank c = false := by
    unfold mark? at read
    split at read <;> first | contradiction | rfl
  have unquoted : c ≠ '"' := by
    rintro rfl
    contradiction
  rw [ofChars?, black, if_neg Bool.false_ne_true, if_neg unquoted, read]

theorem ofChars?_of_pieces {pieces : List Piece} {after : List Char}
    (read : pieces? rest = some (pieces, after)) :
    ofChars? ('"' :: rest) =
      (ofChars? after).map (.string ((assemble? pieces).map .ofList) :: ·) := by
  rw [ofChars?, if_neg (by decide), if_pos rfl]
  split
  · simp_all
  · rename_i found
    rw [read] at found
    obtain ⟨rfl, rfl⟩ := Prod.mk.inj (Option.some.inj found)
    rfl

private theorem not_isBlank_of_isPlainChar (plain : isPlainChar c = true) :
    isBlank c = false ∧ c ≠ '"' ∧ mark? c = none := by
  refine ⟨?_, ?_, ?_⟩
  · cases blank : isBlank c with
    | false => rfl
    | true =>
      simp only [isBlank, Bool.or_eq_true, beq_iff_eq] at blank
      rcases blank with ((rfl | rfl) | rfl) | rfl <;> contradiction
  · rintro rfl
    contradiction
  · unfold mark?
    split <;> first | contradiction | rfl

/-- A numeral or a word ends where something else follows. -/
theorem ofChars?_of_plain {text : List Char} {token : Token} (nonempty : text ≠ [])
    (all : ∀ c ∈ text, isPlainChar c = true) (ends : ∀ c ∈ tail.head?, isPlainChar c = false)
    (read : plain? text = some token) :
    ofChars? (text ++ tail) = (ofChars? tail).map (token :: ·) := by
  obtain ⟨c, rest, rfl⟩ := List.exists_cons_of_ne_nil nonempty
  obtain ⟨first, later⟩ := List.forall_mem_cons.mp all
  obtain ⟨black, unquoted, unmarked⟩ := not_isBlank_of_isPlainChar first
  obtain ⟨taken, dropped⟩ := Text.cut_of_ends later ends
  rw [List.cons_append, ofChars?, black, if_neg Bool.false_ne_true, if_neg unquoted, unmarked]
  simp only [first, if_true, taken, dropped, read]

private theorem isPlainChar_of_isNumeralChar (numeral : Decimal.Numeral.isNumeralChar c = true) :
    isPlainChar c = true := by
  simp only [Decimal.Numeral.isNumeralChar, Bool.or_eq_true, beq_iff_eq] at numeral
  rcases numeral with ((((digit | rfl) | rfl) | rfl) | rfl) | rfl
  · simp [isPlainChar, Char.isAlphanum, digit]
  all_goals rfl

/-- A numeral is read up to what no numeral contains. -/
theorem ofChars?_of_numeral {text : List Char} {numeral : Numeral}
    (written : Numeral.ofChars? text = some numeral)
    (ends : ∀ c ∈ tail.head?, isPlainChar c = false) :
    ofChars? (text ++ tail) = (ofChars? tail).map (.plain (.number numeral.number?) :: ·) := by
  obtain ⟨nonempty, chars⟩ := Numeral.isNumeralChar_of_written written
  have notNull : text ≠ "null".toList := by rintro rfl; contradiction
  have notTrue : text ≠ "true".toList := by rintro rfl; contradiction
  have notFalse : text ≠ "false".toList := by rintro rfl; contradiction
  have read : plain? text = some (.plain (.number numeral.number?)) := by
    rw [plain?, if_neg notNull, if_neg notTrue, if_neg notFalse, written, Option.map_some]
  exact ofChars?_of_plain nonempty (fun c member => isPlainChar_of_isNumeralChar (chars c member)) ends read

end DocRules.Json.Token

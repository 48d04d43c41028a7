import DocRules.Proofs.Grammar.Fault
import DocRules.Proofs.Token.Extent

/-! # Texts that agree up to a token

Where a token ends is settled by the character behind it. So two texts that agree up to the end of a token
have the same tokens up to this one, if the token ends there in both (`Cursor.exists_cutoff`). An error that
is pinned to a token is therefore the same for all these texts (`Rule.fault_of_parse`).
-/

namespace DocRules

/-- A front of a text is determined by its number of bytes. -/
theorem Text.eq_of_isPrefix {front front' text : List Char} (begins : front <+: text)
    (begins' : front' <+: text) (same : byteLength front = byteLength front') : front = front' := by
  obtain ⟨tail, rfl⟩ := begins
  obtain ⟨tail', whole⟩ := begins'
  obtain ⟨middle, rfl, -⟩ := exists_of_byteLength_le whole.symm (Nat.le_of_eq same)
  cases middle with
  | nil => rw [List.append_nil]
  | cons c middle =>
    have size := byteLength_pos (List.cons_ne_nil c middle)
    rw [byteLength_append] at same
    omega

/-- A token has the text that it was read from. -/
theorem Token.text_ofText (text : String) : (ofText text).text = text := by
  unfold ofText
  split <;> rfl

namespace Cursor

open Text

variable {cursor after : Cursor} {lexeme : Lexeme} {text tail : List Char}

/-- A token ends behind a brace, or behind characters of a word where there is no other one. -/
theorem piece_append_eq_iff (nonempty : text ≠ []) :
    piece (text ++ tail) = text ↔
      (∃ c, text = [c] ∧ isBrace c = true) ∨
        (∀ c ∈ text, isWordChar c = true) ∧ ∀ c ∈ tail.head?, isWordChar c = false := by
  obtain ⟨c, rest, rfl⟩ := List.exists_cons_of_ne_nil nonempty
  rw [List.cons_append, piece]
  cases brace : isBrace c with
  | true =>
    have word : isWordChar c = false := by simp [isWordChar, brace]
    rw [if_pos rfl]
    constructor
    · intro whole
      obtain ⟨-, rfl⟩ := List.cons.inj whole
      exact .inl ⟨c, rfl, brace⟩
    · rintro (⟨d, single, -⟩ | ⟨chars, -⟩)
      · obtain ⟨rfl, rfl⟩ := List.cons.inj single
        rfl
      · simp [word] at chars
  | false =>
    simp only [Bool.false_eq_true, if_false, ← List.cons_append]
    constructor
    · intro whole
      refine .inr ⟨?_, ?_⟩
      · rw [← whole]
        exact List.all_eq_true.mp List.all_takeWhile
      · have split := List.takeWhile_append_dropWhile (p := isWordChar) (l := c :: rest ++ tail)
        rw [whole, List.append_cancel_left_eq] at split
        have stopped := List.head?_dropWhile_not isWordChar (c :: rest ++ tail)
        rw [split] at stopped
        intro d first
        rw [Option.mem_def.mp first] at stopped
        simpa using stopped
    · rintro (⟨d, single, brace'⟩ | ⟨chars, ends⟩)
      · obtain ⟨rfl, -⟩ := List.cons.inj single
        simp [brace] at brace'
      · exact (cut_of_ends chars ends).1

/-- Where a token ends only the next character counts. -/
theorem piece_append_congr {tail' : List Char} (nonempty : text ≠ []) (whole : piece (text ++ tail) = text)
    (next : tail.head? = tail'.head?) : piece (text ++ tail') = text := by
  rw [piece_append_eq_iff nonempty] at whole ⊢
  rwa [← next]

theorem next?_blanks {blanks : List Char} (blank : ∀ c ∈ blanks, isBlank c = true) (rest : List Char)
    (offset : Nat) :
    (⟨blanks ++ rest, offset⟩ : Cursor).next? = (⟨rest, offset + byteLength blanks⟩ : Cursor).next? := by
  simp only [next?, List.takeWhile_append_of_pos blank, List.dropWhile_append_of_pos blank,
    byteLength_append, Nat.add_assoc]

theorem next?_of_piece (nonempty : text ≠ []) (unblank : ∀ c ∈ text, isBlank c = false)
    (whole : piece (text ++ tail) = text) (offset : Nat) :
    (⟨text ++ tail, offset⟩ : Cursor).next? =
      some (⟨.ofText (.ofList text), offset, offset + byteLength text⟩, ⟨tail, offset + byteLength text⟩) := by
  obtain ⟨c, rest, rfl⟩ := List.exists_cons_of_ne_nil nonempty
  have first := unblank c List.mem_cons_self
  have skipped : (c :: rest ++ tail).takeWhile isBlank = [] := by simp [first]
  have kept : (c :: rest ++ tail).dropWhile isBlank = c :: rest ++ tail := by simp [first]
  simp only [next?, skipped, kept, whole, byteLength, Nat.add_zero, List.isEmpty_cons, Bool.false_eq_true,
    if_false, List.drop_left]

/-- If the token that begins a text ends behind a certain front, it is what the front writes. -/
theorem piece_eq_of_stop {offset : Nat} (nonempty : text ≠ []) (unblank : ∀ c ∈ text, isBlank c = false)
    (found : (⟨text ++ tail, offset⟩ : Cursor).next? = some (lexeme, after))
    (stop : lexeme.stop = offset + byteLength text) : piece (text ++ tail) = text := by
  obtain ⟨c, rest, rfl⟩ := List.exists_cons_of_ne_nil nonempty
  have first := unblank c List.mem_cons_self
  have skipped : (c :: rest ++ tail).takeWhile isBlank = [] := by simp [first]
  have kept : (c :: rest ++ tail).dropWhile isBlank = c :: rest ++ tail := by simp [first]
  simp only [next?, skipped, kept, byteLength, Nat.add_zero] at found
  split at found
  · contradiction
  · obtain ⟨rfl, -⟩ := Prod.mk.inj (Option.some.inj found)
    have same : byteLength (piece (c :: rest ++ tail)) = byteLength (c :: rest) := by
      simpa only [Nat.add_left_cancel_iff] using stop
    exact eq_of_isPrefix (piece_isPrefix _) (List.prefix_append _ tail) same

theorem lexemes_eq_cons_iff {rest : List Lexeme} :
    cursor.lexemes = lexeme :: rest ↔ ∃ after, cursor.next? = some (lexeme, after) ∧ after.lexemes = rest := by
  rw [lexemes]
  split
  · rename_i absent
    simp [absent]
  · rename_i first after found
    simp only [found, List.cons.injEq, Option.some.injEq, Prod.mk.injEq]
    constructor
    · rintro ⟨same, read⟩
      exact ⟨after, ⟨same, rfl⟩, read⟩
    · rintro ⟨_, ⟨same, rfl⟩, read⟩
      exact ⟨same, read⟩

/-- A text has the tokens up to a certain one if it agrees with another one up to the end of this token, and
the token ends there. -/
theorem exists_cutoff {front rest : List Lexeme} (split : cursor.lexemes = front ++ lexeme :: rest) :
    ∃ shown text tail, cursor.rest = shown ++ (text ++ tail) ∧ text ≠ [] ∧
      (∀ c ∈ text, isBlank c = false) ∧ piece (text ++ tail) = text ∧
      lexeme = ⟨.ofText (.ofList text), cursor.offset + byteLength shown,
        cursor.offset + byteLength shown + byteLength text⟩ ∧
      ∀ tail', piece (text ++ tail') = text → ∃ rest',
        (⟨shown ++ (text ++ tail'), cursor.offset⟩ : Cursor).lexemes = front ++ lexeme :: rest' := by
  induction front generalizing cursor with
  | nil =>
    obtain ⟨after, found, -⟩ := lexemes_eq_cons_iff.mp split
    obtain ⟨blanks, text, parts, blank, nonempty, black, whole, rfl, -⟩ := exists_of_next? found
    have unblank := fun c member => not_isBlank_of_not_isSpace (black c member)
    refine ⟨blanks, text, after.rest, parts, nonempty, unblank, whole, rfl, fun tail' ends => ?_⟩
    have read := (next?_blanks blank (text ++ tail') cursor.offset).trans (next?_of_piece nonempty unblank ends _)
    exact ⟨_, lexemes_eq_cons_iff.mpr ⟨_, read, rfl⟩⟩
  | cons first front ih =>
    obtain ⟨after, found, later⟩ := lexemes_eq_cons_iff.mp split
    obtain ⟨blanks, passed, parts, blank, nonempty, black, whole, rfl, reached⟩ := exists_of_next? found
    have unblank := fun c member => not_isBlank_of_not_isSpace (black c member)
    obtain ⟨shown, text, tail, parts', nonempty', unblank', whole', placed, cutoff⟩ := ih later
    refine ⟨blanks ++ passed ++ shown, text, tail, by simp [parts, parts'], nonempty', unblank', whole', ?_,
      fun tail' ends => ?_⟩
    · simp only [placed, reached, byteLength_append, Nat.add_assoc]
    · obtain ⟨rest', read⟩ := cutoff tail' ends
      -- the first token ends as before, since something of the text that is kept stands behind it
      have next : after.rest.head? = (shown ++ (text ++ tail')).head? := by
        obtain ⟨c, more, same⟩ := List.exists_cons_of_ne_nil nonempty'
        rw [parts', same]
        cases shown <;> rfl
      refine ⟨rest', lexemes_eq_cons_iff.mpr ⟨⟨shown ++ (text ++ tail'), after.offset⟩, ?_, read⟩⟩
      simp only [List.append_assoc]
      rw [next?_blanks blank, next?_of_piece nonempty unblank (piece_append_congr nonempty whole next),
        reached]

end Cursor

/-- A text that is no rule because of a token, or because it ends, has its error at that token or at its end.
At the end all tokens have been taken, and every further one would be what is expected or be refused in the
same way. At a token the error depends on nothing that comes later: every text that agrees up to the end of
the token, and in which the token ends there, has the same error. -/
theorem Rule.fault_of_parse {text : String} {expected : Expected} {found : Option Token} {offset : Nat}
    (failed : Rule.parse text = .error (.unexpected expected found offset)) :
    (found = none ∧ offset = Text.byteLength text.toList ∧
      Parse.Lacks Parse.whole expected (Lexeme.ofText text)) ∨
    ∃ (token : Token) (shown tail : String) (stop : Nat),
      found = some token ∧ token.text ≠ "end of input" ∧ text = shown ++ token.text ++ tail ∧
      offset = Text.byteLength shown.toList ∧ ⟨token, offset, stop⟩ ∈ Lexeme.ofText text ∧
      (⟨(token.text ++ tail).toList, offset⟩ : Cursor).next? =
        some (⟨token, offset, stop⟩, ⟨tail.toList, stop⟩) ∧
      ∀ (tail' : String) (lexeme : Lexeme) (after : Cursor),
        (⟨(token.text ++ tail').toList, offset⟩ : Cursor).next? = some (lexeme, after) → lexeme.stop = stop →
        Rule.parse (shown ++ token.text ++ tail') = .error (.unexpected expected (some token) offset) := by
  cases Parse.pinned_of_whole _ failed with
  | ended lacks => exact .inl ⟨rfl, rfl, lacks⟩
  | @token _ front rest lexeme split refuses =>
    obtain ⟨shown, written, tail, parts, nonempty, unblank, whole, rfl, cutoff⟩ := Cursor.exists_cutoff split
    replace parts : text.toList = shown ++ (written ++ tail) := parts
    simp only [Cursor.ofText, Nat.zero_add] at cutoff refuses split ⊢
    refine .inr ⟨_, .ofList shown, .ofList tail, Text.byteLength shown + Text.byteLength written, rfl, ?_, ?_,
      ?_, ?_, ?_, ?_⟩
    · rw [Token.text_ofText]
      intro same
      have chars := congrArg String.toList same
      rw [String.toList_ofList] at chars
      have blank : ' ' ∈ written := by
        rw [chars]
        decide
      exact absurd (unblank _ blank) (by decide)
    · rw [Token.text_ofText, ← String.toList_inj]
      simpa only [String.toList_append, String.toList_ofList, List.append_assoc] using parts
    · rw [String.toList_ofList]
    · rw [split]
      exact List.mem_append_right _ List.mem_cons_self
    · simp only [Token.text_ofText, String.toList_append, String.toList_ofList]
      exact Cursor.next?_of_piece nonempty unblank whole _
    · intro tail' lexeme after found stop
      simp only [Token.text_ofText, String.toList_append, String.toList_ofList] at found
      obtain ⟨rest', read⟩ := cutoff tail'.toList (Cursor.piece_eq_of_stop nonempty unblank found stop)
      have chars : (.ofList shown ++ .ofList written ++ tail' : String).toList =
          shown ++ (written ++ tail'.toList) := by
        simp only [String.toList_append, String.toList_ofList, List.append_assoc]
      rw [Rule.parse, Token.text_ofText, Lexeme.ofText, Cursor.ofText, chars, read]
      exact refuses _ _ _ rest'

/-- The theorem at a mark that is no word of a body, whatever stands behind the space after it, and at the end
of a text that lacks the condition of a loop. -/
theorem Rule.fault_at_mark_and_end :
    Rule.parse "IF: \x7b é FOR:\u00a0x" = .error (.unexpected (.token .closeBrace) (some .forMark) 9) ∧
    Rule.parse "IF: \x7b FOR: i=0:xs.size()" = .error (.unexpected (.token .openBrace) none 24) ∧
    Parse.whole 26 (Lexeme.ofText "IF: \x7b FOR: i=0:xs.size()" ++ [⟨.colon, 25, 26⟩]) =
      .error (.unexpected (.token .openBrace) (some .colon) 25) := by
  constructor
  · have failed : Rule.parse "IF: \x7b é FOR: \x7d" =
        .error (.unexpected (.token .closeBrace) (some .forMark) 9) := by
      rw [← Outcome.failure?_eq_some_iff]
      decide +kernel
    obtain ⟨absent, -⟩ | ⟨token, shown, tail, stop, same, -, parts, offset, -, next, agrees⟩ :=
      fault_of_parse failed
    · contradiction
    · obtain rfl := Option.some.inj same
      have whole : "IF: \x7b é ".toList ++ "FOR: \x7d".toList =
          shown.toList ++ (Token.forMark.text ++ tail).toList := by
        rw [← String.toList_append, ← String.toList_append, ← String.append_assoc, ← parts]
        rfl
      have front : "IF: \x7b é ".toList = shown.toList :=
        Text.eq_of_isPrefix (List.prefix_append _ _) ⟨_, whole.symm⟩
          ((by decide : Text.byteLength "IF: \x7b é ".toList = 9).trans offset)
      obtain rfl := String.toList_inj.mp front
      rw [← String.toList_inj.mp (List.append_cancel_left whole)] at next
      have placed : (⟨"FOR: \x7d".toList, 9⟩ : Cursor).next? =
          some (⟨.forMark, 9, 13⟩, ⟨" \x7d".toList, 13⟩) :=
        rfl
      have read : (⟨(Token.forMark.text ++ "\u00a0x").toList, 9⟩ : Cursor).next? =
          some (⟨.forMark, 9, 13⟩, ⟨"\u00a0x".toList, 13⟩) :=
        rfl
      obtain ⟨same, -⟩ := Prod.mk.inj (Option.some.inj (placed.symm.trans next))
      exact agrees "\u00a0x" _ _ read (congrArg Lexeme.stop same)
  · have failed : Rule.parse "IF: \x7b FOR: i=0:xs.size()" =
        .error (.unexpected (.token .openBrace) none 24) := by
      rw [← Outcome.failure?_eq_some_iff]
      decide +kernel
    obtain ⟨-, -, lacks⟩ | ⟨token, _, _, _, impossible, -⟩ := fault_of_parse failed
    · exact ⟨failed, lacks.refuses .colon (by simp [Expected.Admits]) 26 25 26 []⟩
    · contradiction

end DocRules

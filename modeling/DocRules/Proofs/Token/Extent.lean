import DocRules.Proofs.Grammar.Reading
import DocRules.Proofs.Token

/-! # How far a text is read

A word ends at every space, but only blanks are skipped between words. So reading stops in front of the
first space that is no blank as it does at the end of the text: what is hidden behind such a space makes no
difference (`Cursor.lexemes_append_hidden`). Everything in front of it is read (`Cursor.covered_of_unstopped`).
A text that is a rule is therefore covered by the tokens of the rule if and only if nothing but spaces stands
behind the first space that is no blank (`Rule.covered_iff_of_parse`).
-/

namespace DocRules

namespace Text

/-- A space that is no blank; reading stops in front of it. -/
def isStop (c : Char) : Bool :=
  isSpace c && !isBlank c

theorem byteLength_append (front tail : List Char) :
    byteLength (front ++ tail) = byteLength front + byteLength tail := by
  induction front with
  | nil => simp [byteLength]
  | cons c front ih => simp only [List.cons_append, byteLength, ih, Nat.add_assoc]

theorem byteLength_pos {text : List Char} (nonempty : text ≠ []) : 0 < byteLength text := by
  obtain ⟨c, rest, rfl⟩ := List.exists_cons_of_ne_nil nonempty
  have size := c.utf8Size_pos
  simp only [byteLength]
  omega

/-- Of two fronts of a text the one with fewer bytes is a front of the other one. -/
theorem exists_of_byteLength_le {front tail front' tail' : List Char}
    (whole : front ++ tail = front' ++ tail') (le : byteLength front ≤ byteLength front') :
    ∃ middle, front' = front ++ middle ∧ tail = middle ++ tail' := by
  rcases List.append_eq_append_iff.mp whole with split | ⟨middle, rfl, rfl⟩
  · exact split
  · cases middle with
    | nil => exact ⟨[], by simp, rfl⟩
    | cons c middle =>
      have size := byteLength_pos (List.cons_ne_nil c middle)
      rw [byteLength_append] at le
      omega

end Text

namespace Cursor

open Text

variable {cursor after : Cursor} {lexeme : Lexeme}

theorem piece_isPrefix (rest : List Char) : piece rest <+: rest := by
  cases rest with
  | nil => exact List.prefix_rfl
  | cons c rest =>
    rw [piece]
    split
    · exact ⟨rest, rfl⟩
    · exact List.takeWhile_prefix _

private theorem not_isSpace_of_mem_piece {rest : List Char} : ∀ c ∈ piece rest, isSpace c = false :=
  not_isSpace_of_cases (piece_cases rest)

/-- There is a token in front of everything but a space. -/
theorem isSpace_of_piece_eq_nil {c : Char} {rest : List Char} (absent : piece (c :: rest) = []) :
    isSpace c = true := by
  rw [piece] at absent
  split at absent
  · contradiction
  · rename_i plain
    cases space : isSpace c with
    | true => rfl
    | false => simp [isWordChar, plain, space] at absent

/-- A token ends in front of a space. -/
theorem piece_append_of_isSpace {c : Char} (space : isSpace c = true) (front tail : List Char) :
    piece (front ++ c :: tail) = piece front := by
  have ends : isWordChar c = false := by simp [isWordChar, space]
  cases front with
  | nil =>
    have plain : isBrace c = false := by
      cases brace : isBrace c with
      | false => rfl
      | true => simp [not_isSpace_of_isBrace brace] at space
    simp [piece, plain, ends]
  | cons d front =>
    rw [List.cons_append, piece, piece, ← List.cons_append, takeWhile_append_cons ends]

/-- The token that is found next stands behind blanks and begins the text there. -/
theorem exists_of_next? (found : cursor.next? = some (lexeme, after)) :
    ∃ blanks text, cursor.rest = blanks ++ (text ++ after.rest) ∧ (∀ c ∈ blanks, isBlank c = true) ∧
      text ≠ [] ∧ (∀ c ∈ text, isSpace c = false) ∧ piece (text ++ after.rest) = text ∧
      lexeme = ⟨.ofText (.ofList text), cursor.offset + byteLength blanks,
        cursor.offset + byteLength blanks + byteLength text⟩ ∧
      after.offset = lexeme.stop := by
  simp only [next?] at found
  split at found
  · contradiction
  · rename_i nonempty
    obtain ⟨rfl, rfl⟩ := Prod.mk.inj (Option.some.inj found)
    have whole := List.prefix_iff_eq_append.mp (piece_isPrefix (cursor.rest.dropWhile isBlank))
    refine ⟨cursor.rest.takeWhile isBlank, piece (cursor.rest.dropWhile isBlank), ?_,
      List.all_eq_true.mp List.all_takeWhile, by simpa using nonempty, not_isSpace_of_mem_piece, ?_, rfl, rfl⟩
    · simp only [whole, List.takeWhile_append_dropWhile]
    · simp only [whole]

/-- A token is found behind blanks, is not empty and has no space in it. -/
theorem next?_eq_some (found : cursor.next? = some (lexeme, after)) :
    ∃ blanks text, cursor.rest = blanks ++ (text ++ after.rest) ∧ (∀ c ∈ blanks, isBlank c = true) ∧
      text ≠ [] ∧ (∀ c ∈ text, isSpace c = false) ∧
      lexeme.start = cursor.offset + byteLength blanks ∧
      lexeme.stop = lexeme.start + byteLength text ∧ after.offset = lexeme.stop := by
  obtain ⟨blanks, text, whole, blank, nonempty, black, -, rfl, reached⟩ := exists_of_next? found
  exact ⟨blanks, text, whole, blank, nonempty, black, rfl, rfl, reached⟩

/-- Where no token is found, blanks are followed by nothing or by a stop. -/
theorem next?_eq_none (absent : cursor.next? = none) :
    ∀ c ∈ (cursor.rest.dropWhile isBlank).head?, isStop c = true := by
  intro c first
  obtain ⟨tail, follows⟩ := List.head?_eq_some_iff.mp first
  have stopped := List.head?_dropWhile_not isBlank cursor.rest
  simp only [follows, List.head?_cons] at stopped
  simp only [next?, follows, ite_eq_left_iff, reduceCtorEq, imp_false, Decidable.not_not,
    List.isEmpty_iff] at absent
  simp [isStop, isSpace_of_piece_eq_nil absent, stopped]

/-- The next token is not looked for behind a stop. -/
theorem next?_append_of_isStop {c : Char} (stop : isStop c = true) (front tail : List Char)
    (offset : Nat) :
    (⟨front ++ c :: tail, offset⟩ : Cursor).next? =
      (⟨front, offset⟩ : Cursor).next?.map fun (lexeme, after) =>
        (lexeme, ⟨after.rest ++ c :: tail, after.offset⟩) := by
  simp only [isStop, Bool.and_eq_true, Bool.not_eq_true'] at stop
  obtain ⟨space, unblank⟩ := stop
  have within : (piece (front.dropWhile isBlank)).length ≤ (front.dropWhile isBlank).length :=
    (piece_isPrefix _).length_le
  simp only [next?, takeWhile_append_cons unblank, dropWhile_append_cons unblank,
    piece_append_of_isSpace space, List.drop_append_of_le_length within]
  split <;> rfl

/-- A text is cut at its first stop. -/
theorem isStop_of_head?_dropWhile (rest : List Char) :
    ∀ c ∈ (rest.dropWhile (!isStop ·)).head?, isStop c = true := by
  intro c first
  have stopped := List.head?_dropWhile_not (!isStop ·) rest
  rw [Option.mem_def.mp first] at stopped
  simpa using stopped

/-- What is hidden behind a stop makes no difference to the tokens. -/
theorem lexemes_append_hidden {hidden : List Char} (stops : ∀ c ∈ hidden.head?, isStop c = true)
    (cursor : Cursor) : (⟨cursor.rest ++ hidden, cursor.offset⟩ : Cursor).lexemes = cursor.lexemes := by
  cases hidden with
  | nil => rw [List.append_nil]
  | cons c tail =>
    have next := fun cursor : Cursor =>
      next?_append_of_isStop (stops c rfl) cursor.rest tail cursor.offset
    fun_induction lexemes cursor with
    | case1 cursor absent =>
      rw [lexemes]
      split
      · rfl
      · rename_i found
        rw [next, absent] at found
        contradiction
    | case2 cursor lexeme after found _ ih =>
      rw [lexemes]
      split
      · simp_all
      · rename_i found'
        rw [next, found] at found'
        obtain ⟨rfl, rfl⟩ := Prod.mk.inj (Option.some.inj found')
        rw [← ih]

/-- All tokens stand in front of the first stop. -/
theorem lexemes_takeWhile (cursor : Cursor) :
    (⟨cursor.rest.takeWhile (!isStop ·), cursor.offset⟩ : Cursor).lexemes = cursor.lexemes := by
  rw [← lexemes_append_hidden (isStop_of_head?_dropWhile cursor.rest), List.takeWhile_append_dropWhile]

/-- No token reaches behind the end of the text. -/
theorem stop_le_of_mem_lexemes (cursor : Cursor) :
    ∀ lexeme ∈ cursor.lexemes, lexeme.stop ≤ cursor.offset + byteLength cursor.rest := by
  fun_induction lexemes cursor with
  | case1 => simp
  | case2 cursor lexeme after found _ ih =>
    obtain ⟨blanks, text, whole, -, -, -, start, stop, reached⟩ := next?_eq_some found
    have length : byteLength cursor.rest = byteLength blanks + (byteLength text + byteLength after.rest) := by
      rw [whole, byteLength_append, byteLength_append]
    refine List.forall_mem_cons.mpr ⟨by omega, fun other member => ?_⟩
    have within := ih other member
    omega

/-- Every character that is not a space stands in one of the tokens from a place on. -/
def Covered (cursor : Cursor) : Prop :=
  ∀ before c after, cursor.rest = before ++ c :: after → isSpace c = false →
    ∃ lexeme ∈ cursor.lexemes, lexeme.start ≤ cursor.offset + byteLength before ∧
      cursor.offset + byteLength before < lexeme.stop

/-- A text without stops is read to its end. -/
theorem covered_of_unstopped (unstopped : ∀ c ∈ cursor.rest, isStop c = false) : cursor.Covered := by
  intro before c tail whole word
  have unblank := not_isBlank_of_not_isSpace word
  fun_induction lexemes cursor generalizing before with
  | case1 cursor absent =>
    -- The first character that is no blank would be a stop.
    have kept : cursor.rest.dropWhile isBlank ≠ [] := by
      simp [whole, dropWhile_append_cons unblank]
    obtain ⟨d, follows, first⟩ := List.exists_cons_of_ne_nil kept
    have stop := next?_eq_none absent d (by rw [first]; rfl)
    have member : d ∈ cursor.rest :=
      (List.dropWhile_sublist isBlank).mem (first ▸ List.mem_cons_self)
    simp [unstopped d member] at stop
  | case2 cursor lexeme after found _ ih =>
    obtain ⟨blanks, text, parts, blank, -, -, start, stop, reached⟩ := next?_eq_some found
    rcases cases_append (parts.symm.trans whole) with ⟨rest, rfl⟩ | ⟨rest, rfl, behind⟩
    · simp [blank c (by simp)] at unblank
    · rcases cases_append behind with ⟨rest', rfl⟩ | ⟨rest', rfl, later⟩
      · refine ⟨lexeme, List.mem_cons_self, ?_, ?_⟩
        · rw [byteLength_append]
          omega
        · have size := c.utf8Size_pos
          rw [byteLength_append] at stop ⊢
          simp only [byteLength] at stop
          omega
      · have unstopped' : ∀ d ∈ after.rest, isStop d = false :=
          fun d member => unstopped d (by simp [parts, member])
        obtain ⟨other, member, bounds⟩ := ih unstopped' rest' later
        refine ⟨other, List.mem_cons_of_mem _ member, ?_⟩
        rw [byteLength_append, byteLength_append]
        omega

/-- A text is covered if and only if nothing but spaces stands behind its first stop. -/
theorem covered_iff (cursor : Cursor) :
    cursor.Covered ↔ ∀ c ∈ cursor.rest.dropWhile (!isStop ·), isSpace c = true := by
  let front : Cursor := ⟨cursor.rest.takeWhile (!isStop ·), cursor.offset⟩
  have whole : front.rest ++ cursor.rest.dropWhile (!isStop ·) = cursor.rest :=
    List.takeWhile_append_dropWhile
  have read : cursor.lexemes = front.lexemes := cursor.lexemes_takeWhile.symm
  constructor
  · intro covered c member
    cases word : isSpace c with
    | true => rfl
    | false =>
      obtain ⟨middle, tail, hidden⟩ := List.append_of_mem member
      obtain ⟨lexeme, among, -, stop⟩ :=
        covered (front.rest ++ middle) c tail (by rw [← whole, hidden, List.append_assoc]) word
      have within := front.stop_le_of_mem_lexemes lexeme (read ▸ among)
      have offset : front.offset = cursor.offset := rfl
      rw [byteLength_append] at stop
      omega
  · intro spaces before c tail parts word
    rcases cases_append (whole.trans parts) with ⟨rest, here⟩ | ⟨rest, -, there⟩
    · have unstopped : ∀ d ∈ front.rest, isStop d = false := by
        simpa using List.all_eq_true.mp (List.all_takeWhile (p := (!isStop ·)) (l := cursor.rest))
      rw [read]
      exact covered_of_unstopped unstopped before c rest here word
    · have space := spaces c (by simp [there])
      rw [space] at word
      contradiction

end Cursor

/-- The tokens of a rule are all tokens of its text. They cover the text if and only if nothing but spaces
stands behind the first space that is no blank. Whatever is hidden behind such a space, the rule is the
same. -/
theorem Rule.covered_iff_of_parse {text : String} {rule : Rule} (parsed : Rule.parse text = .ok rule) :
    Parse.rule (Text.byteLength text.toList) (Lexeme.ofText text) = .ok (rule, []) ∧
    ((Cursor.ofText text).Covered ↔
      ∀ c ∈ text.toList.dropWhile (!Text.isStop ·), Text.isSpace c = true) ∧
    ∀ hidden : List Char, (∀ c ∈ hidden.head?, Text.isStop c = true) →
      Rule.parse (.ofList (text.toList.takeWhile (!Text.isStop ·) ++ hidden)) = .ok rule := by
  have spelling := Rule.parse_eq_ok_iff.mp parsed
  refine ⟨Parse.rule_eq_ok_nil_iff.mpr spelling, Cursor.covered_iff _, ?_⟩
  intro hidden stops
  have same : Token.ofRuleText (.ofList (text.toList.takeWhile (!Text.isStop ·) ++ hidden)) =
      Token.ofRuleText text := by
    have front := Cursor.lexemes_append_hidden stops ⟨text.toList.takeWhile (!Text.isStop ·), 0⟩
    have read := (Cursor.ofText text).lexemes_takeWhile
    simp only [Cursor.ofText] at read
    simp only [Token.ofRuleText, Lexeme.ofText, Cursor.ofText, String.toList_ofList, front, read]
  rw [Rule.parse_eq_ok_iff, same]
  exact spelling

/-- The theorem at a rule with two spaces behind it that are no blanks. -/
theorem Rule.covered_of_spaces_behind :
    let rule : Rule := .scalar (.scalar (.binary .eq (.leaf (.string "a") false) (.leaf (.int 1) false)))
    Rule.parse "IF: \x7b a == 1 \x7d\u00a0 \u2003" = .ok rule ∧
      (Cursor.ofText "IF: \x7b a == 1 \x7d\u00a0 \u2003").Covered ∧
      Rule.parse "IF: \x7b a == 1 \x7d\u000bTHEN: unread" = .ok rule := by
  intro rule
  have parsed : Rule.parse "IF: \x7b a == 1 \x7d\u00a0 \u2003" = .ok rule := by
    rw [← Outcome.toOption_eq_some_iff]
    decide +kernel
  obtain ⟨-, covered, unread⟩ := Rule.covered_iff_of_parse parsed
  have stops : ∀ c ∈ "\u000bTHEN: unread".toList.head?, Text.isStop c = true := by
    intro c first
    obtain rfl := Option.some.inj first
    rfl
  exact ⟨parsed, covered.mpr (List.all_eq_true.mp (by decide +kernel)), unread _ stops⟩

/-- A rule with unread text behind it. -/
theorem Rule.not_covered_of_text_behind :
    let rule : Rule := .scalar (.scalar (.binary .eq (.leaf (.string "a") false) (.leaf (.int 1) false)))
    Rule.parse "IF: \x7b a == 1 \x7d\u00a0junk" = .ok rule ∧
      ¬ (Cursor.ofText "IF: \x7b a == 1 \x7d\u00a0junk").Covered := by
  intro rule
  have parsed : Rule.parse "IF: \x7b a == 1 \x7d\u00a0junk" = .ok rule := by
    rw [← Outcome.toOption_eq_some_iff]
    decide +kernel
  refine ⟨parsed, ?_⟩
  rw [Cursor.covered_iff, ← List.all_eq_true]
  decide +kernel

end DocRules

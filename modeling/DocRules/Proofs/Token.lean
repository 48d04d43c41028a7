import DocRules.Proofs.Text.Cut
import DocRules.Token

/-! # Tokens read back

Tokens with a space before each of them are read as the tokens again (`Cursor.tokens_spaced`), if
their words are such as reading gives: not empty, without spaces and braces, and none of the marks. Every
word token of a text has such a word (`Cursor.printable_of_mem_tokens`).
-/

namespace DocRules

theorem Cursor.not_isSpace_of_isBrace {c : Char} (brace : isBrace c = true) : Text.isSpace c = false := by
  simp only [isBrace, Bool.or_eq_true, beq_iff_eq] at brace
  rcases brace with rfl | rfl <;> decide

theorem Cursor.not_isSpace_of_cases {text : List Char}
    (cases : (∃ c, text = [c] ∧ isBrace c = true) ∨ ∀ c ∈ text, isWordChar c = true) :
    ∀ c ∈ text, Text.isSpace c = false := by
  intro c member
  rcases cases with ⟨d, rfl, brace⟩ | chars
  · obtain rfl := List.mem_singleton.mp member
    exact not_isSpace_of_isBrace brace
  · have word := chars c member
    simp only [isWordChar, Bool.and_eq_true, Bool.not_eq_true'] at word
    exact word.1

namespace Token

/-- A text that is read as a word. -/
structure IsWord (text : String) : Prop where
  nonempty : text.toList ≠ []
  chars : ∀ c ∈ text.toList, Cursor.isWordChar c = true
  unmarked : ofText text = .word text

/-- A token whose text is read as the token. -/
def Printable : Token → Prop
  | .word text => IsWord text
  | _ => True

/-- A text is a mark, or else a word. -/
theorem ofText_eq_word {text word : String} (read : ofText text = .word word) : text = word := by
  unfold ofText at read
  split at read <;> first | contradiction | exact Token.word.inj read

variable {token : Token}

theorem Printable.ofText_text (printable : token.Printable) : ofText token.text = token := by
  cases token with
  | word text => exact printable.unmarked
  | _ => rfl

/-- The text of a token is not empty, and it is a brace or has no space and no brace in it. -/
theorem Printable.cases_text (printable : token.Printable) :
    (∃ c, token.text.toList = [c] ∧ Cursor.isBrace c = true) ∨
      token.text.toList ≠ [] ∧ ∀ c ∈ token.text.toList, Cursor.isWordChar c = true := by
  cases token with
  | word text => exact .inr ⟨printable.nonempty, printable.chars⟩
  | openBrace => exact .inl ⟨_, rfl, rfl⟩
  | closeBrace => exact .inl ⟨_, rfl, rfl⟩
  | _ => exact .inr ⟨by decide, List.all_eq_true.mp rfl⟩

theorem Printable.text_ne_nil (printable : token.Printable) : token.text.toList ≠ [] := by
  rcases printable.cases_text with ⟨c, text, -⟩ | ⟨nonempty, -⟩
  · simp [text]
  · exact nonempty

private theorem Printable.not_isBlank (printable : token.Printable) :
    ∀ c ∈ token.text.toList, Text.isBlank c = false := by
  have black := Cursor.not_isSpace_of_cases (printable.cases_text.imp_right And.right)
  exact fun c member => Text.not_isBlank_of_not_isSpace (black c member)

/-- The tokens with a space before each of them. -/
def spaced (tokens : List Token) : List Char :=
  tokens.flatMap fun token => ' ' :: token.text.toList

@[simp] theorem spaced_nil : spaced [] = [] := rfl

@[simp] theorem spaced_cons (token : Token) (tokens : List Token) :
    spaced (token :: tokens) = ' ' :: (token.text.toList ++ spaced tokens) := rfl

@[simp] theorem spaced_append (front tokens : List Token) :
    spaced (front ++ tokens) = spaced front ++ spaced tokens :=
  List.flatMap_append

private theorem not_isWordChar_of_head?_spaced (tokens : List Token) :
    ∀ c ∈ (spaced tokens).head?, Cursor.isWordChar c = false := by
  intro c first
  cases tokens with
  | nil => contradiction
  | cons token tokens =>
    obtain rfl := Option.some.inj first
    rfl

end Token

namespace Cursor

def tokens (cursor : Cursor) : List Token :=
  cursor.lexemes.map Lexeme.token

/-- A token ends where something follows that no word may contain. -/
theorem piece_of_printable {token : Token} (printable : token.Printable) {tail : List Char}
    (ends : ∀ c ∈ tail.head?, isWordChar c = false) :
    piece (token.text.toList ++ tail) = token.text.toList := by
  rcases printable.cases_text with ⟨c, text, brace⟩ | ⟨nonempty, chars⟩
  · simp [text, piece, brace]
  · obtain ⟨c, rest, text⟩ := List.exists_cons_of_ne_nil nonempty
    rw [text] at chars ⊢
    have plain : isBrace c = false := by
      have first := chars c List.mem_cons_self
      rw [isWordChar, Bool.and_eq_true, Bool.not_eq_true'] at first
      simpa using first.2
    rw [List.cons_append, piece, plain, if_neg Bool.false_ne_true, ← List.cons_append,
      (Text.cut_of_ends chars ends).1]

variable {token : Token} {lead : List Char}

/-- Blanks are skipped before a token is read. -/
theorem dropWhile_of_printable (printable : token.Printable)
    (blank : ∀ c ∈ lead, Text.isBlank c = true) (tail : List Char) :
    (lead ++ (token.text.toList ++ tail)).dropWhile Text.isBlank = token.text.toList ++ tail := by
  have unblank := printable.not_isBlank
  obtain ⟨c, rest, text⟩ := List.exists_cons_of_ne_nil printable.text_ne_nil
  rw [text] at unblank ⊢
  rw [List.dropWhile_append_of_pos blank]
  simp [unblank c List.mem_cons_self]

/-- The text of a token after blanks is read as the token. -/
theorem tokens_cons (printable : token.Printable) (blank : ∀ c ∈ lead, Text.isBlank c = true)
    {tail : List Char} (ends : ∀ c ∈ tail.head?, isWordChar c = false) (offset : Nat) :
    ∃ offset', (⟨lead ++ (token.text.toList ++ tail), offset⟩ : Cursor).tokens =
      token :: (⟨tail, offset'⟩ : Cursor).tokens := by
  have found : ∃ lexeme offset',
      (⟨lead ++ (token.text.toList ++ tail), offset⟩ : Cursor).next? = some (lexeme, ⟨tail, offset'⟩) ∧
        lexeme.token = token := by
    simp [next?, dropWhile_of_printable printable blank, piece_of_printable printable ends,
      printable.text_ne_nil, printable.ofText_text]
  obtain ⟨lexeme, offset', found, rfl⟩ := found
  refine ⟨offset', ?_⟩
  rw [tokens, lexemes]
  split
  · simp_all
  · rename_i found'
    rw [found] at found'
    obtain ⟨rfl, rfl⟩ := Prod.mk.inj (Option.some.inj found')
    rfl

private theorem tokens_nil (offset : Nat) : (⟨[], offset⟩ : Cursor).tokens = [] := by
  rw [tokens, lexemes]
  rfl

/-- Tokens with spaces before them are read as these tokens. -/
theorem tokens_spaced {listed : List Token} (printable : ∀ token ∈ listed, token.Printable)
    (offset : Nat) : (⟨Token.spaced listed, offset⟩ : Cursor).tokens = listed := by
  induction listed generalizing offset with
  | nil => exact tokens_nil offset
  | cons token listed ih =>
    obtain ⟨here, later⟩ := List.forall_mem_cons.mp printable
    have blank : ∀ c ∈ [' '], Text.isBlank c = true := List.forall_mem_singleton.mpr rfl
    obtain ⟨offset', read⟩ := tokens_cons here blank
      (Token.not_isWordChar_of_head?_spaced listed) offset
    rw [ih later] at read
    exact read

/-- Tokens with spaces between them are read as these tokens. -/
theorem tokens_of_spaced {text : List Char} {listed : List Token}
    (separated : ' ' :: text = Token.spaced listed)
    (printable : ∀ token ∈ listed, token.Printable) (offset : Nat) :
    (⟨text, offset⟩ : Cursor).tokens = listed := by
  cases listed with
  | nil => contradiction
  | cons token listed =>
    obtain ⟨here, later⟩ := List.forall_mem_cons.mp printable
    obtain ⟨-, rfl⟩ := List.cons.inj separated
    have blank : ∀ c ∈ ([] : List Char), Text.isBlank c = true := by simp
    obtain ⟨offset', read⟩ := tokens_cons here blank
      (Token.not_isWordChar_of_head?_spaced listed) offset
    rw [tokens_spaced later] at read
    exact read

/-- The text of a token is a brace or has only characters that a word may contain. -/
theorem piece_cases (rest : List Char) :
    (∃ c, piece rest = [c] ∧ isBrace c = true) ∨ ∀ c ∈ piece rest, isWordChar c = true := by
  cases rest with
  | nil => exact .inr (by simp [piece])
  | cons c rest =>
    cases brace : isBrace c with
    | true => exact .inl ⟨c, by simp [piece, brace], brace⟩
    | false =>
      rw [piece, brace, if_neg Bool.false_ne_true]
      exact .inr (List.all_eq_true.mp List.all_takeWhile)

/-- What is read is read again from its text. -/
theorem printable_of_next? {cursor after : Cursor} {lexeme : Lexeme}
    (found : cursor.next? = some (lexeme, after)) : lexeme.token.Printable := by
  simp only [next?] at found
  split at found
  · contradiction
  · rename_i nonempty
    obtain ⟨rfl, -⟩ := Prod.mk.inj (Option.some.inj found)
    cases read : Token.ofText (.ofList (piece (cursor.rest.dropWhile Text.isBlank))) with
    | word word =>
      obtain rfl := Token.ofText_eq_word read
      refine ⟨by simpa using nonempty, ?_, read⟩
      rw [String.toList_ofList]
      rcases piece_cases (cursor.rest.dropWhile Text.isBlank) with ⟨c, text, brace⟩ | chars
      · -- a brace is a mark
        rw [text] at read
        simp only [isBrace, Bool.or_eq_true, beq_iff_eq] at brace
        rcases brace with rfl | rfl <;> contradiction
      · exact chars
    | _ => trivial

/-- The tokens of a text are read again from their texts. -/
theorem printable_of_mem_tokens (cursor : Cursor) : ∀ token ∈ cursor.tokens, token.Printable := by
  rw [tokens]
  fun_induction lexemes cursor with
  | case1 cursor => simp
  | case2 cursor lexeme after found _ ih =>
    intro token member
    rw [List.map_cons] at member
    rcases List.mem_cons.mp member with rfl | member
    · exact printable_of_next? found
    · exact ih token member

end Cursor

end DocRules

import DocRules.Proofs.Token.Cutoff
import Mathlib.Data.List.Basic
import Mathlib.Logic.Function.Iterate

/-! # The lexemes of a text

What is read from a text can be told from the text without reading it. The lexemes stand one after the other,
each is one brace or a longest run of characters of words, everything between them is blank, and behind the
last one there are blanks up to the end or up to a space that is no blank (`Cursor.Listing`). No other list has
these properties (`Cursor.listing_iff`).

Both directions go along the list. A listing of a text that begins with a token is this token and a listing of
what is behind it (`Listing.cons`, `Listing.tail`); that nothing but blanks is in front of the first lexeme is
the only place where the offsets of all the others count (`Listing.next?_eq_some`).
-/

namespace DocRules

open Text

private theorem Text.not_isWordChar_of_isBlank {c : Char} (blank : isBlank c = true) :
    Cursor.isWordChar c = false := by
  simp [Cursor.isWordChar, isSpace_of_isBlank blank]

/-- A lexeme of a text from an offset on stands between two parts of the text: it is one brace, or a longest
run of characters of words. -/
structure Lexeme.StandsBetween (offset : Nat) (front tail : List Char) (lexeme : Lexeme) : Prop where
  start : lexeme.start = offset + byteLength front
  stop : lexeme.stop = lexeme.start + byteLength lexeme.token.text.toList
  classified : Token.ofText lexeme.token.text = lexeme.token
  extent :
    (∃ c, lexeme.token.text.toList = [c] ∧ Cursor.isBrace c = true) ∨
      lexeme.token.text.toList ≠ [] ∧ (∀ c ∈ lexeme.token.text.toList, Cursor.isWordChar c = true) ∧
        (∀ c ∈ front.getLast?, Cursor.isWordChar c = false) ∧ ∀ c ∈ tail.head?, Cursor.isWordChar c = false

namespace Lexeme.StandsBetween

variable {offset : Nat} {front tail : List Char} {lexeme : Lexeme}

theorem text_ne_nil (stands : lexeme.StandsBetween offset front tail) : lexeme.token.text.toList ≠ [] := by
  rcases stands.extent with ⟨c, single, -⟩ | ⟨nonempty, -⟩
  · simp [single]
  · exact nonempty

theorem start_lt_stop (stands : lexeme.StandsBetween offset front tail) : lexeme.start < lexeme.stop := by
  have size := byteLength_pos stands.text_ne_nil
  have stop := stands.stop
  omega

private theorem not_isBlank (stands : lexeme.StandsBetween offset front tail) :
    ∀ c ∈ lexeme.token.text.toList, isBlank c = false := by
  have black := Cursor.not_isSpace_of_cases (stands.extent.imp_right fun extent => extent.2.1)
  exact fun c member => not_isBlank_of_not_isSpace (black c member)

/-- Nothing that follows makes the lexeme longer. -/
theorem piece_eq (stands : lexeme.StandsBetween offset front tail) :
    Cursor.piece (lexeme.token.text.toList ++ tail) = lexeme.token.text.toList := by
  rw [Cursor.piece_append_eq_iff stands.text_ne_nil]
  exact stands.extent.imp_right fun ⟨_, chars, _, ends⟩ => ⟨chars, ends⟩

end Lexeme.StandsBetween

namespace Cursor

variable {cursor after : Cursor} {lexeme : Lexeme} {later lexemes : List Lexeme}

private theorem next?_of_standsBetween {blanks tail : List Char}
    (whole : cursor.rest = blanks ++ (lexeme.token.text.toList ++ tail))
    (blank : ∀ c ∈ blanks, isBlank c = true) (stands : lexeme.StandsBetween cursor.offset blanks tail) :
    cursor.next? = some (lexeme, ⟨tail, lexeme.stop⟩) := by
  obtain ⟨rest, offset⟩ := cursor
  dsimp only at whole stands
  rw [whole, next?_blanks blank, next?_of_piece stands.text_ne_nil stands.not_isBlank stands.piece_eq,
    String.ofList_toList, stands.classified, ← stands.start, ← stands.stop]

private theorem standsBetween_of_next? (found : cursor.next? = some (lexeme, after)) :
    ∃ blanks, cursor.rest = blanks ++ (lexeme.token.text.toList ++ after.rest) ∧
      (∀ c ∈ blanks, isBlank c = true) ∧ lexeme.StandsBetween cursor.offset blanks after.rest ∧
      after.offset = lexeme.stop := by
  obtain ⟨blanks, text, whole, blank, nonempty, -, piece, rfl, reached⟩ := exists_of_next? found
  have written : (Token.ofText (.ofList text)).text.toList = text := by
    rw [Token.text_ofText, String.toList_ofList]
  simp only [written]
  refine ⟨blanks, whole, blank, ⟨rfl, by simp only [written], by simp only [Token.text_ofText], ?_⟩, reached⟩
  simp only [written]
  rcases (piece_append_eq_iff nonempty).mp piece with brace | ⟨chars, ends⟩
  · exact .inl brace
  · refine .inr ⟨nonempty, chars, fun c last => ?_, ends⟩
    exact not_isWordChar_of_isBlank (blank c (List.mem_of_getLast? last))

/-- The offset behind lexemes that are read from a place on. -/
def offsetBehind (cursor : Cursor) (lexemes : List Lexeme) : Nat :=
  (lexemes.getLast?.map Lexeme.stop).getD cursor.offset

@[simp] theorem offsetBehind_nil (cursor : Cursor) : cursor.offsetBehind [] = cursor.offset := rfl

private theorem offsetBehind_cons (reached : after.offset = lexeme.stop) (cursor : Cursor)
    (later : List Lexeme) :
    cursor.offsetBehind (lexeme :: later) = after.offsetBehind later := by
  cases later with
  | nil => exact reached.symm
  | cons next later => simp [offsetBehind, List.getLast?_cons]

/-- The lexemes are those of the text from a place on: they stand in it one after the other, everything between
them is blank, and there is none behind them. -/
structure Listing (cursor : Cursor) (lexemes : List Lexeme) : Prop where
  stands : ∀ lexeme ∈ lexemes, ∃ front tail, cursor.rest = front ++ (lexeme.token.text.toList ++ tail) ∧
    lexeme.StandsBetween cursor.offset front tail
  ordered : lexemes.Pairwise fun lexeme later => lexeme.stop ≤ later.start
  gaps : ∀ front c tail, cursor.rest = front ++ c :: tail →
    cursor.offset + byteLength front < cursor.offsetBehind lexemes →
    isBlank c = true ∨ ∃ lexeme ∈ lexemes, lexeme.start ≤ cursor.offset + byteLength front ∧
      cursor.offset + byteLength front < lexeme.stop
  ended : ∃ front blanks tail, cursor.rest = front ++ (blanks ++ tail) ∧
    cursor.offset + byteLength front = cursor.offsetBehind lexemes ∧
    (∀ c ∈ blanks, isBlank c = true) ∧ ∀ c ∈ tail.head?, isStop c = true

namespace Listing

private theorem stop_le_offsetBehind (listing : cursor.Listing (lexeme :: later)) :
    lexeme.stop ≤ cursor.offsetBehind (lexeme :: later) := by
  rcases later.eq_nil_or_concat with rfl | ⟨front, last, rfl⟩
  · exact Nat.le_refl _
  · have among : last ∈ front.concat last := by simp
    have ordered := (List.pairwise_cons.mp listing.ordered).1 last among
    obtain ⟨_, _, -, stands⟩ := listing.stands last (List.mem_cons_of_mem _ among)
    have extent := stands.start_lt_stop
    have behind : cursor.offsetBehind (lexeme :: front.concat last) = last.stop := by
      simp [offsetBehind, List.getLast?_cons]
    omega

/-- Where nothing is listed nothing is read. -/
theorem next?_eq_none (listing : cursor.Listing []) : cursor.next? = none := by
  obtain ⟨front, blanks, tail, whole, reached, blank, stops⟩ := listing.ended
  obtain ⟨rest, offset⟩ := cursor
  have empty : front = [] := by
    cases front with
    | nil => rfl
    | cons c front =>
      have size := byteLength_pos (List.cons_ne_nil c front)
      simp only [offsetBehind_nil] at reached
      omega
  dsimp only at whole
  rw [whole, empty, List.nil_append, next?_blanks blank]
  cases tail with
  | nil => rfl
  | cons c tail => exact next?_append_of_isStop (stops c rfl) [] tail _

theorem next?_eq_some (listing : cursor.Listing (lexeme :: later)) :
    ∃ after, cursor.next? = some (lexeme, after) := by
  obtain ⟨front, tail, whole, stands⟩ := listing.stands lexeme List.mem_cons_self
  have blank : ∀ c ∈ front, isBlank c = true := by
    intro c member
    obtain ⟨before, behind, rfl⟩ := List.append_of_mem member
    have start := stands.start
    have extent := stands.start_lt_stop
    have within := listing.stop_le_offsetBehind
    have size := byteLength_pos (List.cons_ne_nil c behind)
    rw [byteLength_append] at start
    rcases listing.gaps before c (behind ++ (lexeme.token.text.toList ++ tail)) (by simp [whole]) (by omega) with
      blank | ⟨other, among, begun, -⟩
    · exact blank
    · -- no lexeme begins in front of the first one
      rcases List.mem_cons.mp among with rfl | among
      · omega
      · have ordered := (List.pairwise_cons.mp listing.ordered).1 other among
        omega
  exact ⟨_, next?_of_standsBetween whole blank stands⟩

theorem tail (found : cursor.next? = some (lexeme, after)) (listing : cursor.Listing (lexeme :: later)) :
    after.Listing later := by
  obtain ⟨blanks, whole, -, stands, reached⟩ := standsBetween_of_next? found
  obtain ⟨first, ordered⟩ := List.pairwise_cons.mp listing.ordered
  have start := stands.start
  have stop := stands.stop
  rw [← List.append_assoc] at whole
  have passed : after.offset = cursor.offset + byteLength (blanks ++ lexeme.token.text.toList) := by
    rw [byteLength_append]
    omega
  have behind := offsetBehind_cons reached cursor later
  refine ⟨fun other among => ?_, ordered, fun front c tail split before => ?_, ?_⟩
  · obtain ⟨front, tail, split, placed⟩ := listing.stands other (List.mem_cons_of_mem _ among)
    have begun := first other among
    have offset := placed.start
    obtain ⟨middle, rfl, rest⟩ := exists_of_byteLength_le (whole.symm.trans split) (by omega)
    rw [byteLength_append] at offset
    refine ⟨middle, tail, rest, by omega, placed.stop, placed.classified, ?_⟩
    refine placed.extent.imp_right fun ⟨nonempty, chars, left, right⟩ => ⟨nonempty, chars, fun c last => ?_, right⟩
    exact left c (by rw [List.getLast?_append, Option.mem_def.mp last]; rfl)
  · have place : cursor.offset + byteLength (blanks ++ lexeme.token.text.toList ++ front) =
        after.offset + byteLength front := by
      rw [byteLength_append]
      omega
    rcases listing.gaps (blanks ++ lexeme.token.text.toList ++ front) c tail
      (by rw [whole, split, List.append_assoc _ front]) (by omega) with blank | ⟨other, among, begun, ends⟩
    · exact .inl blank
    · rcases List.mem_cons.mp among with rfl | among
      · omega
      · exact .inr ⟨other, among, by omega, by omega⟩
  · obtain ⟨front, blanks', tail, split, reaches, blank, stops⟩ := listing.ended
    have within := listing.stop_le_offsetBehind
    obtain ⟨middle, rfl, rest⟩ := exists_of_byteLength_le (whole.symm.trans split) (by omega)
    rw [byteLength_append] at reaches
    exact ⟨middle, blanks', tail, rest, by omega, blank, stops⟩

/-- Only the lexemes are listed. -/
theorem eq_lexemes (listing : cursor.Listing lexemes) : lexemes = cursor.lexemes := by
  induction lexemes generalizing cursor with
  | nil =>
    have absent := listing.next?_eq_none
    rw [Cursor.lexemes]
    split
    · rfl
    · simp_all
  | cons lexeme later ih =>
    obtain ⟨after, found⟩ := listing.next?_eq_some
    exact (lexemes_eq_cons_iff.mpr ⟨after, found, (ih (listing.tail found)).symm⟩).symm

end Listing

private theorem listing_nil (absent : cursor.next? = none) : cursor.Listing [] where
  stands := by simp
  ordered := .nil
  gaps _ _ _ _ before := by
    rw [offsetBehind_nil] at before
    omega
  ended := by
    refine ⟨[], cursor.rest.takeWhile isBlank, cursor.rest.dropWhile isBlank, ?_, rfl,
      List.all_eq_true.mp List.all_takeWhile, next?_eq_none absent⟩
    rw [List.nil_append, List.takeWhile_append_dropWhile]

/-- A lexeme does not begin where the one before it might have gone on. -/
theorem not_isWordChar_of_getLast? {blanks tail' : List Char} {other : Lexeme}
    (stands : lexeme.StandsBetween cursor.offset blanks after.rest)
    (follows : after.rest = other.token.text.toList ++ tail')
    (nonempty : other.token.text.toList ≠ []) (chars : ∀ c ∈ other.token.text.toList, isWordChar c = true) :
    ∀ c ∈ lexeme.token.text.toList.getLast?, isWordChar c = false := by
  intro c last
  rcases stands.extent with ⟨d, single, brace⟩ | ⟨-, -, -, ends⟩
  · obtain rfl : d = c := by simpa [single] using last
    simp [isWordChar, brace]
  · obtain ⟨d, rest, text⟩ := List.exists_cons_of_ne_nil nonempty
    have word := chars d (text ▸ List.mem_cons_self)
    rw [ends d (by simp [follows, text])] at word
    contradiction

theorem Listing.cons (found : cursor.next? = some (lexeme, after)) (listing : after.Listing later) :
    cursor.Listing (lexeme :: later) := by
  obtain ⟨blanks, whole, blank, stands, reached⟩ := standsBetween_of_next? found
  have start := stands.start
  have stop := stands.stop
  have behind := offsetBehind_cons reached cursor later
  have passed : after.offset = cursor.offset + byteLength (blanks ++ lexeme.token.text.toList) := by
    rw [byteLength_append]
    omega
  refine ⟨fun other among => ?_, ?_, fun front c tail split before => ?_, ?_⟩
  · rcases List.mem_cons.mp among with rfl | among
    · exact ⟨blanks, after.rest, whole, stands⟩
    · obtain ⟨front, tail, split, placed⟩ := listing.stands other among
      refine ⟨blanks ++ lexeme.token.text.toList ++ front, tail, by rw [whole, split]; simp, ?_, placed.stop,
        placed.classified, ?_⟩
      · have offset := placed.start
        rw [byteLength_append]
        omega
      · refine placed.extent.imp_right fun ⟨nonempty, chars, left, right⟩ =>
          ⟨nonempty, chars, fun c last => ?_, right⟩
        cases front with
        | nil =>
          have ends := not_isWordChar_of_getLast? stands split nonempty chars
          refine ends c ?_
          rw [List.append_nil, List.getLast?_append_of_ne_nil _ stands.text_ne_nil] at last
          exact last
        | cons d front =>
          rw [List.getLast?_append_of_ne_nil _ (List.cons_ne_nil d front)] at last
          exact left c last
  · refine List.pairwise_cons.mpr ⟨fun other among => ?_, listing.ordered⟩
    obtain ⟨front, tail, -, placed⟩ := listing.stands other among
    have offset := placed.start
    omega
  · rcases cases_append (whole.symm.trans split) with ⟨rest, rfl⟩ | ⟨middle, rfl, inside⟩
    · exact .inl (blank c (by simp))
    · rcases cases_append inside with ⟨rest, text⟩ | ⟨middle', rfl, beyond⟩
      · have size := byteLength_pos (List.cons_ne_nil c rest)
        rw [text, byteLength_append] at stop
        rw [byteLength_append] at before ⊢
        exact .inr ⟨lexeme, List.mem_cons_self, by omega, by omega⟩
      · have place : cursor.offset + byteLength (blanks ++ (lexeme.token.text.toList ++ middle')) =
            after.offset + byteLength middle' := by
          rw [← List.append_assoc, byteLength_append]
          omega
        rw [place, behind] at before
        rcases listing.gaps middle' c tail beyond before with blank | ⟨other, among, bounds⟩
        · exact .inl blank
        · exact .inr ⟨other, List.mem_cons_of_mem _ among, by omega, by omega⟩
  · obtain ⟨front, blanks', tail, split, reaches, blank', stops⟩ := listing.ended
    refine ⟨blanks ++ lexeme.token.text.toList ++ front, blanks', tail, by rw [whole, split]; simp, ?_, blank', stops⟩
    rw [byteLength_append]
    omega

private theorem listing_lexemes (cursor : Cursor) : cursor.Listing cursor.lexemes := by
  fun_induction lexemes cursor with
  | case1 cursor absent => exact listing_nil absent
  | case2 cursor lexeme after found _ ih => exact .cons found ih

/-- The lexemes of a text are the only list of them. -/
theorem listing_iff : cursor.Listing lexemes ↔ lexemes = cursor.lexemes :=
  ⟨Listing.eq_lexemes, fun same => same ▸ cursor.listing_lexemes⟩

/-- The place after the next lexeme; it stays where it is if there is none. -/
def advance (cursor : Cursor) : Cursor :=
  match cursor.next? with
  | some (_, after) => after
  | none => cursor

private theorem advance_of_some (found : cursor.next? = some (lexeme, after)) : cursor.advance = after := by
  simp [advance, found]

private theorem advance_of_none (absent : cursor.next? = none) : cursor.advance = cursor := by
  simp [advance, absent]

/-- Reading gives the lexemes one after the other, and then no more. -/
theorem next?_iterate_advance (cursor : Cursor) (count : Nat) :
    (advance^[count] cursor).next?.map Prod.fst = cursor.lexemes[count]? ∧
      (advance^[count] cursor).offset = cursor.offsetBehind (cursor.lexemes.take count) := by
  induction count generalizing cursor with
  | zero =>
    refine ⟨?_, rfl⟩
    rw [Function.iterate_zero_apply, lexemes]
    split
    · simp_all
    · simp_all
  | succ count ih =>
    rw [Function.iterate_succ_apply]
    cases found : cursor.next? with
    | none =>
      have empty : cursor.lexemes = [] := (listing_nil found).eq_lexemes.symm
      rw [advance_of_none found]
      simpa [empty] using ih cursor
    | some read =>
      obtain ⟨lexeme, after⟩ := read
      obtain ⟨-, -, -, -, reached⟩ := standsBetween_of_next? found
      rw [advance_of_some found, lexemes_eq_cons_iff.mpr ⟨after, found, rfl⟩, List.getElem?_cons_succ,
        List.take_succ_cons, offsetBehind_cons reached]
      exact ih after

end Cursor

/-- The lexemes of a text are the one list that the text determines, and none of them is empty. Reading gives
them one after the other and then none, however often it is tried. It stops behind the lexeme that it gives,
and where it gives none it stays. -/
theorem Lexeme.ofText_listing (text : String) :
    (∀ lexemes, (Cursor.ofText text).Listing lexemes ↔ lexemes = ofText text) ∧
    (∀ lexeme ∈ ofText text, lexeme.start < lexeme.stop) ∧
    ∀ count, (Cursor.advance^[count] (Cursor.ofText text)).next?.map Prod.fst = (ofText text)[count]? ∧
      (Cursor.advance^[count] (Cursor.ofText text)).offset = offsetAfter ((ofText text).take count) := by
  refine ⟨fun lexemes => Cursor.listing_iff, fun lexeme member => ?_, fun count => ?_⟩
  · obtain ⟨_, _, -, stands⟩ := (Cursor.listing_lexemes _).stands lexeme member
    exact stands.start_lt_stop
  · exact Cursor.next?_iterate_advance _ count

end DocRules

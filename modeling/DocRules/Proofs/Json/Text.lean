import DocRules.Proofs.Json.Token
import DocRules.Proofs.Json.Written

/-! # JSON text read back

The text of a JSON value has the tokens of the value (`Json.ofChars?_text`), and these are read as the tree
of the value (`Json.foldlM_tokens`), so nothing of its structure and of its strings is lost
(`Json.ofText?_text`). In the tree every number stands as reading gives it, and null for what is no number.
-/

namespace DocRules.Json

namespace Token

private theorem pieces?_letter {l c : Char} (other : l ≠ 'u') (meant : escaped? l = some c) (rest : List Char) :
    pieces? ('\\' :: l :: rest) = (pieces? rest).map fun (pieces, after) => (.char c :: pieces, after) := by
  rw [pieces?]
  · rw [meant]
    cases pieces? rest <;> rfl
  · simp [other]

private theorem pieces?_plain {c : Char} (quote : c ≠ '"') (backslash : c ≠ '\\') (printed : ¬ c.toNat < 0x20)
    (rest : List Char) :
    pieces? (c :: rest) = (pieces? rest).map fun (pieces, after) => (.char c :: pieces, after) := by
  rw [pieces?]
  · rw [if_neg printed]
    cases pieces? rest <;> rfl
  all_goals simp [quote, backslash]

private theorem pieces?_unit {code : Nat} {a b c d : Char} (read : hex? [a, b, c, d] = some code)
    (rest : List Char) :
    pieces? ('\\' :: 'u' :: a :: b :: c :: d :: rest) =
      (pieces? rest).map fun (pieces, after) => (.unit code :: pieces, after) := by
  rw [pieces?, read]
  cases pieces? rest <;> rfl

private theorem assemble?_unit {code : Nat} (lead : isLead code = false) (trail : isTrail code = false)
    (pieces : List Piece) :
    assemble? (.unit code :: pieces) = (assemble? pieces).map (Char.ofNat code :: ·) := by
  cases pieces with
  | nil => simp [assemble?, lead, trail]
  | cons piece pieces => cases piece <;> simp [assemble?, lead, trail]

/-- Four digits write the code of a control character. -/
theorem hex?_control : ∀ code < 0x20,
    hex? ['0', '0', hexDigit (code / 16), hexDigit (code % 16)] = some code := by
  decide

/-- A character is read from how it stands in a string as one piece, which stands for the character. -/
theorem exists_piece (c : Char) :
    ∃ piece : Piece,
      (∀ rest, pieces? (escape c ++ rest) =
        (pieces? rest).map fun (pieces, after) => (piece :: pieces, after)) ∧
      ∀ pieces, assemble? (piece :: pieces) = (assemble? pieces).map (c :: ·) := by
  unfold escape
  split_ifs with quote backslash
  all_goals try subst c
  · exact ⟨.char _, pieces?_letter (by decide) rfl, fun _ => rfl⟩
  · exact ⟨.char _, pieces?_letter (by decide) rfl, fun _ => rfl⟩
  · exact ⟨.char _, pieces?_letter (by decide) rfl, fun _ => rfl⟩
  · exact ⟨.char _, pieces?_letter (by decide) rfl, fun _ => rfl⟩
  · exact ⟨.char _, pieces?_letter (by decide) rfl, fun _ => rfl⟩
  · exact ⟨.char _, pieces?_letter (by decide) rfl, fun _ => rfl⟩
  · exact ⟨.char _, pieces?_letter (by decide) rfl, fun _ => rfl⟩
  · rename_i control
    have low : isLead c.toNat = false := by
      simp only [isLead, Bool.and_eq_false_iff, decide_eq_false_iff_not]
      omega
    have low' : isTrail c.toNat = false := by
      simp only [isTrail, Bool.and_eq_false_iff, decide_eq_false_iff_not]
      omega
    refine ⟨.unit c.toNat, pieces?_unit (hex?_control _ control), fun pieces => ?_⟩
    rw [assemble?_unit low low', Char.ofNat_toNat]
  · rename_i printed
    exact ⟨.char c, pieces?_plain quote backslash printed, fun _ => rfl⟩

/-- The characters of a string are read from how they stand in it up to the closing quote. -/
theorem exists_pieces (chars after : List Char) :
    ∃ pieces, pieces? (chars.flatMap escape ++ '"' :: after) = some (pieces, after) ∧
      assemble? pieces = some chars := by
  induction chars with
  | nil => exact ⟨[], by simp [pieces?], rfl⟩
  | cons c chars ih =>
    obtain ⟨pieces, read, assembled⟩ := ih
    obtain ⟨piece, first, meant⟩ := exists_piece c
    refine ⟨piece :: pieces, ?_, ?_⟩
    · rw [List.flatMap_cons, List.append_assoc, first, read, Option.map_some]
    · rw [meant, assembled, Option.map_some]

theorem ofChars?_quote (text : String) (tail : List Char) :
    ofChars? ((quote text).toList ++ tail) = (ofChars? tail).map (.string (some text) :: ·) := by
  obtain ⟨pieces, read, assembled⟩ := exists_pieces text.toList tail
  have quoted : (quote text).toList ++ tail = '"' :: (text.toList.flatMap escape ++ '"' :: tail) := by
    simp [quote]
  rw [quoted, ofChars?_of_pieces read, assembled, Option.map_some, String.ofList_toList]

end Token

/-- What the text of a number is read as. -/
def Number.tree : Number → Tree
  | .int n => .number (some (.int n))
  | .float x =>
    if x.isFinite then .number ((Numeral.ofChars? (style.text x).toList).bind Numeral.number?) else .null

theorem Token.ofChars?_number (n : Number) {tail : List Char}
    (ends : ∀ c ∈ tail.head?, isPlainChar c = false) :
    ofChars? (n.text.toList ++ tail) = (ofChars? tail).map (.plain n.tree :: ·) := by
  cases n with
  | int n =>
    obtain ⟨numeral, written, read⟩ := exists_numeral_of_toString n
    have token := ofChars?_of_numeral written ends
    rwa [read] at token
  | float x =>
    rw [Number.tree, Number.text]
    cases finite : x.isFinite with
    | true =>
      obtain ⟨numeral, written, -⟩ := exists_numeral_of_text finite
      have token := ofChars?_of_numeral written ends
      rw [if_pos rfl, written, Option.bind_some]
      exact token
    | false =>
      rw [Binary64.text_eq_null finite, if_neg Bool.false_ne_true]
      exact ofChars?_of_plain (by decide) (List.all_eq_true.mp rfl) ends rfl

mutual

def tokens : Json → List Token
  | .null => [.plain .null]
  | .bool b => [.plain (.bool b)]
  | .number n => [.plain n.tree]
  | .string text => [.string (some text)]
  | .array items => .openBracket :: (itemsTokens items ++ [.closeBracket])
  | .object members => .openBrace :: (membersTokens members ++ [.closeBrace])

def itemsTokens : List Json → List Token
  | [] => []
  | [item] => item.tokens
  | item :: items => item.tokens ++ .comma :: itemsTokens items

def membersTokens : List (String × Json) → List Token
  | [] => []
  | [(name, value)] => .string (some name) :: .colon :: value.tokens
  | (name, value) :: members =>
    .string (some name) :: .colon :: (value.tokens ++ .comma :: membersTokens members)

end

mutual

/-- The text of a value has the tokens of the value, if nothing follows that may stand in a numeral. -/
theorem ofChars?_text (json : Json) {tail : List Char}
    (ends : ∀ c ∈ tail.head?, Token.isPlainChar c = false) :
    Token.ofChars? (json.text.toList ++ tail) = (Token.ofChars? tail).map (json.tokens ++ ·) := by
  match json with
  | .null => exact Token.ofChars?_of_plain (by decide) (List.all_eq_true.mp rfl) ends rfl
  | .bool true => exact Token.ofChars?_of_plain (by decide) (List.all_eq_true.mp rfl) ends rfl
  | .bool false => exact Token.ofChars?_of_plain (by decide) (List.all_eq_true.mp rfl) ends rfl
  | .number n => exact Token.ofChars?_number n ends
  | .string text => exact Token.ofChars?_quote text tail
  | .array items =>
    have bracketed : (text (.array items)).toList ++ tail = '[' :: ((itemsText items).toList ++ ']' :: tail) := by
      simp [text]
    rw [bracketed, Token.ofChars?_of_mark rfl, ofChars?_itemsText items, Token.ofChars?_of_mark rfl]
    · simp [tokens, Function.comp_def]
    · simp [Token.isPlainChar]
  | .object members =>
    have braced : (text (.object members)).toList ++ tail =
        '\x7b' :: ((membersText members).toList ++ '\x7d' :: tail) := by
      simp [text]
    rw [braced, Token.ofChars?_of_mark rfl, ofChars?_membersText members, Token.ofChars?_of_mark rfl]
    · simp [tokens, Function.comp_def]
    · simp [Token.isPlainChar]

theorem ofChars?_itemsText (items : List Json) {tail : List Char}
    (ends : ∀ c ∈ tail.head?, Token.isPlainChar c = false) :
    Token.ofChars? ((itemsText items).toList ++ tail) =
      (Token.ofChars? tail).map (itemsTokens items ++ ·) := by
  match items with
  | [] => simp [itemsText, itemsTokens]
  | [item] => exact ofChars?_text item ends
  | item :: next :: items =>
    have separated : (itemsText (item :: next :: items)).toList ++ tail =
        item.text.toList ++ ',' :: ((itemsText (next :: items)).toList ++ tail) := by
      simp [itemsText]
    rw [separated, ofChars?_text item, Token.ofChars?_of_mark rfl, ofChars?_itemsText (next :: items) ends]
    · simp [itemsTokens, Function.comp_def]
    · simp [Token.isPlainChar]

theorem ofChars?_membersText (members : List (String × Json)) {tail : List Char}
    (ends : ∀ c ∈ tail.head?, Token.isPlainChar c = false) :
    Token.ofChars? ((membersText members).toList ++ tail) =
      (Token.ofChars? tail).map (membersTokens members ++ ·) := by
  match members with
  | [] => simp [membersText, membersTokens]
  | [(name, value)] =>
    have separated : (membersText [(name, value)]).toList ++ tail =
        (quote name).toList ++ ':' :: (value.text.toList ++ tail) := by
      simp [membersText]
    rw [separated, Token.ofChars?_quote, Token.ofChars?_of_mark rfl, ofChars?_text value ends]
    simp [membersTokens, Function.comp_def]
  | (name, value) :: next :: members =>
    have separated : (membersText ((name, value) :: next :: members)).toList ++ tail =
        (quote name).toList ++ ':' ::
          (value.text.toList ++ ',' :: ((membersText (next :: members)).toList ++ tail)) := by
      simp [membersText]
    rw [separated, Token.ofChars?_quote, Token.ofChars?_of_mark rfl, ofChars?_text value,
      Token.ofChars?_of_mark rfl, ofChars?_membersText (next :: members) ends]
    · simp [membersTokens, Function.comp_def]
    · simp [Token.isPlainChar]

end

mutual

/-- What the text of a value is read as. -/
def tree : Json → Tree
  | .null => .null
  | .bool b => .bool b
  | .number n => n.tree
  | .string text => .string (some text)
  | .array items => .array (itemTrees items)
  | .object members => .object (memberTrees members)

def itemTrees : List Json → List Tree
  | [] => []
  | item :: items => item.tree :: itemTrees items

def memberTrees : List (String × Json) → List (Option String × Tree)
  | [] => []
  | (name, value) :: members => (some name, value.tree) :: memberTrees members

end

private theorem foldlM_firstItem (item : Json) (items : List Json) (rest : List Token) (outer : List Open) :
    (itemsTokens (item :: items) ++ rest).foldlM Reading.next? (.firstItem outer) =
      (itemsTokens (item :: items) ++ rest).foldlM Reading.next? (.value (.array [] :: outer)) := by
  cases items <;> cases item <;> rfl

private theorem foldlM_firstName (member : String × Json) (members : List (String × Json)) (rest : List Token)
    (outer : List Open) :
    (membersTokens (member :: members) ++ rest).foldlM Reading.next? (.firstName outer) =
      (membersTokens (member :: members) ++ rest).foldlM Reading.next? (.name [] outer) := by
  cases members <;> rfl

mutual

/-- The tokens of a value are read as its tree. -/
theorem foldlM_tokens (json : Json) (outer : List Open) :
    json.tokens.foldlM Reading.next? (.value outer) = some (.after json.tree outer) := by
  match json with
  | .null => rfl
  | .bool b => rfl
  | .number n => rfl
  | .string text => rfl
  | .array [] => rfl
  | .array (item :: items) =>
    have read := foldlM_itemsTokens item items [] outer
    rw [← foldlM_firstItem] at read
    exact read
  | .object [] => rfl
  | .object ((name, value) :: members) =>
    have read := foldlM_membersTokens name value members [] outer
    rw [← foldlM_firstName] at read
    exact read
termination_by sizeOf json

theorem foldlM_itemsTokens (item : Json) (items : List Json) (before : List Tree) (outer : List Open) :
    (itemsTokens (item :: items) ++ [Token.closeBracket]).foldlM Reading.next?
        (.value (.array before :: outer)) =
      some (.after (.array (before.reverse ++ itemTrees (item :: items))) outer) := by
  have first := foldlM_tokens item (.array before :: outer)
  match items with
  | [] =>
    rw [itemsTokens, List.foldlM_append, first]
    simp [Reading.next?, itemTrees]
  | next :: items =>
    have later := foldlM_itemsTokens next items (item.tree :: before) outer
    rw [itemsTokens, List.append_assoc, List.foldlM_append, first]
    · simpa [Reading.next?, itemTrees] using later
    · simp
termination_by sizeOf (item :: items)

theorem foldlM_membersTokens (name : String) (value : Json) (members : List (String × Json))
    (before : List (Option String × Tree)) (outer : List Open) :
    (membersTokens ((name, value) :: members) ++ [Token.closeBrace]).foldlM Reading.next?
        (.name before outer) =
      some (.after (.object (before.reverse ++ memberTrees ((name, value) :: members))) outer) := by
  have first := foldlM_tokens value (.object before (some name) :: outer)
  match members with
  | [] =>
    have content : (value.tokens ++ [Token.closeBrace]).foldlM Reading.next?
        (.value (.object before (some name) :: outer)) =
          some (.after (.object (before.reverse ++ memberTrees [(name, value)])) outer) := by
      rw [List.foldlM_append, first]
      simp [Reading.next?, memberTrees]
    exact content
  | (name', value') :: members =>
    have later := foldlM_membersTokens name' value' members ((some name, value.tree) :: before) outer
    have content : (value.tokens ++ (.comma :: membersTokens ((name', value') :: members) ++
        [Token.closeBrace])).foldlM Reading.next? (.value (.object before (some name) :: outer)) =
          some (.after (.object (before.reverse ++
            memberTrees ((name, value) :: (name', value') :: members))) outer) := by
      rw [List.foldlM_append, first]
      simpa [Reading.next?, memberTrees] using later
    rw [membersTokens]
    · simpa [Reading.next?] using content
    · simp
termination_by sizeOf ((name, value) :: members)

end

/-- The text of a value is read as the tree of the value. -/
theorem ofText?_text (json : Json) : Tree.ofText? json.text = some json.tree := by
  have tokens := @ofChars?_text json [] (by simp)
  rw [List.append_nil] at tokens
  have ended : Token.ofChars? [] = some [] := by rw [Token.ofChars?]
  rw [Tree.ofText?, tokens, ended]
  simp [foldlM_tokens, Reading.tree?]

end DocRules.Json

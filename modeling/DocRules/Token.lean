import DocRules.Text.Blank
import DocRules.Text.Pattern

/-! # Tokens

Rule text is a sequence of tokens with blanks between them. A brace is a token of its own wherever
it stands; any other token is a longest run of characters that are neither spaces nor braces. Eight
such texts are marks, all others are words. Reading stops at the end of the text, and at a space
that is no blank.
-/

namespace DocRules

/-- A token is one of the marks or a word. -/
inductive Token where
  | ifMark
  | thenMark
  | forMark
  | openParen
  | closeParen
  | openBrace
  | closeBrace
  | colon
  | word (text : String)
deriving DecidableEq

namespace Token

def ofText : String → Token
  | "IF:" => .ifMark
  | "THEN:" => .thenMark
  | "FOR:" => .forMark
  | "(" => .openParen
  | ")" => .closeParen
  | "\x7b" => .openBrace
  | "\x7d" => .closeBrace
  | ":" => .colon
  | text => .word text

def text : Token → String
  | .ifMark => "IF:"
  | .thenMark => "THEN:"
  | .forMark => "FOR:"
  | .openParen => "("
  | .closeParen => ")"
  | .openBrace => "\x7b"
  | .closeBrace => "\x7d"
  | .colon => ":"
  | .word text => text

end Token

/-- A token with the byte offsets at which it starts and stops. -/
structure Lexeme where
  token : Token
  start : Nat
  stop : Nat
deriving DecidableEq

/-- A place in a text: what is left to read and the number of bytes before it. -/
structure Cursor where
  rest : List Char
  offset : Nat

namespace Cursor

def ofText (text : String) : Cursor :=
  ⟨text.toList, 0⟩

def isBrace (c : Char) : Bool :=
  c == '\x7b' || c == '\x7d'

def isWordChar (c : Char) : Bool :=
  !Text.isSpace c && !isBrace c

/-- The text of the token at the beginning, empty if there is none. -/
def piece : List Char → List Char
  | [] => []
  | c :: rest => if isBrace c then [c] else (c :: rest).takeWhile isWordChar

/-- The next token and the place behind it. -/
def next? (cursor : Cursor) : Option (Lexeme × Cursor) :=
  let start := cursor.offset + Text.byteLength (cursor.rest.takeWhile Text.isBlank)
  let body := cursor.rest.dropWhile Text.isBlank
  let text := piece body
  let stop := start + Text.byteLength text
  if text.isEmpty then none
  else some (⟨.ofText (.ofList text), start, stop⟩, ⟨body.drop text.length, stop⟩)

theorem length_lt_of_next? {cursor after : Cursor} {lexeme : Lexeme}
    (found : cursor.next? = some (lexeme, after)) : after.rest.length < cursor.rest.length := by
  simp only [next?] at found
  split at found
  · contradiction
  · rename_i nonempty
    obtain ⟨-, rfl⟩ := Prod.mk.inj (Option.some.inj found)
    have skipped := (List.dropWhile_sublist Text.isBlank (l := cursor.rest)).length_le
    have taken : 0 < (piece (cursor.rest.dropWhile Text.isBlank)).length :=
      List.length_pos_iff.mpr (by simpa using nonempty)
    have within : 0 < (cursor.rest.dropWhile Text.isBlank).length := by
      cases rest : cursor.rest.dropWhile Text.isBlank with
      | nil => simp [rest, piece] at taken
      | cons => simp
    simp only [List.length_drop]
    omega

def lexemes (cursor : Cursor) : List Lexeme :=
  match found : cursor.next? with
  | none => []
  | some (lexeme, after) =>
    have := length_lt_of_next? found
    lexeme :: after.lexemes
termination_by cursor.rest.length

end Cursor

namespace Lexeme

def ofText (text : String) : List Lexeme :=
  (Cursor.ofText text).lexemes

/-- The offset behind the last token. -/
def offsetAfter (lexemes : List Lexeme) : Nat :=
  (lexemes.getLast?.map Lexeme.stop).getD 0

end Lexeme

end DocRules

import DocRules.Json.Tree

/-! # Tokens of JSON text

Blanks separate tokens and mean nothing. Six characters are marks, a quote begins a string, and a
longest run of letters, digits, signs and points is a numeral or one of three words. A string is read
in two steps, first into characters and escaped units of sixteen bits, and then into characters.
-/

namespace DocRules.Json

/-- A token of JSON text: a mark, or a value that is no container. -/
inductive Token where
  | openBracket
  | closeBracket
  | openBrace
  | closeBrace
  | comma
  | colon
  | string (text : Option String)
  /-- A value that is neither a string nor a container. -/
  | plain (tree : Tree)

namespace Token

def isBlank (c : Char) : Bool :=
  c == ' ' || c == '\t' || c == '\n' || c == '\r'

/-- The characters of numerals and of the three words. -/
def isPlainChar (c : Char) : Bool :=
  c.isAlphanum || c == '+' || c == '-' || c == '.'

/-- The value that a numeral or one of the three words writes. -/
def plain? (text : List Char) : Option Token :=
  if text = "null".toList then some (.plain .null)
  else if text = "true".toList then some (.plain (.bool true))
  else if text = "false".toList then some (.plain (.bool false))
  else (Numeral.ofChars? text).map fun numeral => .plain (.number numeral.number?)

/-- The token that a single character is. -/
def mark? : Char → Option Token
  | '[' => some .openBracket
  | ']' => some .closeBracket
  | '\x7b' => some .openBrace
  | '\x7d' => some .closeBrace
  | ',' => some .comma
  | ':' => some .colon
  | _ => none

/-- A piece of a string: a character, or an escaped unit of sixteen bits. -/
inductive Piece where
  | char (c : Char)
  | unit (code : Nat)

def hexDigit? (c : Char) : Option Nat :=
  if '0' ≤ c && c ≤ '9' then some (c.toNat - '0'.toNat)
  else if 'a' ≤ c && c ≤ 'f' then some (c.toNat - 'a'.toNat + 10)
  else if 'A' ≤ c && c ≤ 'F' then some (c.toNat - 'A'.toNat + 10)
  else none

def hex? (digits : List Char) : Option Nat :=
  digits.foldlM (fun value c => (hexDigit? c).map (value * 16 + ·)) 0

/-- The character that a letter after a backslash stands for. -/
def escaped? : Char → Option Char
  | '"' => some '"'
  | '\\' => some '\\'
  | '/' => some '/'
  | 'b' => some '\x08'
  | 'f' => some '\x0c'
  | 'n' => some '\n'
  | 'r' => some '\r'
  | 't' => some '\t'
  | _ => none

/-- The pieces of a string up to its closing quote, and what follows the quote. -/
def pieces? : List Char → Option (List Piece × List Char)
  | [] => none
  | '"' :: rest => some ([], rest)
  | '\\' :: 'u' :: a :: b :: c :: d :: rest => do
    let code ← hex? [a, b, c, d]
    let (pieces, rest) ← pieces? rest
    return (.unit code :: pieces, rest)
  | '\\' :: c :: rest => do
    let c ← escaped? c
    let (pieces, rest) ← pieces? rest
    return (.char c :: pieces, rest)
  | c :: rest =>
    if c.toNat < 0x20 then none
    else do
      let (pieces, rest) ← pieces? rest
      return (.char c :: pieces, rest)

theorem length_lt_of_pieces? {text rest : List Char} {pieces : List Piece}
    (read : pieces? text = some (pieces, rest)) : rest.length < text.length := by
  fun_induction pieces? text generalizing pieces with
  | case1 => contradiction
  | case2 => simp_all
  | case3 a b c d tail ih =>
    simp only [Option.bind_eq_bind, Option.bind_eq_some_iff, Option.pure_def] at read
    obtain ⟨_, _, ⟨inner, after⟩, more, same⟩ := read
    obtain ⟨-, rfl⟩ := Prod.mk.inj (Option.some.inj same)
    have shorter : after.length < tail.length := ih more
    simp only [List.length_cons]
    omega
  | case4 c tail _ ih =>
    simp only [Option.bind_eq_bind, Option.bind_eq_some_iff, Option.pure_def] at read
    obtain ⟨_, _, ⟨inner, after⟩, more, same⟩ := read
    obtain ⟨-, rfl⟩ := Prod.mk.inj (Option.some.inj same)
    have shorter : after.length < tail.length := ih more
    simp only [List.length_cons]
    omega
  | case5 => contradiction
  | case6 c tail _ _ _ _ ih =>
    simp only [Option.bind_eq_bind, Option.bind_eq_some_iff, Option.pure_def] at read
    obtain ⟨⟨inner, after⟩, more, same⟩ := read
    obtain ⟨-, rfl⟩ := Prod.mk.inj (Option.some.inj same)
    have shorter : after.length < tail.length := ih more
    simp only [List.length_cons]
    omega

/-- Whether a unit is the first half of a surrogate pair. -/
def isLead (code : Nat) : Bool :=
  0xd800 ≤ code && code < 0xdc00

/-- Whether a unit is the second half of a surrogate pair. -/
def isTrail (code : Nat) : Bool :=
  0xdc00 ≤ code && code < 0xe000

/-- The characters of a string. Two units that are a surrogate pair make one character; any other
half of a pair makes none. -/
def assemble? : List Piece → Option (List Char)
  | [] => some []
  | .char c :: rest => (assemble? rest).map (c :: ·)
  | .unit lead :: .unit trail :: rest =>
    if isLead lead then
      if isTrail trail then
        (assemble? rest).map (.ofNat (0x10000 + (lead - 0xd800) * 0x400 + (trail - 0xdc00)) :: ·)
      else none
    else if isTrail lead then none
    else (assemble? (.unit trail :: rest)).map (.ofNat lead :: ·)
  | .unit code :: rest =>
    if isLead code || isTrail code then none else (assemble? rest).map (.ofNat code :: ·)

def ofChars? (text : List Char) : Option (List Token) :=
  match text with
  | [] => some []
  | c :: rest =>
    if isBlank c then ofChars? rest
    else if c = '"' then
      match read : pieces? rest with
      | none => none
      | some (pieces, after) =>
        have := length_lt_of_pieces? read
        (ofChars? after).map (.string ((assemble? pieces).map .ofList) :: ·)
    else match mark? c with
      | some mark => (ofChars? rest).map (mark :: ·)
      | none =>
        if isPlainChar c then
          have := (List.dropWhile_sublist isPlainChar (l := rest)).length_le
          match plain? (c :: rest.takeWhile isPlainChar) with
          | some token => (ofChars? (rest.dropWhile isPlainChar)).map (token :: ·)
          | none => none
        else none
termination_by text.length

end Token

end DocRules.Json

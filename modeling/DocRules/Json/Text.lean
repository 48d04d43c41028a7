import DocRules.Binary64.Style
import DocRules.Json

/-! # The text of a JSON value

The text is compact: no blanks, members in their order. Strings escape the quote, the backslash and
the control characters, the usual ones by a letter and the others by four hexadecimal digits.
Numbers are the shortest that read back as the nearest number, and what is no finite number is null.
-/

namespace DocRules.Json

/-- The lower case hexadecimal digit of a number below sixteen. -/
def hexDigit (n : Nat) : Char :=
  Nat.digitChar n

def escape (c : Char) : List Char :=
  if c = '"' then ['\\', '"']
  else if c = '\\' then ['\\', '\\']
  else if c = '\x08' then ['\\', 'b']
  else if c = '\t' then ['\\', 't']
  else if c = '\n' then ['\\', 'n']
  else if c = '\x0c' then ['\\', 'f']
  else if c = '\r' then ['\\', 'r']
  else if c.toNat < 0x20 then
    ['\\', 'u', '0', '0', hexDigit (c.toNat / 16), hexDigit (c.toNat % 16)]
  else [c]

def quote (text : String) : String :=
  .ofList ('"' :: text.toList.flatMap escape ++ ['"'])

/-- Numbers in JSON text are positional from `0.00001` up to below `10 ^ 16`, a positive exponent
has a sign, and of two nearest shortest decimals the even one is taken. -/
def style : Binary64.Style where
  tie := .even
  leastPositional := -5
  greatestPositional := 15
  positiveExponent := "+"
  nan := "null"
  infinity := "null"
  negativeInfinity := "null"

def Number.text : Number → String
  | .int n => toString n.toInt
  | .float x => style.text x

mutual

def text : Json → String
  | .null => "null"
  | .bool b => if b then "true" else "false"
  | .number n => n.text
  | .string text => quote text
  | .array items => "[" ++ itemsText items ++ "]"
  | .object members => "\x7b" ++ membersText members ++ "\x7d"

def itemsText : List Json → String
  | [] => ""
  | [item] => item.text
  | item :: items => item.text ++ "," ++ itemsText items

def membersText : List (String × Json) → String
  | [] => ""
  | [(name, value)] => quote name ++ ":" ++ value.text
  | (name, value) :: members => quote name ++ ":" ++ value.text ++ "," ++ membersText members

end

end DocRules.Json

/-! # Pieces of a text

Texts are taken apart as lists of characters: the first occurrence of a pattern is replaced, a known
end or a pair of quotes is taken off, and a path is cut at its separators.
-/

namespace DocRules.Text

/-- The text with its first occurrence of the pattern replaced, unchanged if there is none. -/
def replaceFirst (pattern replacement : List Char) : List Char → List Char
  | [] => if pattern.isEmpty then replacement else []
  | c :: rest =>
    if pattern.isPrefixOf (c :: rest) then replacement ++ (c :: rest).drop pattern.length
    else c :: replaceFirst pattern replacement rest

/-- What precedes the given end, if the text ends so. -/
def beforeEnd? (finish text : List Char) : Option (List Char) :=
  if finish.isSuffixOf text then some (text.take (text.length - finish.length)) else none

/-- A text without the quotes around it, if it has both. -/
def unquote (text : List Char) : List Char :=
  match text with
  | '"' :: rest => (beforeEnd? ['"'] rest).getD text
  | _ => text

/-- The pieces between the separators: one more than there are separators. -/
def cutAt (separator : Char) : List Char → List (List Char)
  | [] => [[]]
  | c :: rest =>
    if c = separator then [] :: cutAt separator rest
    else match cutAt separator rest with
      | [] => [[c]]
      | piece :: pieces => (c :: piece) :: pieces

/-- The number of bytes of a text in UTF-8. -/
def byteLength : List Char → Nat
  | [] => 0
  | c :: rest => c.utf8Size + byteLength rest

end DocRules.Text

import DocRules.Json.Number

/-! # The structure of JSON text

A tree is what the grammar of JSON says about a text and nothing else: numbers may be out of range,
escapes may write half a surrogate pair, names may repeat, and there is no limit on nesting. What has
no meaning is kept as absent, so that a reader can refuse it where it matters and ignore it where it
does not.
-/

namespace DocRules.Json

/-- The structure of a JSON text. -/
inductive Tree where
  | null
  | bool (b : Bool)
  /-- A numeral, absent if it is out of range. -/
  | number (n : Option Number)
  /-- A string, absent if half a surrogate pair stands in it. -/
  | string (text : Option String)
  | array (items : List Tree)
  | object (members : List (Option String × Tree))

end DocRules.Json

import DocRules.Json.Token

/-! # Reading JSON text

The tokens of a text drive a stack of open containers, one token at a time. What may come next
depends on the innermost container only, so a text of any depth is read in one pass.
-/

namespace DocRules.Json

/-- A container that is still open, with what has been read of it, the last item first. -/
inductive Open where
  | array (items : List Tree)
  /-- The members before the one whose name has been read. -/
  | object (members : List (Option String × Tree)) (key : Option String)

/-- What may come next, inside the open containers, the innermost first. -/
inductive Reading where
  /-- A value. -/
  | value (outer : List Open)
  /-- The first item of an array, or its end. -/
  | firstItem (outer : List Open)
  /-- The first name in an object, or its end. -/
  | firstName (outer : List Open)
  /-- A further name in an object. -/
  | name (members : List (Option String × Tree)) (outer : List Open)
  /-- The colon after a name. -/
  | colon (members : List (Option String × Tree)) (key : Option String) (outer : List Open)
  /-- What follows a value. -/
  | after (tree : Tree) (outer : List Open)

namespace Reading

def begin? (outer : List Open) : Token → Option Reading
  | .string text => some (.after (.string text) outer)
  | .plain tree => some (.after tree outer)
  | .openBracket => some (.firstItem outer)
  | .openBrace => some (.firstName outer)
  | _ => none

def next? : Reading → Token → Option Reading
  | .value outer, token => begin? outer token
  | .firstItem outer, .closeBracket => some (.after (.array []) outer)
  | .firstItem outer, token => begin? (.array [] :: outer) token
  | .firstName outer, .closeBrace => some (.after (.object []) outer)
  | .firstName outer, .string key => some (.colon [] key outer)
  | .name members outer, .string key => some (.colon members key outer)
  | .colon members key outer, .colon => some (.value (.object members key :: outer))
  | .after tree (.array items :: outer), .comma => some (.value (.array (tree :: items) :: outer))
  | .after tree (.array items :: outer), .closeBracket =>
    some (.after (.array (tree :: items).reverse) outer)
  | .after tree (.object members key :: outer), .comma =>
    some (.name ((key, tree) :: members) outer)
  | .after tree (.object members key :: outer), .closeBrace =>
    some (.after (.object ((key, tree) :: members).reverse) outer)
  | _, _ => none

def tree? : Reading → Option Tree
  | .after tree [] => some tree
  | _ => none

end Reading

/-- The tree of a text that is one JSON value with blanks around and inside it. -/
def Tree.ofText? (text : String) : Option Tree := do
  let tokens ← Token.ofChars? text.toList
  let reading ← tokens.foldlM Reading.next? (.value [])
  reading.tree?

end DocRules.Json

import DocRules.Document
import DocRules.Json.Reading
import DocRules.Text.Pattern

/-! # JSON documents

A JSON value is a tree in which every number and string has a meaning and which nests at most so
deep. As a document it is walked along the segments of a path: a name in an object, an index in an
array. Of two members with one name the last one counts.
-/

namespace DocRules

inductive Json where
  | null
  | bool (b : Bool)
  | number (n : Json.Number)
  | string (text : String)
  | array (items : List Json)
  | object (members : List (String × Json))

namespace Json

/-- The greatest number of containers within each other. -/
def maxDepth : Nat :=
  127

/-- The value of a tree with at most so many containers within each other. -/
def ofTree? : Nat → Tree → Option Json
  | _, .null => some .null
  | _, .bool b => some (.bool b)
  | _, .number n => n.map .number
  | _, .string text => text.map .string
  | levels + 1, .array items => (items.mapM (ofTree? levels)).map .array
  | levels + 1, .object members =>
    (members.mapM fun (member : Option String × Tree) => do
      let name ← member.1
      let json ← ofTree? levels member.2
      return (name, json)).map .object
  | 0, .array _ => none
  | 0, .object _ => none

def ofText? (text : String) : Option Json :=
  (Tree.ofText? text).bind (ofTree? maxDepth)

def ofBytes? (bytes : ByteArray) : Option Json :=
  (String.fromUTF8? bytes).bind ofText?

/-- The last member with a name. -/
def member? (members : List (String × Json)) (name : String) : Option Json :=
  members.reverse.lookup name

/-- The value one segment of a path further. -/
def step? (segment : List Char) : Json → Option Json
  | .object members => member? members (.ofList segment)
  | .array items => (Decimal.position? segment).bind fun index => items[index]?
  | _ => none

def at? (json : Json) (path : String) : Option Json :=
  (Text.cutAt '.' path.toList).foldlM (fun json segment => json.step? segment) json

/-- The scalar of a JSON value, if it is one other than null. -/
def toValue : Json → Except EvalError Value
  | .null => .error (.unsupportedType "null")
  | .bool b => .ok (.bool b)
  | .number (.int n) => .ok (.int n)
  | .number (.float x) => .ok (.float x)
  | .string text => .ok (.string text)
  | .array _ => .error (.unsupportedType "array")
  | .object _ => .error (.unsupportedType "object")

end Json

def Document.ofJson (json : Json) : Document where
  lookup path :=
    match json.at? path with
    | none => .ok none
    | some .null => .ok none
    | some found => found.toValue.map some
  length path :=
    match json.at? path with
    | some (.array items) => .ok items.length
    | some _ => .error (.notAnArray path)
    | none => .error (.pathNotFound path)

end DocRules

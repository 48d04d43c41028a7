import DocRules.Json.Text
import DocRules.Rule

/-! # Rules as JSON

A rule is written as JSON by its structure. An alternative is an object with one member, named for
the alternative; a record is an object with a member for every field. A record may be read from an
array of its fields as well, its members may come in any order, and members with other names are
ignored, whatever their values are. Everything else has to be as it is written. Objects and arrays
within each other are limited as in a document, except inside what is ignored.
-/

namespace DocRules

/-- The name of an operator in structured form. -/
def Operator.name : Operator → String
  | .and => "And"
  | .or => "Or"
  | .eq => "Eq"
  | .ge => "Ge"
  | .gt => "Gt"
  | .le => "Le"
  | .lt => "Lt"
  | .nil => "Nil"

def Operator.ofName? : String → Option Operator
  | "And" => some .and
  | "Or" => some .or
  | "Eq" => some .eq
  | "Ge" => some .ge
  | "Gt" => some .gt
  | "Le" => some .le
  | "Lt" => some .lt
  | "Nil" => some .nil
  | _ => none

/-- A value is an alternative of the four kinds. -/
def Value.toJson : Value → Json
  | .int n => .object [("Int", .number (.int n))]
  | .float x => .object [("Float", .number (.float x))]
  | .bool b => .object [("Bool", .bool b)]
  | .string text => .object [("String", .string text)]

def Expr.toJson : Expr → Json
  | .leaf value indexed =>
    .object [("Leaf", .object [("value", value.toJson), ("has_array_index", .bool indexed)])]
  | .binary operator lhs rhs =>
    .object [("Binary", .object
      [("operator", .string operator.name), ("lhs", lhs.toJson), ("rhs", rhs.toJson)])]

def LoopHeader.toJson (header : LoopHeader) : Json :=
  .object [("index_key", .string header.index), ("start_index", .string header.start),
    ("end_index", .string header.stop)]

def Condition.toJson : Condition → Json
  | .scalar expr => .object [("Scalar", expr.toJson)]
  | .loop header body =>
    .object [("Vector", .object [("header", header.toJson), ("condition", body.toJson)])]

/-- A condition with the block after it, which is always empty. -/
def Condition.toGuardedJson (condition : Condition) : Json :=
  .object [("condition", condition.toJson), ("action", .null)]

def Rule.toJson : Rule → Json
  | .scalar condition => .object [("Scalar", condition.toGuardedJson)]
  | .vector header condition =>
    .object [("Vector", .object
      [("header", header.toJson), ("rule", condition.toGuardedJson)])]

namespace Json.Tree

/-- The name and the content of an alternative. -/
def alternative? : Tree → Option (String × Tree)
  | .object [(some name, content)] => some (name, content)
  | _ => none

/-- The only member with a name. -/
def field? (members : List (Option String × Tree)) (name : String) : Option Tree :=
  match members.filter fun member => member.1 == some name with
  | [(_, content)] => some content
  | _ => none

/-- The fields of a record in the order of their names. -/
def fields? (names : List String) : Tree → Option (List Tree)
  | .array items => if items.length = names.length then some items else none
  | .object members =>
    if members.all fun member => member.1.isSome then names.mapM (field? members) else none
  | _ => none

def text? : Tree → Option String
  | .string text => text
  | _ => none

def bool? : Tree → Option Bool
  | .bool b => some b
  | _ => none

end Json.Tree

/-- Read an operator: its name, or the alternative of that name with nothing in it. -/
def Operator.ofTree? : Nat → Json.Tree → Option Operator
  | _, .string name => name.bind ofName?
  | _ + 1, tree =>
    match tree.alternative? with
    | some (name, .null) => ofName? name
    | _ => none
  | _, _ => none

/-- Read a value. Any number is a floating point number, but only an integer is an integer. -/
def Value.ofTree? : Nat → Json.Tree → Option Value
  | 0, _ => none
  | _ + 1, tree =>
    match tree.alternative? with
    | some ("Int", .number (some (.int n))) => some (.int n)
    | some ("Float", .number (some n)) => some (.float n.toBinary64)
    | some ("Bool", content) => content.bool?.map .bool
    | some ("String", content) => content.text?.map .string
    | _ => none

/-- Read an expression with at most so many containers within each other. -/
def Expr.ofTree? : Nat → Json.Tree → Option Expr
  | levels + 2, tree =>
    match tree.alternative? with
    | some ("Leaf", content) => do
      let [value, indexed] ← content.fields? ["value", "has_array_index"] | none
      return .leaf (← Value.ofTree? levels value) (← indexed.bool?)
    | some ("Binary", content) => do
      let [operator, lhs, rhs] ← content.fields? ["operator", "lhs", "rhs"] | none
      let operator ← Operator.ofTree? levels operator
      let lhs ← Expr.ofTree? levels lhs
      let rhs ← Expr.ofTree? levels rhs
      return .binary operator lhs rhs
    | _ => none
  | _, _ => none

def LoopHeader.ofTree? : Nat → Json.Tree → Option LoopHeader
  | 0, _ => none
  | _ + 1, tree => do
    let [index, start, stop] ← tree.fields? ["index_key", "start_index", "end_index"] | none
    return ⟨← index.text?, ← start.text?, ← stop.text?⟩

def Condition.ofTree? : Nat → Json.Tree → Option Condition
  | 0, _ => none
  | levels + 1, tree =>
    match tree.alternative? with
    | some ("Scalar", content) => (Expr.ofTree? levels content).map .scalar
    | some ("Vector", content) =>
      match levels with
      | 0 => none
      | levels + 1 => do
        let [header, body] ← content.fields? ["header", "condition"] | none
        let header ← LoopHeader.ofTree? levels header
        let body ← Condition.ofTree? levels body
        return .loop header body
    | _ => none

/-- Read a condition with the block after it. -/
def Condition.ofGuardedTree? : Nat → Json.Tree → Option Condition
  | 0, _ => none
  | levels + 1, tree => do
    let [condition, .null] ← tree.fields? ["condition", "action"] | none
    Condition.ofTree? levels condition

def Rule.ofTree? : Nat → Json.Tree → Option Rule
  | levels + 2, tree =>
    match tree.alternative? with
    | some ("Scalar", content) => (Condition.ofGuardedTree? (levels + 1) content).map .scalar
    | some ("Vector", content) => do
      let [header, rule] ← content.fields? ["header", "rule"] | none
      return .vector (← LoopHeader.ofTree? levels header)
        (← Condition.ofGuardedTree? levels rule)
    | _ => none
  | _, _ => none

/-- The structured form of a rule. -/
def Rule.structured (rule : Rule) : String :=
  rule.toJson.text

/-- The rule that a text writes in structured form. -/
def Rule.ofStructured? (text : String) : Option Rule :=
  (Json.Tree.ofText? text).bind (ofTree? Json.maxDepth)

end DocRules

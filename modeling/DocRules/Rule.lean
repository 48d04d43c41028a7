import DocRules.Operator
import DocRules.Text.Pattern
import DocRules.Value

/-! # Rules

A rule is a condition, for once or for every index of a loop over an array of the document. A
condition is an expression or a loop around a condition, and an expression is a tree of operators
over leaves. A string leaf is a path into the document or a literal text; which of the two is
decided by the document.
-/

namespace DocRules

/-- An expression is a leaf or an operator between two expressions. -/
inductive Expr where
  /-- A value; `indexed` says that the loop variables in it are to be replaced. -/
  | leaf (value : Value) (indexed : Bool)
  | binary (operator : Operator) (lhs rhs : Expr)
deriving DecidableEq

/-- A loop runs its index from a start up to the length of an array. -/
structure LoopHeader where
  /-- The name of the loop variable. -/
  index : String
  /-- The first index, as written. -/
  start : String
  /-- The path of the array, as a rule followed by the length marker. -/
  stop : String
deriving DecidableEq

/-- A loop condition holds if its body holds for every index. -/
inductive Condition where
  | scalar (expr : Expr)
  | loop (header : LoopHeader) (body : Condition)
deriving DecidableEq

/-- A scalar rule has one result, a vector rule has one for every index of its loop. -/
inductive Rule where
  | scalar (condition : Condition)
  | vector (header : LoopHeader) (condition : Condition)
deriving DecidableEq

/-- The greatest number of levels of an expression. -/
def maxExprDepth : Nat :=
  512

/-- The greatest number of loops around an expression within one condition. -/
def maxLoopDepth : Nat :=
  32

namespace Value

/-- A string with both brackets mentions a loop variable. -/
def mentionsIndex : Value → Bool
  | .string text => text.toList.contains '[' && text.toList.contains ']'
  | _ => false

end Value

namespace Expr

/-- The leaf of a value is indexed if the value mentions a loop variable. -/
def ofValue (value : Value) : Expr :=
  .leaf value value.mentionsIndex

/-- The leaf that a word of rule text writes. -/
def ofWord (word : String) : Expr :=
  ofValue (.ofLiteral word)

/-- The operator at the root; a leaf has none. -/
def operator : Expr → Operator
  | .leaf .. => .nil
  | .binary operator _ _ => operator

def depth : Expr → Nat
  | .leaf .. => 1
  | .binary _ lhs rhs => 1 + max lhs.depth rhs.depth

/-- The same shape with numerically equal values. -/
def equal : Expr → Expr → Bool
  | .leaf value indexed, .leaf value' indexed' => value.equal value' && indexed == indexed'
  | .binary operator lhs rhs, .binary operator' lhs' rhs' =>
    operator == operator' && lhs.equal lhs' && rhs.equal rhs'
  | _, _ => false

end Expr

namespace LoopHeader

/-- What asks for the length of the array at the path before it. -/
def lengthMarker : String :=
  ".size()"

def arrayPath (header : LoopHeader) : String :=
  match Text.beforeEnd? lengthMarker.toList header.stop.toList with
  | some path => .ofList path
  | none => header.stop

/-- The header that a word of the form `index=start:stop` writes: the index ends at the first
equals sign and the start at the first colon after it, and no part is empty. -/
def ofWord? (word : String) : Option LoopHeader :=
  let index := word.toList.takeWhile (· != '=')
  let start := ((word.toList.dropWhile (· != '=')).drop 1).takeWhile (· != ':')
  let stop := (((word.toList.dropWhile (· != '=')).drop 1).dropWhile (· != ':')).drop 1
  if index.isEmpty || start.isEmpty || stop.isEmpty then none
  else some ⟨.ofList index, .ofList start, .ofList stop⟩

end LoopHeader

namespace Condition

def loops : Condition → Nat
  | .scalar _ => 0
  | .loop _ body => body.loops + 1

/-- The expression of a condition without loops. -/
def expr? : Condition → Option Expr
  | .scalar expr => some expr
  | .loop _ _ => none

def equal : Condition → Condition → Bool
  | .scalar expr, .scalar expr' => expr.equal expr'
  | .loop header body, .loop header' body' => header == header' && body.equal body'
  | _, _ => false

end Condition

namespace Rule

/-- The condition of a rule, inside the loop of a vector rule. -/
def condition : Rule → Condition
  | .scalar condition => condition
  | .vector _ condition => condition

/-- Whether the rule has one result for every index of a loop. -/
def isVector : Rule → Bool
  | .scalar _ => false
  | .vector .. => true

def equal : Rule → Rule → Bool
  | .scalar condition, .scalar condition' => condition.equal condition'
  | .vector header condition, .vector header' condition' =>
    header == header' && condition.equal condition'
  | _, _ => false

end Rule

end DocRules

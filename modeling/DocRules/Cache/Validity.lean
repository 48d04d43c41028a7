import DocRules.Cache.Error

/-! # Rules that may come out of a cache

The limits of rule text are checked again on a rule that was read from bytes, in the order of its
parts: the loop of a vector rule, the loops of its condition from the outside in, and the leaves of
the expression from left to right.
-/

namespace DocRules

/-- The number of leaves and operators. -/
def Expr.nodes : Expr → Nat
  | .leaf .. => 1
  | .binary _ lhs rhs => 1 + lhs.nodes + rhs.nodes

def Condition.nodes : Condition → Nat
  | .scalar expr => expr.nodes
  | .loop _ body => 1 + body.nodes

def Rule.nodes : Rule → Nat
  | .scalar condition => condition.nodes
  | .vector _ condition => 1 + condition.nodes

namespace Cache

/-- A check that names what is wrong. -/
abbrev Check := Except Invalidity Unit

/-- A header has no empty index and array, and starts at an integer. -/
def checkHeader (header : LoopHeader) : Check :=
  if header.index.isEmpty || header.stop.isEmpty then .error (.emptyPart header)
  else if (Decimal.int64? header.start.toList).isNone then .error (.start header.start)
  else .ok ()

/-- An expression has at most so many levels, and no leaf of it is the empty string. -/
def checkExpr : Nat → Expr → Check
  | 0, _ => .error .exprTooDeep
  | _ + 1, .leaf value _ => if value = .string "" then .error .emptyLeaf else .ok ()
  | levels + 1, .binary _ lhs rhs => do
    checkExpr levels lhs
    checkExpr levels rhs

/-- A condition has at most so many loops, with valid headers, around a valid expression. -/
def checkCondition : Nat → Condition → Check
  | _, .scalar expr => checkExpr maxExprDepth expr
  | 0, .loop _ _ => .error .loopsTooDeep
  | loops + 1, .loop header body => do
    checkHeader header
    checkCondition loops body

def checkRule : Rule → Check
  | .scalar condition => checkCondition maxLoopDepth condition
  | .vector header condition => do
    checkHeader header
    checkCondition maxLoopDepth condition

end Cache

end DocRules

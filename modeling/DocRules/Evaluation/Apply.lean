import DocRules.Evaluation.Error

/-! # Applying operators

Operands have to be of one kind. Numbers can be compared, strings be equal, and booleans be equal or
joined; an operator that a kind does not have gives false.
-/

namespace DocRules.Operator

/-- Whether two numbers that are equal, or of which the first is less or greater, are related. -/
def relates (operator : Operator) (equal less greater : Bool) : Bool :=
  match operator with
  | .eq => equal
  | .ge => greater || equal
  | .gt => greater
  | .le => less || equal
  | .lt => less
  | .and | .or | .nil => false

def joins (operator : Operator) (a b : Bool) : Bool :=
  match operator with
  | .and => a && b
  | .or => a || b
  | .eq => a == b
  | .ge | .gt | .le | .lt | .nil => false

/-- The operator between two values, which have to be of one kind. -/
def apply (operator : Operator) (lhs rhs : Value) : Except EvalError Bool :=
  if lhs.kind ≠ rhs.kind then .error (.typeMismatch operator lhs.kind rhs.kind)
  else match lhs, rhs with
    | .int m, .int n => .ok (operator.relates (m == n) (m < n) (n < m))
    | .float x, .float y => .ok (operator.relates (x.equal y) (x.less y) (y.less x))
    | .string s, .string t => .ok (operator == .eq && s == t)
    | .bool a, .bool b => .ok (operator.joins a b)
    | lhs, _ => .error (.unsupportedType lhs.kind.name)

end DocRules.Operator

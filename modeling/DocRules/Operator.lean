/-! # Operators

The seven operators of rule text and the absent operator, which a leaf of an expression has. The
connectives bind less tightly than the comparisons.
-/

namespace DocRules

inductive Operator where
  | and
  | or
  | eq
  | ge
  | gt
  | le
  | lt
  /-- No operator, as a leaf has it; no word of rule text writes it. -/
  | nil
deriving DecidableEq

namespace Operator

def ofWord? : String → Option Operator
  | "&&" => some .and
  | "||" => some .or
  | "==" => some .eq
  | ">=" => some .ge
  | ">" => some .gt
  | "<=" => some .le
  | "<" => some .lt
  | _ => none

def word : Operator → String
  | .and => "&&"
  | .or => "||"
  | .eq => "=="
  | .ge => ">="
  | .gt => ">"
  | .le => "<="
  | .lt => "<"
  | .nil => "NIL"

/-- The higher the precedence, the later an operator is applied. -/
def precedence? : Operator → Option Nat
  | .and | .or => some 100
  | .eq | .ge | .gt | .le | .lt => some 1
  | .nil => none

/-- Whether the first operator is applied after the second one next to it. -/
def yieldsTo (new top : Operator) : Bool :=
  match new.precedence?, top.precedence? with
  | some new, some top => top < new
  | _, _ => false

theorem ofWord?_word {operator : Operator} (written : operator ≠ .nil) :
    ofWord? operator.word = some operator := by
  cases operator with
  | nil => exact absurd rfl written
  | _ => rfl

theorem ne_nil_of_ofWord? {word : String} {operator : Operator}
    (written : ofWord? word = some operator) : operator ≠ .nil := by
  rintro rfl
  unfold ofWord? at written
  split at written <;> contradiction

end Operator

end DocRules

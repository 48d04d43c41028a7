import DocRules.Cache.Payload

/-! # Reading the content of a cached rule

Every part is read off the front of the bytes. An expression is read one node at a time: operators
that still wait for an operand are kept on a stack, and a leaf completes as many of them as it can.
-/

namespace DocRules.Cache

open Bytes

def string? (bytes : List UInt8) : Option (String × List UInt8) := do
  let (size, bytes) ← compact? 8 bytes
  let (taken, bytes) ← take? size bytes
  let text ← toText? taken
  return (text, bytes)

/-- Read a boolean, which is one of two bytes. -/
def bool? : List UInt8 → Option (Bool × List UInt8)
  | 0 :: bytes => some (false, bytes)
  | 1 :: bytes => some (true, bytes)
  | _ => none

def value? (bytes : List UInt8) : Option (Value × List UInt8) := do
  let (kind, bytes) ← compact? 4 bytes
  match kind with
  | 0 => (compact? 8 bytes).map fun (n, bytes) => (.int (.ofInt (unzigzag n)), bytes)
  | 1 => (fixed? 8 bytes).map fun (n, bytes) => (.float ⟨.ofNat n⟩, bytes)
  | 2 => (bool? bytes).map fun (b, bytes) => (.bool b, bytes)
  | 3 => (string? bytes).map fun (text, bytes) => (.string text, bytes)
  | _ => none

def operatorOfCode? : Nat → Option Operator
  | 0 => some .and
  | 1 => some .or
  | 2 => some .eq
  | 3 => some .ge
  | 4 => some .gt
  | 5 => some .le
  | 6 => some .lt
  | _ => none

/-- A node of an expression without what is below it. -/
inductive Node where
  | leaf (value : Value)
  | binary (operator : Operator)

def node? (bytes : List UInt8) : Option (Node × List UInt8) := do
  let (kind, bytes) ← compact? 4 bytes
  match kind with
  | 0 => (value? bytes).map fun (value, bytes) => (.leaf value, bytes)
  | 1 => do
    let (code, bytes) ← compact? 4 bytes
    let operator ← operatorOfCode? code
    return (.binary operator, bytes)
  | _ => none

/-- An operator that waits for an operand. -/
inductive Waiting where
  | lhs (operator : Operator)
  | rhs (operator : Operator) (lhs : Expr)

/-- Give an expression to the innermost operator that waits, and so on with what that completes:
either the whole expression is complete or some operators still wait. -/
def supply (expr : Expr) : List Waiting → Expr ⊕ List Waiting
  | [] => .inl expr
  | .lhs operator :: outer => .inr (.rhs operator expr :: outer)
  | .rhs operator lhs :: outer => supply (.binary operator lhs expr) outer

theorem length_lt_of_string? {bytes rest : List UInt8} {text : String}
    (read : string? bytes = some (text, rest)) : rest.length < bytes.length := by
  simp only [string?, Option.bind_eq_bind, Option.bind_eq_some_iff, Option.pure_def] at read
  obtain ⟨⟨size, middle⟩, first, ⟨taken, after⟩, second, _, -, same⟩ := read
  obtain ⟨-, rfl⟩ := Prod.mk.inj (Option.some.inj same)
  exact Nat.lt_of_le_of_lt (length_le_of_take? second) (length_lt_of_compact? first)

theorem length_lt_of_bool? {bytes rest : List UInt8} {b : Bool}
    (read : bool? bytes = some (b, rest)) : rest.length < bytes.length := by
  unfold bool? at read
  split at read <;> simp_all

theorem length_lt_of_value? {bytes rest : List UInt8} {value : Value}
    (read : value? bytes = some (value, rest)) : rest.length < bytes.length := by
  simp only [value?, Option.bind_eq_bind, Option.bind_eq_some_iff] at read
  obtain ⟨⟨kind, middle⟩, first, read⟩ := read
  have shorter := length_lt_of_compact? first
  suffices rest.length ≤ middle.length by omega
  split at read
  · obtain ⟨⟨n, after⟩, second, same⟩ := Option.map_eq_some_iff.mp read
    obtain ⟨-, rfl⟩ := Prod.mk.inj same
    exact Nat.le_of_lt (length_lt_of_compact? second)
  · obtain ⟨⟨n, after⟩, second, same⟩ := Option.map_eq_some_iff.mp read
    obtain ⟨-, rfl⟩ := Prod.mk.inj same
    exact length_le_of_fixed? second
  · obtain ⟨⟨n, after⟩, second, same⟩ := Option.map_eq_some_iff.mp read
    obtain ⟨-, rfl⟩ := Prod.mk.inj same
    exact Nat.le_of_lt (length_lt_of_bool? second)
  · obtain ⟨⟨n, after⟩, second, same⟩ := Option.map_eq_some_iff.mp read
    obtain ⟨-, rfl⟩ := Prod.mk.inj same
    exact Nat.le_of_lt (length_lt_of_string? second)
  · contradiction

theorem length_lt_of_node? {bytes rest : List UInt8} {node : Node}
    (read : node? bytes = some (node, rest)) : rest.length < bytes.length := by
  simp only [node?, Option.bind_eq_bind, Option.bind_eq_some_iff] at read
  obtain ⟨⟨kind, middle⟩, first, read⟩ := read
  have shorter := length_lt_of_compact? first
  suffices rest.length ≤ middle.length by omega
  split at read
  · obtain ⟨⟨value, after⟩, second, same⟩ := Option.map_eq_some_iff.mp read
    obtain ⟨-, rfl⟩ := Prod.mk.inj same
    exact Nat.le_of_lt (length_lt_of_value? second)
  · simp only [Option.bind_eq_some_iff, Option.pure_def] at read
    obtain ⟨⟨code, after⟩, second, _, -, same⟩ := read
    obtain ⟨-, rfl⟩ := Prod.mk.inj (Option.some.inj same)
    exact Nat.le_of_lt (length_lt_of_compact? second)
  · contradiction

/-- Read an expression for the operators that wait. -/
def expr? (waiting : List Waiting) (bytes : List UInt8) : Option (Expr × List UInt8) :=
  match read : node? bytes with
  | none => none
  | some (.binary operator, rest) =>
    have := length_lt_of_node? read
    expr? (.lhs operator :: waiting) rest
  | some (.leaf value, rest) =>
    have := length_lt_of_node? read
    match supply (.ofValue value) waiting with
    | .inl expr => some (expr, rest)
    | .inr waiting => expr? waiting rest
termination_by bytes.length

def header? (bytes : List UInt8) : Option (LoopHeader × List UInt8) := do
  let (index, bytes) ← string? bytes
  let (start, bytes) ← string? bytes
  let (stop, bytes) ← string? bytes
  return (⟨index, start, stop⟩, bytes)

theorem length_lt_of_header? {bytes rest : List UInt8} {header : LoopHeader}
    (read : header? bytes = some (header, rest)) : rest.length < bytes.length := by
  simp only [header?, Option.bind_eq_bind, Option.bind_eq_some_iff, Option.pure_def] at read
  obtain ⟨⟨_, _⟩, first, ⟨_, _⟩, second, ⟨_, _⟩, third, same⟩ := read
  obtain ⟨-, rfl⟩ := Prod.mk.inj (Option.some.inj same)
  exact Nat.lt_trans (length_lt_of_string? third)
    (Nat.lt_trans (length_lt_of_string? second) (length_lt_of_string? first))

/-- What a condition begins with: a loop header, or nothing before an expression. -/
def loop? (bytes : List UInt8) : Option (Option LoopHeader × List UInt8) := do
  let (kind, bytes) ← compact? 4 bytes
  match kind with
  | 0 => return (none, bytes)
  | 1 => (header? bytes).map fun (header, bytes) => (some header, bytes)
  | _ => none

theorem length_lt_of_loop? {bytes rest : List UInt8} {header : Option LoopHeader}
    (read : loop? bytes = some (header, rest)) : rest.length < bytes.length := by
  simp only [loop?, Option.bind_eq_bind, Option.bind_eq_some_iff] at read
  obtain ⟨⟨kind, middle⟩, first, read⟩ := read
  have shorter := length_lt_of_compact? first
  split at read
  · obtain ⟨-, rfl⟩ := Prod.mk.inj (Option.some.inj read)
    exact shorter
  · obtain ⟨⟨value, after⟩, second, same⟩ := Option.map_eq_some_iff.mp read
    obtain ⟨-, rfl⟩ := Prod.mk.inj same
    exact Nat.lt_trans (length_lt_of_header? second) shorter
  · contradiction

def condition? (bytes : List UInt8) : Option (Condition × List UInt8) :=
  match read : loop? bytes with
  | none => none
  | some (none, rest) => (expr? [] rest).map fun (expr, rest) => (.scalar expr, rest)
  | some (some header, rest) =>
    have := length_lt_of_loop? read
    (condition? rest).map fun (body, rest) => (.loop header body, rest)
termination_by bytes.length

/-- Read a rule. A rule begins like a condition. -/
def rule? (bytes : List UInt8) : Option (Rule × List UInt8) := do
  let (header, bytes) ← loop? bytes
  let (condition, bytes) ← condition? bytes
  match header with
  | none => return (.scalar condition, bytes)
  | some header => return (.vector header condition, bytes)

def digestSize : Nat :=
  32

def digest? : List UInt8 → Option (Option (List UInt8) × List UInt8)
  | 0 :: bytes => some (none, bytes)
  | 1 :: bytes => (take? digestSize bytes).map fun (digest, bytes) => (some digest, bytes)
  | _ => none

/-- Read the content of a cached rule; what follows it is ignored. -/
def Payload.ofBytes? (bytes : List UInt8) : Option Payload := do
  let (nodeCount, bytes) ← compact? 8 bytes
  let (sourceDigest, bytes) ← digest? bytes
  let (rule, _) ← rule? bytes
  return ⟨nodeCount, sourceDigest, rule⟩

end DocRules.Cache

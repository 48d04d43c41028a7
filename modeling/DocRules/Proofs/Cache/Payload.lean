import DocRules.Cache.Payload.Reading
import DocRules.Cache.Validity
import DocRules.Proofs.Bytes
import DocRules.Proofs.Grammar

/-! # The content of a cached rule is read back

Every part of a rule is read back from its bytes whatever follows them, so the parts may stand one
after the other without separators. The operators that wait while an expression is read are those of
the nodes above the current one (`Cache.expr?_of_ofExpr?`). The marks of the leaves are not written:
what is read has them as the values ask (`Rule.withMarks`). A payload can be written if and only if no
node of its rule carries the absent operator (`Cache.Payload.isSome_toBytes?_iff`).
-/

namespace DocRules

/-- The same expression with every leaf marked as its value asks. -/
def Expr.withMarks : Expr → Expr
  | .leaf value _ => .ofValue value
  | .binary operator lhs rhs => .binary operator lhs.withMarks rhs.withMarks

def Condition.withMarks : Condition → Condition
  | .scalar expr => .scalar expr.withMarks
  | .loop header body => .loop header body.withMarks

def Rule.withMarks : Rule → Rule
  | .scalar condition => .scalar condition.withMarks
  | .vector header condition => .vector header condition.withMarks

namespace Cache

open Bytes

variable {bytes : List UInt8}

private theorem compact?_of_lt {n : Nat} (small : n < 251) (widest : Nat) (rest : List UInt8) :
    compact? widest (ofCompact n ++ rest) = some (n, rest) := by
  have word : n < UInt32.size := Nat.lt_trans small (by decide)
  have fits : n < UInt64.size := Nat.lt_trans small (by decide)
  exact compact?_ofCompact fits (.inl word) rest

theorem string?_ofString {text : String} (short : (ofString text).length < UInt64.size)
    (rest : List UInt8) : string? (ofString text ++ rest) = some (text, rest) := by
  have size : (ofText text).length < UInt64.size := by
    rw [ofString, List.length_append] at short
    omega
  have read := compact?_ofCompact size (.inr (Nat.le_refl 8)) (ofText text ++ rest)
  simp only [string?, ofString, List.append_assoc, read, take?_append, toText?_ofText,
    Option.bind_eq_bind, Option.bind_some, Option.pure_def]

theorem value?_ofValue {value : Value} (short : (ofValue value).length < UInt64.size)
    (rest : List UInt8) : value? (ofValue value ++ rest) = some (value, rest) := by
  cases value with
  | int n =>
    have read := compact?_ofCompact (zigzag_lt n) (.inr (Nat.le_refl 8)) rest
    simp [value?, ofValue, compact?_of_lt, read, unzigzag_zigzag]
  | float x =>
    have fits : x.bits.toNat < Nat.pow 256 8 := x.bits.toNat_lt
    simp [value?, ofValue, compact?_of_lt, fixed?_ofNat fits]
  | bool b => cases b <;> simp [value?, ofValue, compact?_of_lt, bool?]
  | string text =>
    rw [ofValue, List.length_append] at short
    have within : (ofString text).length < UInt64.size := by omega
    simp [value?, ofValue, compact?_of_lt, string?_ofString within]

theorem operatorOfCode?_of_operatorCode? {operator : Operator} {code : Nat}
    (written : operatorCode? operator = some code) :
    operatorOfCode? code = some operator ∧ code < 251 := by
  cases operator with
  | nil => contradiction
  | _ =>
    obtain rfl := Option.some.inj written
    exact ⟨rfl, by decide⟩

private theorem isSome_operatorCode?_iff {operator : Operator} :
    (operatorCode? operator).isSome ↔ operator ≠ .nil := by
  cases operator <;> simp [operatorCode?]

private theorem node?_leaf {value : Value} (short : (ofValue value).length < UInt64.size)
    (rest : List UInt8) :
    node? (ofCompact 0 ++ ofValue value ++ rest) = some (.leaf value, rest) := by
  simp [node?, compact?_of_lt, value?_ofValue short]

private theorem node?_binary {operator : Operator} {code : Nat} (written : operatorCode? operator = some code)
    (rest : List UInt8) :
    node? (ofCompact 1 ++ ofCompact code ++ rest) = some (.binary operator, rest) := by
  obtain ⟨read, small⟩ := operatorOfCode?_of_operatorCode? written
  simp [node?, compact?_of_lt, small, read]

private theorem expr?_of_leaf {value : Value} {rest : List UInt8} (waiting : List Waiting)
    (read : node? bytes = some (.leaf value, rest)) :
    expr? waiting bytes = match supply (.ofValue value) waiting with
      | .inl expr => some (expr, rest)
      | .inr waiting => expr? waiting rest := by
  rw [expr?]
  split
  · simp_all
  · simp_all
  · rename_i found
    obtain ⟨same, rfl⟩ := Prod.mk.inj (Option.some.inj (found.symm.trans read))
    obtain rfl := Node.leaf.inj same
    rfl

private theorem expr?_of_binary {operator : Operator} {rest : List UInt8} (waiting : List Waiting)
    (read : node? bytes = some (.binary operator, rest)) :
    expr? waiting bytes = expr? (.lhs operator :: waiting) rest := by
  rw [expr?]
  split <;> simp_all

/-- The bytes of a binary node are those of its operator and of its operands. -/
theorem ofExpr?_binary {operator : Operator} {lhs rhs : Expr}
    (written : ofExpr? (.binary operator lhs rhs) = some bytes) :
    ∃ code left right, operatorCode? operator = some code ∧ ofExpr? lhs = some left ∧
      ofExpr? rhs = some right ∧ bytes = ofCompact 1 ++ ofCompact code ++ left ++ right := by
  simp only [ofExpr?, Option.bind_eq_bind, Option.bind_eq_some_iff, Option.pure_def,
    Option.some.injEq] at written
  obtain ⟨code, coded, left, first, right, second, rfl⟩ := written
  exact ⟨code, left, right, coded, first, second, rfl⟩

/-- An expression that is read back is given to the operators that wait. -/
theorem expr?_of_ofExpr? {expr : Expr} (written : ofExpr? expr = some bytes)
    (short : bytes.length < UInt64.size) (waiting : List Waiting) (rest : List UInt8) :
    expr? waiting (bytes ++ rest) = match supply expr.withMarks waiting with
      | .inl whole => some (whole, rest)
      | .inr waiting => expr? waiting rest := by
  induction expr generalizing bytes waiting rest with
  | leaf value indexed =>
    obtain rfl := Option.some.inj written
    rw [List.length_append] at short
    exact expr?_of_leaf waiting (node?_leaf (by omega) rest)
  | binary operator lhs rhs ihl ihr =>
    obtain ⟨code, left, right, coded, first, second, rfl⟩ := ofExpr?_binary written
    simp only [List.length_append] at short
    have node := node?_binary coded (left ++ (right ++ rest))
    rw [List.append_assoc, List.append_assoc, expr?_of_binary waiting node,
      ihl first (by omega) (.lhs operator :: waiting) (right ++ rest)]
    -- The left operand makes its operator wait for the right one, which completes the node.
    exact ihr second (by omega) (.rhs operator lhs.withMarks :: waiting) rest

theorem isSome_ofExpr?_iff {expr : Expr} : (ofExpr? expr).isSome ↔ .nil ∉ expr.operators := by
  induction expr with
  | leaf value indexed => simp [ofExpr?, Expr.operators]
  | binary operator lhs rhs ihl ihr =>
    have coded : .nil ≠ operator ↔ (operatorCode? operator).isSome :=
      ne_comm.trans isSome_operatorCode?_iff.symm
    simp only [Expr.operators, List.mem_append, List.mem_cons, not_or, ← ihl, ← ihr, coded, ofExpr?]
    cases operatorCode? operator <;> cases ofExpr? lhs <;> cases ofExpr? rhs <;> simp

/-- Every node takes at least one byte. -/
theorem nodes_le_of_ofExpr? {expr : Expr} (written : ofExpr? expr = some bytes) :
    expr.nodes ≤ bytes.length := by
  induction expr generalizing bytes with
  | leaf value indexed =>
    obtain rfl := Option.some.inj written
    have tag := length_ofCompact_pos 0
    rw [List.length_append, Expr.nodes]
    omega
  | binary operator lhs rhs ihl ihr =>
    obtain ⟨code, left, right, -, first, second, rfl⟩ := ofExpr?_binary written
    have tag := length_ofCompact_pos 1
    have left_le := ihl first
    have right_le := ihr second
    simp only [List.length_append, Expr.nodes]
    omega

theorem header?_ofHeader {header : LoopHeader} (short : (ofHeader header).length < UInt64.size)
    (rest : List UInt8) : header? (ofHeader header ++ rest) = some (header, rest) := by
  simp only [ofHeader, List.length_append] at short
  have index : (ofString header.index).length < UInt64.size := by omega
  have start : (ofString header.start).length < UInt64.size := by omega
  have stop : (ofString header.stop).length < UInt64.size := by omega
  simp [header?, ofHeader, string?_ofString index, string?_ofString start, string?_ofString stop]

private theorem loop?_none (rest : List UInt8) : loop? (ofCompact 0 ++ rest) = some (none, rest) := by
  simp [loop?, compact?_of_lt]

private theorem loop?_some {header : LoopHeader} (short : (ofHeader header).length < UInt64.size)
    (rest : List UInt8) :
    loop? (ofCompact 1 ++ ofHeader header ++ rest) = some (some header, rest) := by
  simp [loop?, compact?_of_lt, header?_ofHeader short]

private theorem condition?_of_none {rest : List UInt8} (read : loop? bytes = some (none, rest)) :
    condition? bytes = (expr? [] rest).map fun (expr, rest) => (.scalar expr, rest) := by
  rw [condition?]
  split <;> simp_all

private theorem condition?_of_some {header : LoopHeader} {rest : List UInt8}
    (read : loop? bytes = some (some header, rest)) :
    condition? bytes = (condition? rest).map fun (body, rest) => (.loop header body, rest) := by
  rw [condition?]
  split <;> simp_all

private theorem condition?_of_ofCondition? {condition : Condition}
    (written : ofCondition? condition = some bytes) (short : bytes.length < UInt64.size)
    (rest : List UInt8) : condition? (bytes ++ rest) = some (condition.withMarks, rest) := by
  induction condition generalizing bytes with
  | scalar expr =>
    obtain ⟨inner, first, rfl⟩ := Option.map_eq_some_iff.mp written
    rw [List.length_append] at short
    have read := expr?_of_ofExpr? first (by omega) [] rest
    rw [List.append_assoc, condition?_of_none (loop?_none _), read]
    rfl
  | loop header body ih =>
    obtain ⟨inner, first, rfl⟩ := Option.map_eq_some_iff.mp written
    simp only [List.length_append] at short
    have headed : (ofHeader header).length < UInt64.size := by omega
    rw [List.append_assoc, condition?_of_some (loop?_some headed _), ih first (by omega)]
    rfl

theorem isSome_ofCondition?_iff {condition : Condition} :
    (ofCondition? condition).isSome ↔ .nil ∉ condition.innermost.operators := by
  induction condition with
  | scalar expr => rw [ofCondition?, Option.isSome_map, isSome_ofExpr?_iff, Condition.innermost]
  | loop header body ih => rw [ofCondition?, Option.isSome_map, ih, Condition.innermost]

private theorem nodes_le_of_ofCondition? {condition : Condition}
    (written : ofCondition? condition = some bytes) : condition.nodes ≤ bytes.length := by
  induction condition generalizing bytes with
  | scalar expr =>
    obtain ⟨inner, first, rfl⟩ := Option.map_eq_some_iff.mp written
    have inner_le := nodes_le_of_ofExpr? first
    rw [List.length_append, Condition.nodes]
    omega
  | loop header body ih =>
    obtain ⟨inner, first, rfl⟩ := Option.map_eq_some_iff.mp written
    have tag := length_ofCompact_pos 1
    have inner_le := ih first
    simp only [List.length_append, Condition.nodes]
    omega

private theorem rule?_of_ofRule? {rule : Rule} (written : ofRule? rule = some bytes)
    (short : bytes.length < UInt64.size) (rest : List UInt8) :
    rule? (bytes ++ rest) = some (rule.withMarks, rest) := by
  cases rule with
  | scalar condition =>
    obtain ⟨inner, first, rfl⟩ := Option.map_eq_some_iff.mp written
    rw [List.length_append] at short
    have read := condition?_of_ofCondition? first (by omega) rest
    rw [List.append_assoc, rule?, loop?_none]
    simp [read, Rule.withMarks]
  | vector header condition =>
    obtain ⟨inner, first, rfl⟩ := Option.map_eq_some_iff.mp written
    simp only [List.length_append] at short
    have headed : (ofHeader header).length < UInt64.size := by omega
    have read := condition?_of_ofCondition? first (by omega) rest
    rw [List.append_assoc, rule?, loop?_some headed]
    simp [read, Rule.withMarks]

theorem isSome_ofRule?_iff {rule : Rule} :
    (ofRule? rule).isSome ↔ .nil ∉ rule.innermost.operators := by
  cases rule with
  | scalar condition =>
    rw [ofRule?, Option.isSome_map, isSome_ofCondition?_iff, Rule.innermost, Rule.condition]
  | vector header condition =>
    rw [ofRule?, Option.isSome_map, isSome_ofCondition?_iff, Rule.innermost, Rule.condition]

private theorem nodes_le_of_ofRule? {rule : Rule} (written : ofRule? rule = some bytes) :
    rule.nodes ≤ bytes.length := by
  cases rule with
  | scalar condition =>
    obtain ⟨inner, first, rfl⟩ := Option.map_eq_some_iff.mp written
    have inner_le := nodes_le_of_ofCondition? first
    rw [List.length_append, Rule.nodes]
    omega
  | vector header condition =>
    obtain ⟨inner, first, rfl⟩ := Option.map_eq_some_iff.mp written
    have tag := length_ofCompact_pos 1
    have inner_le := nodes_le_of_ofCondition? first
    simp only [List.length_append, Rule.nodes]
    omega

private theorem digest?_ofDigest? {digest : Option (List UInt8)} (size : ∀ d ∈ digest, d.length = digestSize)
    (rest : List UInt8) : digest? (ofDigest? digest ++ rest) = some (digest, rest) := by
  cases digest with
  | none => rfl
  | some digest => simp [ofDigest?, digest?, take?_of_length (size digest rfl)]

namespace Payload

variable {payload : Payload}

theorem isSome_toBytes?_iff :
    payload.toBytes?.isSome ↔ .nil ∉ payload.rule.innermost.operators := by
  rw [toBytes?, Option.isSome_map, isSome_ofRule?_iff]

/-- A payload is read back with the leaves of its rule marked. -/
theorem ofBytes?_of_toBytes? (written : payload.toBytes? = some bytes)
    (short : bytes.length < UInt64.size) (counted : payload.nodeCount = payload.rule.nodes)
    (size : ∀ digest ∈ payload.sourceDigest, digest.length = digestSize) (rest : List UInt8) :
    ofBytes? (bytes ++ rest) = some { payload with rule := payload.rule.withMarks } := by
  obtain ⟨inner, first, rfl⟩ := Option.map_eq_some_iff.mp written
  have nodes_le := nodes_le_of_ofRule? first
  simp only [List.length_append] at short
  have within : payload.nodeCount < UInt64.size := by omega
  have count := compact?_ofCompact within (.inr (Nat.le_refl 8))
  have read := rule?_of_ofRule? first (by omega) rest
  simp [ofBytes?, count, digest?_ofDigest? size, read]

end Payload

end Cache

end DocRules

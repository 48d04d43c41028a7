import DocRules.Cache.Validity
import DocRules.Proofs.Cache.Payload
import DocRules.Proofs.Evaluation.TwoPass

/-! # Which rules come out of a cache

The check of a rule that was read is successful if and only if the rule is valid, which is said of its
headers, loops, levels and leaves one by one (`Cache.checkRule_eq_ok_iff`). Validity does not depend on
the marks of the leaves.
-/

namespace DocRules

/-- The values of the leaves from left to right. -/
def Expr.values : Expr → List Value
  | .leaf value _ => [value]
  | .binary _ lhs rhs => lhs.values ++ rhs.values

namespace Cache

/-- A header with an index and an array, whose start is an integer. -/
structure ValidHeader (header : LoopHeader) : Prop where
  index_ne : header.index ≠ ""
  stop_ne : header.stop ≠ ""
  start_isSome : (Decimal.int64? header.start.toList).isSome

/-- A rule with valid headers, whose condition is within the limits of rule text and has no empty
string among its leaves. -/
structure Valid (rule : Rule) : Prop where
  headers : ∀ header ∈ rule.headers, ValidHeader header
  loops_le : rule.condition.loops ≤ maxLoopDepth
  depth_le : rule.innermost.depth ≤ maxExprDepth
  empty_notMem : .string "" ∉ rule.innermost.values

theorem check_bind_eq_ok_iff {first next : Check} :
    (do first; next) = .ok () ↔ first = .ok () ∧ next = .ok () := by
  rw [Outcome.bind_eq_ok_iff]
  exact ⟨fun ⟨_, here, later⟩ => ⟨here, later⟩, fun ⟨here, later⟩ => ⟨(), here, later⟩⟩

theorem checkHeader_eq_ok_iff {header : LoopHeader} :
    checkHeader header = .ok () ↔ ValidHeader header := by
  constructor
  · intro success
    unfold checkHeader at success
    split at success
    · contradiction
    · split at success
      · contradiction
      · rename_i parts start
        simp only [Bool.or_eq_true, String.isEmpty_iff, not_or] at parts
        exact ⟨parts.1, parts.2, Option.isSome_iff_ne_none.mpr (by simpa using start)⟩
  · intro valid
    have start := Option.isNone_eq_false_iff.mpr valid.start_isSome
    simp [checkHeader, valid.index_ne, valid.stop_ne, start]

theorem checkExpr_eq_ok_iff {levels : Nat} {expr : Expr} :
    checkExpr levels expr = .ok () ↔ expr.depth ≤ levels ∧ .string "" ∉ expr.values := by
  induction expr generalizing levels with
  | leaf value indexed =>
    cases levels with
    | zero => simp [checkExpr, Expr.depth]
    | succ levels =>
      simp only [checkExpr, Expr.depth, Expr.values, List.mem_singleton]
      split <;> simp_all [eq_comm]
  | binary operator lhs rhs ihl ihr =>
    cases levels with
    | zero => simp [checkExpr, Expr.depth]
    | succ levels =>
      simp only [checkExpr, check_bind_eq_ok_iff, ihl, ihr, Expr.depth, Expr.values, List.mem_append,
        not_or]
      have levels_le : 1 + max lhs.depth rhs.depth ≤ levels + 1 ↔
          lhs.depth ≤ levels ∧ rhs.depth ≤ levels := by omega
      rw [levels_le, and_and_and_comm]

theorem checkCondition_eq_ok_iff {loops : Nat} {condition : Condition} :
    checkCondition loops condition = .ok () ↔
      (∀ header ∈ condition.headers, ValidHeader header) ∧ condition.loops ≤ loops ∧
        condition.innermost.depth ≤ maxExprDepth ∧ .string "" ∉ condition.innermost.values := by
  induction condition generalizing loops with
  | scalar expr =>
    simp [checkCondition, checkExpr_eq_ok_iff, Condition.headers, Condition.loops,
      Condition.innermost]
  | loop header body ih =>
    cases loops with
    | zero => simp [checkCondition, Condition.loops]
    | succ loops =>
      simp only [checkCondition, check_bind_eq_ok_iff, checkHeader_eq_ok_iff, ih, Condition.headers,
        List.forall_mem_cons, Condition.loops, Nat.add_le_add_iff_right, Condition.innermost, and_assoc]

/-- A rule passes the check if and only if it is valid. -/
theorem checkRule_eq_ok_iff {rule : Rule} : checkRule rule = .ok () ↔ Valid rule := by
  cases rule with
  | scalar condition =>
    rw [checkRule, checkCondition_eq_ok_iff]
    exact ⟨fun ⟨headers, loops, depth, values⟩ => ⟨headers, loops, depth, values⟩,
      fun ⟨headers, loops, depth, values⟩ => ⟨headers, loops, depth, values⟩⟩
  | vector header condition =>
    rw [checkRule, check_bind_eq_ok_iff, checkHeader_eq_ok_iff, checkCondition_eq_ok_iff]
    constructor
    · rintro ⟨outer, headers, loops, depth, values⟩
      exact ⟨List.forall_mem_cons.mpr ⟨outer, headers⟩, loops, depth, values⟩
    · rintro ⟨headers, loops, depth, values⟩
      obtain ⟨outer, headers⟩ := List.forall_mem_cons.mp headers
      exact ⟨outer, headers, loops, depth, values⟩

end Cache

section Marks

variable (expr : Expr) (condition : Condition) (rule : Rule)

@[simp] theorem Expr.depth_withMarks : expr.withMarks.depth = expr.depth := by
  induction expr with
  | leaf => rfl
  | binary operator lhs rhs ihl ihr => rw [withMarks, depth, depth, ihl, ihr]

@[simp] theorem Expr.nodes_withMarks : expr.withMarks.nodes = expr.nodes := by
  induction expr with
  | leaf => rfl
  | binary operator lhs rhs ihl ihr => rw [withMarks, nodes, nodes, ihl, ihr]

@[simp] theorem Expr.values_withMarks : expr.withMarks.values = expr.values := by
  induction expr with
  | leaf => rfl
  | binary operator lhs rhs ihl ihr => rw [withMarks, values, values, ihl, ihr]

@[simp] theorem Condition.innermost_withMarks :
    condition.withMarks.innermost = condition.innermost.withMarks := by
  induction condition with
  | scalar => rfl
  | loop header body ih => exact ih

@[simp] theorem Condition.headers_withMarks : condition.withMarks.headers = condition.headers := by
  induction condition with
  | scalar => rfl
  | loop header body ih => rw [withMarks, headers, headers, ih]

@[simp] theorem Condition.loops_withMarks : condition.withMarks.loops = condition.loops := by
  induction condition with
  | scalar => rfl
  | loop header body ih => rw [withMarks, loops, loops, ih]

@[simp] theorem Condition.nodes_withMarks : condition.withMarks.nodes = condition.nodes := by
  induction condition with
  | scalar expr => exact expr.nodes_withMarks
  | loop header body ih => rw [withMarks, nodes, nodes, ih]

@[simp] theorem Rule.condition_withMarks : rule.withMarks.condition = rule.condition.withMarks := by
  cases rule <;> rfl

@[simp] theorem Rule.innermost_withMarks : rule.withMarks.innermost = rule.innermost.withMarks := by
  rw [innermost, innermost, condition_withMarks, Condition.innermost_withMarks]

@[simp] theorem Rule.headers_withMarks : rule.withMarks.headers = rule.headers := by
  cases rule with
  | scalar condition => exact condition.headers_withMarks
  | vector header condition => exact congrArg (header :: ·) condition.headers_withMarks

@[simp] theorem Rule.nodes_withMarks : rule.withMarks.nodes = rule.nodes := by
  cases rule with
  | scalar condition => exact condition.nodes_withMarks
  | vector header condition => exact congrArg (1 + ·) condition.nodes_withMarks

theorem Cache.valid_withMarks_iff : Valid rule.withMarks ↔ Valid rule := by
  constructor
  · rintro ⟨headers, loops, depth, values⟩
    exact ⟨by simpa using headers, by simpa using loops, by simpa using depth, by simpa using values⟩
  · rintro ⟨headers, loops, depth, values⟩
    exact ⟨by simpa using headers, by simpa using loops, by simpa using depth, by simpa using values⟩

end Marks

end DocRules

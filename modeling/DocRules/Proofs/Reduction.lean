import DocRules.Parse.Reduction
import DocRules.Proofs.Outcome

/-! # The tree that a body is reduced to

The reduction refuses a tree as soon as it is too deep. Without this limit it is a function from two
stacks and the words still to come to a tree, if the stacks fit. The limit changes nothing else: a
body is reduced if and only if the tree exists and is not too deep (`ofWords_eq_ok_iff`), because
every tree on the stack ends up in the tree of the body.

Whether the tree exists depends only on how many operands are open whenever an operator is closed
(`isSome_reduced?_iff`). A body that is refused is malformed as a whole, whichever of its words it fails at
(`malformed_of_ofWords`).
-/

namespace DocRules

/-- Every leaf is what one of the words writes, which is no operator, and every operator has a word. -/
def Expr.WrittenBy (words : List String) : Expr → Prop
  | .leaf value indexed =>
    ∃ word ∈ words, Operator.ofWord? word = none ∧ Expr.leaf value indexed = .ofWord word
  | .binary operator lhs rhs => operator ≠ .nil ∧ lhs.WrittenBy words ∧ rhs.WrittenBy words

namespace Reduction

open Outcome

/-- Read the words that are still to come and close what is open then. -/
def complete (pending : Reduction) (words : List String) : Except ParseError Expr := do
  (← words.foldlM (fun pending word => pending.push word) pending).finish

/-- The expression to which the words of a body are reduced. -/
def ofWords (words : List String) : Except ParseError Expr :=
  empty.complete words

private theorem complete_cons (pending : Reduction) (word : String) (words : List String) :
    pending.complete (word :: words) = pending.push word >>= fun pending => pending.complete words := by
  simp only [complete, List.foldlM_cons, bind_assoc]

/-- Close all open operators from the last one on. -/
def closed? : List Expr → List Operator → Option Expr
  | [expr], [] => some expr
  | rhs :: lhs :: operands, operator :: operators =>
    closed? (.binary operator lhs rhs :: operands) operators
  | _, _ => none

/-- The tree of two stacks and the words still to come, however deep it is. -/
def completed? : List Expr → List Operator → List String → Option Expr
  | operands, operators, [] => closed? operands operators
  | operands, operators, word :: words =>
    match Operator.ofWord? word with
    | none => completed? (.ofWord word :: operands) operators words
    | some operator =>
      match operators with
      | [] => completed? operands [operator] words
      | top :: operators =>
        if operator.yieldsTo top then
          match operands with
          | rhs :: lhs :: operands =>
            completed? (.binary top lhs rhs :: operands) (operator :: operators) words
          | _ => none
        else completed? operands (operator :: top :: operators) words

/-- The tree of a body, however deep it is. -/
def reduced? (words : List String) : Option Expr :=
  completed? [] [] words

private theorem depth_le_of_binary {operator : Operator} {lhs rhs : Expr} {operands : List Expr} {bound : Nat}
    (within : ∀ operand ∈ Expr.binary operator lhs rhs :: operands, operand.depth ≤ bound) :
    ∀ operand ∈ rhs :: lhs :: operands, operand.depth ≤ bound := by
  simp only [List.forall_mem_cons, Expr.depth] at within ⊢
  obtain ⟨top, below⟩ := within
  exact ⟨by omega, by omega, below⟩

/-- Every open operand is part of the tree. -/
theorem depth_le_of_closed? {operands : List Expr} {operators : List Operator} {expr : Expr}
    (found : closed? operands operators = some expr) :
    ∀ operand ∈ operands, operand.depth ≤ expr.depth := by
  fun_induction closed? operands operators with
  | case1 expr' =>
    obtain rfl := Option.some.inj found
    simp
  | case2 rhs lhs operands operator operators ih => exact depth_le_of_binary (ih found)
  | case3 => contradiction

private theorem depth_le_of_completed? {operands : List Expr} {operators : List Operator}
    {words : List String} {expr : Expr} (found : completed? operands operators words = some expr) :
    ∀ operand ∈ operands, operand.depth ≤ expr.depth := by
  fun_induction completed? operands operators words with
  | case1 operands operators => exact depth_le_of_closed? found
  | case2 operands operators word words leaf ih => exact (List.forall_mem_cons.mp (ih found)).2
  | case3 operands word words operator written ih => exact ih found
  | case4 word words operator written top operators yields rhs lhs operands ih =>
    exact depth_le_of_binary (ih found)
  | case5 => contradiction
  | case6 operands word words operator written top operators stays ih => exact ih found

theorem close_of_depth_le {operator : Operator} {lhs rhs : Expr} {operands : List Expr}
    (within : (Expr.binary operator lhs rhs).depth ≤ maxExprDepth) :
    close operator (rhs :: lhs :: operands) = .ok (.binary operator lhs rhs :: operands) := by
  simp [close, Nat.not_lt.mpr within]

theorem close_of_lt_depth {operator : Operator} {lhs rhs : Expr} {operands : List Expr}
    (beyond : maxExprDepth < (Expr.binary operator lhs rhs).depth) :
    close operator (rhs :: lhs :: operands) = .error (.malformed .exprTooDeep) := by
  simp [close, beyond]

/-- A tree within the limit, as the reduction gives it. -/
def limited (expr : Expr) : Except ParseError Expr :=
  if maxExprDepth < expr.depth then .error (.malformed .exprTooDeep) else .ok expr

theorem limited_eq_ok_iff {expr expr' : Expr} :
    limited expr = .ok expr' ↔ expr = expr' ∧ expr.depth ≤ maxExprDepth := by
  rw [limited]
  split
  · rename_i beyond
    simp [Nat.not_le.mpr beyond]
  · rename_i within
    simp [Nat.le_of_not_lt within]

private theorem limited_of_beyond {expr part : Expr} (within : part.depth ≤ expr.depth)
    (beyond : maxExprDepth < part.depth) : limited expr = .error (.malformed .exprTooDeep) := by
  rw [limited, if_pos (Nat.lt_of_lt_of_le beyond within)]

private theorem finish_of_closed? {operands : List Expr} {operators : List Operator} {expr : Expr}
    (found : closed? operands operators = some expr)
    (within : ∀ operand ∈ operands, operand.depth ≤ maxExprDepth) :
    finish ⟨operands, operators⟩ = limited expr := by
  fun_induction closed? operands operators with
  | case1 expr' =>
    obtain rfl := Option.some.inj found
    have fits : ¬ maxExprDepth < expr'.depth := Nat.not_lt.mpr (within _ List.mem_cons_self)
    simp [finish, limited, fits]
  | case2 rhs lhs operands operator operators ih =>
    have part := depth_le_of_closed? found _ List.mem_cons_self
    by_cases beyond : maxExprDepth < (Expr.binary operator lhs rhs).depth
    · simp only [finish, List.foldlM_cons, close_of_lt_depth beyond, error_bind]
      exact (limited_of_beyond part beyond).symm
    · have fits := Nat.le_of_not_lt beyond
      have below := (List.forall_mem_cons.mp (List.forall_mem_cons.mp within).2).2
      rw [← ih found (List.forall_mem_cons.mpr ⟨fits, below⟩)]
      simp only [finish, List.foldlM_cons, close_of_depth_le fits, ok_bind]
  | case3 => contradiction

theorem push_of_leaf {word : String} {operands : List Expr} {operators : List Operator}
    (leaf : Operator.ofWord? word = none) :
    push word ⟨operands, operators⟩ = .ok ⟨.ofWord word :: operands, operators⟩ := by
  simp [push, leaf]

/-- An operator that does not yield to the operator before it stays open with it. -/
theorem push_of_stays {word : String} {operator : Operator} {operands : List Expr}
    {operators : List Operator} (written : Operator.ofWord? word = some operator)
    (stays : ∀ top ∈ operators.head?, operator.yieldsTo top = false) :
    push word ⟨operands, operators⟩ = .ok ⟨operands, operator :: operators⟩ := by
  cases operators with
  | nil => simp [push, written, pushOperator]
  | cons top operators =>
    have kept : operator.yieldsTo top = false := stays top rfl
    simp [push, written, pushOperator, kept]

/-- An operator that yields to the operator before it closes that operator. -/
theorem push_of_yields {word : String} {operator top : Operator} {operands : List Expr}
    {operators : List Operator} (written : Operator.ofWord? word = some operator)
    (yields : operator.yieldsTo top = true) :
    push word ⟨operands, top :: operators⟩ =
      (close top operands).map fun operands => ⟨operands, operator :: operators⟩ := by
  simp only [push, written, pushOperator, yields, ↓reduceIte]
  cases close top operands <;> rfl

/-- The reduction gives the tree if it is within the limit, and refuses it otherwise. -/
theorem complete_of_completed? {operands : List Expr} {operators : List Operator}
    {words : List String} {expr : Expr} (found : completed? operands operators words = some expr)
    (within : ∀ operand ∈ operands, operand.depth ≤ maxExprDepth) :
    complete ⟨operands, operators⟩ words = limited expr := by
  fun_induction completed? operands operators words with
  | case1 operands operators => exact finish_of_closed? found within
  | case2 operands operators word words leaf ih =>
    have single : (Expr.ofWord word).depth ≤ maxExprDepth := by
      rw [Expr.ofWord, Expr.ofValue, Expr.depth]
      decide
    rw [complete_cons, push_of_leaf leaf, ok_bind]
    exact ih found (List.forall_mem_cons.mpr ⟨single, within⟩)
  | case3 operands word words operator written ih =>
    rw [complete_cons, push_of_stays written (by simp), ok_bind]
    exact ih found within
  | case4 word words operator written top operators yields rhs lhs operands ih =>
    have part := depth_le_of_completed? found _ List.mem_cons_self
    rw [complete_cons, push_of_yields written yields]
    by_cases beyond : maxExprDepth < (Expr.binary top lhs rhs).depth
    · rw [close_of_lt_depth beyond, limited_of_beyond part beyond]
      rfl
    · have fits := Nat.le_of_not_lt beyond
      have below := (List.forall_mem_cons.mp (List.forall_mem_cons.mp within).2).2
      rw [close_of_depth_le fits]
      exact ih found (List.forall_mem_cons.mpr ⟨fits, below⟩)
  | case5 => contradiction
  | case6 operands word words operator written top operators stays ih =>
    rw [complete_cons, push_of_stays written (by simpa using stays), ok_bind]
    exact ih found within

/-- What the reduction closes without complaint is the tree. -/
theorem closed?_of_finish {operands : List Expr} {operators : List Operator} {expr : Expr}
    (success : finish ⟨operands, operators⟩ = .ok expr) : closed? operands operators = some expr := by
  induction operators generalizing operands with
  | nil =>
    match operands, success with
    | [only], success =>
      obtain rfl := Except.ok.inj success
      rfl
  | cons operator operators ih =>
    match operands, success with
    | rhs :: lhs :: operands, success =>
      by_cases beyond : maxExprDepth < (Expr.binary operator lhs rhs).depth
      · simp [finish, close_of_lt_depth beyond] at success
      · have fits := Nat.le_of_not_lt beyond
        apply ih
        simpa only [finish, List.foldlM_cons, close_of_depth_le fits, ok_bind] using success

private theorem completed?_of_complete {operands : List Expr} {operators : List Operator}
    {words : List String} {expr : Expr} (success : complete ⟨operands, operators⟩ words = .ok expr) :
    completed? operands operators words = some expr := by
  fun_induction completed? operands operators words with
  | case1 operands operators => exact closed?_of_finish success
  | case2 operands operators word words leaf ih =>
    rw [complete_cons, push_of_leaf leaf] at success
    exact ih success
  | case3 operands word words operator written ih =>
    rw [complete_cons, push_of_stays written (by simp)] at success
    exact ih success
  | case4 word words operator written top operators yields rhs lhs operands ih =>
    rw [complete_cons, push_of_yields written yields] at success
    by_cases beyond : maxExprDepth < (Expr.binary top lhs rhs).depth
    · rw [close_of_lt_depth beyond] at success
      contradiction
    · rw [close_of_depth_le (Nat.le_of_not_lt beyond)] at success
      exact ih success
  | case5 operands word words operator written top operators yields tooFew =>
    rw [complete_cons, push_of_yields written yields] at success
    match operands, tooFew with
    | [], _ => contradiction
    | [_], _ => contradiction
    | rhs :: lhs :: operands, tooFew => exact absurd rfl (tooFew rhs lhs operands)
  | case6 operands word words operator written top operators stays ih =>
    rw [complete_cons, push_of_stays written (by simpa using stays)] at success
    exact ih success

/-- A body is reduced if and only if its tree exists and is within the limit. -/
theorem ofWords_eq_ok_iff {words : List String} {expr : Expr} :
    ofWords words = .ok expr ↔ reduced? words = some expr ∧ expr.depth ≤ maxExprDepth := by
  constructor
  · intro success
    have found := completed?_of_complete success
    have limit : limited expr = .ok expr := by
      rw [← complete_of_completed? found (by simp)]
      exact success
    exact ⟨found, (limited_eq_ok_iff.mp limit).2⟩
  · rintro ⟨found, within⟩
    rw [ofWords, empty, complete_of_completed? found (by simp)]
    exact limited_eq_ok_iff.mpr ⟨rfl, within⟩

/-- An operator between two operands is written by words if the operands are. -/
theorem writtenBy_binary {words : List String} {operator : Operator} {lhs rhs : Expr}
    {operands : List Expr} (written : operator ≠ .nil)
    (open_operands : ∀ operand ∈ rhs :: lhs :: operands, operand.WrittenBy words) :
    ∀ operand ∈ Expr.binary operator lhs rhs :: operands, operand.WrittenBy words := by
  simp only [List.forall_mem_cons] at open_operands ⊢
  obtain ⟨right, left, below⟩ := open_operands
  exact ⟨⟨written, left, right⟩, below⟩

/-- All open operands are written by words of the list, and so is the tree. -/
theorem writtenBy_of_closed? {words : List String} {operands : List Expr}
    {operators : List Operator} {expr : Expr} (found : closed? operands operators = some expr)
    (open_operands : ∀ operand ∈ operands, operand.WrittenBy words)
    (written : ∀ operator ∈ operators, operator ≠ .nil) : expr.WrittenBy words := by
  fun_induction closed? operands operators with
  | case1 only =>
    obtain rfl := Option.some.inj found
    exact open_operands _ List.mem_cons_self
  | case2 rhs lhs operands operator operators ih =>
    obtain ⟨closing, below⟩ := List.forall_mem_cons.mp written
    exact ih found (writtenBy_binary closing open_operands) below
  | case3 => contradiction

private theorem writtenBy_of_completed? {words listed : List String} {operands : List Expr}
    {operators : List Operator} {expr : Expr} (found : completed? operands operators words = some expr)
    (open_operands : ∀ operand ∈ operands, operand.WrittenBy listed)
    (written : ∀ operator ∈ operators, operator ≠ .nil) (subset : words ⊆ listed) :
    expr.WrittenBy listed := by
  fun_induction completed? operands operators words with
  | case1 operands operators => exact writtenBy_of_closed? found open_operands written
  | case2 operands operators word words leaf ih =>
    obtain ⟨member, subset⟩ := List.cons_subset.mp subset
    have read : (Expr.ofWord word).WrittenBy listed := ⟨word, member, leaf, rfl⟩
    exact ih found (List.forall_mem_cons.mpr ⟨read, open_operands⟩) written subset
  | case3 operands word words operator spelled ih =>
    have only : ∀ other ∈ [operator], other ≠ .nil :=
      List.forall_mem_singleton.mpr (Operator.ne_nil_of_ofWord? spelled)
    exact ih found open_operands only (List.cons_subset.mp subset).2
  | case4 word words operator spelled top operators yields rhs lhs operands ih =>
    obtain ⟨closing, below⟩ := List.forall_mem_cons.mp written
    have opened : ∀ other ∈ operator :: operators, other ≠ .nil :=
      List.forall_mem_cons.mpr ⟨Operator.ne_nil_of_ofWord? spelled, below⟩
    exact ih found (writtenBy_binary closing open_operands) opened (List.cons_subset.mp subset).2
  | case5 => contradiction
  | case6 operands word words operator spelled top operators stays ih =>
    have opened : ∀ other ∈ operator :: top :: operators, other ≠ .nil :=
      List.forall_mem_cons.mpr ⟨Operator.ne_nil_of_ofWord? spelled, written⟩
    exact ih found open_operands opened (List.cons_subset.mp subset).2

/-- The tree of a body is written by the words of the body. -/
theorem writtenBy_of_reduced? {words : List String} {expr : Expr}
    (found : reduced? words = some expr) : expr.WrittenBy words :=
  writtenBy_of_completed? found (by simp) (by simp) (List.Subset.refl words)

/-- The words supply every operator with operands, given how many operands and operators are open and
which operator is the last one: a connective after a comparison finds two open operands, and one
operand more than operators is open in the end. -/
def Supplies : Nat → Nat → Option Operator → List String → Prop
  | operands, operators, _, [] => operands = operators + 1
  | operands, operators, last, word :: words =>
    match Operator.ofWord? word with
    | none => Supplies (operands + 1) operators last words
    | some operator =>
      if last.any operator.yieldsTo then
        2 ≤ operands ∧ Supplies (operands - 1) operators (some operator) words
      else Supplies operands (operators + 1) (some operator) words

theorem isSome_closed?_iff {operands : List Expr} {operators : List Operator} :
    (closed? operands operators).isSome ↔ operands.length = operators.length + 1 := by
  induction operators generalizing operands with
  | nil =>
    match operands with
    | [] => simp [closed?]
    | [_] => simp [closed?]
    | _ :: _ :: _ => simp [closed?]
  | cons operator operators ih =>
    match operands with
    | [] => simp [closed?]
    | [_] => simp [closed?]
    | _ :: _ :: _ => simp [closed?, ih]

theorem isSome_completed?_iff {operands : List Expr} {operators : List Operator}
    {words : List String} :
    (completed? operands operators words).isSome ↔
      Supplies operands.length operators.length operators.head? words := by
  fun_induction completed? operands operators words with
  | case1 operands operators => exact isSome_closed?_iff
  | case2 operands operators word words leaf ih => simpa [Supplies, leaf] using ih
  | case3 operands word words operator written ih => simpa [Supplies, written] using ih
  | case4 word words operator written top operators yields rhs lhs operands ih =>
    simpa [Supplies, written, yields] using ih
  | case5 operands word words operator written top operators yields tooFew =>
    have few : operands.length < 2 := by
      match operands, tooFew with
      | [], _ => exact Nat.zero_lt_two
      | [_], _ => exact Nat.one_lt_two
      | rhs :: lhs :: operands, tooFew => exact absurd rfl (tooFew rhs lhs operands)
    simp [Supplies, written, yields, Nat.not_le.mpr few]
  | case6 operands word words operator written top operators stays ih =>
    simpa [Supplies, written, stays] using ih

/-- A body has a tree if and only if its words supply its operators. -/
theorem isSome_reduced?_iff {words : List String} :
    (reduced? words).isSome ↔ Supplies 0 0 none words :=
  isSome_completed?_iff

section Refused

variable {operands : List Expr} {operator : Operator} {pending : Reduction} {words : List String}
  {error : ParseError}

private theorem malformed_of_close (failed : close operator operands = .error error) :
    ∃ reason, error = .malformed reason := by
  unfold close at failed
  split at failed
  · dsimp only at failed
    split at failed
    · exact ⟨_, (Except.error.inj failed).symm⟩
    · contradiction
  · exact ⟨_, (Except.error.inj failed).symm⟩

theorem malformed_of_push {word : String} (failed : pending.push word = .error error) :
    ∃ reason, error = .malformed reason := by
  unfold push at failed
  split at failed
  · unfold pushOperator at failed
    split at failed
    · contradiction
    · split at failed
      · rcases bind_eq_error_iff.mp failed with failed | ⟨closed, -, failed⟩
        · exact malformed_of_close failed
        · contradiction
      · contradiction
  · contradiction

theorem malformed_of_finish (failed : pending.finish = .error error) :
    ∃ reason, error = .malformed reason := by
  obtain ⟨operands, operators⟩ := pending
  rw [finish, bind_eq_error_iff] at failed
  rcases failed with failed | ⟨left, -, failed⟩
  · induction operators generalizing operands with
    | nil => contradiction
    | cons operator operators ih =>
      rw [List.foldlM_cons, bind_eq_error_iff] at failed
      rcases failed with failed | ⟨middle, -, failed⟩
      · exact malformed_of_close failed
      · exact ih middle failed
  · split at failed
    · exact ⟨_, (Except.error.inj failed).symm⟩
    · contradiction
    · exact ⟨_, (Except.error.inj failed).symm⟩

/-- A body that is not reduced is malformed. -/
theorem malformed_of_ofWords (failed : ofWords words = .error error) :
    ∃ reason, error = .malformed reason := by
  rw [ofWords] at failed
  generalize empty = pending at failed
  induction words generalizing pending with
  | nil => exact malformed_of_finish failed
  | cons word words ih =>
    rw [complete_cons, bind_eq_error_iff] at failed
    rcases failed with failed | ⟨next, -, failed⟩
    · exact malformed_of_push failed
    · exact ih next failed

end Refused

end Reduction

end DocRules

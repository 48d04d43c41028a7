import DocRules.Proofs.Evaluation.Source

/-! # Errors depend on kinds

Whether an operator can be applied is up to the kinds of its operands, and what it gives is a boolean in
any case. No connective and no loop leaves anything out because of a boolean. So two runs of a rule from
contexts that bind values of the same kinds to the same keys differ in booleans only, whatever the values
are (`Rule.evaluate_alike`). An expression whose leaves are bound fails with the first mismatch among its
nodes, taken from left to right and each after its operands (`Expr.evaluate_cases`).
-/

namespace DocRules

open Outcome

section Operators

variable (operator : Operator) {lhs rhs lhs' rhs' : Value}

theorem Operator.exists_apply_of_kind_eq (same : lhs.kind = rhs.kind) :
    ∃ b, operator.apply lhs rhs = .ok b := by
  cases lhs <;> cases rhs <;> first | exact ⟨_, rfl⟩ | contradiction

theorem Operator.apply_of_kind_ne (differ : lhs.kind ≠ rhs.kind) :
    operator.apply lhs rhs = .error (.typeMismatch operator lhs.kind rhs.kind) :=
  if_pos differ

/-- Every kind has operators of its own, so operands of one kind are never refused as unsupported. -/
theorem Operator.apply_ne_unsupportedType (found : String) :
    operator.apply lhs rhs ≠ .error (.unsupportedType found) := by
  by_cases same : lhs.kind = rhs.kind
  · obtain ⟨b, applied⟩ := exists_apply_of_kind_eq operator same
    rw [applied]
    simp
  · rw [apply_of_kind_ne operator same]
    simp

/-- Between operands of the same kinds an operator gives a boolean or the same error. -/
theorem Operator.apply_endAlike (left : lhs.kind = lhs'.kind) (right : rhs.kind = rhs'.kind) :
    EndAlike (fun _ _ => True) (operator.apply lhs rhs) (operator.apply lhs' rhs') := by
  by_cases same : lhs.kind = rhs.kind
  · obtain ⟨b, applied⟩ := exists_apply_of_kind_eq operator same
    obtain ⟨b', applied'⟩ := exists_apply_of_kind_eq operator (left ▸ right ▸ same)
    rw [applied, applied']
    trivial
  · have differ : lhs'.kind ≠ rhs'.kind := left ▸ right ▸ same
    rw [apply_of_kind_ne operator same, apply_of_kind_ne operator differ, left, right]
    rfl

/-- Values of one kind are booleans, or fail alike to be one. -/
theorem Value.holds_endAlike {value value' : Value} (same : value.kind = value'.kind) :
    EndAlike (fun _ _ => True) value.holds value'.holds := by
  cases value <;> cases value' <;> trivial

end Operators

/-- Two sources give values of the same kinds and the same bounds, and fail alike. -/
structure Source.SameKinds (source source' : Source) : Prop where
  read : ∀ path, EndAlike (fun value value' => value.kind = value'.kind)
    (source.read path) (source'.read path)
  bounds : ∀ header path, source.bounds header path = source'.bounds header path

namespace Source.SameKinds

variable {source source' : Source}

theorem valueFrom_endAlike (same : source.SameKinds source') (indices : Indices) (expr : Expr) :
    EndAlike (fun value value' => value.kind = value'.kind)
      (expr.valueFrom source indices) (expr.valueFrom source' indices) := by
  induction expr with
  | leaf value indexed =>
    cases value with
    | string path => exact same.read (indices.leafPath path indexed)
    | int | float | bool => rfl
  | binary operator lhs rhs ihl ihr =>
    refine ihl.bind fun left left' leftKind => ihr.bind fun right right' rightKind => ?_
    exact (operator.apply_endAlike leftKind rightKind).bind fun _ _ _ => rfl

theorem rangeFrom_eq (same : source.SameKinds source') (indices : Indices) (header : LoopHeader) :
    header.rangeFrom source indices = header.rangeFrom source' indices := by
  simp only [LoopHeader.rangeFrom, same.bounds]

/-- A loop takes all its indices, so it goes the same way whatever its body gives. -/
theorem holdsFrom_endAlike (same : source.SameKinds source') (indices : Indices) (condition : Condition) :
    EndAlike (fun _ _ => True) (condition.holdsFrom source indices)
      (condition.holdsFrom source' indices) := by
  induction condition generalizing indices with
  | scalar expr => exact (same.valueFrom_endAlike indices expr).bind fun _ _ => Value.holds_endAlike
  | loop header body ih =>
    rw [Condition.holdsFrom, Condition.holdsFrom, same.rangeFrom_eq]
    cases header.rangeFrom source' indices with
    | error error => rfl
    | ok range =>
      have bodies := EndAlike.mapM fun index (_ : index ∈ range) =>
        ih ((header.index, index) :: indices)
      exact bodies.bind fun _ _ _ => trivial

end Source.SameKinds

/-- Two verdicts are of one rule kind and have equally many results. -/
def Verdict.Alike : Verdict → Verdict → Prop
  | .scalar _, .scalar _ => True
  | .vector results, .vector results' => results.length = results'.length
  | _, _ => False

/-- Results that end alike are the same failure, or none of them is one. -/
theorem IterationFailure.of?_of_endAlike {index : Int} {result result' : Except EvalError Bool}
    (alike : EndAlike (fun _ _ => True) result result') : of? (index, result) = of? (index, result') := by
  cases result with
  | ok b =>
    cases result' with
    | ok b' => rfl
    | error error' => exact alike.elim
  | error error =>
    cases result' with
    | ok b' => exact alike.elim
    | error error' =>
      obtain rfl : error = error' := alike
      rfl

/-- If all indices end alike, a policy makes equally many entries and the same failures of them, or fails
alike. -/
theorem Policy.collect_endAlike {result result' : Int → Except EvalError Bool} {range : List Int}
    (alike : ∀ index ∈ range, EndAlike (fun _ _ => True) (result index) (result' index))
    (policy : Policy) :
    EndAlike (fun collected collected' =>
        collected.1.length = collected'.1.length ∧ collected.2 = collected'.2)
      (policy.collect (range.map fun index => (index, result index)))
      (policy.collect (range.map fun index => (index, result' index))) := by
  cases policy with
  | recordFalse =>
    have failures : (range.map fun index => (index, result index)).filterMap IterationFailure.of? =
        (range.map fun index => (index, result' index)).filterMap IterationFailure.of? := by
      induction range with
      | nil => rfl
      | cons index range ih =>
        obtain ⟨here, later⟩ := List.forall_mem_cons.mp alike
        simp only [List.map_cons, List.filterMap_cons, IterationFailure.of?_of_endAlike here, ih later]
    exact ⟨by simp, failures⟩
  | abort =>
    simp only [Policy.collect, List.mapM_map]
    exact (EndAlike.mapM alike).bind fun _ _ same => ⟨same, rfl⟩

/-- A rule has verdicts of one shape with the same failures from both sources, or fails alike. -/
theorem Source.SameKinds.verdictFrom_endAlike {source source' : Source} (same : source.SameKinds source')
    (indices : Indices) (policy : Policy) (rule : Rule) :
    EndAlike (fun ended ended' => ended.1.Alike ended'.1 ∧ ended.2 = ended'.2)
      (rule.verdictFrom source indices policy) (rule.verdictFrom source' indices policy) := by
  cases rule with
  | scalar condition =>
    exact (same.holdsFrom_endAlike indices condition).bind fun _ _ _ => ⟨trivial, rfl⟩
  | vector header condition =>
    rw [Rule.verdictFrom, Rule.verdictFrom, same.rangeFrom_eq]
    cases header.rangeFrom source' indices with
    | error error => rfl
    | ok range =>
      have bodies := policy.collect_endAlike fun index (_ : index ∈ range) =>
        same.holdsFrom_endAlike ((header.index, index) :: indices) condition
      exact bodies.bind fun _ _ collected => collected

/-- Two contexts have the same loops and bounds, and values of the same kinds at the same keys. -/
structure Context.SameKinds (context context' : Context) : Prop where
  frames : context.frames = context'.frames
  bounds : context.bounds = context'.bounds
  kinds : ∀ key, (context.get? key).map Value.kind = (context'.get? key).map Value.kind

theorem Context.SameKinds.ofContext {context context' : Context} (same : context.SameKinds context') :
    (Source.ofContext context).SameKinds (.ofContext context') where
  read key := by
    have kinds := same.kinds key
    simp only [Source.ofContext]
    cases found : context.get? key with
    | none =>
      cases found' : context'.get? key with
      | none => rfl
      | some value' => simp [found, found'] at kinds
    | some value =>
      cases found' : context'.get? key with
      | none => simp [found, found'] at kinds
      | some value' =>
        rw [found, found'] at kinds
        exact Option.some.inj kinds
  bounds header path := by
    simp only [Source.ofContext, Context.bounds?, same.bounds]

/-- How a pass ends, without the context that it leaves. -/
def Pass.ending {α : Type} (pass : Pass α) (context : Context) : Except EvalError α :=
  match pass context with
  | .ok a _ => .ok a
  | .error error _ => .error error

theorem Rule.ending_evaluate (rule : Rule) (policy : Policy) (context : Context) :
    (rule.evaluate policy).ending context =
      rule.verdictFrom (.ofContext context) context.indices policy := by
  rw [Pass.ending, Rule.evaluate_apply]
  cases rule.verdictFrom (.ofContext context) context.indices policy <;> rfl

theorem Context.contains_eq_isSome_get? (context : Context) (key : String) :
    context.contains key = (context.get? key).isSome :=
  Std.ExtTreeMap.contains_eq_isSome_getElem?

namespace Expr

/-- The subexpressions from left to right, each after its operands. -/
def postorder : Expr → List Expr
  | .leaf value indexed => [.leaf value indexed]
  | .binary operator lhs rhs => lhs.postorder ++ rhs.postorder ++ [.binary operator lhs rhs]

variable (context : Context)

def keys : Expr → List String
  | .leaf (.string path) indexed => [context.leafKey path indexed]
  | .leaf _ _ => []
  | .binary _ lhs rhs => lhs.keys ++ rhs.keys

/-- The kind of an expression: a leaf has the kind of its value, and an operator gives a boolean. -/
def kind? : Expr → Option Value.Kind
  | .leaf (.string path) indexed => (context.get? (context.leafKey path indexed)).map Value.kind
  | .leaf value _ => some value.kind
  | .binary .. => some .bool

/-- The error of an operator between operands of different kinds. -/
def mismatch? : Expr → Option EvalError
  | .leaf .. => none
  | .binary operator lhs rhs => do
    let left ← lhs.kind? context
    let right ← rhs.kind? context
    if left = right then none else some (.typeMismatch operator left right)

variable {context} {expr : Expr}

/-- An expression whose leaves are bound has a value of its kind and no mismatch in it, or fails with the
first mismatch in it. -/
theorem evaluate_cases (bound : ∀ key ∈ expr.keys context, context.contains key) :
    (∃ value, expr.evaluate context = .ok value ∧ expr.kind? context = some value.kind ∧
      expr.postorder.findSome? (mismatch? context) = none) ∨
    ∃ error, expr.evaluate context = .error error ∧
      expr.postorder.findSome? (mismatch? context) = some error := by
  induction expr with
  | leaf value indexed =>
    cases value with
    | string path =>
      have key := bound _ (List.mem_singleton_self _)
      rw [Context.contains_eq_isSome_get?] at key
      obtain ⟨value, found⟩ := Option.isSome_iff_exists.mp key
      exact .inl ⟨value, by simp [evaluate, found], by simp [kind?, found], rfl⟩
    | int | float | bool => exact .inl ⟨_, rfl, rfl, rfl⟩
  | binary operator lhs rhs ihl ihr =>
    simp only [keys, List.forall_mem_append] at bound
    simp only [postorder, List.findSome?_append, evaluate]
    rcases ihl bound.1 with ⟨left, value, kind, first⟩ | ⟨error, failed, first⟩
    · rcases ihr bound.2 with ⟨right, value', kind', second⟩ | ⟨error, failed, second⟩
      · simp only [value, value', first, second, ok_bind, Option.none_or, List.findSome?_singleton,
          mismatch?, kind, kind']
        by_cases same : left.kind = right.kind
        · obtain ⟨b, applied⟩ := Operator.exists_apply_of_kind_eq operator same
          exact .inl ⟨.bool b, by rw [applied]; rfl, rfl, by simp [same]⟩
        · exact .inr ⟨_, by rw [Operator.apply_of_kind_ne operator same]; rfl, by simp [same]⟩
      · exact .inr ⟨error, by rw [value, failed]; rfl, by simp [first, second]⟩
    · exact .inr ⟨error, by rw [failed]; rfl, by simp [first]⟩

/-- A subexpression asks for keys of the expression only. -/
theorem mem_keys_of_mem_postorder {node : Expr} {key : String} (member : node ∈ expr.postorder)
    (asked : key ∈ node.keys context) : key ∈ expr.keys context := by
  induction expr with
  | leaf value indexed =>
    obtain rfl := List.mem_singleton.mp member
    exact asked
  | binary operator lhs rhs ihl ihr =>
    rcases List.mem_append.mp member with below | root
    · rcases List.mem_append.mp below with left | right
      · exact List.mem_append_left _ (ihl left)
      · exact List.mem_append_right _ (ihr right)
    · obtain rfl := List.mem_singleton.mp root
      exact asked

private theorem isSome_kind? (bound : ∀ key ∈ expr.keys context, context.contains key) :
    (expr.kind? context).isSome := by
  cases expr with
  | leaf value indexed =>
    cases value with
    | string path =>
      have key := bound _ (List.mem_singleton_self _)
      rw [Context.contains_eq_isSome_get?] at key
      simpa [kind?] using key
    | int | float | bool => rfl
  | binary => rfl

/-- There is no mismatch in an expression whose leaves are bound if and only if the operands of all its
operators are of equal kinds. -/
theorem findSome?_mismatch?_eq_none_iff (bound : ∀ key ∈ expr.keys context, context.contains key) :
    expr.postorder.findSome? (mismatch? context) = none ↔
      ∀ operator lhs rhs, .binary operator lhs rhs ∈ expr.postorder →
        lhs.kind? context = rhs.kind? context := by
  have operands {operator : Operator} {lhs rhs : Expr} (member : .binary operator lhs rhs ∈ expr.postorder) :
      mismatch? context (.binary operator lhs rhs) = none ↔ lhs.kind? context = rhs.kind? context := by
    have keys : ∀ key ∈ (Expr.binary operator lhs rhs).keys context, context.contains key :=
      fun key asked => bound key (mem_keys_of_mem_postorder member asked)
    simp only [Expr.keys, List.forall_mem_append] at keys
    obtain ⟨left, first⟩ := Option.isSome_iff_exists.mp (isSome_kind? keys.1)
    obtain ⟨right, second⟩ := Option.isSome_iff_exists.mp (isSome_kind? keys.2)
    simp [mismatch?, first, second]
  rw [List.findSome?_eq_none_iff]
  constructor
  · intro none operator lhs rhs member
    exact (operands member).mp (none _ member)
  · intro same node member
    cases node with
    | leaf => rfl
    | binary operator lhs rhs => exact (operands member).mpr (same operator lhs rhs member)

/-- Whatever is bound, an expression never fails for the type of a value of a document. -/
theorem evaluate_ne_unsupportedType (context : Context) (expr : Expr) (found : String) :
    expr.evaluate context ≠ .error (.unsupportedType found) := by
  induction expr with
  | leaf value indexed =>
    cases value with
    | string path =>
      intro failed
      simp only [evaluate] at failed
      split at failed <;> simp at failed
    | int | float | bool =>
      intro failed
      contradiction
  | binary operator lhs rhs ihl ihr =>
    intro failed
    rcases bind_eq_error_iff.mp failed with left | ⟨a, -, failed⟩
    · exact ihl left
    · rcases bind_eq_error_iff.mp failed with right | ⟨b, -, failed⟩
      · exact ihr right
      · rcases bind_eq_error_iff.mp failed with applied | ⟨_, -, failed⟩
        · exact operator.apply_ne_unsupportedType found applied
        · contradiction

end Expr

/-- Evaluated from two contexts that bind values of the same kinds, a rule fails with the same error, or it
has verdicts of one shape and the same failures. An expression whose leaves are bound has a value, which is
of its kind, if and only if the operands of all its operators are of equal kinds; otherwise it fails with
the first mismatch. -/
theorem Rule.evaluate_alike (rule : Rule) (policy : Policy) (context : Context) :
    (∀ context', context.SameKinds context' →
      EndAlike (fun ended ended' => ended.1.Alike ended'.1 ∧ ended.2 = ended'.2)
        ((rule.evaluate policy).ending context) ((rule.evaluate policy).ending context')) ∧
    ∀ expr : Expr, (∀ key ∈ expr.keys context, context.contains key) →
      ((∃ value, expr.evaluate context = .ok value) ↔
        ∀ operator lhs rhs, .binary operator lhs rhs ∈ expr.postorder →
          lhs.kind? context = rhs.kind? context) ∧
      (∀ value, expr.evaluate context = .ok value → expr.kind? context = some value.kind) ∧
      (∀ error, expr.evaluate context = .error error →
        expr.postorder.findSome? (Expr.mismatch? context) = some error) ∧
      ∀ found, expr.evaluate context ≠ .error (.unsupportedType found) := by
  constructor
  · intro context' same
    have indices : context.indices = context'.indices := by
      simp only [Context.indices, same.frames]
    rw [ending_evaluate, ending_evaluate, ← indices]
    exact same.ofContext.verdictFrom_endAlike context.indices policy rule
  · intro expr bound
    have cases := Expr.evaluate_cases bound
    refine ⟨?_, ?_, ?_, expr.evaluate_ne_unsupportedType context⟩
    · rw [← Expr.findSome?_mismatch?_eq_none_iff bound]
      rcases cases with ⟨value, evaluated, -, none⟩ | ⟨error, failed, first⟩
      · simp [evaluated, none]
      · simp [failed, first]
    · intro value evaluated
      rcases cases with ⟨value', evaluated', kind, -⟩ | ⟨error, failed, -⟩
      · obtain rfl := Except.ok.inj (evaluated.symm.trans evaluated')
        exact kind
      · exact absurd (evaluated.symm.trans failed) (by simp)
    · intro error failed
      rcases cases with ⟨value, evaluated, -, -⟩ | ⟨error', failed', first⟩
      · exact absurd (failed.symm.trans evaluated) (by simp)
      · obtain rfl := Except.error.inj (failed.symm.trans failed')
        exact first

/-- The theorem at a vector rule whose second index fails: both contexts bind a number and a boolean, and the
rule has different results at the first index only. The comparison of the boolean is the first mismatch. -/
theorem Rule.evaluate_alike_of_failing :
    let rule : Rule := .vector ⟨"i", "0", "xs.size()"⟩
      (.scalar (.binary .gt (.leaf (.string "xs[i]") true) (.leaf (.int 1) false)))
    let expr : Expr := .binary .or (.binary .gt (.leaf (.string "xs.0") false) (.leaf (.int 1) false))
      (.binary .gt (.leaf (.string "xs.1") false) (.leaf (.int 1) false))
    let bound (number : Int64) (b : Bool) : Context :=
      ((Context.empty.setBounds "i=0:xs" 0 2).insert "xs.0" (.int number)).insert "xs.1" (.bool b)
    let context := bound 2 true
    let context' := bound 1 false
    context.SameKinds context' ∧
      (rule.evaluate .recordFalse).ending context =
        .ok (.vector [true, false], [⟨1, .typeMismatch .gt .bool .int⟩]) ∧
      (rule.evaluate .recordFalse).ending context' =
        .ok (.vector [false, false], [⟨1, .typeMismatch .gt .bool .int⟩]) ∧
      EndAlike (fun ended ended' => ended.1.Alike ended'.1 ∧ ended.2 = ended'.2)
        ((rule.evaluate .recordFalse).ending context) ((rule.evaluate .recordFalse).ending context') ∧
      (∀ key ∈ expr.keys context, context.contains key) ∧
      expr.evaluate context = .error (.typeMismatch .gt .bool .int) ∧
      expr.postorder.findSome? (Expr.mismatch? context) = some (.typeMismatch .gt .bool .int) := by
  intro rule expr bound context context'
  have same : context.SameKinds context' := by
    refine ⟨rfl, rfl, fun key => ?_⟩
    simp only [context, context', bound, Context.get?_insert]
    repeat' split
    all_goals rfl
  have keys : ∀ key ∈ expr.keys context, context.contains key := by decide +kernel
  have first : (rule.evaluate .recordFalse).ending context =
      .ok (.vector [true, false], [⟨1, .typeMismatch .gt .bool .int⟩]) := by
    rw [← Outcome.toOption_eq_some_iff]
    decide +kernel
  have second : (rule.evaluate .recordFalse).ending context' =
      .ok (.vector [false, false], [⟨1, .typeMismatch .gt .bool .int⟩]) := by
    rw [← Outcome.toOption_eq_some_iff]
    decide +kernel
  have failed : expr.evaluate context = .error (.typeMismatch .gt .bool .int) := by
    simp [expr, context, bound, Expr.evaluate, Context.leafKey, Context.get?_insert]
    rfl
  obtain ⟨alike, nodes⟩ := rule.evaluate_alike .recordFalse context
  exact ⟨same, first, second, alike _ same, keys, failed, (nodes expr keys).2.2.1 _ failed⟩

end DocRules

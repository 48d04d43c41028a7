import DocRules.Proofs.Cache.RoundTrip
import DocRules.Proofs.Evaluation.Indexed

/-! # Keys that are bound

The second pass visits what the first pass visited if it finds the bounds that the first pass recorded.
Then every key it asks for is bound, and only the kinds of values can be wrong
(`Condition.ofKinds_of_holdsFrom`). It finds other bounds only if two loops clash, that is, if they are
recorded under one key with different bounds (`Rule.clash_of_meets_unbound`). The loops of a rule from
text do not, but the index of another rule may have an equals sign, and with it the key of its loop may
be that of another loop.
-/

namespace DocRules

open Outcome

/-- Values are of kinds that do not fit. -/
def EvalError.OfKinds : EvalError → Prop
  | .typeMismatch .. | .notBoolean _ => True
  | _ => False

private theorem Operator.ofKinds_of_apply {operator : Operator} {lhs rhs : Value} {error : EvalError}
    (failed : operator.apply lhs rhs = .error error) : error.OfKinds := by
  cases lhs <;> cases rhs <;> cases failed <;> trivial

private theorem Value.ofKinds_of_holds {value : Value} {error : EvalError}
    (failed : value.holds = .error error) : error.OfKinds := by
  cases value <;> cases failed <;> trivial

variable {source : Source} {indices : Indices} {error : EvalError}

private theorem Expr.ofKinds_of_valueFrom {expr : Expr} (consulted : expr.consult source indices = .ok ())
    (failed : expr.valueFrom source indices = .error error) : error.OfKinds := by
  induction expr with
  | leaf value indexed =>
    cases value with
    | string path =>
      obtain ⟨value, read, -⟩ := map_eq_ok_iff.mp consulted
      exact absurd (failed.symm.trans read) (by simp)
    | int | float | bool => contradiction
  | binary operator lhs rhs ihl ihr =>
    obtain ⟨_, first, next⟩ := bind_eq_ok_iff.mp consulted
    rcases bind_eq_error_iff.mp failed with left | ⟨a, -, failed⟩
    · exact ihl first left
    · rcases bind_eq_error_iff.mp failed with right | ⟨b, -, failed⟩
      · exact ihr next right
      · rcases bind_eq_error_iff.mp failed with applied | ⟨_, -, failed⟩
        · exact Operator.ofKinds_of_apply applied
        · contradiction

/-- A condition all of whose questions are answered fails only for the kinds of values. -/
theorem Condition.ofKinds_of_holdsFrom {condition : Condition}
    (consulted : condition.consult source indices = .ok ())
    (failed : condition.holdsFrom source indices = .error error) : error.OfKinds := by
  induction condition generalizing indices with
  | scalar expr =>
    rcases bind_eq_error_iff.mp failed with given | ⟨value, -, failed⟩
    · exact Expr.ofKinds_of_valueFrom consulted given
    · exact Value.ofKinds_of_holds failed
  | loop header body ih =>
    obtain ⟨range, asked, bodies⟩ := bind_eq_ok_iff.mp consulted
    rw [holdsFrom, asked, ok_bind] at failed
    rcases bind_eq_error_iff.mp failed with given | ⟨_, -, failed⟩
    · obtain ⟨index, among, here⟩ := exists_of_mapM_eq_error given
      exact ih (forM_eq_ok_iff.mp bodies index among) here
    · contradiction

/-- What a policy fails with is the error of a result. -/
theorem Policy.exists_of_collect_error {results : List (Int × Except EvalError Bool)} {policy : Policy}
    (failed : policy.collect results = .error error) : ∃ result ∈ results, result.2 = .error error := by
  cases policy with
  | recordFalse => contradiction
  | abort =>
    rcases bind_eq_error_iff.mp failed with given | ⟨_, -, failed⟩
    · exact exists_of_mapM_eq_error given
    · contradiction

/-- A failure that a policy records is the error of a result. -/
theorem Policy.exists_of_collect_ok {results : List (Int × Except EvalError Bool)} {policy : Policy}
    {entries : List Bool} {failures : List IterationFailure}
    (collected : policy.collect results = .ok (entries, failures)) {failure : IterationFailure}
    (member : failure ∈ failures) : (failure.index, .error failure.error) ∈ results := by
  cases policy with
  | recordFalse =>
    obtain ⟨-, rfl⟩ := Prod.mk.inj (Except.ok.inj collected)
    obtain ⟨⟨index, result⟩, among, given⟩ := List.mem_filterMap.mp member
    cases result with
    | ok _ => contradiction
    | error _ =>
      obtain rfl := Option.some.inj given
      exact among
  | abort =>
    obtain ⟨_, -, same⟩ := bind_eq_ok_iff.mp collected
    obtain ⟨-, rfl⟩ := Prod.mk.inj (Except.ok.inj same)
    contradiction

/-- Evaluating the rule in the context fails with the error, or reports it. -/
def Rule.Meets (rule : Rule) (policy : Policy) (context : Context) (error : EvalError) : Prop :=
  match rule.evaluate policy context with
  | .ok (_, failures) _ => ∃ failure ∈ failures, failure.error = error
  | .error error' _ => error' = error

/-- A rule all of whose questions are answered meets errors only for the kinds of values. -/
theorem Rule.ofKinds_of_meets {rule : Rule} {policy : Policy} {context : Context}
    (consulted : rule.asLoops.consult source indices = .ok ())
    (evaluated : rule.evaluate policy context =
      Pass.lift (rule.verdictFrom source indices policy) context)
    (meets : rule.Meets policy context error) : error.OfKinds := by
  rw [Meets, evaluated] at meets
  cases rule with
  | scalar condition =>
    rw [verdictFrom] at meets
    cases given : condition.holdsFrom source indices with
    | ok b =>
      rw [given] at meets
      obtain ⟨failure, member, -⟩ := meets
      contradiction
    | error error' =>
      rw [given] at meets
      obtain rfl : error' = error := meets
      exact Condition.ofKinds_of_holdsFrom consulted given
  | vector header condition =>
    obtain ⟨range, asked, bodies⟩ := bind_eq_ok_iff.mp consulted
    have kinds {index : Int} {error : EvalError}
        (member : (index, .error error) ∈ range.map fun index =>
          (index, condition.holdsFrom source ((header.index, index) :: indices))) : error.OfKinds := by
      obtain ⟨_, among, same⟩ := List.mem_map.mp member
      obtain ⟨rfl, failed⟩ := Prod.mk.inj same
      exact Condition.ofKinds_of_holdsFrom (forM_eq_ok_iff.mp bodies _ among) failed
    simp only [verdictFrom, asked, ok_bind] at meets
    cases collected : policy.collect (range.map fun index =>
        (index, condition.holdsFrom source ((header.index, index) :: indices))) with
    | ok pair =>
      rw [collected] at meets
      obtain ⟨failure, member, rfl⟩ := meets
      exact kinds (Policy.exists_of_collect_ok collected member)
    | error error' =>
      rw [collected] at meets
      obtain rfl : error' = error := meets
      obtain ⟨⟨index, result⟩, among, rfl⟩ := Policy.exists_of_collect_error collected
      exact kinds among

/-- A rule that was bound to a document meets an unbound key only if two of its loops clash. The loops
of a rule do not clash if none of their indices has an equals sign, and rules from text are such. -/
theorem Rule.clash_of_meets_unbound {rule : Rule} {document : Document} {context after : Context}
    (bound : rule.bind document context = .ok () after) (policy : Policy) (key : String) :
    (rule.Meets policy after (.unbound key) →
      Visit.Clash (rule.asLoops.trace (.ofDocument document) context.indices).visits) ∧
    (rule.Plain → ¬ rule.Meets policy after (.unbound key)) ∧
    ∀ text, Rule.parse text = .ok rule → rule.Plain := by
  have clash (meets : rule.Meets policy after (.unbound key)) :
      Visit.Clash (rule.asLoops.trace (.ofDocument document) context.indices).visits := by
    by_contra apart
    obtain ⟨consulted, evaluated⟩ := Rule.evaluate_of_bind bound apart policy
    exact Rule.ofKinds_of_meets consulted evaluated meets
  refine ⟨clash, ?_, fun text parsed => Rule.plain_of_parse parsed⟩
  intro plain meets
  exact Rule.not_clash_of_plain plain document context.indices (clash meets)

/-- The theorem at a rule that reports a failure: the number at its first index is compared with a
number, the boolean at its second index is not. -/
theorem Rule.meets_typeMismatch_only :
    let rule : Rule := .vector ⟨"i", "0", "xs.size()"⟩
      (.scalar (.binary .gt (.leaf (.string "xs[i]") true) (.leaf (.int 1) false)))
    let document : Document := .ofTable ⟨[("xs.0", .int 2), ("xs.1", .bool true)], [("xs", 2)], []⟩
    rule.Plain ∧ ∃ after, rule.bind document Context.empty = .ok () after ∧
      rule.Meets .recordFalse after (.typeMismatch .gt .bool .int) ∧
      ∀ key, ¬ rule.Meets .recordFalse after (.unbound key) := by
  intro rule document
  have plain : rule.Plain := by
    intro header member
    obtain rfl := List.mem_singleton.mp member
    decide
  have bound : rule.bind document Context.empty = .ok ()
      (Context.empty.record (rule.asLoops.trace (.ofDocument document) []).visits) :=
    Rule.bind_of_consult rfl
  have apart := Rule.not_clash_of_plain plain document []
  have reported : (rule.verdictFrom (.ofDocument document) [] .recordFalse) =
      .ok (.vector [true, false], [⟨1, .typeMismatch .gt .bool .int⟩]) := by
    rw [← Outcome.toOption_eq_some_iff]
    decide +kernel
  refine ⟨plain, _, bound, ?_, fun key =>
    (Rule.clash_of_meets_unbound bound .recordFalse key).2.1 plain⟩
  rw [Rule.Meets, (Rule.evaluate_of_bind bound apart .recordFalse).2, Context.indices_empty, reported]
  exact ⟨_, List.mem_singleton_self _, rfl⟩

/-- A rule that is read from bytes and bound to a document, and then meets an unbound key. The inner loop
clashes with the outer one: the key of both is `i=0:a=1:b`, and the outer one then runs as long as the
inner one. -/
theorem Rule.meets_unbound_of_equals_in_index :
    let rule : Rule := .scalar (.loop ⟨"i", "0", "a=1:b.size()"⟩
      (.loop ⟨"i=0:a", "1", "b.size()"⟩ (.scalar (.leaf (.string "q[i]") true))))
    let document : Document := .ofTable ⟨[("q.0", .bool true)], [("a=1:b", 1), ("b", 3)], []⟩
    (∃ bytes, rule.toBytes none = .ok bytes ∧ Rule.ofBytes bytes = .ok rule) ∧
      ∃ after, rule.bind document Context.empty = .ok () after ∧
        ∀ policy, rule.Meets policy after (.unbound "q.1") := by
  intro rule document
  have writable : (Cache.Payload.ofRule rule none).toBytes?.any (·.length < UInt32.size) = true := by
    decide +kernel
  obtain ⟨content, given, within⟩ := (Option.any_eq_true _ _).mp writable
  replace within := of_decide_eq_true within
  have restored : Rule.ofBytes (Cache.frame rule.isVector content) = .ok rule := by
    rw [Cache.ofBytes_frame_eq given within]
    rfl
  have bound : rule.bind document Context.empty = .ok ()
      (Context.empty.record (rule.asLoops.trace (.ofDocument document) []).visits) :=
    Rule.bind_of_consult rfl
  refine ⟨⟨_, Cache.toBytes_of_some given within, restored⟩, _, bound, ?_⟩
  intro policy
  have failed : rule.verdictFrom
      (.ofContext (Context.empty.record (rule.asLoops.trace (.ofDocument document) []).visits)) []
      policy = .error (.unbound "q.1") := by
    rfl
  rw [Rule.Meets, Rule.evaluate_apply, Context.indices_record, Context.indices_empty, failed]
  rfl

end DocRules

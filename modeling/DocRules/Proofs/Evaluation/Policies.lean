import DocRules.Proofs.Evaluation.Kinds
import DocRules.Proofs.Evaluation.TwoPass

/-! # The two policies of a vector rule

A vector rule asks its condition at every index of a range, and the policies differ in what they do with a
failure. Recording gives an entry for every index and lists the failing indices in their order; aborting
gives the first failure of that list, or the same entries if the list is empty (`Rule.evaluate_policies`).
All indices are worked on in one context, but what is asked at one of them is as if it were the only one.
-/

namespace DocRules

open Outcome

namespace Indices

variable {start stop index : Int}

theorem mem_range : index ∈ range start stop ↔ start ≤ index ∧ index < stop := by
  simp only [range, List.mem_map, List.mem_range]
  constructor
  · rintro ⟨n, below, rfl⟩
    omega
  · rintro ⟨reached, before⟩
    exact ⟨(index - start).toNat, by omega, by omega⟩

private theorem pairwise_range (start stop : Int) : (range start stop).Pairwise (· < ·) := by
  rw [range, List.pairwise_map]
  exact List.pairwise_lt_range.imp fun before => by omega

end Indices

section Results

variable (result : Int → Except EvalError Bool)

/-- The entries and failures that recording makes of the results at the indices of a range. -/
structure Policy.Recorded (start stop : Int) (entries : List Bool) (failures : List IterationFailure) :
    Prop where
  length : entries.length = (stop - start).toNat
  ascending : failures.Pairwise (·.index < ·.index)
  /-- The failures are those of the results, and there is none outside the range. -/
  mem_failures : ∀ failure, failure ∈ failures ↔
    start ≤ failure.index ∧ failure.index < stop ∧ result failure.index = .error failure.error
  /-- An entry is the result, or false in place of a failure. -/
  entry : ∀ n < (stop - start).toNat,
    (∃ b, result (start + n) = .ok b ∧ entries[n]? = some b) ∨
    ∃ error, result (start + n) = .error error ∧ entries[n]? = some false ∧ ⟨start + n, error⟩ ∈ failures

namespace IterationFailure

variable {result}

theorem of?_eq_some_iff {index : Int} {failure : IterationFailure} :
    of? (index, result index) = some failure ↔
      failure.index = index ∧ result failure.index = .error failure.error := by
  obtain ⟨index', error⟩ := failure
  cases given : result index with
  | ok b =>
    simp only [of?, reduceCtorEq, false_iff, not_and]
    rintro rfl failed
    exact absurd (given.symm.trans failed) (by simp)
  | error error' =>
    simp only [of?, Option.some.injEq, mk.injEq]
    constructor
    · rintro ⟨rfl, rfl⟩
      exact ⟨rfl, given⟩
    · rintro ⟨rfl, failed⟩
      exact ⟨rfl, Except.error.inj (given.symm.trans failed)⟩

/-- The failures among the results at the indices of a list. -/
def among (result : Int → Except EvalError Bool) (range : List Int) : List IterationFailure :=
  range.filterMap fun index => of? (index, result index)

private theorem mem_among {range : List Int} {failure : IterationFailure} :
    failure ∈ among result range ↔ failure.index ∈ range ∧ result failure.index = .error failure.error := by
  simp only [among, List.mem_filterMap, of?_eq_some_iff]
  constructor
  · rintro ⟨index, member, rfl, failed⟩
    exact ⟨member, failed⟩
  · rintro ⟨member, failed⟩
    exact ⟨failure.index, member, rfl, failed⟩

private theorem pairwise_among {range : List Int} (ascending : range.Pairwise (· < ·)) :
    (among result range).Pairwise (·.index < ·.index) := by
  refine List.Pairwise.filterMap _ ?_ ascending
  intro index index' before failure failed failure' failed'
  rw [(of?_eq_some_iff.mp failed).1, (of?_eq_some_iff.mp failed').1]
  exact before

end IterationFailure

namespace Policy

theorem collect_recordFalse (range : List Int) :
    Policy.recordFalse.collect (range.map fun index => (index, result index)) =
      .ok (range.map fun index => (result index).toOption.getD false, IterationFailure.among result range) := by
  simp only [collect, IterationFailure.among, List.map_map, List.filterMap_map]
  rfl

/-- Aborting fails with the first failure that recording would list. -/
theorem collect_abort (range : List Int) :
    Policy.abort.collect (range.map fun index => (index, result index)) =
      match IterationFailure.among result range with
      | [] => .ok (range.map fun index => (result index).toOption.getD false, [])
      | failure :: _ => .error failure.error := by
  simp only [collect, List.mapM_map]
  change (do return (← range.mapM result, [])) = _
  induction range with
  | nil => rfl
  | cons index range ih =>
    cases given : result index with
    | ok b =>
      have skipped : IterationFailure.among result (index :: range) = IterationFailure.among result range :=
        List.filterMap_cons_none (by rw [given]; rfl)
      rw [skipped, List.mapM_cons, given, ok_bind, List.map_cons, given]
      revert ih
      cases range.mapM result with
      | ok results =>
        cases IterationFailure.among result range with
        | nil =>
          intro ih
          obtain ⟨same, -⟩ := Prod.mk.inj (Except.ok.inj ih)
          rw [← same]
          rfl
        | cons failure later => exact fun ih => absurd ih (by simp)
      | error error =>
        cases IterationFailure.among result range with
        | nil => exact fun ih => absurd ih (by simp)
        | cons failure later => exact id
    | error error =>
      have first : IterationFailure.among result (index :: range) =
          ⟨index, error⟩ :: IterationFailure.among result range :=
        List.filterMap_cons_some (by rw [given]; rfl)
      rw [first, List.mapM_cons, given]
      rfl

/-- What recording makes of the results at a range. -/
theorem recorded_range (start stop : Int) :
    Recorded result start stop
      ((Indices.range start stop).map fun index => (result index).toOption.getD false)
      (IterationFailure.among result (Indices.range start stop)) where
  length := by simp [Indices.range]
  ascending := IterationFailure.pairwise_among (Indices.pairwise_range start stop)
  mem_failures failure := by rw [IterationFailure.mem_among, Indices.mem_range, and_assoc]
  entry n below := by
    have entry : ((Indices.range start stop).map fun index => (result index).toOption.getD false)[n]? =
        some ((result (start + n)).toOption.getD false) := by
      simp [Indices.range, below]
    cases given : result (start + n) with
    | ok b => exact .inl ⟨b, rfl, by rw [entry, given]; rfl⟩
    | error error =>
      have member : start + (n : Int) ∈ Indices.range start stop :=
        Indices.mem_range.mpr ⟨by omega, by omega⟩
      exact .inr ⟨error, rfl, by rw [entry, given]; rfl, IterationFailure.mem_among.mpr ⟨member, given⟩⟩

end Policy

end Results

/-- If a loop has been visited, its bounds are among the answers. -/
theorem Condition.loop_mem_trace {source : Source} {indices : Indices} {header : LoopHeader}
    {body : Condition} (ended : ((loop header body).trace source indices).outcome = .ok ()) :
    ∃ start stop, .loop header (indices.substitute header.arrayPath) start stop ∈
      ((loop header body).trace source indices).visits := by
  rw [trace] at ended ⊢
  cases asked : source.bounds header (indices.substitute header.arrayPath) with
  | error error => simp [asked] at ended
  | ok bounds =>
    obtain ⟨start, stop⟩ := bounds
    exact ⟨start, stop, List.mem_append_left _ (List.mem_singleton_self _)⟩

namespace Condition

theorem ending_evaluate (condition : Condition) (context : Context) :
    condition.evaluate.ending context = condition.holdsFrom (.ofContext context) context.indices := by
  rw [Pass.ending, evaluate_apply]
  cases condition.holdsFrom (.ofContext context) context.indices <;> rfl

/-- What a condition gives by itself at an index of a loop. -/
def endingAt (condition : Condition) (frame : Frame) (context : Context) (index : Int) :
    Except EvalError Bool :=
  condition.evaluate.ending (context.enter { frame with current := index })

end Condition

namespace Rule

variable {header : LoopHeader} {condition : Condition} {context : Context}

theorem evaluate_of_unbound (unbound : context.bounds? (context.boundsKey header) = none) (policy : Policy) :
    (vector header condition).evaluate policy context = .error (.unbound (context.boundsKey header)) context := by
  rw [Context.boundsKey_eq_key] at unbound ⊢
  simp only [evaluate_apply, verdictFrom, LoopHeader.rangeFrom, Source.ofContext, unbound]
  rfl

/-- A vector rule collects what its condition gives by itself at the indices of its loop. -/
theorem evaluate_of_bound {start stop : Int}
    (bound : context.bounds? (context.boundsKey header) = some (start, stop)) (policy : Policy) :
    (vector header condition).evaluate policy context =
      Pass.lift (do
        let (entries, failures) ← policy.collect ((Indices.range start stop).map fun index =>
          (index, condition.endingAt (header.frame start stop) context index))
        return (.vector entries, failures)) context := by
  have given : (Source.ofContext context).bounds header (context.indices.substitute header.arrayPath) =
      .ok (start, stop) := by
    rw [Context.boundsKey_eq_key] at bound
    simp only [Source.ofContext, bound]
  simp only [evaluate_apply, verdictFrom, LoopHeader.rangeFrom, given, ok_bind, pure_eq_ok,
    Condition.endingAt, Condition.ending_evaluate]
  rfl

/-- The loop of a vector rule that was bound has bounds. Those of a loop inside it may have been recorded
under the same key later, but then the key still has bounds. -/
theorem exists_bounds_of_bind {document : Document} {before : Context}
    (built : (vector header condition).bind document before = .ok () context) :
    ∃ start stop, context.bounds? (context.boundsKey header) = some (start, stop) := by
  rw [bind_apply, Trace.run] at built
  cases ended : ((vector header condition).asLoops.trace (.ofDocument document) before.indices).outcome with
  | error error => simp [ended] at built
  | ok _ =>
    simp only [ended, EStateM.Result.ok.injEq, true_and] at built
    obtain ⟨start, stop, member⟩ := Condition.loop_mem_trace ended
    obtain ⟨-, -, -, -, start, stop, -, -, -, recorded⟩ :=
      before.exists_bounds_record (Visit.key_mem_loopKeys member)
    refine ⟨start, stop, ?_⟩
    rw [Context.boundsKey_eq_key, ← built, Context.indices_record]
    exact recorded

theorem evaluate_recordFalse {start stop : Int}
    (bound : context.bounds? (context.boundsKey header) = some (start, stop)) :
    (vector header condition).evaluate .recordFalse context =
      .ok (.vector ((Indices.range start stop).map fun index =>
          (condition.endingAt (header.frame start stop) context index).toOption.getD false),
        IterationFailure.among (condition.endingAt (header.frame start stop) context)
          (Indices.range start stop)) context := by
  rw [evaluate_of_bound bound, Policy.collect_recordFalse]
  rfl

theorem evaluate_abort {start stop : Int}
    (bound : context.bounds? (context.boundsKey header) = some (start, stop)) :
    (vector header condition).evaluate .abort context =
      match IterationFailure.among (condition.endingAt (header.frame start stop) context)
        (Indices.range start stop) with
      | [] => .ok (.vector ((Indices.range start stop).map fun index =>
          (condition.endingAt (header.frame start stop) context index).toOption.getD false), []) context
      | failure :: _ => .error failure.error context := by
  rw [evaluate_of_bound bound, Policy.collect_abort]
  cases IterationFailure.among (condition.endingAt (header.frame start stop) context)
    (Indices.range start stop) <;> rfl

/-- A rule that has a verdict when failures abort has the same verdict when they are recorded, and there
are none. -/
theorem evaluate_recordFalse_of_abort {rule : Rule} {verdict : Verdict} {failures : List IterationFailure}
    {after : Context} (accepted : rule.evaluate .abort context = .ok (verdict, failures) after) :
    failures = [] ∧ rule.evaluate .recordFalse context = .ok (verdict, []) after := by
  cases rule with
  | scalar condition =>
    have same : (scalar condition).evaluate .recordFalse = (scalar condition).evaluate .abort := rfl
    rw [same, accepted]
    rw [evaluate, Pass.bind_apply] at accepted
    cases given : condition.evaluate context with
    | ok b next =>
      rw [given] at accepted
      obtain ⟨taken, rfl⟩ := EStateM.Result.ok.inj accepted
      obtain ⟨-, rfl⟩ := Prod.mk.inj taken
      exact ⟨rfl, rfl⟩
    | error error next =>
      rw [given] at accepted
      contradiction
  | vector header condition =>
    cases found : context.bounds? (context.boundsKey header) with
    | none =>
      rw [evaluate_of_unbound found] at accepted
      contradiction
    | some bounds =>
      rw [evaluate_abort found] at accepted
      rw [evaluate_recordFalse found]
      cases met : IterationFailure.among
          (condition.endingAt (header.frame bounds.1 bounds.2) context)
          (Indices.range bounds.1 bounds.2) with
      | nil =>
        rw [met] at accepted
        obtain ⟨taken, rfl⟩ := EStateM.Result.ok.inj accepted
        obtain ⟨rfl, rfl⟩ := Prod.mk.inj taken
        exact ⟨rfl, rfl⟩
      | cons failure later =>
        rw [met] at accepted
        contradiction

/-- The verdict of a vector rule under the two policies. If its loop has no bounds, both fail for that. If
it has, recording gives an entry for every index and the failures in the order of the indices, and aborting
gives the first of these failures, or the same entries if there is none. So recording never fails after the
rule was bound, and reports no failure where aborting gives a verdict. -/
theorem evaluate_policies (header : LoopHeader) (condition : Condition) (context : Context) :
    (context.bounds? (context.boundsKey header) = none → ∀ policy,
      (vector header condition).evaluate policy context =
        .error (.unbound (context.boundsKey header)) context) ∧
    (∀ start stop, context.bounds? (context.boundsKey header) = some (start, stop) →
      ∃ entries failures,
        Policy.Recorded (condition.endingAt (header.frame start stop) context) start stop entries failures ∧
        (vector header condition).evaluate .recordFalse context = .ok (.vector entries, failures) context ∧
        (vector header condition).evaluate .abort context =
          match failures with
          | [] => .ok (.vector entries, []) context
          | failure :: _ => .error failure.error context) ∧
    (∀ document before, (vector header condition).bind document before = .ok () context →
      ∃ entries failures,
        (vector header condition).evaluate .recordFalse context = .ok (.vector entries, failures) context) ∧
    ∀ verdict failures after,
      (vector header condition).evaluate .abort context = .ok (verdict, failures) after →
        failures = [] ∧ (vector header condition).evaluate .recordFalse context = .ok (verdict, []) after := by
  refine ⟨fun unbound policy => evaluate_of_unbound unbound policy, ?_, ?_,
    fun _ _ _ accepted => evaluate_recordFalse_of_abort accepted⟩
  · intro start stop bound
    refine ⟨_, _, Policy.recorded_range _ start stop, evaluate_recordFalse bound, ?_⟩
    exact evaluate_abort bound
  · intro document before built
    obtain ⟨start, stop, bound⟩ := exists_bounds_of_bind built
    exact ⟨_, _, evaluate_recordFalse bound⟩

/-- The theorem at a rule with a loop inside, whose second index fails inside that loop. Before the rule is
bound its loop has no bounds, and over an array that ends before the first index it has no entries. -/
theorem evaluate_policies_of_failing :
    let header : LoopHeader := ⟨"i", "1", "xs.size()"⟩
    let condition : Condition := .loop ⟨"j", "0", "xs[i].size()"⟩
      (.scalar (.binary .gt (.leaf (.string "xs[i][j]") true) (.leaf (.int 1) false)))
    let document : Document := .ofTable
      ⟨[("xs.1.0", .int 2), ("xs.1.1", .int 3), ("xs.2.0", .bool true)],
        [("xs", 4), ("xs.1", 2), ("xs.2", 1), ("xs.3", 0)], []⟩
    let document' : Document := .ofTable ⟨[], [("xs", 0)], []⟩
    ∃ after after' : Context,
      (vector header condition).bind document Context.empty = .ok () after ∧
      (vector header condition).bind document' Context.empty = .ok () after' ∧
      (∀ policy, (vector header condition).evaluate policy Context.empty =
        .error (.unbound (Context.empty.boundsKey header)) Context.empty) ∧
      after.bounds? (after.boundsKey header) = some (1, 4) ∧
      (∃ entries failures,
        Policy.Recorded (condition.endingAt (header.frame 1 4) after) 1 4 entries failures ∧
        (vector header condition).evaluate .recordFalse after = .ok (.vector entries, failures) after ∧
        entries = [true, false, true] ∧ failures = [⟨2, .typeMismatch .gt .bool .int⟩]) ∧
      (∃ entries failures,
        (vector header condition).evaluate .recordFalse after' = .ok (.vector entries, failures) after') ∧
      (vector header condition).evaluate .abort after' = .ok (.vector [], []) after' ∧
      (vector header condition).evaluate .recordFalse after' = .ok (.vector [], []) after' := by
  intro header condition document document'
  let after : Context :=
    Context.empty.record ((vector header condition).asLoops.trace (.ofDocument document) []).visits
  let after' : Context :=
    Context.empty.record ((vector header condition).asLoops.trace (.ofDocument document') []).visits
  have built : (vector header condition).bind document Context.empty = .ok () after := by
    refine bind_of_consult ?_
    rw [← toOption_eq_some_iff]
    decide +kernel
  have built' : (vector header condition).bind document' Context.empty = .ok () after' := by
    refine bind_of_consult ?_
    rw [← toOption_eq_some_iff]
    decide +kernel
  have bound : after.bounds? (after.boundsKey header) = some (1, 4) := by decide +kernel
  have collected : (vector header condition).verdictFrom (.ofContext after) after.indices .recordFalse =
      .ok (.vector [true, false, true], [⟨2, .typeMismatch .gt .bool .int⟩]) := by
    rw [← toOption_eq_some_iff]
    decide +kernel
  have none : (vector header condition).verdictFrom (.ofContext after') after'.indices .abort =
      .ok (.vector [], []) := by
    rw [← toOption_eq_some_iff]
    decide +kernel
  have aborted : (vector header condition).evaluate .abort after' = .ok (.vector [], []) after' := by
    rw [evaluate_apply, none]
    rfl
  obtain ⟨unbound, -⟩ := evaluate_policies header condition Context.empty
  obtain ⟨-, recorded, -⟩ := evaluate_policies header condition after
  obtain ⟨-, -, accepted, without⟩ := evaluate_policies header condition after'
  obtain ⟨entries, failures, holds, evaluated, -⟩ := recorded 1 4 bound
  refine ⟨after, after', built, built', unbound rfl, bound,
    ⟨entries, failures, holds, evaluated, ?_⟩, accepted document' Context.empty built', aborted,
    (without _ _ _ aborted).2⟩
  rw [evaluate_apply, collected] at evaluated
  obtain ⟨same, -⟩ := EStateM.Result.ok.inj evaluated
  obtain ⟨verdict, rfl⟩ := Prod.mk.inj same
  exact ⟨(Verdict.vector.inj verdict).symm, rfl⟩

end Rule

namespace Engine

variable {document : Document}

theorem reportDocument_eq (engine : Engine) (rule : Rule) (document : Document) :
    engine.reportDocument rule document =
      match rule.bind document Context.empty with
      | .ok _ context =>
        match rule.evaluate engine.policy context with
        | .ok (verdict, failures) after => .ok ⟨verdict, failures, after.size⟩
        | .error error _ => .error error
      | .error error _ => .error error := by
  rw [reportDocument, EStateM.run, run, Pass.bind_apply]
  cases rule.bind document Context.empty <;> rfl

/-- An engine that records failures reports what one that aborts reports, if that has a verdict. -/
theorem reportDocument_recordFalse_of_abort {rule : Rule} {report : Report}
    (accepted : (Engine.mk .abort).reportDocument rule document = .ok report) :
    report.failures = [] ∧ (Engine.mk .recordFalse).reportDocument rule document = .ok report := by
  rw [reportDocument_eq] at accepted ⊢
  cases built : rule.bind document Context.empty with
  | error error after =>
    rw [built] at accepted
    contradiction
  | ok _ context =>
    rw [built] at accepted
    dsimp only at accepted ⊢
    cases evaluated : rule.evaluate .abort context with
    | error error after =>
      rw [evaluated] at accepted
      contradiction
    | ok ended after =>
      rw [evaluated] at accepted
      obtain rfl := Except.ok.inj accepted
      obtain ⟨none, same⟩ := Rule.evaluate_recordFalse_of_abort evaluated
      rw [same]
      exact ⟨none, by rw [none]⟩

/-- An engine that records failures fails on a vector rule only with an error of the document. -/
theorem reportDocument_recordFalse_eq_error_iff {header : LoopHeader} {condition : Condition}
    {error : EvalError} :
    (Engine.mk .recordFalse).reportDocument (.vector header condition) document = .error error ↔
      ((Rule.vector header condition).bind document).ending Context.empty = .error error := by
  rw [reportDocument_eq, Pass.ending]
  cases built : (Rule.vector header condition).bind document Context.empty with
  | error error' after => simp only [Except.error.injEq]
  | ok _ context =>
    obtain ⟨start, stop, bound⟩ := Rule.exists_bounds_of_bind built
    simp only [Rule.evaluate_recordFalse bound, reduceCtorEq]

end Engine

end DocRules

import DocRules.Parse
import DocRules.Proofs.Evaluation.Policies
import Mathlib.Data.List.Dedup

/-! # What the first pass leaves behind

The first pass asks the questions of a rule in one order, that of its texts with every loop unfolded index
by index (`Condition.answers`), and stops at the first error. Whether it got to the end or not, the context
differs from the one before in what was answered and in nothing else: a key has the answer of the document
to it, and a loop the bounds that were recorded last (`Context.overridden_record`).

Answers of one document do not contradict each other, so it matters neither how often a rule is bound nor
which of two rules is bound first (`Context.record_record`, `Context.fields_record_congr`), and the number of
bound values is the number of different keys (`Context.size_record_empty`).
-/

namespace DocRules

open Outcome

section Answers

variable (source : Source)

/-- The answers to the leaves of an expression from left to right. -/
def Expr.answers (indices : Indices) : Expr → List (Except EvalError Visit)
  | .leaf (.string path) indexed =>
    [(source.read (indices.leafPath path indexed)).map (.field (indices.leafPath path indexed))]
  | .leaf _ _ => []
  | .binary _ lhs rhs => lhs.answers indices ++ rhs.answers indices

/-- The answers to a condition: those to a header, if it has bounds, are followed by the answers to what is
inside the loop for one index after the other. -/
def Condition.answers : Indices → Condition → List (Except EvalError Visit)
  | indices, .scalar expr => expr.answers source indices
  | indices, .loop header body =>
    match source.bounds header (indices.substitute header.arrayPath) with
    | .ok (start, stop) =>
      .ok (.loop header (indices.substitute header.arrayPath) start stop) ::
        (Indices.range start stop).flatMap fun index =>
          body.answers ((header.index, index) :: indices)
    | .error error => [.error error]

/-- The answers before the first error, and that error. -/
def Trace.ofAnswers : List (Except EvalError Visit) → Trace
  | [] => .nothing
  | .ok visit :: answers => ⟨visit :: (ofAnswers answers).visits, (ofAnswers answers).outcome⟩
  | .error error :: _ => ⟨[], .error error⟩

private theorem Trace.ofAnswers_append (first next : List (Except EvalError Visit)) :
    ofAnswers (first ++ next) = (ofAnswers first).andThen (ofAnswers next) := by
  induction first with
  | nil => rfl
  | cons answer first ih =>
    cases answer with
    | error error => rfl
    | ok visit =>
      rw [List.cons_append, ofAnswers, ih]
      simp only [andThen, ofAnswers]
      cases ended : (ofAnswers first).outcome <;> simp [ended]

private theorem Trace.ofAnswers_flatMap (answers : Int → List (Except EvalError Visit)) (indices : List Int) :
    ofAnswers (indices.flatMap answers) = sequence (indices.map fun index => ofAnswers (answers index)) := by
  induction indices with
  | nil => rfl
  | cons index indices ih => rw [List.flatMap_cons, ofAnswers_append, ih, List.map_cons]; rfl

private theorem Expr.trace_eq_ofAnswers (indices : Indices) (expr : Expr) :
    expr.trace source indices = .ofAnswers (expr.answers source indices) := by
  induction expr with
  | leaf value indexed =>
    cases value with
    | string path =>
      simp only [trace, answers]
      cases source.read (indices.leafPath path indexed) <;> rfl
    | int | float | bool => rfl
  | binary operator lhs rhs ihl ihr => rw [trace, answers, ihl, ihr, Trace.ofAnswers_append]

/-- A trace has the answers before the first error. -/
theorem Condition.trace_eq_ofAnswers (indices : Indices) (condition : Condition) :
    condition.trace source indices = .ofAnswers (condition.answers source indices) := by
  induction condition generalizing indices with
  | scalar expr => exact expr.trace_eq_ofAnswers source indices
  | loop header body ih =>
    simp only [trace, answers]
    cases source.bounds header (indices.substitute header.arrayPath) with
    | error error => rfl
    | ok bounds => simp only [Trace.ofAnswers, Trace.ofAnswers_flatMap, ih, Trace.andThen,
        List.singleton_append]

end Answers

variable {document : Document} {visits : List Visit}

/-- What a context has after answers of a document were recorded in it. -/
structure Context.Overridden (document : Document) (visits : List Visit) (before after : Context) :
    Prop where
  frames : after.frames = before.frames
  leaf : ∀ key ∈ Visit.leafKeys visits, ∃ found, document.lookup key = .ok found ∧
    after.get? key = some (found.getD (.string (.ofList (Text.unquote key.toList))))
  leaf_absent : ∀ key ∉ Visit.leafKeys visits, after.get? key = before.get? key
  loop : ∀ key ∈ Visit.loopKeys visits,
    ∃ (earlier later : List Visit) (header : LoopHeader) (path : String) (start : Int) (length : Nat),
      visits = earlier ++ .loop header path start length :: later ∧ header.key path = key ∧
      key ∉ Visit.loopKeys later ∧ header.first? = some start ∧ document.length path = .ok length ∧
      after.bounds? key = some (start, (length : Int))
  loop_absent : ∀ key ∉ Visit.loopKeys visits, after.bounds? key = before.bounds? key

namespace Context

variable (context : Context)

theorem overridden_record (answers : ∀ visit ∈ visits, (Source.ofDocument document).Agrees visit) :
    Overridden document visits context (context.record visits) where
  frames := frames_record context visits
  leaf key member := by
    obtain ⟨value, among⟩ := Visit.mem_leafKeys.mp member
    obtain ⟨found, answered, rfl⟩ := Source.read_eq_ok_iff.mp (answers _ among)
    exact ⟨found, answered, get?_record_of_mem context answers among⟩
  leaf_absent key absent := get?_record_of_notMem context absent
  loop key member := by
    obtain ⟨earlier, later, header, path, start, stop, rfl, same, last, recorded⟩ :=
      exists_bounds_record context member
    have asked : (Source.ofDocument document).bounds header path = .ok (start, stop) :=
      answers _ (List.mem_append_right _ List.mem_cons_self)
    obtain ⟨first, length, measured, rfl⟩ := Source.exists_of_bounds asked
    exact ⟨earlier, later, header, path, start, length, rfl, same, last, first, measured, recorded⟩
  loop_absent key absent := bounds?_record_of_notMem context absent

theorem ext_get? {context other : Context} (frames : context.frames = other.frames)
    (fields : ∀ key, context.get? key = other.get? key)
    (bounds : ∀ key, context.bounds? key = other.bounds? key) : context = other := by
  cases context
  cases other
  obtain rfl : _ = _ := frames
  congr
  · exact Std.ExtTreeMap.ext_getElem? fields
  · exact Std.ExtTreeMap.ext_getElem? bounds

/-- Recording answers again changes nothing. -/
theorem record_record (visits : List Visit) : (context.record visits).record visits = context.record visits := by
  apply ext_get?
  · simp only [frames_record]
  · intro key
    rw [get?_record, get?_record, ← Option.or_assoc, Option.or_self]
  · intro key
    rw [bounds?_record, bounds?_record, ← Option.or_assoc, Option.or_self]

/-- Answers of one document bind the same values in any order. -/
theorem fields_record_congr {visits visits' : List Visit} (same : ∀ visit, visit ∈ visits ↔ visit ∈ visits')
    (answers : ∀ visit ∈ visits, (Source.ofDocument document).Agrees visit) :
    (context.record visits).fields = (context.record visits').fields := by
  apply Std.ExtTreeMap.ext_getElem?
  intro key
  change (context.record visits).get? key = (context.record visits').get? key
  have answers' : ∀ visit ∈ visits', (Source.ofDocument document).Agrees visit :=
    fun visit member => answers visit ((same visit).mpr member)
  by_cases bound : key ∈ Visit.leafKeys visits
  · obtain ⟨value, member⟩ := Visit.mem_leafKeys.mp bound
    rw [get?_record_of_mem context answers member,
      get?_record_of_mem context answers' ((same _).mp member)]
  · have absent : key ∉ Visit.leafKeys visits' := by
      intro bound'
      obtain ⟨value, member⟩ := Visit.mem_leafKeys.mp bound'
      exact bound (Visit.mem_leafKeys.mpr ⟨value, (same _).mpr member⟩)
    rw [get?_record_of_notMem context bound, get?_record_of_notMem context absent]

/-- In a new context there are as many values as there are different keys. -/
theorem size_record_empty (answers : ∀ visit ∈ visits, (Source.ofDocument document).Agrees visit) :
    (empty.record visits).size = (Visit.leafKeys visits).dedup.length := by
  have keys (key : String) :
      key ∈ (empty.record visits).fields.keys ↔ key ∈ (Visit.leafKeys visits).dedup := by
    rw [Std.ExtTreeMap.mem_keys, Std.ExtTreeMap.mem_iff_isSome_getElem?, List.mem_dedup]
    change ((empty.record visits).get? key).isSome = true ↔ _
    constructor
    · intro found
      by_contra absent
      rw [get?_record_of_notMem _ absent] at found
      simp [empty, get?] at found
    · intro member
      obtain ⟨found, -, given⟩ := (overridden_record empty answers).leaf key member
      rw [given, Option.isSome_some]
  -- neither list of keys has duplicates, so having the same members they have one length
  rw [size, ← Std.ExtTreeMap.length_keys]
  exact ((List.perm_ext_iff_of_nodup Std.ExtTreeMap.nodup_keys (List.nodup_dedup _)).mpr keys).length_eq

end Context

namespace Rule

/-- The answers of a document to a rule, up to the first error. -/
def answered (rule : Rule) (document : Document) (indices : Indices) : Trace :=
  .ofAnswers (rule.asLoops.answers (.ofDocument document) indices)

/-- The context after the first pass over a rule, whether or not it got to the end. -/
def bound (rule : Rule) (document : Document) (context : Context) : Context :=
  match rule.bind document context with
  | .ok _ after => after
  | .error _ after => after

end Rule

/-- A report counts the values that the first pass has bound. The second pass binds none. -/
theorem Engine.bindings_of_reportDocument (engine : Engine) {rule : Rule} {report : Report}
    (accepted : engine.reportDocument rule document = .ok report) :
    report.bindings = (rule.bound document Context.empty).size := by
  rw [reportDocument_eq] at accepted
  rw [Rule.bound]
  cases built : rule.bind document Context.empty with
  | error error after =>
    rw [built] at accepted
    cases accepted
  | ok _ after =>
    simp only [built, Rule.evaluate_apply] at accepted
    cases given : rule.verdictFrom (.ofContext after) after.indices engine.policy with
    | error error =>
      rw [given] at accepted
      cases accepted
    | ok verdict =>
      rw [given] at accepted
      obtain rfl := Except.ok.inj accepted
      rfl

namespace Rule

variable (rule : Rule) (document : Document) (context : Context)

private theorem agrees_answered (indices : Indices) :
    ∀ visit ∈ (rule.answered document indices).visits, (Source.ofDocument document).Agrees visit := by
  intro visit member
  rw [answered, ← Condition.trace_eq_ofAnswers] at member
  exact Condition.agrees_trace member

theorem bind_eq_run : rule.bind document context = (rule.answered document context.indices).run context := by
  rw [bind_apply, Condition.trace_eq_ofAnswers, answered]

theorem bound_eq_record :
    rule.bound document context = context.record (rule.answered document context.indices).visits := by
  rw [bound, bind_eq_run, Trace.run]
  cases (rule.answered document context.indices).outcome <;> rfl

/-- The first pass over a rule fails with the first error of the document or succeeds. In both cases it
has recorded the answers before the first error and has changed nothing else. So a rule can be bound
again without effect, two rules are bound in either order, and a report counts the different keys. -/
theorem bind_effect (other : Rule) :
    (rule.bind document context =
      match (rule.answered document context.indices).outcome with
      | .ok () => .ok () (rule.bound document context)
      | .error error => .error error (rule.bound document context)) ∧
    Context.Overridden document (rule.answered document context.indices).visits context
      (rule.bound document context) ∧
    rule.bind document (rule.bound document context) = rule.bind document context ∧
    (other.bound document (rule.bound document context)).fields =
      (rule.bound document (other.bound document context)).fields ∧
    ∀ (engine : Engine) (report : Report), engine.reportDocument rule document = .ok report →
      report.bindings = (Visit.leafKeys (rule.answered document []).visits).dedup.length := by
  have answers := rule.agrees_answered document context.indices
  have answers' := other.agrees_answered document context.indices
  refine ⟨?_, ?_, ?_, ?_, ?_⟩
  · rw [bound_eq_record, bind_eq_run]
    rfl
  · rw [bound_eq_record]
    exact context.overridden_record answers
  · rw [bound_eq_record, bind_eq_run, bind_eq_run, Context.indices_record, Trace.run, Trace.run,
      Context.record_record]
  · simp only [bound_eq_record, Context.indices_record, ← Context.record_append]
    apply context.fields_record_congr
    · exact fun visit => List.perm_append_comm.mem_iff
    · exact List.forall_mem_append.mpr ⟨answers, answers'⟩
  · intro engine report accepted
    rw [engine.bindings_of_reportDocument accepted, bound_eq_record]
    exact Context.size_record_empty (rule.agrees_answered document [])

/-- The theorem at a nested loop whose indices ask for the same keys again and again. Of two documents the
second one has an object where the outer loop comes to its last index. -/
theorem bind_effect_of_nested :
    let rule : Rule := .vector ⟨"i", "0", "xs.size()"⟩ (.loop ⟨"j", "0", "ys.size()"⟩ (.scalar
      (.binary .or (.binary .eq (.leaf (.string "xs[i]") true) (.leaf (.string "ys[j]") true))
        (.binary .eq (.leaf (.string "xs[i]") true) (.leaf (.string "n") false)))))
    let table : Table := ⟨[("xs.0", .string "a"), ("xs.1", .string "b"), ("ys.0", .string "a"),
      ("ys.1", .string "c")], [("xs", 2), ("ys", 2)], []⟩
    let document : Document := .ofTable table
    let failing : Document := .ofTable { table with failures := [("xs.1", "object")] }
    Rule.parse
        "FOR: i=0:xs.size() IF: \x7b FOR: j=0:ys.size() \x7b xs[i] == ys[j] || xs[i] == n \x7d \x7d" =
          .ok rule ∧
      (∃ report, ({} : Engine).reportDocument rule document = .ok report ∧ report.bindings = 5) ∧
      rule.bind failing Context.empty =
        .error (.unsupportedType "object") (rule.bound failing Context.empty) ∧
      (rule.bound failing Context.empty).get? "n" = some (.string "n") ∧
      (rule.bound failing Context.empty).get? "xs.1" = none ∧
      (rule.bound failing Context.empty).bounds? "j=0:ys" = some (0, 2) := by
  intro rule table document failing
  have parsed : Rule.parse
      "FOR: i=0:xs.size() IF: \x7b FOR: j=0:ys.size() \x7b xs[i] == ys[j] || xs[i] == n \x7d \x7d" =
        .ok rule := by
    rw [← toOption_eq_some_iff]
    decide +kernel
  obtain ⟨report, accepted⟩ : ∃ report, ({} : Engine).reportDocument rule document = .ok report := by
    simp only [← toOption_eq_some_iff, ← Option.isSome_iff_exists]
    decide +kernel
  obtain ⟨-, -, -, -, counted⟩ := bind_effect rule document Context.empty rule
  have keys : (Visit.leafKeys (rule.answered document []).visits).dedup.length = 5 := by decide +kernel
  obtain ⟨ended, overridden, -⟩ := bind_effect rule failing Context.empty rule
  have error : (rule.answered failing Context.empty.indices).outcome =
      .error (.unsupportedType "object") := by decide +kernel
  have leaf : "n" ∈ Visit.leafKeys (rule.answered failing Context.empty.indices).visits := by
    decide +kernel
  have absent : "xs.1" ∉ Visit.leafKeys (rule.answered failing Context.empty.indices).visits := by
    decide +kernel
  have loop : (rule.bound failing Context.empty).bounds? "j=0:ys" = some (0, 2) := by decide +kernel
  rw [error] at ended
  obtain ⟨found, answered, bound⟩ := overridden.leaf "n" leaf
  have nothing : failing.lookup "n" = .ok none := rfl
  obtain rfl : none = found := Except.ok.inj (nothing.symm.trans answered)
  exact ⟨parsed, ⟨report, accepted, (counted {} report accepted).trans keys⟩, ended, bound,
    overridden.leaf_absent "xs.1" absent, loop⟩

end Rule

end DocRules

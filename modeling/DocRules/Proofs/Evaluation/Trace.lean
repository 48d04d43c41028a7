import DocRules.Proofs.Evaluation.Direct

/-! # What the first pass does

A trace lists the answers that a source gives to the questions of a rule, up to the first error. The
first pass over a rule records the trace of the document in the context and ends as the trace does
(`Condition.bind_apply`, `Rule.bind_apply`); loops are left again in any case. Of several answers
recorded under one key the last one stays (`Context.get?_record`, `Context.bounds?_record`).
-/

namespace DocRules

/-- An answer: the value at a path, or the bounds of a loop over the array at a path. -/
inductive Visit where
  | field (path : String) (value : Value)
  | loop (header : LoopHeader) (path : String) (start stop : Int)

/-- The answers to a sequence of questions, and how it ends. -/
structure Trace where
  visits : List Visit
  outcome : Except EvalError Unit

namespace Trace

def nothing : Trace :=
  ⟨[], .ok ()⟩

/-- Questions that are asked if those before them have answers. -/
def andThen (first next : Trace) : Trace :=
  match first.outcome with
  | .ok _ => ⟨first.visits ++ next.visits, next.outcome⟩
  | .error _ => first

def sequence (traces : List Trace) : Trace :=
  traces.foldr andThen nothing

private theorem outcome_andThen (first next : Trace) :
    (first.andThen next).outcome = (do first.outcome; next.outcome) := by
  simp only [andThen]
  split <;> rename_i ended
  · rw [ended, Outcome.ok_bind]
  · rw [ended, Outcome.error_bind]

private theorem outcome_sequence (trace : Int → Trace) (indices : List Int) :
    (sequence (indices.map trace)).outcome = indices.forM fun index => (trace index).outcome := by
  induction indices with
  | nil => rfl
  | cons index indices ih =>
    simp only [sequence, List.map_cons, List.foldr_cons, outcome_andThen] at ih ⊢
    rw [ih]
    rfl

end Trace

variable (source : Source)

/-- The answers that the leaves of an expression get. -/
def Expr.trace (indices : Indices) : Expr → Trace
  | .leaf (.string path) indexed =>
    match source.read (indices.leafPath path indexed) with
    | .ok value => ⟨[.field (indices.leafPath path indexed) value], .ok ()⟩
    | .error error => ⟨[], .error error⟩
  | .leaf _ _ => .nothing
  | .binary _ lhs rhs => (lhs.trace indices).andThen (rhs.trace indices)

def Condition.trace : Indices → Condition → Trace
  | indices, .scalar expr => expr.trace source indices
  | indices, .loop header body =>
    match source.bounds header (indices.substitute header.arrayPath) with
    | .ok (start, stop) =>
      Trace.andThen ⟨[.loop header (indices.substitute header.arrayPath) start stop], .ok ()⟩
        (.sequence ((Indices.range start stop).map fun index =>
          body.trace ((header.index, index) :: indices)))
    | .error error => ⟨[], .error error⟩

theorem Expr.outcome_trace (indices : Indices) (expr : Expr) :
    (expr.trace source indices).outcome = expr.consult source indices := by
  induction expr with
  | leaf value indexed =>
    cases value with
    | string path =>
      simp only [trace, consult]
      cases source.read (indices.leafPath path indexed) <;> rfl
    | int | float | bool => rfl
  | binary operator lhs rhs ihl ihr => simp only [trace, consult, Trace.outcome_andThen, ihl, ihr]

/-- A trace ends as asking does. -/
theorem Condition.outcome_trace (indices : Indices) (condition : Condition) :
    (condition.trace source indices).outcome = condition.consult source indices := by
  induction condition generalizing indices with
  | scalar expr => exact expr.outcome_trace source indices
  | loop header body ih =>
    simp only [trace, consult, LoopHeader.rangeFrom]
    cases source.bounds header (indices.substitute header.arrayPath) with
    | error error => rfl
    | ok bounds =>
      simp only [Trace.outcome_andThen, Trace.outcome_sequence, ih, Outcome.ok_bind, Outcome.pure_eq_ok]

def Visit.record (context : Context) : Visit → Context
  | .field path value => context.insert path value
  | .loop header path start stop => context.setBounds (header.key path) start stop

/-- The value that an answer binds to a key. -/
def Visit.value? (key : String) : Visit → Option Value
  | .field path value => if path = key then some value else none
  | .loop .. => none

def Visit.bounds? (key : String) : Visit → Option (Int × Int)
  | .field .. => none
  | .loop header path start stop => if header.key path = key then some (start, stop) else none

def Visit.leafKey? : Visit → Option String
  | .field path _ => some path
  | .loop .. => none

def Visit.loopKey? : Visit → Option String
  | .field .. => none
  | .loop header path _ _ => some (header.key path)

/-- The keys of the leaves that were answered. -/
def Visit.leafKeys (visits : List Visit) : List String :=
  visits.filterMap leafKey?

def Visit.loopKeys (visits : List Visit) : List String :=
  visits.filterMap loopKey?

theorem Visit.mem_leafKeys {visits : List Visit} {key : String} :
    key ∈ leafKeys visits ↔ ∃ value, .field key value ∈ visits := by
  rw [leafKeys, List.mem_filterMap]
  constructor
  · rintro ⟨visit, member, same⟩
    cases visit with
    | field path value =>
      obtain rfl := Option.some.inj same
      exact ⟨value, member⟩
    | loop => cases same
  · rintro ⟨value, member⟩
    exact ⟨_, member, rfl⟩

theorem Visit.key_mem_loopKeys {visits : List Visit} {header : LoopHeader} {path : String}
    {start stop : Int} (member : .loop header path start stop ∈ visits) :
    header.key path ∈ loopKeys visits :=
  List.mem_filterMap.mpr ⟨_, member, rfl⟩

theorem Visit.value?_eq_none_iff {visit : Visit} {key : String} :
    visit.value? key = none ↔ visit.leafKey? ≠ some key := by
  cases visit with
  | field => simp [value?, leafKey?]
  | loop => simp [value?, leafKey?]

theorem Visit.bounds?_eq_none_iff {visit : Visit} {key : String} :
    visit.bounds? key = none ↔ visit.loopKey? ≠ some key := by
  cases visit with
  | field => simp [bounds?, loopKey?]
  | loop => simp [bounds?, loopKey?]

namespace Context

def record (context : Context) (visits : List Visit) : Context :=
  visits.foldl Visit.record context

theorem record_append (context : Context) (first next : List Visit) :
    context.record (first ++ next) = (context.record first).record next :=
  List.foldl_append

section Views

variable {α : Type} (view : Context → Option α) {given? : Visit → Option α}
  (step : ∀ context (visit : Visit), view (visit.record context) = (given? visit).or (view context))
include step

/-- If an answer decides alone what it changes in a view of the context, the last answer that gives
something decides. -/
theorem view_record (context : Context) (visits : List Visit) :
    view (context.record visits) = (visits.reverse.findSome? given?).or (view context) := by
  induction visits generalizing context with
  | nil => rfl
  | cons visit visits ih =>
    rw [record, List.foldl_cons, ← record, ih, step, List.reverse_cons, List.findSome?_append,
      List.findSome?_singleton, Option.or_assoc]

theorem view_record_of_forall_none (context : Context) {visits : List Visit}
    (silent : ∀ visit ∈ visits, given? visit = none) : view (context.record visits) = view context := by
  have none : visits.reverse.findSome? given? = none :=
    List.findSome?_eq_none_iff.mpr fun visit member => silent visit (List.mem_reverse.mp member)
  rw [view_record view step, none, Option.none_or]

end Views

private theorem get?_visit_record (key : String) (context : Context) (visit : Visit) :
    (visit.record context).get? key = (visit.value? key).or (context.get? key) := by
  cases visit with
  | field path value =>
    simp only [Visit.record, get?_insert, Visit.value?]
    split <;> rfl
  | loop => rfl

private theorem bounds?_visit_record (key : String) (context : Context) (visit : Visit) :
    (visit.record context).bounds? key = (visit.bounds? key).or (context.bounds? key) := by
  cases visit with
  | field => rfl
  | loop header path start stop =>
    simp only [Visit.record, bounds?_setBounds, Visit.bounds?]
    split <;> rfl

theorem get?_record (context : Context) (visits : List Visit) (key : String) :
    (context.record visits).get? key =
      (visits.reverse.findSome? (Visit.value? key)).or (context.get? key) :=
  view_record (·.get? key) (get?_visit_record key) context visits

theorem bounds?_record (context : Context) (visits : List Visit) (key : String) :
    (context.record visits).bounds? key =
      (visits.reverse.findSome? (Visit.bounds? key)).or (context.bounds? key) :=
  view_record (·.bounds? key) (bounds?_visit_record key) context visits

section Keys

variable (context : Context) {visits : List Visit} {key : String}

theorem get?_record_of_notMem (absent : key ∉ Visit.leafKeys visits) :
    (context.record visits).get? key = context.get? key := by
  refine view_record_of_forall_none (·.get? key) (get?_visit_record key) context fun visit member => ?_
  exact Visit.value?_eq_none_iff.mpr fun same => absent (List.mem_filterMap.mpr ⟨visit, member, same⟩)

theorem bounds?_record_of_notMem (absent : key ∉ Visit.loopKeys visits) :
    (context.record visits).bounds? key = context.bounds? key := by
  refine view_record_of_forall_none (·.bounds? key) (bounds?_visit_record key) context fun visit member => ?_
  exact Visit.bounds?_eq_none_iff.mpr fun same => absent (List.mem_filterMap.mpr ⟨visit, member, same⟩)

/-- A loop has the bounds that were recorded last. -/
theorem exists_bounds_record (member : key ∈ Visit.loopKeys visits) :
    ∃ (earlier later : List Visit) (header : LoopHeader) (path : String) (start stop : Int),
      visits = earlier ++ .loop header path start stop :: later ∧ header.key path = key ∧
      key ∉ Visit.loopKeys later ∧ (context.record visits).bounds? key = some (start, stop) := by
  cases search : visits.reverse.findSome? (Visit.bounds? key) with
  | none =>
    obtain ⟨visit, among, same⟩ := List.mem_filterMap.mp member
    have silent := List.findSome?_eq_none_iff.mp search visit (List.mem_reverse.mpr among)
    exact absurd same (Visit.bounds?_eq_none_iff.mp silent)
  | some bounds =>
    -- the search goes backwards, so what it has passed over comes later
    obtain ⟨later, visit, earlier, split, given, none_later⟩ := List.findSome?_eq_some_iff.mp search
    have whole : visits = earlier.reverse ++ visit :: later.reverse := by
      rw [← List.reverse_reverse visits, split]
      simp
    have last : key ∉ Visit.loopKeys later.reverse := by
      intro again
      obtain ⟨other, among, same⟩ := List.mem_filterMap.mp again
      exact Visit.bounds?_eq_none_iff.mp (none_later other (List.mem_reverse.mp among)) same
    cases visit with
    | field => cases given
    | loop header path start stop =>
      simp only [Visit.bounds?, Option.ite_none_right_eq_some, Option.some.injEq] at given
      obtain ⟨same, rfl⟩ := given
      refine ⟨_, _, header, path, start, stop, whole, same, last, ?_⟩
      rw [bounds?_record, search, Option.some_or]

end Keys

@[simp] theorem frames_record (context : Context) (visits : List Visit) :
    (context.record visits).frames = context.frames := by
  induction visits generalizing context with
  | nil => rfl
  | cons visit visits ih => exact (ih (visit.record context)).trans (by cases visit <;> rfl)

private theorem record_enter (context : Context) (frame : Frame) (visits : List Visit) :
    (context.enter frame).record visits = (context.record visits).enter frame := by
  induction visits generalizing context with
  | nil => rfl
  | cons visit visits ih =>
    cases visit with
    | field path value => exact ih (context.insert path value)
    | loop header path start stop => exact ih (context.setBounds (header.key path) start stop)

@[simp] theorem indices_record (context : Context) (visits : List Visit) :
    (context.record visits).indices = context.indices := by
  rw [indices, frames_record, indices]

end Context

/-- Record a trace and end as it does. -/
def Trace.run (trace : Trace) : Pass Unit := fun context =>
  match trace.outcome with
  | .ok () => .ok () (context.record trace.visits)
  | .error error => .error error (context.record trace.visits)

/-- Two passes that record traces, one after the other, record the sequence of the traces. -/
theorem Trace.run_bind {first next : Trace} {pass : Pass Unit} {rest : Unit → Pass Unit}
    {context : Context} (before : pass context = first.run context)
    (after : rest () (context.record first.visits) = next.run (context.record first.visits)) :
    (pass >>= rest) context = (first.andThen next).run context := by
  rw [Pass.bind_apply, before]
  simp only [run, andThen]
  cases ended : first.outcome with
  | ok _ => simp only [after, run, Context.record_append]
  | error error => simp only [ended]

variable {document : Document}

private theorem LoopHeader.bind_apply (header : LoopHeader) (context : Context) :
    header.bind document context =
      match (Source.ofDocument document).bounds header
        (context.indices.substitute header.arrayPath) with
      | .ok (start, stop) =>
        .ok (header.frame start stop)
          (context.setBounds (header.key (context.indices.substitute header.arrayPath)) start stop)
      | .error error => .error error context := by
  simp only [bind, Source.ofDocument]
  cases header.first? with
  | none => rfl
  | some start =>
    simp only [Pass.bind_apply, Pass.get_apply, ← Context.resolve_eq_substitute]
    cases document.length (context.resolve header.arrayPath) with
    | error error => rfl
    | ok length =>
      rw [Outcome.ok_bind, Pass.lift_ok]
      by_cases fits : Decimal.fitsInt64 length = true
      · simp only [if_pos fits, Context.boundsKey_eq_key, Context.resolve_eq_substitute]
        rfl
      · simp only [if_neg fits]
        rfl

private theorem Expr.bind_apply (expr : Expr) (context : Context) :
    expr.bind document context = (expr.trace (.ofDocument document) context.indices).run context := by
  induction expr generalizing context with
  | leaf value indexed =>
    cases value with
    | string path =>
      simp only [bind, trace, Source.ofDocument, Pass.bind_apply, Pass.get_apply,
        Context.leafKey_eq_leafPath]
      cases document.lookup (context.indices.leafPath path indexed) <;> rfl
    | int | float | bool => rfl
  | binary operator lhs rhs ihl ihr =>
    exact Trace.run_bind (ihl context) (by rw [ihr, Context.indices_record])

/-- A pass that records a trace at every index records their sequence over the indices of a loop. -/
theorem Pass.steps_run {pass : Pass Unit} (trace : Indices → Trace)
    (same : ∀ context : Context, pass context = (trace context.indices).run context)
    (frame : Frame) (count : Nat) (index current : Int) (context : Context) :
    leaving (steps (fun _ _ => pass) count index () (context.enter { frame with current })) =
      (Trace.sequence (((List.range count).map fun (n : Nat) => index + n).map fun index =>
        trace ((frame.index, index) :: context.indices))).run context := by
  induction count generalizing index current context with
  | zero => rfl
  | succ count ih =>
    rw [steps_succ, Context.setIndex_enter, bind_apply, same, Indices.range_succ, List.map_cons,
      Context.indices_enter]
    simp only [Trace.run, Trace.sequence, List.foldr_cons, Trace.andThen]
    cases ended : (trace ((frame.index, index) :: context.indices)).outcome with
    | error error => simp only [ended, Context.record_enter, leaving, Context.leave_enter]
    | ok _ =>
      have later := ih (index + 1) index
        (context.record (trace ((frame.index, index) :: context.indices)).visits)
      simp only [Context.record_enter, Context.indices_record] at later ⊢
      refine later.trans ?_
      simp only [Trace.run, Trace.sequence, Context.record_append]

theorem Condition.bind_apply (condition : Condition) (context : Context) :
    condition.bind document context =
      (condition.trace (.ofDocument document) context.indices).run context := by
  induction condition generalizing context with
  | scalar expr => exact expr.bind_apply context
  | loop header body ih =>
    simp only [bind, trace, Pass.bind_apply, LoopHeader.bind_apply]
    cases (Source.ofDocument document).bounds header (context.indices.substitute header.arrayPath) with
    | error error => rfl
    | ok bounds =>
      obtain ⟨start, stop⟩ := bounds
      simp only [Pass.overLoop, Pass.inLoop_apply, Trace.run, Trace.andThen, Context.record_append]
      exact Pass.steps_run (body.trace (.ofDocument document) ·) ih (header.frame start stop) _ start start
        (context.record [.loop header (context.indices.substitute header.arrayPath) start stop])

/-- The first pass over a rule records the trace of its loops and leaves. -/
theorem Rule.bind_apply (rule : Rule) (context : Context) :
    rule.bind document context =
      (rule.asLoops.trace (.ofDocument document) context.indices).run context := by
  cases rule with
  | scalar condition => exact condition.bind_apply context
  | vector header condition => exact (Condition.loop header condition).bind_apply context

end DocRules

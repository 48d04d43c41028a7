import DocRules.Engine
import DocRules.Proofs.Outcome

/-! # Evaluation from a source

Evaluation asks two things: the value at a path, and the bounds of a loop over the array at a path.
A source answers them, and the list of active loops is all the state there is. A document is a
source, which answers by itself; a context is another one, which answers from what is bound in it.
The second pass over a rule is evaluation from the context it starts in (`Condition.evaluate_apply`,
`Rule.evaluate_apply`): it changes nothing and reads nothing else.
-/

namespace DocRules

/-- The active loops with their current indices, the innermost first. -/
abbrev Indices : Type :=
  List (String × Int)

namespace Indices

/-- The path with the first bracketed occurrence of each loop variable replaced by the segment that
selects its index, the innermost loop first. -/
def substitute (indices : Indices) (path : String) : String :=
  .ofList (indices.foldl
    (fun path (name, index) =>
      Text.replaceFirst ('[' :: name.toList ++ [']']) ('.' :: (toString index).toList) path)
    path.toList)

/-- The path that a string leaf stands for; only indexed leaves mention loop variables. -/
def leafPath (indices : Indices) (path : String) (indexed : Bool) : String :=
  if indexed then indices.substitute path else path

@[simp] theorem substitute_nil (path : String) : substitute [] path = path :=
  String.ofList_toList

@[simp] theorem leafPath_nil (path : String) (indexed : Bool) : leafPath [] path indexed = path := by
  simp [leafPath]

/-- The indices from `start` on that lie before `stop`. -/
def range (start stop : Int) : List Int :=
  (List.range (stop - start).toNat).map fun (n : Nat) => start + n

end Indices

/-- What evaluation asks. -/
structure Source where
  /-- The value at a path. -/
  read (path : String) : Except EvalError Value
  /-- The bounds of a loop whose array is at the path. -/
  bounds (header : LoopHeader) (path : String) : Except EvalError (Int × Int)

variable (source : Source)

def LoopHeader.rangeFrom (indices : Indices) (header : LoopHeader) : Except EvalError (List Int) := do
  let (start, stop) ← source.bounds header (indices.substitute header.arrayPath)
  return Indices.range start stop

def Expr.valueFrom (indices : Indices) : Expr → Except EvalError Value
  | .leaf (.string path) indexed => source.read (indices.leafPath path indexed)
  | .leaf value _ => .ok value
  | .binary operator lhs rhs => do
    let lhs ← lhs.valueFrom indices
    let rhs ← rhs.valueFrom indices
    return .bool (← operator.apply lhs rhs)

/-- Whether a condition holds: a loop holds if its body holds for all indices, none of which is
skipped. -/
def Condition.holdsFrom : Indices → Condition → Except EvalError Bool
  | indices, .scalar expr => do (← expr.valueFrom source indices).holds
  | indices, .loop header body => do
    let results ← (← header.rangeFrom source indices).mapM fun index =>
      body.holdsFrom ((header.index, index) :: indices)
    return results.all id

/-- The failure at an index, if what the condition gives there is one. -/
def IterationFailure.of? : Int × Except EvalError Bool → Option IterationFailure
  | (_, .ok _) => none
  | (index, .error error) => some ⟨index, error⟩

/-- What a policy makes of the results at all indices: the entries and the recorded failures. -/
def Policy.collect (results : List (Int × Except EvalError Bool)) :
    Policy → Except EvalError (List Bool × List IterationFailure)
  | .recordFalse =>
    .ok (results.map fun (_, result) => result.toOption.getD false,
      results.filterMap IterationFailure.of?)
  | .abort => do return (← results.mapM Prod.snd, [])

/-- The verdict of a rule and its failures. A vector rule has a result for every index. -/
def Rule.verdictFrom (indices : Indices) (policy : Policy) :
    Rule → Except EvalError (Verdict × List IterationFailure)
  | .scalar condition => do return (.scalar (← condition.holdsFrom source indices), [])
  | .vector header condition => do
    let results := (← header.rangeFrom source indices).map fun index =>
      (index, condition.holdsFrom source ((header.index, index) :: indices))
    let (entries, failures) ← policy.collect results
    return (.vector entries, failures)

def LoopHeader.key (header : LoopHeader) (path : String) : String :=
  header.index ++ "=" ++ header.start ++ ":" ++ path

/-- A context answers from what is bound in it. -/
def Source.ofContext (context : Context) : Source where
  read key :=
    match context.get? key with
    | some value => .ok value
    | none => .error (.unbound key)
  bounds header path :=
    match context.bounds? (header.key path) with
    | some bounds => .ok bounds
    | none => .error (.unbound (header.key path))

namespace Context

def indices (context : Context) : Indices :=
  context.frames.map fun frame => (frame.index, frame.current)

@[simp] theorem indices_empty : empty.indices = [] := rfl

@[simp] theorem indices_enter (context : Context) (frame : Frame) :
    (context.enter frame).indices = (frame.index, frame.current) :: context.indices := rfl

@[simp] theorem fields_enter (context : Context) (frame : Frame) :
    (context.enter frame).fields = context.fields := rfl

theorem resolve_eq_substitute (context : Context) (path : String) :
    context.resolve path = context.indices.substitute path := by
  simp only [resolve, Indices.substitute, indices, List.foldl_map]
  rfl

theorem leafKey_eq_leafPath (context : Context) (path : String) (indexed : Bool) :
    context.leafKey path indexed = context.indices.leafPath path indexed := by
  simp only [leafKey, Indices.leafPath, resolve_eq_substitute]

theorem boundsKey_eq_key (context : Context) (header : LoopHeader) :
    context.boundsKey header = header.key (context.indices.substitute header.arrayPath) := by
  simp only [boundsKey, LoopHeader.key, resolve_eq_substitute]

end Context

namespace Indices

theorem range_succ (count : Nat) (index : Int) :
    (List.range (count + 1)).map (fun (n : Nat) => index + n) =
      index :: (List.range count).map fun (n : Nat) => index + 1 + n := by
  simp only [List.range_succ_eq_map, List.map_cons, List.map_map, List.cons.injEq]
  refine ⟨by omega, List.map_congr_left fun n _ => ?_⟩
  simp only [Function.comp_apply]
  omega

end Indices

namespace Pass

variable {α β : Type}

theorem bind_apply (pass : Pass α) (next : α → Pass β) (context : Context) :
    (pass >>= next) context =
      match pass context with
      | .ok a after => next a after
      | .error error after => .error error after := by
  change EStateM.bind pass next context = _
  unfold EStateM.bind
  cases pass context <;> rfl

@[simp] theorem get_apply (context : Context) : (get : Pass Context) context = .ok context context :=
  rfl

private theorem tryCatch_apply (pass : Pass α) (handle : EvalError → Pass α) (context : Context) :
    tryCatch pass handle context =
      match pass context with
      | .ok a after => .ok a after
      | .error error after => handle error after := by
  change EStateM.tryCatch pass handle context = _
  delta EStateM.tryCatch
  cases pass context <;> rfl

@[simp] theorem lift_ok (a : α) (context : Context) : lift (.ok a) context = .ok a context := rfl

theorem lift_bind (result : Except EvalError α) (next : α → Except EvalError β) :
    lift (result >>= next) = lift result >>= fun a => lift (next a) := by
  cases result <;> rfl

/-- What a pass does, seen after the innermost loop has been left. -/
def leaving : EStateM.Result EvalError Context α → EStateM.Result EvalError Context α
  | .ok a after => .ok a after.leave
  | .error error after => .error error after.leave

theorem inLoop_apply (frame : Frame) (pass : Pass α) (context : Context) :
    inLoop frame pass context = leaving (pass (context.enter frame)) := by
  unfold inLoop leaving
  cases pass (context.enter frame) <;> rfl

theorem steps_succ (step : Int → α → Pass α) (count : Nat) (index : Int) (state : α)
    (context : Context) :
    steps step (count + 1) index state context =
      (step index state >>= steps step count (index + 1)) (context.setIndex index) := rfl

/-- Steps that change nothing amount to a fold over the indices. -/
theorem steps_lift {step : Int → α → Pass α} {result : Int → α → Except EvalError α}
    {context : Context} {frame : Frame}
    (same : ∀ index state, step index state (context.enter { frame with current := index }) =
      lift (result index state) (context.enter { frame with current := index }))
    (count : Nat) (index current : Int) (state : α) :
    leaving (steps step count index state (context.enter { frame with current })) =
      lift (((List.range count).map fun (n : Nat) => index + n).foldlM
        (fun state index => result index state) state) context := by
  induction count generalizing index current state with
  | zero => rfl
  | succ count ih =>
    rw [steps_succ, Context.setIndex_enter, bind_apply, same, Indices.range_succ, List.foldlM_cons,
      lift_bind, bind_apply]
    cases result index state with
    | ok next => exact ih (index + 1) index next
    | error error => rfl

/-- A loop whose steps change nothing amounts to a fold over its indices. -/
theorem overLoop_lift {step : Int → α → Pass α} {result : Int → α → Except EvalError α}
    {context : Context} {frame : Frame}
    (same : ∀ index state, step index state (context.enter { frame with current := index }) =
      lift (result index state) (context.enter { frame with current := index }))
    (initial : α) :
    overLoop frame step initial context =
      lift ((Indices.range frame.start frame.stop).foldlM
        (fun state index => result index state) initial) context := by
  rw [overLoop, inLoop_apply]
  exact steps_lift same _ _ frame.current initial

end Pass

variable {source}

private theorem LoopHeader.recorded_apply (header : LoopHeader) (context : Context) :
    header.recorded context =
      Pass.lift (((Source.ofContext context).bounds header
        (context.indices.substitute header.arrayPath)).map
          fun (start, stop) => header.frame start stop) context := by
  simp only [recorded, Source.ofContext, Pass.bind_apply, Pass.get_apply, ← Context.boundsKey_eq_key]
  cases context.bounds? (context.boundsKey header) <;> rfl

theorem Expr.evaluate_eq (expr : Expr) (context : Context) :
    expr.evaluate context = expr.valueFrom (.ofContext context) context.indices := by
  induction expr with
  | leaf value indexed =>
    cases value with
    | string path =>
      have key := Context.leafKey_eq_leafPath context path indexed
      exact congrArg (Source.ofContext context).read key
    | int | float | bool => rfl
  | binary operator lhs rhs ihl ihr => simp only [evaluate, valueFrom, ihl, ihr]

/-- Joining results from the left is taking all of them and joining them. -/
theorem Condition.foldlM_and {α : Type} (result : α → Except EvalError Bool) (items : List α)
    (initial : Bool) :
    items.foldlM (fun all item => return (← result item) && all) initial =
      (do return (← items.mapM result).all id && initial) := by
  induction items generalizing initial with
  | nil => rfl
  | cons item items ih =>
    simp only [List.foldlM_cons, List.mapM_cons, bind_assoc, pure_bind, ih]
    refine bind_congr fun b => bind_congr fun bs => ?_
    simp only [List.all_cons, id_eq, Bool.and_left_comm, Bool.and_assoc]

/-- The second pass over a condition is evaluation from the context it starts in. -/
theorem Condition.evaluate_apply (condition : Condition) (context : Context) :
    condition.evaluate context =
      Pass.lift (condition.holdsFrom (.ofContext context) context.indices) context := by
  induction condition generalizing context with
  | scalar expr =>
    simp only [evaluate, holdsFrom, Pass.bind_apply, Pass.get_apply, Expr.evaluate_eq, Pass.lift_bind]
  | loop header body ih =>
    simp only [evaluate, holdsFrom, Pass.bind_apply, LoopHeader.recorded_apply, LoopHeader.rangeFrom]
    cases (Source.ofContext context).bounds header (context.indices.substitute header.arrayPath) with
    | error error => rfl
    | ok bounds =>
      obtain ⟨start, stop⟩ := bounds
      have same (index : Int) (all : Bool) :
          (do return (← body.evaluate) && all : Pass Bool)
            (context.enter { header.frame start stop with current := index }) =
          Pass.lift (do
              let holds ← body.holdsFrom (.ofContext context) ((header.index, index) :: context.indices)
              return holds && all)
            (context.enter { header.frame start stop with current := index }) := by
        rw [Pass.bind_apply, ih, Pass.lift_bind, Pass.bind_apply]
        rfl
      simp only [Outcome.map_ok, Pass.lift_ok]
      rw [Pass.overLoop_lift same, foldlM_and]
      simp only [Bool.and_true]
      rfl

namespace Tally

/-- Add what a condition gives at an index, or fail with it. -/
def take (tally : Tally) (policy : Policy) (index : Int) :
    Except EvalError Bool → Except EvalError Tally
  | .ok result => .ok (tally.add result)
  | .error error =>
    match policy with
    | .recordFalse => .ok (tally.fail index error)
    | .abort => .error error

/-- What a tally holds. -/
def lists (tally : Tally) : List Bool × List IterationFailure :=
  (tally.results.toList, tally.failures.toList)

variable (result : Int → Except EvalError Bool)

/-- A policy that records failures keeps an entry for every index. -/
theorem foldlM_take_recordFalse (indices : List Int) (tally : Tally) :
    (indices.foldlM (fun (tally : Tally) index => tally.take .recordFalse index (result index))
      tally).map lists =
      .ok (tally.results.toList ++ indices.map fun index => (result index).toOption.getD false,
        tally.failures.toList ++
          indices.filterMap fun index => IterationFailure.of? (index, result index)) := by
  induction indices generalizing tally with
  | nil => simp [lists]
  | cons index indices ih =>
    rw [List.foldlM_cons]
    cases given : result index with
    | ok b =>
      rw [List.map_cons, List.filterMap_cons_none (by rw [given]; rfl), given]
      refine (ih (tally.add b)).trans ?_
      simp only [add, Array.toList_push, List.append_assoc, List.cons_append, List.nil_append]
      rfl
    | error error =>
      rw [List.map_cons, List.filterMap_cons_some (by rw [given]; rfl), given]
      refine (ih (tally.fail index error)).trans ?_
      simp only [fail, Array.toList_push, List.append_assoc, List.cons_append, List.nil_append]
      rfl

/-- A policy that aborts fails with the first failing index and records no failure. -/
theorem foldlM_take_abort (indices : List Int) (tally : Tally) :
    (indices.foldlM (fun (tally : Tally) index => tally.take .abort index (result index))
      tally).map lists =
      (indices.mapM result).map fun results =>
        (tally.results.toList ++ results, tally.failures.toList) := by
  induction indices generalizing tally with
  | nil => simp [lists]
  | cons index indices ih =>
    rw [List.foldlM_cons, List.mapM_cons]
    cases given : result index with
    | ok b =>
      refine (ih (tally.add b)).trans ?_
      cases indices.mapM result with
      | ok results =>
        simp only [add, Array.toList_push, List.append_assoc, List.cons_append, List.nil_append]
        rfl
      | error error => rfl
    | error error => rfl

/-- Tallying the results one after the other is what the policy makes of all of them. -/
theorem foldlM_take (policy : Policy) (indices : List Int) :
    (indices.foldlM (fun (tally : Tally) index => tally.take policy index (result index)) {}).map lists =
      policy.collect (indices.map fun index => (index, result index)) := by
  cases policy with
  | recordFalse =>
    rw [foldlM_take_recordFalse, Policy.collect, List.map_map, List.filterMap_map]
    rfl
  | abort =>
    rw [foldlM_take_abort, Policy.collect, List.mapM_map]
    change _ = (do return (← indices.mapM result, []))
    cases indices.mapM result <;> rfl

end Tally

private theorem Condition.tally_apply (policy : Policy) (condition : Condition) (index : Int) (tally : Tally)
    (context : Context) :
    condition.tally policy index tally context =
      Pass.lift (tally.take policy index (condition.holdsFrom (.ofContext context) context.indices))
        context := by
  simp only [Condition.tally, Pass.tryCatch_apply, Pass.bind_apply, evaluate_apply]
  cases condition.holdsFrom (.ofContext context) context.indices with
  | ok b => rfl
  | error error => cases policy <;> rfl

private theorem Condition.overLoop_tally (policy : Policy) (condition : Condition) (frame : Frame)
    (context : Context) :
    Pass.overLoop frame (condition.tally policy) {} context =
      Pass.lift ((Indices.range frame.start frame.stop).foldlM
        (fun (tally : Tally) index => tally.take policy index
          (condition.holdsFrom (.ofContext context) ((frame.index, index) :: context.indices))) {})
        context :=
  Pass.overLoop_lift (fun _ _ => tally_apply _ _ _ _ _) _

/-- The second pass over a rule is evaluation from the context it starts in. -/
theorem Rule.evaluate_apply (policy : Policy) (rule : Rule) (context : Context) :
    rule.evaluate policy context =
      Pass.lift (rule.verdictFrom (.ofContext context) context.indices policy) context := by
  cases rule with
  | scalar condition =>
    simp only [evaluate, verdictFrom, Pass.bind_apply, Condition.evaluate_apply, Pass.lift_bind]
    cases condition.holdsFrom (.ofContext context) context.indices <;> rfl
  | vector header condition =>
    simp only [evaluate, verdictFrom, Pass.bind_apply, LoopHeader.recorded_apply, LoopHeader.rangeFrom]
    cases (Source.ofContext context).bounds header (context.indices.substitute header.arrayPath) with
    | error error => rfl
    | ok bounds =>
      obtain ⟨start, stop⟩ := bounds
      simp only [Outcome.map_ok, Outcome.ok_bind, Outcome.pure_eq_ok, Pass.lift_ok,
        Condition.overLoop_tally]
      rw [← Tally.foldlM_take (fun index =>
        condition.holdsFrom (.ofContext context) ((header.index, index) :: context.indices))]
      simp only [LoopHeader.frame]
      cases List.foldlM (m := Except EvalError) _ _ (Indices.range start stop) <;> rfl

end DocRules

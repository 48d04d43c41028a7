import DocRules.Proofs.Evaluation.Direct

/-! # Loops are left again

Every loop puts a frame on the stack, and its body moves whatever frame is innermost while inner loops
come and go above it. A pass is tidy if the loops are the same after it as before it, whether it succeeds or
fails, and if nothing that was bound is gone (`Pass.Tidy`). Inside a loop a tidy step leaves the frame of
the loop where it is, so all its steps together change at most the index of this frame
(`Pass.exists_left_steps`), and what leaves the loop is tidy again (`Pass.tidy_overLoop`).

This does not depend on what a document says. It may even answer one question in different ways at different
moments, so the first pass is considered with a document for every moment (`Rule.bindAlong`).
-/

namespace DocRules

section Along

variable (documents : Nat → Document)

/-- Bind the leaves of an expression to a document that may change. The moments are counted by the leaves
and loops that have been visited. -/
def Expr.bindAlong : Expr → Nat → Pass Nat
  | .leaf value indexed, moment => do
    (Expr.leaf value indexed).bind (documents moment)
    return moment + 1
  | .binary _ lhs rhs, moment => do
    let moment ← lhs.bindAlong moment
    rhs.bindAlong moment

def Condition.bindAlong : Condition → Nat → Pass Nat
  | .scalar expr, moment => expr.bindAlong documents moment
  | .loop header body, moment => do
    let frame ← header.bind (documents moment)
    Pass.overLoop frame (fun _ moment => body.bindAlong moment) (moment + 1)

def Rule.bindAlong (rule : Rule) (moment : Nat) : Pass Nat :=
  rule.asLoops.bindAlong documents moment

end Along

namespace Pass

variable {α β : Type}

/-- Only what a pass does to the context, without its result. -/
def silent (pass : Pass α) : Pass Unit := do
  let _ ← pass

private theorem silent_bind (pass : Pass α) (next : α → Pass β) :
    silent (pass >>= next) = pass >>= fun a => silent (next a) := by
  simp only [silent, bind_assoc]

private theorem silent_steps {step : Int → α → Pass α} {pass : Pass Unit}
    (same : ∀ index state, silent (step index state) = pass) (count : Nat) (index : Int) (state : α) :
    silent (steps step count index state) = steps (fun _ _ => pass) count index () := by
  induction count generalizing index state with
  | zero => rfl
  | succ count ih =>
    rw [steps, steps, silent_bind]
    refine bind_congr fun _ => ?_
    rw [silent_bind]
    simp only [ih]
    rw [← same index state, silent, bind_assoc]
    rfl

private theorem silent_inLoop (frame : Frame) (pass : Pass α) :
    silent (inLoop frame pass) = inLoop frame (silent pass) := by
  funext context
  simp only [silent, bind_apply, inLoop]
  cases pass (context.enter frame) <;> rfl

end Pass

/-- A document that does not change is bound as usual. -/
theorem Expr.silent_bindAlong (document : Document) (expr : Expr) (moment : Nat) :
    Pass.silent (expr.bindAlong (fun _ => document) moment) = expr.bind document := by
  induction expr generalizing moment with
  | leaf value indexed =>
    simp only [bindAlong, Pass.silent, bind_assoc, pure_bind]
    exact bind_pure_unit
  | binary operator lhs rhs ihl ihr =>
    rw [bindAlong, Pass.silent_bind]
    simp only [ihr]
    rw [bind, ← ihl moment, Pass.silent, bind_assoc]
    rfl

theorem Condition.silent_bindAlong (document : Document) (condition : Condition) (moment : Nat) :
    Pass.silent (condition.bindAlong (fun _ => document) moment) = condition.bind document := by
  induction condition generalizing moment with
  | scalar expr => exact expr.silent_bindAlong document moment
  | loop header body ih =>
    rw [bindAlong, Pass.silent_bind, bind]
    refine bind_congr fun frame => ?_
    rw [Pass.overLoop, Pass.silent_inLoop, Pass.silent_steps fun _ moment => ih moment]
    rfl

theorem Rule.silent_bindAlong (document : Document) (rule : Rule) (moment : Nat) :
    Pass.silent (rule.bindAlong (fun _ => document) moment) = rule.bind document := by
  cases rule <;> exact Condition.silent_bindAlong document _ moment

/-- The same loops are active, at the same indices, and nothing that was bound is gone. -/
structure Context.Extends (before after : Context) : Prop where
  frames : after.frames = before.frames
  fields : ∀ key, (before.get? key).isSome → (after.get? key).isSome
  bounds : ∀ key, (before.bounds? key).isSome → (after.bounds? key).isSome

namespace Context.Extends

variable {before after later : Context}

theorem refl (context : Context) : Extends context context where
  frames := rfl
  fields _ bound := bound
  bounds _ bound := bound

theorem trans (first : Extends before after) (next : Extends after later) : Extends before later where
  frames := next.frames.trans first.frames
  fields key bound := next.fields key (first.fields key bound)
  bounds key bound := next.bounds key (first.bounds key bound)

private theorem insert (context : Context) (key : String) (value : Value) :
    Extends context (context.insert key value) where
  frames := rfl
  fields other bound := by
    rw [get?_insert]
    split
    · rfl
    · exact bound
  bounds _ bound := bound

private theorem setBounds (context : Context) (key : String) (start stop : Int) :
    Extends context (context.setBounds key start stop) where
  frames := rfl
  fields _ bound := bound
  bounds other bound := by
    rw [bounds?_setBounds]
    split
    · rfl
    · exact bound

/-- Inside a loop what extends a context extends it below the frame of the loop. -/
theorem exists_enter {frame : Frame} (extended : Extends (before.enter frame) after) :
    ∃ inner, after = inner.enter frame ∧ Extends before inner := by
  refine ⟨{ after with frames := before.frames }, ?_, rfl, extended.fields, extended.bounds⟩
  cases after
  exact congrArg (Context.mk · _ _) extended.frames

end Context.Extends

namespace Pass

variable {α β : Type}

def left (pass : Pass α) (context : Context) : Context :=
  match pass context with
  | .ok _ after => after
  | .error _ after => after

/-- A pass has left all loops that it has entered and has removed nothing. -/
def Tidy (pass : Pass α) : Prop :=
  ∀ context : Context, context.Extends (pass.left context)

private theorem left_bind (pass : Pass α) (next : α → Pass β) (context : Context) :
    (pass >>= next).left context =
      match pass context with
      | .ok a after => (next a).left after
      | .error _ after => after := by
  simp only [left, bind_apply]
  cases pass context <;> rfl

private theorem left_silent (pass : Pass α) : (silent pass).left = pass.left := by
  funext context
  rw [silent, left_bind, left]
  cases pass context <;> rfl

private theorem left_inLoop (frame : Frame) (pass : Pass α) (context : Context) :
    (inLoop frame pass).left context = (pass.left (context.enter frame)).leave := by
  simp only [left, inLoop_apply]
  cases pass (context.enter frame) <;> rfl

private theorem left_lift (result : Except EvalError α) (context : Context) :
    (lift result).left context = context := by
  cases result <;> rfl

private theorem tidy_pure (a : α) : Tidy (pure a : Pass α) :=
  Context.Extends.refl

private theorem tidy_bind {pass : Pass α} {next : α → Pass β} (here : Tidy pass) (there : ∀ a, Tidy (next a)) :
    Tidy (pass >>= next) := by
  intro context
  have extended := here context
  rw [left_bind]
  simp only [left] at extended
  cases ended : pass context with
  | ok a after =>
    rw [ended] at extended
    exact extended.trans (there a after)
  | error error after =>
    rw [ended] at extended
    exact extended

/-- The steps of a loop that are tidy one by one move the frame of the loop and leave all others. -/
theorem exists_left_steps {step : Int → α → Pass α} (tidy : ∀ index state, Tidy (step index state))
    (count : Nat) (index : Int) (state : α) (frame : Frame) (context : Context) :
    ∃ current inner,
      (steps step count index state).left (context.enter frame) = inner.enter { frame with current } ∧
        context.Extends inner := by
  induction count generalizing index state frame context with
  | zero => exact ⟨frame.current, context, rfl, .refl context⟩
  | succ count ih =>
    have extended := tidy index state (context.enter { frame with current := index })
    obtain ⟨inner, stepped, kept⟩ := extended.exists_enter
    simp only [left, steps_succ, Context.setIndex_enter, bind_apply] at stepped ih ⊢
    cases ended : step index state (context.enter { frame with current := index }) with
    | ok next after =>
      -- the next step finds the frame where this one has left it, whatever loops this one went through
      rw [ended] at stepped
      obtain rfl : after = inner.enter { frame with current := index } := stepped
      obtain ⟨current, last, same, kept'⟩ := ih (index + 1) next { frame with current := index } inner
      exact ⟨current, last, same, kept.trans kept'⟩
    | error error after =>
      rw [ended] at stepped
      exact ⟨index, inner, stepped, kept⟩

theorem tidy_overLoop (frame : Frame) {step : Int → α → Pass α} (initial : α)
    (tidy : ∀ index state, Tidy (step index state)) : Tidy (overLoop frame step initial) := by
  intro context
  obtain ⟨current, inner, same, kept⟩ :=
    exists_left_steps tidy (frame.stop - frame.start).toNat frame.start initial frame context
  rw [overLoop, left_inLoop, same, Context.leave_enter]
  exact kept

end Pass

private theorem LoopHeader.tidy_bind (document : Document) (header : LoopHeader) :
    Pass.Tidy (header.bind document) := by
  intro context
  simp only [bind]
  split
  · rw [Pass.left_bind, Pass.get_apply]
    simp only [Pass.left_bind]
    cases document.length (context.resolve header.arrayPath) with
    | error error => exact .refl context
    | ok length =>
      simp only [Pass.lift_ok]
      split
      · exact .setBounds context _ _ _
      · exact .refl context
  · exact .refl context

private theorem Expr.tidy_bind_leaf (document : Document) (value : Value) (indexed : Bool) :
    Pass.Tidy ((Expr.leaf value indexed).bind document) := by
  cases value with
  | string path =>
    intro context
    rw [bind, Pass.left_bind, Pass.get_apply]
    simp only [Pass.left_bind]
    cases document.lookup (context.leafKey path indexed) with
    | error error => exact .refl context
    | ok found => exact .insert context _ _
  | int | float | bool => exact Pass.tidy_pure ()

section Along

variable (documents : Nat → Document)

theorem Expr.tidy_bindAlong (expr : Expr) (moment : Nat) : Pass.Tidy (expr.bindAlong documents moment) := by
  induction expr generalizing moment with
  | leaf value indexed =>
    exact Pass.tidy_bind (tidy_bind_leaf (documents moment) value indexed) fun _ => Pass.tidy_pure _
  | binary operator lhs rhs ihl ihr => exact Pass.tidy_bind (ihl moment) ihr

theorem Condition.tidy_bindAlong (condition : Condition) (moment : Nat) :
    Pass.Tidy (condition.bindAlong documents moment) := by
  induction condition generalizing moment with
  | scalar expr => exact expr.tidy_bindAlong documents moment
  | loop header body ih =>
    exact Pass.tidy_bind (header.tidy_bind (documents moment)) fun frame =>
      Pass.tidy_overLoop frame (moment + 1) fun _ moment => ih moment

end Along

/-- No loop stays in a context. The first pass over a rule or a condition, with a document that may answer
in any way and at any moment in another one, ends with the loops of the context it began with, whether it
succeeds or fails, and nothing that was bound before is gone. The second pass ends with the very context
it began with, under either policy, and so has the same result when it is made again. -/
theorem Rule.loops_left (rule : Rule) (condition : Condition) (context : Context) :
    (∀ (documents : Nat → Document) (moment : Nat),
      context.Extends ((rule.bindAlong documents moment).left context) ∧
      context.Extends ((condition.bindAlong documents moment).left context)) ∧
    (∀ document : Document,
      context.Extends ((rule.bind document).left context) ∧
      context.Extends ((condition.bind document).left context)) ∧
    (∀ policy : Policy, (rule.evaluate policy).left context = context ∧
      rule.evaluate policy ((rule.evaluate policy).left context) = rule.evaluate policy context) ∧
    condition.evaluate.left context = context ∧
    condition.evaluate (condition.evaluate.left context) = condition.evaluate context := by
  have same : condition.evaluate.left context = context := by
    rw [Pass.left, condition.evaluate_apply]
    exact Pass.left_lift _ context
  have same' (policy : Policy) : (rule.evaluate policy).left context = context := by
    rw [Pass.left, rule.evaluate_apply]
    exact Pass.left_lift _ context
  refine ⟨fun documents moment => ⟨?_, ?_⟩, fun document => ⟨?_, ?_⟩, fun policy => ⟨?_, ?_⟩, same, ?_⟩
  · exact rule.asLoops.tidy_bindAlong documents moment context
  · exact condition.tidy_bindAlong documents moment context
  · rw [← rule.silent_bindAlong document 0, Pass.left_silent]
    exact rule.asLoops.tidy_bindAlong (fun _ => document) 0 context
  · rw [← condition.silent_bindAlong document 0, Pass.left_silent]
    exact condition.tidy_bindAlong (fun _ => document) 0 context
  · exact same' policy
  · rw [same']
  · rw [same]

/-- The second index of the inner loop fails, three loops deep, and the loop around the rule is where it was. -/
example :
    let condition : Condition := .loop ⟨"i", "0", "xs.size()"⟩ (.loop ⟨"j", "0", "ys.size()"⟩
      (.scalar (.binary .eq (.leaf (.string "ys[j]") true) (.leaf (.string "k[k]") true))))
    let document : Document := .ofTable ⟨[], [("xs", 2), ("ys", 2)], [("ys.1", "object")]⟩
    let context : Context := { frames := [⟨"k", 0, 9, 7⟩] }
    let after := (condition.bind document).left context
    after.frames = [⟨"k", 0, 9, 7⟩] ∧ after.contains "k.7" ∧ after.bounds? "j=0:ys" = some (0, 2) ∧
      ¬ after.contains "ys.1" := by
  decide +kernel

end DocRules

import DocRules.Context
import DocRules.Evaluation.Error

/-! # Passes over a rule

A rule is worked on twice: once with the document, to bind what the rule mentions, and once without
it, to evaluate. Both passes change a context and may fail, and a failure keeps what was changed
before it. Loops are entered and left in one place, which both passes share.
-/

namespace DocRules

/-- A computation that changes a context, also when it fails. -/
abbrev Pass (α : Type) : Type :=
  EStateM EvalError Context α

namespace Pass

variable {α : Type}

/-- The result of something that does not look at the context. -/
def lift : Except EvalError α → Pass α
  | .ok a => pure a
  | .error error => throw error

/-- Run a pass inside a loop, which is left afterwards in any case. -/
def inLoop (frame : Frame) (pass : Pass α) : Pass α := fun context =>
  match pass (context.enter frame) with
  | .ok a after => .ok a after.leave
  | .error error after => .error error after.leave

/-- Take a step for each of `count` indices from `index` on. -/
def steps (step : Int → α → Pass α) : Nat → Int → α → Pass α
  | 0, _, state => pure state
  | count + 1, index, state => do
    modify fun context => context.setIndex index
    let state ← step index state
    steps step count (index + 1) state

/-- Take a step for every index of a loop, inside the loop. -/
def overLoop (frame : Frame) (step : Int → α → Pass α) (initial : α) : Pass α :=
  inLoop frame (steps step (frame.stop - frame.start).toNat frame.start initial)

end Pass

/-- The frame of a loop at its first index. -/
def LoopHeader.frame (header : LoopHeader) (start stop : Int) : Frame where
  index := header.index
  start := start
  stop := stop
  current := start

end DocRules

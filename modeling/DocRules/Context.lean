import DocRules.Rule
import DocRules.Text.Pattern
import Std.Data.ExtTreeMap

/-! # Contexts

A context holds what is known of a document while a rule is worked on: the active loops, the values
bound to paths, and the bounds of loops that have been entered. Loops are a stack. A path is
resolved against the stack from the innermost loop outwards: the first bracketed occurrence of each
loop variable becomes a segment with its current index.
-/

namespace DocRules

/-- An active loop: its variable, its bounds and the index it is at. -/
structure Frame where
  index : String
  start : Int
  stop : Int
  current : Int
deriving DecidableEq

namespace Frame

/-- What stands for the current index in a path. -/
def pattern (frame : Frame) : List Char :=
  '[' :: frame.index.toList ++ [']']

/-- The segment of a path that selects the current index. -/
def segment (frame : Frame) : List Char :=
  '.' :: (toString frame.current).toList

end Frame

/-- The active loops, the bound values and the bounds of loops. -/
structure Context where
  /-- The active loops, the innermost first. -/
  frames : List Frame := []
  fields : Std.ExtTreeMap String Value compare := ∅
  bounds : Std.ExtTreeMap String (Int × Int) compare := ∅

namespace Context

def empty : Context :=
  {}

def insert (context : Context) (key : String) (value : Value) : Context :=
  { context with fields := context.fields.insert key value }

def get? (context : Context) (key : String) : Option Value :=
  context.fields[key]?

def contains (context : Context) (key : String) : Bool :=
  context.fields.contains key

def size (context : Context) : Nat :=
  context.fields.size

def isEmpty (context : Context) : Bool :=
  context.fields.isEmpty

/-- The keys with their values, in the order of the keys. -/
def fieldList (context : Context) : List (String × Value) :=
  context.fields.toList

/-- The innermost loop. -/
def frame? (context : Context) : Option Frame :=
  context.frames.head?

/-- Make a loop the innermost one. -/
def enter (context : Context) (frame : Frame) : Context :=
  { context with frames := frame :: context.frames }

/-- Leave the innermost loop, if there is one. -/
def leave (context : Context) : Context :=
  { context with frames := context.frames.tail }

/-- Move the innermost loop, if there is one, to an index. -/
def setIndex (context : Context) (current : Int) : Context :=
  match context.frames with
  | [] => context
  | frame :: outer => { context with frames := { frame with current } :: outer }

def setBounds (context : Context) (key : String) (start stop : Int) : Context :=
  { context with bounds := context.bounds.insert key (start, stop) }

def bounds? (context : Context) (key : String) : Option (Int × Int) :=
  context.bounds[key]?

/-- The path with its loop variables replaced by their current indices. -/
def resolve (context : Context) (path : String) : String :=
  .ofList (context.frames.foldl
    (fun path frame => Text.replaceFirst frame.pattern frame.segment path) path.toList)

/-- The key of a string leaf in the current iteration. -/
def leafKey (context : Context) (path : String) (indexed : Bool) : String :=
  if indexed then context.resolve path else path

/-- The key of the bounds of a loop. Its path is resolved, so that an inner loop has bounds for
every index of an outer one. -/
def boundsKey (context : Context) (header : LoopHeader) : String :=
  header.index ++ "=" ++ header.start ++ ":" ++ context.resolve header.arrayPath

theorem get?_insert (context : Context) (key other : String) (value : Value) :
    (context.insert key value).get? other = if key = other then some value else context.get? other := by
  simp only [get?, insert, Std.ExtTreeMap.getElem?_insert, Std.compare_eq_iff_eq]

@[simp] theorem get?_setBounds (context : Context) (key other : String) (start stop : Int) :
    (context.setBounds key start stop).get? other = context.get? other := rfl

theorem bounds?_setBounds (context : Context) (key other : String) (start stop : Int) :
    (context.setBounds key start stop).bounds? other =
      if key = other then some (start, stop) else context.bounds? other := by
  simp only [bounds?, setBounds, Std.ExtTreeMap.getElem?_insert, Std.compare_eq_iff_eq]

@[simp] theorem bounds?_insert (context : Context) (key other : String) (value : Value) :
    (context.insert key value).bounds? other = context.bounds? other := rfl

@[simp] theorem leave_enter (context : Context) (frame : Frame) :
    (context.enter frame).leave = context := rfl

@[simp] theorem setIndex_enter (context : Context) (frame : Frame) (current : Int) :
    (context.enter frame).setIndex current = context.enter { frame with current } := rfl

end Context

end DocRules

import DocRules.Document
import DocRules.Evaluation.Pass

/-! # Binding what a rule mentions

The first pass visits the loops and leaves of a rule in order, every loop for every index. It records
the bounds of the loops and binds every string leaf to the value at its path, or to its own text if
the document has nothing there. The first error of the document ends it.
-/

namespace DocRules

/-- The first index of a loop, which has to be written as a number that is not negative. -/
def LoopHeader.first? (header : LoopHeader) : Option Int :=
  (Decimal.int64? header.start.toList).bind fun n =>
    if 0 ≤ n.toInt then some n.toInt else none

/-- Ask for the bounds of a loop and record them. -/
def LoopHeader.bind (document : Document) (header : LoopHeader) : Pass Frame := do
  let some start := header.first? | throw (.invalidIndex header.start)
  let context ← get
  let length ← Pass.lift (document.length (context.resolve header.arrayPath))
  if Decimal.fitsInt64 length then
    set (context.setBounds (context.boundsKey header) start length)
    return header.frame start length
  else throw (.invalidIndex (toString length))

/-- Bind the leaves of an expression from left to right. -/
def Expr.bind (document : Document) : Expr → Pass Unit
  | .leaf (.string path) indexed => do
    let context ← get
    let key := context.leafKey path indexed
    let found ← Pass.lift (document.lookup key)
    let own := Value.string (.ofList (Text.unquote key.toList))
    set (context.insert key (found.getD own))
  | .leaf _ _ => pure ()
  | .binary _ lhs rhs => do
    lhs.bind document
    rhs.bind document

/-- Bind a condition, a loop for every index. -/
def Condition.bind (document : Document) : Condition → Pass Unit
  | .scalar expr => expr.bind document
  | .loop header body => do
    let frame ← header.bind document
    Pass.overLoop frame (fun _ _ => body.bind document) ()

def Rule.bind (document : Document) : Rule → Pass Unit
  | .scalar condition => condition.bind document
  | .vector header condition => do
    let frame ← header.bind document
    Pass.overLoop frame (fun _ _ => condition.bind document) ()

end DocRules

import DocRules.Proofs.Evaluation.Indexed

/-! # Iterations

The loops of a condition stand around one expression. Each time that it is come to, the active loops have other
indices (`Condition.iterations`), and every leaf of it has been asked for by then, since binding goes through
the same iterations (`Condition.exists_field_of_leaf`). So in every iteration of a rule that is bound to a
document a leaf has what the document answers to its path with the indices put in (`Rule.evaluate_leaf`).
-/

namespace DocRules

open Outcome

variable {source other : Source}

/-- The active loops with their indices each time that the expression inside all loops is come to. -/
def Condition.iterations (source : Source) : Indices → Condition → List Indices
  | indices, .scalar _ => [indices]
  | indices, .loop header body =>
    match header.rangeFrom source indices with
    | .ok range => range.flatMap fun index => body.iterations source ((header.index, index) :: indices)
    | .error _ => []

/-- An expression whose leaves all have an answer has one for each leaf. -/
theorem Expr.exists_field_of_leaf {indices : Indices} {expr : Expr} {path : String} {indexed : Bool}
    (ended : (expr.trace source indices).outcome = .ok ())
    (among : .leaf (.string path) indexed ∈ expr.leaves) :
    ∃ value, .field (indices.leafPath path indexed) value ∈ (expr.trace source indices).visits := by
  induction expr with
  | leaf value indexed' =>
    obtain ⟨rfl, rfl⟩ := Expr.leaf.inj (List.mem_singleton.mp among)
    simp only [trace] at ended ⊢
    cases read : source.read (indices.leafPath path indexed) with
    | ok value => exact ⟨value, List.mem_singleton_self _⟩
    | error error => simp [read] at ended
  | binary operator lhs rhs ihl ihr =>
    obtain ⟨first, next, visits⟩ := Trace.andThen_ok ended
    simp only [trace, visits, List.mem_append]
    rcases List.mem_append.mp among with left | right
    · exact (ihl first left).imp fun _ => .inl
    · exact (ihr next right).imp fun _ => .inr

/-- A condition that has been asked to its end has an answer for each leaf in every iteration. -/
theorem Condition.exists_field_of_leaf {indices inner : Indices} {condition : Condition} {path : String}
    {indexed : Bool} (ended : (condition.trace source indices).outcome = .ok ())
    (among : .leaf (.string path) indexed ∈ condition.innermost.leaves)
    (iteration : inner ∈ condition.iterations source indices) :
    ∃ value, .field (inner.leafPath path indexed) value ∈ (condition.trace source indices).visits := by
  induction condition generalizing indices with
  | scalar expr =>
    obtain rfl := List.mem_singleton.mp iteration
    exact Expr.exists_field_of_leaf ended among
  | loop header body ih =>
    simp only [trace, iterations, LoopHeader.rangeFrom] at ended iteration ⊢
    cases asked : source.bounds header (indices.substitute header.arrayPath) with
    | error error => simp [asked] at ended
    | ok bounds =>
      simp only [asked, ok_bind, pure_eq_ok, List.mem_flatMap] at ended iteration ⊢
      obtain ⟨index, within, iteration⟩ := iteration
      obtain ⟨-, later, visits⟩ := Trace.andThen_ok ended
      obtain ⟨fine, subset⟩ := Trace.sequence_ok later (List.mem_map_of_mem within)
      obtain ⟨value, member⟩ := ih fine among iteration
      rw [visits]
      exact ⟨value, List.mem_append_right _ (subset member)⟩

/-- Sources that agree on the answers of a condition have the same iterations. -/
theorem Condition.iterations_congr {indices : Indices} {condition : Condition}
    (ended : (condition.trace source indices).outcome = .ok ())
    (agree : ∀ visit ∈ (condition.trace source indices).visits, other.Agrees visit) :
    condition.iterations other indices = condition.iterations source indices := by
  induction condition generalizing indices with
  | scalar expr => rfl
  | loop header body ih =>
    obtain ⟨range, asked, same, bodies⟩ := rangeFrom_congr ended agree
    simp only [iterations, asked, same]
    exact List.flatMap_congr fun index within => ih (bodies index within).1 (bodies index within).2

/-- A context that has what the rule was bound to, inside an iteration of all its loops. -/
structure Rule.Iterates (rule : Rule) (after inner : Context) : Prop where
  fields : inner.fields = after.fields
  indices : inner.indices ∈ rule.asLoops.iterations (.ofContext after) after.indices

/-- In every iteration of a rule that is bound to a document a string leaf has what the document answers to
the path that the leaf stands for there. -/
theorem Rule.evaluate_leaf {rule : Rule} {document : Document} {context after inner : Context}
    {path : String} {indexed : Bool} (plain : rule.Plain)
    (bound : rule.bind document context = .ok () after)
    (among : .leaf (.string path) indexed ∈ rule.innermost.leaves) (iterates : rule.Iterates after inner) :
    (Expr.leaf (.string path) indexed).evaluate inner =
      (Source.ofDocument document).read (inner.indices.leafPath path indexed) := by
  have apart := rule.not_clash_of_plain plain document context.indices
  have iteration := iterates.indices
  rw [bind_apply, Trace.run] at bound
  cases ended : (rule.asLoops.trace (.ofDocument document) context.indices).outcome with
  | error error => simp [ended] at bound
  | ok _ =>
    simp only [ended, EStateM.Result.ok.injEq, true_and] at bound
    have answers : ∀ visit ∈ (rule.asLoops.trace (.ofDocument document) context.indices).visits,
        (Source.ofDocument document).Agrees visit := fun _ member => Condition.agrees_trace member
    rw [← bound, Context.indices_record,
      Condition.iterations_congr ended (context.agrees_record answers apart)] at iteration
    have among' : .leaf (.string path) indexed ∈ rule.asLoops.innermost.leaves := by
      cases rule <;> exact among
    obtain ⟨value, member⟩ := Condition.exists_field_of_leaf ended among' iteration
    have read : (Source.ofDocument document).read (inner.indices.leafPath path indexed) = .ok value :=
      answers _ member
    have found : inner.get? (inner.indices.leafPath path indexed) = some value := by
      rw [Context.get?, iterates.fields, ← bound]
      exact context.get?_record_of_mem answers member
    rw [Expr.evaluate_eq, Expr.valueFrom, read]
    simp only [Source.ofContext, found]

/-- If the rule is read from text, this is the answer to the path of the leaf with the indices put in. -/
theorem Rule.evaluate_leaf_of_parse {text : String} {rule : Rule} {document : Document}
    {context after inner : Context} {path : String} {indexed : Bool} (parsed : Rule.parse text = .ok rule)
    (bound : rule.bind document context = .ok () after)
    (among : .leaf (.string path) indexed ∈ rule.innermost.leaves) (iterates : rule.Iterates after inner) :
    (Expr.leaf (.string path) indexed).evaluate inner =
      (Source.ofDocument document).read (inner.indices.substitute path) := by
  have marked : indexed = (Value.string path).mentionsIndex := (marked_of_parse parsed).of_mem_leaves among
  rw [evaluate_leaf (plain_of_parse parsed) bound among iterates, marked, Indices.leafPath_mentionsIndex,
    Indices.leafPath, if_pos rfl]

end DocRules

import DocRules.Proofs.Reduction

/-! # Bodies in which operands and operators take turns

Such a body always has a tree. Reading it from left to right, an operator with its two operands is
closed at once if a connective follows a comparison; otherwise everything that follows becomes its
right operand (`Expr.reading`). The reduction with its two stacks builds the same tree
(`Chain.reduced?_words`).
-/

namespace DocRules

/-- The tree of an operand and the operators after it, each with the operand on its right. -/
def Expr.reading : Expr → List (Operator × Expr) → Expr
  | first, [] => first
  | first, [(operator, second)] => .binary operator first second
  | first, (operator, second) :: (next, third) :: links =>
    if next.yieldsTo operator then
      .binary next (.binary operator first second) (third.reading links)
    else .binary operator first (second.reading ((next, third) :: links))

/-- An operand, and for every further operand the operator before it. -/
structure Chain where
  first : String
  links : List (Operator × String)
  first_leaf : Operator.ofWord? first = none
  links_leaf : ∀ link ∈ links, link.1 ≠ .nil ∧ Operator.ofWord? link.2 = none

namespace Chain

def linkWords (links : List (Operator × String)) : List String :=
  links.flatMap fun (operator, word) => [operator.word, word]

def words (chain : Chain) : List String :=
  chain.first :: linkWords chain.links

def operators (chain : Chain) : List Operator :=
  chain.links.map Prod.fst

def leaves (links : List (Operator × String)) : List (Operator × Expr) :=
  links.map fun (operator, word) => (operator, .ofWord word)

def read (chain : Chain) : Expr :=
  (Expr.ofWord chain.first).reading (leaves chain.links)

end Chain

namespace Reduction

/-- What yields is a connective after a comparison, to which nothing yields. -/
theorem stays_of_yields {operator next third : Operator} (yields : next.yieldsTo operator = true) :
    third.yieldsTo next = false := by
  cases operator <;> cases next <;> first | contradiction | cases third <;> rfl

/-- A link whose operator does not close the operator before it is put on the stacks. -/
theorem completed?_link {operator : Operator} {word : String} (links : List (Operator × String))
    (operands : List Expr) {operators : List Operator} (written : operator ≠ .nil)
    (leaf : Operator.ofWord? word = none)
    (stays : ∀ top ∈ operators.head?, operator.yieldsTo top = false) :
    completed? operands operators (Chain.linkWords ((operator, word) :: links)) =
      completed? (.ofWord word :: operands) (operator :: operators) (Chain.linkWords links) := by
  cases operators with
  | nil => simp [Chain.linkWords, completed?, Operator.ofWord?_word written, leaf]
  | cons top operators =>
    have kept : operator.yieldsTo top = false := stays top rfl
    simp [Chain.linkWords, completed?, Operator.ofWord?_word written, leaf, kept]

/-- A link whose operator closes the operator before it is put on the stacks after that. -/
theorem completed?_link_of_yields {operator top : Operator} {word : String}
    (links : List (Operator × String)) (lhs rhs : Expr) (operands : List Expr)
    (operators : List Operator) (written : operator ≠ .nil) (leaf : Operator.ofWord? word = none)
    (yields : operator.yieldsTo top = true) :
    completed? (rhs :: lhs :: operands) (top :: operators)
        (Chain.linkWords ((operator, word) :: links)) =
      completed? (.ofWord word :: .binary top lhs rhs :: operands) (operator :: operators)
        (Chain.linkWords links) := by
  simp [Chain.linkWords, completed?, Operator.ofWord?_word written, leaf, yields]

/-- Links after an operand put the tree of the operand and the links on the stack. -/
theorem completed?_links : ∀ (links : List (Operator × String)) (first : Expr)
    (operands : List Expr) (operators : List Operator),
    (∀ link ∈ links, link.1 ≠ .nil ∧ Operator.ofWord? link.2 = none) →
    (∀ link ∈ links.head?, ∀ top ∈ operators.head?, link.1.yieldsTo top = false) →
    completed? (first :: operands) operators (Chain.linkWords links) =
      closed? (first.reading (Chain.leaves links) :: operands) operators
  | [], first, operands, operators, _, _ => rfl
  | [(operator, word)], first, operands, operators, wellFormed, stays => by
    obtain ⟨written, leaf⟩ := wellFormed _ List.mem_cons_self
    rw [completed?_link [] _ written leaf (stays _ rfl)]
    rfl
  | (operator, word) :: (next, other) :: links, first, operands, operators, wellFormed, stays => by
    obtain ⟨⟨written, leaf⟩, tail⟩ := List.forall_mem_cons.mp wellFormed
    obtain ⟨⟨written', leaf'⟩, later⟩ := List.forall_mem_cons.mp tail
    rw [completed?_link _ _ written leaf (stays _ rfl)]
    by_cases yields : next.yieldsTo operator = true
    · rw [completed?_link_of_yields _ _ _ _ _ written' leaf' yields,
        completed?_links links _ _ _ later]
      · simp [closed?, Chain.leaves, Expr.reading, yields]
      · intro link _ top same
        obtain rfl := Option.some.inj same
        exact stays_of_yields yields
    · have kept : next.yieldsTo operator = false := by simpa using yields
      rw [completed?_links ((next, other) :: links) _ _ _ tail]
      · simp [closed?, Chain.leaves, Expr.reading, kept]
      · intro link first top same
        obtain rfl := Option.some.inj first
        obtain rfl := Option.some.inj same
        exact kept

end Reduction

namespace Chain

/-- The body of a chain always has a tree, which is its reading. -/
theorem reduced?_words (chain : Chain) : Reduction.reduced? chain.words = some chain.read := by
  rw [Reduction.reduced?, words, Reduction.completed?, chain.first_leaf]
  exact Reduction.completed?_links chain.links _ [] [] chain.links_leaf (by simp)

/-- The words of a chain are reduced to its reading, unless that is too deep. -/
theorem ofWords_words (chain : Chain) : Reduction.ofWords chain.words = Reduction.limited chain.read :=
  Reduction.complete_of_completed? chain.reduced?_words (by simp)

end Chain

end DocRules

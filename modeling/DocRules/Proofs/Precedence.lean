import DocRules.Proofs.Grammar.Reading
import DocRules.Proofs.Reduction.Chain

/-! # Precedence

Comparisons are to bind more tightly than connectives: a body is cut at its connectives into chains
of comparisons, and both the chains and the whole nest to the right (`Expr.byPrecedence`). The
reading of a body closes only one comparison when a connective comes, so it gives this tree if and
only if no connective follows two comparisons in a row (`Expr.reading_eq_byPrecedence_iff`).
Otherwise a connective stands below a comparison (`Expr.tight_reading_iff`). Both hold of the rules
that are read from text (`Rule.innermost_eq_byPrecedence_iff`).
-/

namespace DocRules

namespace Operator

/-- A connective joins truth values. -/
def isConnective : Operator → Bool
  | .and | .or => true
  | _ => false

/-- A comparison relates two values. -/
def isComparison : Operator → Bool
  | .eq | .ge | .gt | .le | .lt => true
  | _ => false

theorem yieldsTo_eq (next operator : Operator) :
    next.yieldsTo operator = (next.isConnective && operator.isComparison) := by
  cases next <;> cases operator <;> rfl

private theorem isComparison_eq_not {operator : Operator} (written : operator ≠ .nil) :
    operator.isComparison = !operator.isConnective := by
  cases operator with
  | nil => exact absurd rfl written
  | _ => rfl

/-- No connective follows two comparisons in a row. -/
def Sparse (operators : List Operator) : Prop :=
  ∀ first second third, [first, second, third] <:+: operators →
    first.isComparison → second.isComparison → third.isConnective = false

theorem Sparse.tail {operator : Operator} {operators : List Operator}
    (sparse : Sparse (operator :: operators)) : Sparse operators :=
  fun first second third part => sparse first second third (List.infix_cons part)

/-- Only the first three operators are new. -/
theorem sparse_cons_iff {operator : Operator} {operators : List Operator} :
    Sparse (operator :: operators) ↔
      (∀ second third, [second, third] <+: operators → operator.isComparison →
        second.isComparison → third.isConnective = false) ∧ Sparse operators := by
  constructor
  · intro sparse
    refine ⟨?_, sparse.tail⟩
    intro second third start
    apply sparse operator second third
    exact ((List.prefix_cons_inj operator).mpr start).isInfix
  · rintro ⟨leading, sparse⟩ first second third part
    rcases List.infix_cons_iff.mp part with start | part
    · obtain ⟨rfl, after⟩ := List.cons_prefix_cons.mp start
      exact leading second third after
    · exact sparse first second third part

end Operator

namespace Expr

/-- Cut at the connectives. The comparisons before the first connective make one tree; the others
come with the connective before them. -/
def cut : Expr → List (Operator × Expr) → Expr × List (Operator × Expr)
  | first, [] => (first, [])
  | first, (operator, second) :: links =>
    let (comparisons, joined) := cut second links
    if operator.isConnective then (first, (operator, comparisons) :: joined)
    else (.binary operator first comparisons, joined)

/-- An operand and the links after it, nested to the right. -/
def nested : Expr → List (Operator × Expr) → Expr
  | first, [] => first
  | first, (operator, second) :: links => .binary operator first (nested second links)

def byPrecedence (first : Expr) (links : List (Operator × Expr)) : Expr :=
  nested (first.cut links).1 (first.cut links).2

/-- No connective occurs. -/
def Comparing : Expr → Prop
  | .leaf .. => True
  | .binary operator lhs rhs => operator.isConnective = false ∧ lhs.Comparing ∧ rhs.Comparing

/-- No connective occurs below a comparison. -/
def Tight : Expr → Prop
  | .leaf .. => True
  | .binary operator lhs rhs =>
    lhs.Tight ∧ rhs.Tight ∧ (operator.isComparison → lhs.Comparing ∧ rhs.Comparing)

variable {first second third : Expr} {operator next : Operator} {links : List (Operator × Expr)}

private theorem Comparing.tight {expr : Expr} (comparing : expr.Comparing) : expr.Tight := by
  induction expr with
  | leaf => trivial
  | binary operator lhs rhs ihl ihr =>
    obtain ⟨-, left, right⟩ := comparing
    exact ⟨ihl left, ihr right, fun _ => ⟨left, right⟩⟩

private theorem byPrecedence_of_connective (connective : operator.isConnective = true) :
    byPrecedence first ((operator, second) :: links) =
      .binary operator first (byPrecedence second links) := by
  simp [byPrecedence, cut, connective, nested]

private theorem byPrecedence_of_yields (connective : next.isConnective = true)
    (comparison : operator.isConnective = false) :
    byPrecedence first ((operator, second) :: (next, third) :: links) =
      .binary next (.binary operator first second) (byPrecedence third links) := by
  simp [byPrecedence, cut, connective, comparison, nested]

private theorem byPrecedence_of_uncut (comparison : operator.isConnective = false)
    (uncut : (second.cut links).2 = []) :
    byPrecedence first ((operator, second) :: links) =
      .binary operator first (byPrecedence second links) := by
  simp [byPrecedence, cut, comparison, uncut, nested]

/-- Two comparisons in a row are followed by comparisons only. -/
theorem cut_snd_of_sparse (written : ∀ link ∈ links, link.1 ≠ .nil)
    (before : operator.isComparison = true) (comparison : next.isComparison = true)
    (sparse : Operator.Sparse (operator :: next :: links.map Prod.fst)) :
    (second.cut ((next, third) :: links)).2 = [] := by
  have joins : next.isConnective = false := by
    cases next <;> first | contradiction | rfl
  induction links generalizing operator next second third with
  | nil => simp [cut, joins]
  | cons link links ih =>
    obtain ⟨after, fourth⟩ := link
    obtain ⟨here, later⟩ := List.forall_mem_cons.mp written
    have stays : after.isConnective = false :=
      sparse operator next after ⟨[], links.map Prod.fst, rfl⟩ before comparison
    have compares : after.isComparison = true := by
      rw [Operator.isComparison_eq_not here, stays]
      rfl
    have rest : (third.cut ((after, fourth) :: links)).2 = [] :=
      ih later comparison compares sparse.tail stays
    rw [cut]
    simpa [joins] using rest

/-- Where no connective follows two comparisons, the reading follows the precedence. -/
theorem reading_of_sparse : ∀ (links : List (Operator × Expr)) (first : Expr),
    (∀ link ∈ links, link.1 ≠ .nil) → Operator.Sparse (links.map Prod.fst) →
    first.reading links = first.byPrecedence links
  | [], _, _, _ => rfl
  | [(operator, second)], first, _, _ => by
    cases joins : operator.isConnective with
    | false => rw [byPrecedence_of_uncut joins rfl]; rfl
    | true => rw [byPrecedence_of_connective joins]; rfl
  | (operator, second) :: (next, third) :: links, first, written, sparse => by
    obtain ⟨here, tail⟩ := List.forall_mem_cons.mp written
    obtain ⟨here', later⟩ := List.forall_mem_cons.mp tail
    have compares := Operator.isComparison_eq_not here
    rw [reading, Operator.yieldsTo_eq, compares]
    cases joins : operator.isConnective with
    | true =>
      rw [byPrecedence_of_connective joins, ← reading_of_sparse _ second tail sparse.tail]
      simp
    | false =>
      cases joins' : next.isConnective with
      | true =>
        rw [byPrecedence_of_yields joins' joins,
          ← reading_of_sparse links third later sparse.tail.tail]
        simp
      | false =>
        have compares' := Operator.isComparison_eq_not here'
        have uncut : (second.cut ((next, third) :: links)).2 = [] := by
          apply cut_snd_of_sparse later
          · rw [compares, joins]
            rfl
          · rw [compares', joins']
            rfl
          · exact sparse
        rw [byPrecedence_of_uncut joins uncut, ← reading_of_sparse _ second tail sparse.tail]
        simp

/-- A cut leaves comparisons between the connectives. -/
theorem comparing_cut (start : first.Comparing) (operands : ∀ link ∈ links, link.2.Comparing) :
    (first.cut links).1.Comparing ∧
      ∀ link ∈ (first.cut links).2, link.1.isConnective = true ∧ link.2.Comparing := by
  induction links generalizing first with
  | nil => exact ⟨start, by simp [cut]⟩
  | cons link links ih =>
    obtain ⟨operator, second⟩ := link
    obtain ⟨here, later⟩ := List.forall_mem_cons.mp operands
    obtain ⟨comparing, joined⟩ := ih here later
    rw [cut]
    cases joins : operator.isConnective with
    | true => exact ⟨start, List.forall_mem_cons.mpr ⟨⟨joins, comparing⟩, joined⟩⟩
    | false => exact ⟨⟨joins, start, comparing⟩, joined⟩

theorem tight_nested (start : first.Tight)
    (joined : ∀ link ∈ links, link.1.isConnective = true ∧ link.2.Tight) :
    (first.nested links).Tight := by
  induction links generalizing first with
  | nil => exact start
  | cons link links ih =>
    obtain ⟨operator, second⟩ := link
    obtain ⟨⟨joins, tight⟩, later⟩ := List.forall_mem_cons.mp joined
    refine ⟨start, ih tight later, ?_⟩
    intro comparison
    cases operator <;> contradiction

/-- In the tree that follows the precedence no connective is below a comparison. -/
theorem tight_byPrecedence (start : first.Comparing)
    (operands : ∀ link ∈ links, link.2.Comparing) : (first.byPrecedence links).Tight := by
  obtain ⟨comparing, joined⟩ := comparing_cut start operands
  apply tight_nested comparing.tight
  intro link member
  obtain ⟨joins, comparing⟩ := joined link member
  exact ⟨joins, comparing.tight⟩

/-- If a connective follows two comparisons, the reading puts it below the first of them. -/
theorem sparse_of_tight_reading : ∀ (links : List (Operator × Expr)) (first : Expr),
    (first.reading links).Tight → Operator.Sparse (links.map Prod.fst)
  | [], _, _ => by
    intro _ _ _ part
    have := part.length_le
    simp at this
  | [_], _, _ => by
    intro _ _ _ part
    have := part.length_le
    simp at this
  | (operator, second) :: (next, third) :: links, first, tight => by
    rw [reading, Operator.yieldsTo_eq] at tight
    simp only [List.map_cons, Operator.sparse_cons_iff]
    cases yields : next.isConnective && operator.isComparison with
    | true =>
      rw [yields, if_pos rfl] at tight
      have joins : next.isComparison = false := by
        cases next <;> first | rfl | simp [Operator.isConnective] at yields
      refine ⟨?_, ?_, sparse_of_tight_reading links third tight.2.1⟩
      · intro o₂ o₃ start _ comparison
        obtain ⟨rfl, -⟩ := List.cons_prefix_cons.mp start
        simp [joins] at comparison
      · intro o₂ o₃ _ comparison
        simp [joins] at comparison
    | false =>
      rw [yields, if_neg Bool.false_ne_true] at tight
      have sparse := sparse_of_tight_reading ((next, third) :: links) second tight.2.1
      refine ⟨?_, Operator.sparse_cons_iff.mp sparse⟩
      intro o₂ o₃ start before comparison
      cases links with
      | nil => simp at start
      | cons link links =>
        obtain ⟨after, fourth⟩ := link
        simp only [List.map_cons, List.cons_prefix_cons] at start
        obtain ⟨rfl, rfl, -⟩ := start
        cases joins : o₃.isConnective with
        | false => rfl
        | true =>
          -- the connective is the root of what the first comparison has on its right
          obtain ⟨-, comparing⟩ := tight.2.2 before
          rw [reading, Operator.yieldsTo_eq, joins, comparison, Bool.and_self, if_pos rfl] at comparing
          exact absurd joins (by simp [comparing.1])

/-- The operands of a body are leaves and its operators are written by words. -/
def Written (links : List (Operator × Expr)) : Prop :=
  ∀ link ∈ links, link.1 ≠ .nil ∧ link.2.Comparing

private theorem Written.operators (written : Written links) : ∀ link ∈ links, link.1 ≠ .nil := by
  intro link member
  exact (written link member).1

private theorem Written.operands (written : Written links) : ∀ link ∈ links, link.2.Comparing := by
  intro link member
  exact (written link member).2

theorem tight_reading_iff (start : first.Comparing) (written : Written links) :
    (first.reading links).Tight ↔ Operator.Sparse (links.map Prod.fst) := by
  constructor
  · exact sparse_of_tight_reading links first
  · intro sparse
    rw [reading_of_sparse links first written.operators sparse]
    exact tight_byPrecedence start written.operands

theorem reading_eq_byPrecedence_iff (start : first.Comparing) (written : Written links) :
    first.reading links = first.byPrecedence links ↔ Operator.Sparse (links.map Prod.fst) := by
  constructor
  · intro same
    apply (tight_reading_iff start written).mp
    rw [same]
    exact tight_byPrecedence start written.operands
  · exact reading_of_sparse links first written.operators

end Expr

namespace Chain

def byPrecedence (chain : Chain) : Expr :=
  (Expr.ofWord chain.first).byPrecedence (leaves chain.links)

private theorem written_leaves (chain : Chain) : Expr.Written (leaves chain.links) := by
  intro link member
  obtain ⟨⟨operator, word⟩, linked, rfl⟩ := List.mem_map.mp member
  have plain := chain.links_leaf (operator, word) linked
  exact ⟨plain.1, trivial⟩

theorem operators_eq (chain : Chain) : (leaves chain.links).map Prod.fst = chain.operators := by
  simp [leaves, operators, Function.comp_def]

end Chain

/-- A rule whose body is a chain has the tree of the chain. -/
theorem Rule.innermost_eq_read {text : String} {rule : Rule} {chain : Chain}
    (parsed : Rule.parse text = .ok rule)
    (body : Rule.Spelling (fun words _ => words = chain.words) (Token.ofRuleText text) rule) :
    rule.innermost = chain.read := by
  obtain ⟨words, reduced, rfl⟩ := (Rule.parse_eq_ok_iff.mp parsed).words_eq body
  have tree := (Reduction.ofWords_eq_ok_iff.mp reduced).1
  rw [chain.reduced?_words] at tree
  exact (Option.some.inj tree).symm

/-- A rule whose body is a chain has the tree of the precedence if and only if no connective of the
body follows two comparisons in a row, and this is also when no connective is below a comparison. -/
theorem Rule.innermost_eq_byPrecedence_iff {text : String} {rule : Rule} {chain : Chain}
    (parsed : Rule.parse text = .ok rule)
    (body : Rule.Spelling (fun words _ => words = chain.words) (Token.ofRuleText text) rule) :
    (rule.innermost = chain.byPrecedence ↔ Operator.Sparse chain.operators) ∧
      (rule.innermost.Tight ↔ Operator.Sparse chain.operators) := by
  rw [Rule.innermost_eq_read parsed body, ← chain.operators_eq]
  exact ⟨Expr.reading_eq_byPrecedence_iff trivial chain.written_leaves,
    Expr.tight_reading_iff trivial chain.written_leaves⟩

/-- The theorem at a rule in which every connective follows one comparison at most. -/
theorem Rule.innermost_eq_byPrecedence_of_single :
    let chain : Chain := ⟨"a", [(.eq, "b"), (.and, "c"), (.lt, "d"), (.or, "e")], by decide, by decide⟩
    let rule : Rule := .scalar (.scalar chain.read)
    Rule.parse "IF: \x7b a == b && c < d || e \x7d" = .ok rule ∧
      Rule.Spelling (fun words _ => words = chain.words)
        (Token.ofRuleText "IF: \x7b a == b && c < d || e \x7d") rule ∧
      rule.innermost = chain.byPrecedence ∧ Operator.Sparse chain.operators := by
  intro chain rule
  have parsed : Rule.parse "IF: \x7b a == b && c < d || e \x7d" = .ok rule := by
    rw [← Outcome.toOption_eq_some_iff]
    decide +kernel
  have tokens : Token.ofRuleText "IF: \x7b a == b && c < d || e \x7d" =
      [.ifMark, .openBrace, .word "a", .word "==", .word "b", .word "&&", .word "c", .word "<",
        .word "d", .word "||", .word "e", .closeBrace] := by decide +kernel
  have body : Rule.Spelling (fun words _ => words = chain.words)
      (Token.ofRuleText "IF: \x7b a == b && c < d || e \x7d") rule := by
    rw [tokens]
    exact Rule.Spelling.ofWords chain.words _
  have tree : rule.innermost = chain.byPrecedence := rfl
  exact ⟨parsed, body, tree,
    (Rule.innermost_eq_byPrecedence_iff parsed body).1.mp tree⟩

/-- A connective after two comparisons is put below the first of them. -/
theorem Rule.connective_below_comparison :
    let chain : Chain := ⟨"a", [(.eq, "b"), (.eq, "c"), (.and, "d")], by decide, by decide⟩
    let rule : Rule := .scalar (.scalar chain.read)
    Rule.parse "IF: \x7b a == b == c && d \x7d" = .ok rule ∧
      Rule.Spelling (fun words _ => words = chain.words)
        (Token.ofRuleText "IF: \x7b a == b == c && d \x7d") rule ∧
      rule.innermost ≠ chain.byPrecedence ∧ ¬ rule.innermost.Tight := by
  intro chain rule
  have parsed : Rule.parse "IF: \x7b a == b == c && d \x7d" = .ok rule := by
    rw [← Outcome.toOption_eq_some_iff]
    decide +kernel
  have tokens : Token.ofRuleText "IF: \x7b a == b == c && d \x7d" =
      [.ifMark, .openBrace, .word "a", .word "==", .word "b", .word "==", .word "c", .word "&&",
        .word "d", .closeBrace] := by decide +kernel
  refine ⟨parsed, ?_, ?_, ?_⟩
  · rw [tokens]
    exact Rule.Spelling.ofWords chain.words _
  · show chain.read ≠ chain.byPrecedence
    decide
  · rintro ⟨-, -, comparing⟩
    obtain ⟨-, joins, -⟩ := comparing rfl
    exact absurd joins (by decide)

end DocRules

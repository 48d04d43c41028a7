import DocRules.Proofs.Precedence
import DocRules.Proofs.Rule.Text

/-! # Rules that their text gives back

The text of a rule has no parentheses. It shows the leaves and the operators of a tree from left to
right, and reading it gives the tree that these words have as a chain. A tree is canonical if that
is the tree itself (`Expr.reading_links`). Every chain has a canonical tree, but a body that is out of turn
can have another one, and then its text is a text of a different rule (`Rule.reparses_iff_canonical`).
-/

namespace DocRules

namespace Expr

def first : Expr → Expr
  | .leaf value indexed => .leaf value indexed
  | .binary _ lhs _ => lhs.first

/-- The leaves from the second one on, each with the operator before it. -/
def links : Expr → List (Operator × Expr)
  | .leaf .. => []
  | .binary operator lhs rhs => lhs.links ++ (operator, rhs.first) :: rhs.links

def leftmost? : Expr → Option Operator
  | .leaf .. => none
  | .binary operator lhs _ => some (lhs.leftmost?.getD operator)

/-- Every left operand is a leaf, or two leaves compared if the operator is a connective. After a leaf
and a comparison no connective comes next, as it would close the comparison first. -/
def Canonical : Expr → Prop
  | .leaf .. => True
  | .binary operator (.leaf ..) rhs =>
    rhs.Canonical ∧ ∀ next ∈ rhs.leftmost?, next.yieldsTo operator = false
  | .binary operator (.binary inner (.leaf ..) (.leaf ..)) rhs =>
    operator.yieldsTo inner = true ∧ rhs.Canonical
  | .binary .. => False

private theorem head?_links (expr : Expr) : expr.links.head?.map Prod.fst = expr.leftmost? := by
  induction expr with
  | leaf => rfl
  | binary operator lhs rhs ihl _ =>
    rw [leftmost?, ← ihl, links]
    cases lhs.links with
    | nil => rfl
    | cons link links => rfl

/-- A canonical tree is read from its leaves and operators. -/
theorem reading_links {expr : Expr} (canonical : expr.Canonical) :
    expr.first.reading expr.links = expr := by
  fun_induction Canonical expr with
  | case1 => rfl
  | case2 operator value indexed rhs ih =>
    obtain ⟨canonical, stays⟩ := canonical
    have tail := ih canonical
    have next := head?_links rhs
    simp only [first, links, List.nil_append]
    generalize rhs.links = linked at tail next
    cases linked with
    | nil => simpa [reading] using tail
    | cons link linked =>
      obtain ⟨after, third⟩ := link
      have kept : after.yieldsTo operator = false := stays after (by simp [← next])
      rw [reading, kept, if_neg Bool.false_ne_true, tail]
  | case3 operator inner value indexed value' indexed' rhs ih =>
    obtain ⟨yields, canonical⟩ := canonical
    simp only [first, links, List.nil_append, List.cons_append]
    rw [reading, yields, if_pos rfl, ih canonical]
  | case4 => contradiction

private theorem leftmost?_reading (first : String) (links : List (Operator × String)) :
    ((Expr.ofWord first).reading (Chain.leaves links)).leftmost? = links.head?.map Prod.fst := by
  match links with
  | [] => rfl
  | [(operator, second)] => rfl
  | (operator, second) :: (next, third) :: links =>
    simp only [Chain.leaves, List.map_cons, reading]
    split <;> rfl

/-- A chain has a canonical tree. -/
theorem canonical_reading : ∀ (links : List (Operator × String)) (first : String),
    ((Expr.ofWord first).reading (Chain.leaves links)).Canonical
  | [], _ => trivial
  | [(operator, second)], _ => by
    refine ⟨trivial, ?_⟩
    intro next absent
    cases absent
  | (operator, second) :: (next, third) :: links, first => by
    have step : (Expr.ofWord first).reading (Chain.leaves ((operator, second) :: (next, third) :: links)) =
        if next.yieldsTo operator then
          .binary next (.binary operator (.ofWord first) (.ofWord second))
            ((Expr.ofWord third).reading (Chain.leaves links))
        else .binary operator (.ofWord first)
          ((Expr.ofWord second).reading (Chain.leaves ((next, third) :: links))) := rfl
    rw [step]
    split
    · rename_i yields
      exact ⟨yields, canonical_reading links third⟩
    · rename_i stays
      refine ⟨canonical_reading ((next, third) :: links) second, ?_⟩
      rw [leftmost?_reading]
      intro after same
      obtain rfl := Option.some.inj same
      simpa using stays

private theorem leftmost?_of_equal {expr expr' : Expr} (same : expr.equal expr' = true) :
    expr.leftmost? = expr'.leftmost? := by
  induction expr generalizing expr' with
  | leaf =>
    cases expr' with
    | leaf => rfl
    | binary => contradiction
  | binary operator lhs rhs ihl _ =>
    cases expr' with
    | leaf => contradiction
    | binary operator' lhs' rhs' =>
      simp only [equal, Bool.and_eq_true, beq_iff_eq] at same
      obtain ⟨⟨rfl, left⟩, -⟩ := same
      rw [leftmost?, leftmost?, ihl left]

theorem canonical_of_equal {expr expr' : Expr} (same : expr.equal expr' = true)
    (canonical : expr'.Canonical) : expr.Canonical := by
  fun_induction Canonical expr' generalizing expr with
  | case1 =>
    cases expr with
    | leaf => trivial
    | binary => contradiction
  | case2 operator value indexed rhs ih =>
    match expr, same with
    | .binary operator' (.leaf _ _) rhs', same =>
      simp only [equal, Bool.and_eq_true, beq_iff_eq] at same
      obtain ⟨⟨rfl, -⟩, right⟩ := same
      refine ⟨ih right canonical.1, ?_⟩
      rw [leftmost?_of_equal right]
      exact canonical.2
    | .binary _ (.binary _ _ _) _, same => simp [equal] at same
  | case3 operator inner value indexed value' indexed' rhs ih =>
    match expr, same with
    | .binary operator' (.binary inner' (.leaf _ _) (.leaf _ _)) rhs', same =>
      simp only [equal, Bool.and_eq_true, beq_iff_eq] at same
      obtain ⟨⟨rfl, ⟨rfl, -⟩, -⟩, right⟩ := same
      exact ⟨canonical.1, ih right canonical.2⟩
    | .binary _ (.leaf _ _) _, same => simp [equal] at same
    | .binary _ (.binary _ (.binary _ _ _) _) _, same => simp [equal] at same
    | .binary _ (.binary _ (.leaf _ _) (.binary _ _ _)) _, same => simp [equal] at same
  | case4 => contradiction

/-- A tree equals itself, as its leaves are written by words. -/
theorem WrittenBy.equal_self {words : List String} {expr : Expr} (written : expr.WrittenBy words) :
    expr.equal expr = true := by
  induction expr with
  | leaf value indexed =>
    obtain ⟨word, -, -, same⟩ := written
    obtain ⟨rfl, -⟩ := Expr.leaf.inj same
    simp [equal, Value.equal_ofLiteral]
  | binary operator lhs rhs ihl ihr => simp [equal, ihl written.2.1, ihr written.2.2]

/-- The text of a leaf that is written by a word writes the leaf. -/
theorem ofWord_text (word : String) : ofWord (ofWord word).text = ofWord word := by
  have same := Value.ofLiteral_text word
  exact congrArg ofValue same

private theorem WrittenBy.first {words : List String} {expr : Expr} (written : expr.WrittenBy words) :
    ∃ word ∈ words, Operator.ofWord? word = none ∧ expr.first = .ofWord word := by
  induction expr with
  | leaf => exact written
  | binary operator lhs rhs ihl _ => exact ihl written.2.1

private theorem WrittenBy.links {words : List String} {expr : Expr} (written : expr.WrittenBy words) :
    ∀ link ∈ expr.links,
      link.1 ≠ .nil ∧ ∃ word ∈ words, Operator.ofWord? word = none ∧ link.2 = .ofWord word := by
  induction expr with
  | leaf => simp [Expr.links]
  | binary operator lhs rhs ihl ihr =>
    obtain ⟨joined, left, right⟩ := written
    simp only [Expr.links, List.forall_mem_append, List.forall_mem_cons]
    exact ⟨ihl left, ⟨joined, right.first⟩, ihr right⟩

/-- The operators of a tree, each with the text of the leaf after it. -/
def linkTexts (expr : Expr) : List (Operator × String) :=
  expr.links.map fun (operator, operand) => (operator, operand.text)

/-- The words of a tree are those of its first leaf and its links. -/
theorem words_eq (expr : Expr) :
    expr.words = expr.first.text :: Chain.linkWords expr.linkTexts := by
  induction expr with
  | leaf value indexed => rfl
  | binary operator lhs rhs ihl ihr =>
    rw [Expr.words, ihl, ihr]
    simp [linkTexts, Expr.links, Expr.first, Chain.linkWords]

/-- The words of a tree are a chain, and the chain has the reading of the tree. -/
theorem WrittenBy.exists_chain {words : List String} {expr : Expr} (written : expr.WrittenBy words)
    (all : ∀ word ∈ words, Token.IsWord word) :
    ∃ chain : Chain, chain.words = expr.words ∧ chain.read = expr.first.reading expr.links := by
  have operand {word : String} (member : word ∈ words) (leaf : Operator.ofWord? word = none) :
      Operator.ofWord? (ofWord word).text = none := (Value.isWord_text (all word member) leaf).2
  obtain ⟨word, member, leaf, start⟩ := written.first
  have first_leaf : Operator.ofWord? expr.first.text = none := by
    rw [start]
    exact operand member leaf
  have links_leaf : ∀ link ∈ expr.linkTexts, link.1 ≠ .nil ∧ Operator.ofWord? link.2 = none := by
    intro link member
    obtain ⟨⟨operator, last⟩, linked, rfl⟩ := List.mem_map.mp member
    obtain ⟨joined, word, listed, leaf, rfl⟩ := written.links _ linked
    exact ⟨joined, operand listed leaf⟩
  have same : Chain.leaves expr.linkTexts = expr.links := by
    rw [Chain.leaves, linkTexts, List.map_map]
    conv_rhs => rw [← List.map_id expr.links]
    apply List.map_congr_left
    rintro ⟨operator, last⟩ linked
    obtain ⟨-, word, -, -, rfl⟩ := written.links _ linked
    simp [ofWord_text]
  refine ⟨⟨expr.first.text, expr.linkTexts, first_leaf, links_leaf⟩, (words_eq expr).symm, ?_⟩
  have back : ofWord expr.first.text = expr.first := by rw [start, ofWord_text]
  show (ofWord expr.first.text).reading (Chain.leaves expr.linkTexts) = _
  rw [same, back]

end Expr

private theorem Condition.equal_innermost {condition condition' : Condition}
    (same : condition.equal condition' = true) :
    condition.innermost.equal condition'.innermost = true := by
  fun_induction Condition.equal condition condition' with
  | case1 => exact same
  | case2 header body header' body' ih =>
    rw [Bool.and_eq_true] at same
    exact ih same.2
  | case3 => contradiction

theorem Condition.equal_self {condition : Condition}
    (same : condition.innermost.equal condition.innermost = true) :
    condition.equal condition = true := by
  induction condition with
  | scalar expr => exact same
  | loop header body ih => simp [equal, ih same]

theorem Rule.equal_innermost {rule rule' : Rule} (same : rule.equal rule' = true) :
    rule.innermost.equal rule'.innermost = true := by
  unfold Rule.equal at same
  split at same
  · exact Condition.equal_innermost same
  · rw [Bool.and_eq_true] at same
    exact Condition.equal_innermost same.2
  · contradiction

theorem Rule.equal_self {rule : Rule} (same : rule.innermost.equal rule.innermost = true) :
    rule.equal rule = true := by
  cases rule with
  | scalar condition => exact Condition.equal_self same
  | vector header condition =>
    have inner : condition.equal condition = true := Condition.equal_self same
    simp [equal, inner]

/-- A rule that is read from text has a canonical tree if and only if a chain has this tree. -/
theorem Rule.canonical_iff_exists_chain {text : String} {rule : Rule}
    (parsed : Rule.parse text = .ok rule) :
    rule.innermost.Canonical ↔ ∃ chain : Chain, rule.innermost = chain.read := by
  constructor
  · intro canonical
    obtain ⟨words, written, -, all⟩ := Rule.writtenBy_of_parse parsed
    obtain ⟨chain, -, read⟩ := written.exists_chain all
    rw [Expr.reading_links canonical] at read
    exact ⟨chain, read.symm⟩
  · rintro ⟨chain, same⟩
    rw [same]
    exact Expr.canonical_reading chain.links chain.first

/-- What the text of a rule is read as has the reading of the expression of the rule. -/
theorem Rule.innermost_of_parse_text {text : String} {rule rule' : Rule}
    (parsed : Rule.parse text = .ok rule) (again : Rule.parse rule.text = .ok rule') :
    rule'.innermost = rule.innermost.first.reading rule.innermost.links := by
  obtain ⟨words, written, -, all⟩ := Rule.writtenBy_of_parse parsed
  obtain ⟨chain, same, read⟩ := written.exists_chain all
  have body : Rule.Spelling (fun words _ => words = chain.words) rule.tokens rule :=
    (Rule.parse_eq_ok_iff.mp parsed).spelling_tokens same.symm
  have spelling := Rule.parse_eq_ok_iff.mp again
  rw [Rule.ofRuleText_text parsed] at spelling
  obtain ⟨words', reduced, rfl⟩ := spelling.words_eq body
  have tree := (Reduction.ofWords_eq_ok_iff.mp reduced).1
  rw [chain.reduced?_words, read] at tree
  exact (Option.some.inj tree).symm

/-- The text of a rule with a canonical tree is read as the rule. -/
theorem Rule.parse_text_of_canonical {text : String} {rule : Rule}
    (parsed : Rule.parse text = .ok rule) (canonical : rule.innermost.Canonical) :
    Rule.parse rule.text = .ok rule := by
  obtain ⟨words, written, within, all⟩ := Rule.writtenBy_of_parse parsed
  obtain ⟨chain, same, read⟩ := written.exists_chain all
  rw [Rule.parse_eq_ok_iff, Rule.ofRuleText_text parsed]
  apply (Rule.parse_eq_ok_iff.mp parsed).spelling_tokens
  have tree := chain.reduced?_words
  rw [same, read, Expr.reading_links canonical] at tree
  exact Reduction.ofWords_eq_ok_iff.mpr ⟨tree, within⟩

/-- The text of a rule is read as an equal rule if and only if the tree is canonical, and then it is read
as the rule itself. A body in which operands and operators take turns has a canonical tree. -/
theorem Rule.reparses_iff_canonical {text : String} {rule : Rule}
    (parsed : Rule.parse text = .ok rule) :
    ((∃ rule', Rule.parse rule.text = .ok rule' ∧ rule.equal rule' = true) ↔
      rule.innermost.Canonical) ∧
    (rule.innermost.Canonical → Rule.parse rule.text = .ok rule) ∧
    ∀ chain : Chain, Rule.Spelling (fun words _ => words = chain.words) (Token.ofRuleText text) rule →
      rule.innermost.Canonical := by
  refine ⟨⟨?_, ?_⟩, Rule.parse_text_of_canonical parsed, ?_⟩
  · rintro ⟨rule', again, same⟩
    obtain ⟨words, written, -, all⟩ := Rule.writtenBy_of_parse parsed
    obtain ⟨chain, -, read⟩ := written.exists_chain all
    apply Expr.canonical_of_equal (Rule.equal_innermost same)
    rw [Rule.innermost_of_parse_text parsed again, ← read]
    exact Expr.canonical_reading chain.links chain.first
  · intro canonical
    obtain ⟨words, written, -⟩ := Rule.writtenBy_of_parse parsed
    exact ⟨rule, Rule.parse_text_of_canonical parsed canonical, Rule.equal_self written.equal_self⟩
  · intro chain body
    exact (Rule.canonical_iff_exists_chain parsed).mpr ⟨chain, Rule.innermost_eq_read parsed body⟩

/-- The theorem at a rule whose operator follows both operands and whose number has zeros in front. -/
theorem Rule.reparses_of_operator_last :
    let rule : Rule := .scalar (.scalar (.binary .eq (.leaf (.int 7) false) (.leaf (.string "a") false)))
    Rule.parse "IF: \x7b 007 a == \x7d" = .ok rule ∧ rule.innermost.Canonical ∧
      rule.text = "IF: \x7b 7 == a \x7d THEN: \x7b \x7d" ∧ Rule.parse rule.text = .ok rule := by
  intro rule
  have parsed : Rule.parse "IF: \x7b 007 a == \x7d" = .ok rule := by
    rw [← Outcome.toOption_eq_some_iff]
    decide +kernel
  have canonical : rule.innermost.Canonical := by
    refine ⟨trivial, ?_⟩
    intro next absent
    cases absent
  exact ⟨parsed, canonical, rfl, (Rule.reparses_iff_canonical parsed).2.1 canonical⟩

/-- A rule whose two comparisons are closed before the connective that follows them; its text is read with
the connective below the first comparison. -/
theorem Rule.not_reparses_of_operators_together :
    let leaf (word : String) : Expr := .leaf (.string word) false
    let compared : Expr := .binary .eq (leaf "q") (leaf "r")
    let joined : Expr := .binary .and (leaf "x") (leaf "y")
    let rule : Rule := .scalar (.scalar (.binary .and (.binary .eq (leaf "p") compared) joined))
    Rule.parse "IF: \x7b p q r == && == && x y \x7d" = .ok rule ∧
      ¬ ∃ rule', Rule.parse rule.text = .ok rule' ∧ rule.equal rule' = true := by
  intro leaf compared joined rule
  have parsed : Rule.parse "IF: \x7b p q r == && == && x y \x7d" = .ok rule := by
    rw [← Outcome.toOption_eq_some_iff]
    decide +kernel
  have again : Rule.parse rule.text =
      .ok (.scalar (.scalar (.binary .eq (leaf "p") (.binary .and compared joined)))) := by
    rw [← Outcome.toOption_eq_some_iff]
    decide +kernel
  refine ⟨parsed, ?_⟩
  rintro ⟨rule', read, same⟩
  rw [again] at read
  obtain rfl := Except.ok.inj read
  exact absurd same (by decide)

end DocRules

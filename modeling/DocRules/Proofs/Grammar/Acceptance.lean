import DocRules.Proofs.Grammar.Reading
import DocRules.Proofs.Reduction.Chain

/-! # Which texts are rules

The bodies of the documented grammar are chains: operands and operators take turns. Every text of
that grammar is a rule. But the reduction does not look at the turns, it only needs the operands when
it closes an operator, so it also accepts bodies in which the words are out of turn. The texts with
such a body are the only ones on which the two differ (`Rule.exists_parse_iff_documented`).
-/

namespace DocRules

/-- The words of a body of the documented grammar and their tree, which is within the limit. -/
def Chain.Spells (words : List String) (expr : Expr) : Prop :=
  ∃ chain : Chain, words = chain.words ∧ expr = chain.read ∧ expr.depth ≤ maxExprDepth

/-- Words that take no turns but supply their operators with operands, and their tree, which is within
the limit. -/
structure Reduction.OutOfTurn (words : List String) (expr : Expr) : Prop where
  unchained : ∀ chain : Chain, words ≠ chain.words
  supplies : Supplies 0 0 none words
  tree : reduced? words = some expr
  within : expr.depth ≤ maxExprDepth

/-- The reduction accepts the chains and what is out of turn, and nothing else. -/
theorem Parse.body_iff {words : List String} {expr : Expr} :
    Parse.Body words expr ↔ Chain.Spells words expr ∨ Reduction.OutOfTurn words expr := by
  rw [Parse.Body, Reduction.ofWords_eq_ok_iff]
  constructor
  · rintro ⟨tree, within⟩
    by_cases chained : ∃ chain : Chain, words = chain.words
    · obtain ⟨chain, rfl⟩ := chained
      rw [chain.reduced?_words] at tree
      exact .inl ⟨chain, rfl, (Option.some.inj tree).symm, within⟩
    · have supplies := Reduction.isSome_reduced?_iff.mp (Option.isSome_of_eq_some tree)
      exact .inr ⟨fun chain same => chained ⟨chain, same⟩, supplies, tree, within⟩
  · rintro (⟨chain, rfl, rfl, within⟩ | outOfTurn)
    · exact ⟨chain.reduced?_words, within⟩
    · exact ⟨outOfTurn.tree, outOfTurn.within⟩

theorem Rule.parse_eq_ok_iff_or {text : String} {rule : Rule} :
    Rule.parse text = .ok rule ↔
      Rule.Spelling Chain.Spells (Token.ofRuleText text) rule ∨
        Rule.Spelling Reduction.OutOfTurn (Token.ofRuleText text) rule := by
  rw [Rule.parse_eq_ok_iff]
  constructor
  · intro spelling
    obtain ⟨words, spelled, respell⟩ := spelling.exists_words
    rcases Parse.body_iff.mp spelled with documented | outOfTurn
    · exact .inl (respell _ documented)
    · exact .inr (respell _ outOfTurn)
  · rintro (spelling | spelling)
    · exact spelling.mono fun _ _ documented => Parse.body_iff.mpr (.inl documented)
    · exact spelling.mono fun _ _ outOfTurn => Parse.body_iff.mpr (.inr outOfTurn)

/-- No tokens spell both a rule of the documented grammar and one with a body out of turn. -/
theorem Rule.Spelling.not_outOfTurn {tokens : List Token} {rule rule' : Rule}
    (documented : Rule.Spelling Chain.Spells tokens rule) :
    ¬ Rule.Spelling Reduction.OutOfTurn tokens rule' := by
  intro outOfTurn
  obtain ⟨words, ⟨chain, same, -⟩, unchained⟩ := documented.words_eq outOfTurn
  exact unchained.unchained chain same

/-- A text is a rule if and only if its tokens follow the documented grammar or have a body that is
out of turn. So being a rule and following the grammar agree exactly where no body is out of turn. -/
theorem Rule.exists_parse_iff_documented (text : String) :
    ((∃ rule, Rule.parse text = .ok rule) ↔
      (∃ rule, Rule.Spelling Chain.Spells (Token.ofRuleText text) rule) ∨
        ∃ rule, Rule.Spelling Reduction.OutOfTurn (Token.ofRuleText text) rule) ∧
    (((∃ rule, Rule.parse text = .ok rule) ↔
        ∃ rule, Rule.Spelling Chain.Spells (Token.ofRuleText text) rule) ↔
      ¬ ∃ rule, Rule.Spelling Reduction.OutOfTurn (Token.ofRuleText text) rule) := by
  have accepted : (∃ rule, Rule.parse text = .ok rule) ↔
      (∃ rule, Rule.Spelling Chain.Spells (Token.ofRuleText text) rule) ∨
        ∃ rule, Rule.Spelling Reduction.OutOfTurn (Token.ofRuleText text) rule := by
    simp only [Rule.parse_eq_ok_iff_or, exists_or]
  refine ⟨accepted, ?_⟩
  rw [accepted]
  constructor
  · rintro agree ⟨rule, outOfTurn⟩
    obtain ⟨rule', documented⟩ := agree.mp (.inr ⟨rule, outOfTurn⟩)
    exact documented.not_outOfTurn outOfTurn
  · intro inTurn
    rw [or_iff_left inTurn]

/-- A text with two operands before their operator is a rule, but the grammar does not give it. -/
theorem Rule.parse_operator_last :
    Rule.parse "IF: \x7b a b == \x7d" = .ok (.scalar (.scalar
        (.binary .eq (.leaf (.string "a") false) (.leaf (.string "b") false)))) ∧
      ¬ ∃ rule, Rule.Spelling Chain.Spells (Token.ofRuleText "IF: \x7b a b == \x7d") rule := by
  have parsed : Rule.parse "IF: \x7b a b == \x7d" = .ok (.scalar (.scalar
      (.binary .eq (.leaf (.string "a") false) (.leaf (.string "b") false)))) := by
    rw [← Outcome.toOption_eq_some_iff]
    decide +kernel
  have tokens : Token.ofRuleText "IF: \x7b a b == \x7d" =
      [.ifMark, .openBrace, .word "a", .word "b", .word "==", .closeBrace] := by decide +kernel
  refine ⟨parsed, ?_⟩
  rw [tokens]
  rintro ⟨rule, documented⟩
  have body := Rule.Spelling.ofWords ["a", "b", "=="] rule.innermost
  obtain ⟨words, ⟨chain, same, -⟩, rfl⟩ := documented.words_eq body
  cases links : chain.links with
  | nil => simp [Chain.words, Chain.linkWords, links] at same
  | cons link after =>
    simp only [Chain.words, Chain.linkWords, links, List.flatMap_cons, List.cons_append,
      List.cons.injEq] at same
    obtain ⟨-, second, -⟩ := same
    cases operator : link.1 <;> simp [operator, Operator.word] at second

end DocRules

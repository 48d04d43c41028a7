import DocRules.Proofs.Rule.Shape

/-! # Reading the text of any rule

A rule that was not read from text can have any tree, and most trees have a text that is read as another
one. If the text of a rule can be taken apart into its words at all, reading it keeps the loops and puts the
tree that its words have as a chain in place of the tree of the rule; only the depth of the new tree can be
in the way (`Rule.parse_text_of_writable`). So reading is looked at here with what it fails with.
-/

namespace DocRules

open Outcome

/-- No operator is absent, and the texts of the leaves are operands that are read as the leaves. -/
def Expr.Writable : Expr → Prop
  | .leaf value indexed =>
    Token.IsWord value.text ∧ Operator.ofWord? value.text = none ∧
      .ofWord value.text = Expr.leaf value indexed
  | .binary operator lhs rhs => operator ≠ .nil ∧ lhs.Writable ∧ rhs.Writable

/-- The text of a rule has the words that the rule is made of, and the headers are read back from theirs. -/
structure Rule.Writable (rule : Rule) : Prop where
  expr : rule.innermost.Writable
  headers : ∀ header ∈ rule.headers,
    Token.IsWord header.text ∧ LoopHeader.ofWord? header.text = some header
  loops : rule.condition.loops ≤ maxLoopDepth

instance (text : String) : Decidable (Token.IsWord text) :=
  decidable_of_iff (text.toList ≠ [] ∧ text.toList.all Cursor.isWordChar = true ∧
      Token.ofText text = .word text)
    ⟨fun ⟨nonempty, chars, unmarked⟩ => ⟨nonempty, List.all_eq_true.mp chars, unmarked⟩,
      fun isWord => ⟨isWord.nonempty, List.all_eq_true.mpr isWord.chars, isWord.unmarked⟩⟩

instance Expr.decidableWritable : (expr : Expr) → Decidable expr.Writable
  | .leaf value indexed =>
    inferInstanceAs (Decidable (Token.IsWord value.text ∧ Operator.ofWord? value.text = none ∧
      .ofWord value.text = Expr.leaf value indexed))
  | .binary operator lhs rhs =>
    have := lhs.decidableWritable
    have := rhs.decidableWritable
    inferInstanceAs (Decidable (operator ≠ .nil ∧ lhs.Writable ∧ rhs.Writable))

instance (rule : Rule) : Decidable rule.Writable :=
  decidable_of_iff (rule.innermost.Writable ∧ (∀ header ∈ rule.headers,
      Token.IsWord header.text ∧ LoopHeader.ofWord? header.text = some header) ∧
      rule.condition.loops ≤ maxLoopDepth)
    ⟨fun ⟨expr, headers, loops⟩ => ⟨expr, headers, loops⟩,
      fun writable => ⟨writable.expr, writable.headers, writable.loops⟩⟩

/-- An expression is writable if and only if it has the shape of one from text. -/
theorem Expr.writable_iff_shape {expr : Expr} : expr.Writable ↔ expr.Shape := by
  induction expr with
  | leaf value indexed =>
    constructor
    · rintro ⟨isWord, operand, same⟩
      exact leafShape_of_ofWord isWord operand same.symm
    · intro shape
      obtain ⟨word, isWord, operand, same⟩ := shape.written
      obtain ⟨rfl, rfl⟩ := Expr.leaf.inj same
      obtain ⟨isWord, operand⟩ := Value.isWord_text isWord operand
      exact ⟨isWord, operand, Expr.ofWord_text word⟩
  | binary operator lhs rhs ihl ihr => exact and_congr Iff.rfl (and_congr ihl ihr)

/-- A rule has the shape of one from text if and only if it is writable and its tree is within the limit. -/
theorem Rule.shape_iff_writable {rule : Rule} :
    rule.Shape ↔ rule.Writable ∧ rule.innermost.depth ≤ maxExprDepth := by
  have header_iff (header : LoopHeader) :
      header.Shape ↔ Token.IsWord header.text ∧ LoopHeader.ofWord? header.text = some header := by
    rw [LoopHeader.shape_iff, LoopHeader.ofWord?_eq_some_iff, and_comm]
    simp
  constructor
  · intro shape
    refine ⟨⟨Expr.writable_iff_shape.mpr shape.expr, ?_, shape.loops⟩, shape.depth⟩
    exact fun header member => (header_iff header).mp (shape.headers header member)
  · rintro ⟨writable, within⟩
    refine ⟨Expr.writable_iff_shape.mp writable.expr, within, writable.loops, ?_⟩
    exact fun header member => (header_iff header).mpr (writable.headers header member)

theorem Expr.WrittenBy.mono {words listed : List String} {expr : Expr} (written : expr.WrittenBy words)
    (subset : words ⊆ listed) : expr.WrittenBy listed := by
  induction expr with
  | leaf value indexed =>
    obtain ⟨word, member, spelled⟩ := written
    exact ⟨word, subset member, spelled⟩
  | binary operator lhs rhs ihl ihr => exact ⟨written.1, ihl written.2.1, ihr written.2.2⟩

/-- A writable expression is written by its own words, which are words of rule text. -/
theorem Expr.Writable.writtenBy_words {expr : Expr} (writable : expr.Writable) :
    expr.WrittenBy expr.words ∧ ∀ word ∈ expr.words, Token.IsWord word := by
  induction expr with
  | leaf value indexed =>
    obtain ⟨isWord, operand, same⟩ := writable
    exact ⟨⟨value.text, List.mem_singleton_self _, operand, same.symm⟩, List.forall_mem_singleton.mpr isWord⟩
  | binary operator lhs rhs ihl ihr =>
    obtain ⟨joined, left, right⟩ := writable
    obtain ⟨writtenLeft, wordsLeft⟩ := ihl left
    obtain ⟨writtenRight, wordsRight⟩ := ihr right
    have operatorWord : Token.IsWord operator.word := by
      cases operator <;> first | contradiction | exact ⟨by decide, List.all_eq_true.mp rfl, rfl⟩
    simp only [words, List.forall_mem_append, List.forall_mem_cons]
    refine ⟨⟨joined, writtenLeft.mono ?_, writtenRight.mono ?_⟩, wordsLeft, operatorWord, wordsRight⟩
    · exact List.subset_append_left ..
    · exact List.Subset.trans (List.subset_cons_self ..) (List.subset_append_right ..)

/-- The same loops around another expression. -/
def Condition.withInnermost (expr : Expr) : Condition → Condition
  | .scalar _ => .scalar expr
  | .loop header body => .loop header (body.withInnermost expr)

def Rule.withInnermost (expr : Expr) : Rule → Rule
  | .scalar condition => .scalar (condition.withInnermost expr)
  | .vector header condition => .vector header (condition.withInnermost expr)

@[simp] theorem Condition.innermost_withInnermost (expr : Expr) (condition : Condition) :
    (condition.withInnermost expr).innermost = expr := by
  induction condition with
  | scalar => rfl
  | loop header body ih => exact ih

@[simp] theorem Rule.innermost_withInnermost (expr : Expr) (rule : Rule) :
    (rule.withInnermost expr).innermost = expr := by
  cases rule with
  | scalar condition => exact condition.innermost_withInnermost expr
  | vector header condition => exact condition.innermost_withInnermost expr

@[simp] theorem Condition.withInnermost_innermost (condition : Condition) :
    condition.withInnermost condition.innermost = condition := by
  induction condition with
  | scalar => rfl
  | loop header body ih => exact congrArg (loop header) ih

@[simp] theorem Rule.withInnermost_innermost (rule : Rule) :
    rule.withInnermost rule.innermost = rule := by
  cases rule with
  | scalar condition => exact congrArg scalar condition.withInnermost_innermost
  | vector header condition => exact congrArg (vector header) condition.withInnermost_innermost

namespace Parse

variable {finish loops : Nat} {lexemes rest : List Lexeme}

/-- The tokens of a condition are read as the condition around whatever its words are reduced to. -/
theorem condition_tokens {written : Condition}
    (headers : ∀ header ∈ written.headers, header.WellFormed) (within : written.loops ≤ loops)
    (reads : Reads lexemes written.tokens rest) :
    condition finish loops lexemes =
      (Reduction.ofWords written.innermost.words).map fun expr => (written.withInnermost expr, rest) := by
  induction written generalizing loops lexemes rest with
  | scalar expr => exact condition_of_words reads
  | loop header body ih =>
    obtain ⟨wellFormed, headers⟩ := List.forall_mem_cons.mp headers
    obtain ⟨first, after, rfl, brace, reads⟩ := Reads.exists_cons reads
    obtain ⟨next, after, rfl, mark, reads⟩ := Reads.exists_cons reads
    have parts : Reads after ([.word header.text] ++ (body.tokens ++ [.closeBrace])) rest := reads
    obtain ⟨middle, headed, reads⟩ := reads_append.mp parts
    obtain ⟨closing, inside, closed⟩ := reads_append.mp reads
    rw [condition_of_loop (reads_cons.mpr ⟨brace, reads_nil.mpr rfl⟩) mark,
      header_eq_ok_iff.mpr ⟨headed, wellFormed⟩, ok_bind]
    cases loops with
    | zero => exact absurd within (Nat.not_succ_le_zero _)
    | succ fewer =>
      simp only [ih headers (Nat.le_of_succ_le_succ within) inside, Condition.innermost,
        Condition.withInnermost]
      cases Reduction.ofWords body.innermost.words with
      | error error => rfl
      | ok expr => simp only [map_ok, ok_bind, expect_eq_ok_iff.mpr closed, pure_eq_ok]

private theorem guarded_tokens {written : Condition} (headers : ∀ header ∈ written.headers, header.WellFormed)
    (within : written.loops ≤ maxLoopDepth)
    (whole : lexemes.map Lexeme.token = written.tokens ++ [.thenMark, .openBrace, .closeBrace]) :
    guarded finish lexemes =
      (Reduction.ofWords written.innermost.words).map fun expr => (written.withInnermost expr, []) := by
  obtain ⟨middle, reads, follows⟩ := reads_split whole
  have block : action finish middle = .ok [] := action_eq_ok_nil_iff.mpr (follows ▸ .empty)
  rw [guarded, condition_tokens headers within reads]
  cases Reduction.ofWords written.innermost.words with
  | error error => rfl
  | ok expr => simp only [map_ok, ok_bind, block, pure_eq_ok]

/-- The tokens of a rule are read as the rule around whatever its words are reduced to. -/
theorem whole_tokens {written : Rule} (headers : ∀ header ∈ written.headers, header.WellFormed)
    (within : written.condition.loops ≤ maxLoopDepth)
    (whole : lexemes.map Lexeme.token = written.tokens) :
    Parse.whole finish lexemes =
      (Reduction.ofWords written.innermost.words).map written.withInnermost := by
  cases written with
  | scalar condition =>
    replace headers : ∀ header ∈ condition.headers, header.WellFormed := headers
    obtain ⟨first, after, rfl, mark, reads⟩ := (reads_all_iff.mpr whole).exists_cons
    rw [Parse.whole, rule, mark]
    simp only [guarded_tokens headers within (reads_all_iff.mp reads), Rule.innermost, Rule.condition]
    cases Reduction.ofWords condition.innermost.words <;> rfl
  | vector header condition =>
    obtain ⟨wellFormed, headers⟩ := List.forall_mem_cons.mp headers
    obtain ⟨first, after, rfl, mark, reads⟩ := (reads_all_iff.mpr whole).exists_cons
    have parts : Reads after ([.word header.text] ++ ([.ifMark] ++
        (condition.tokens ++ [.thenMark, .openBrace, .closeBrace]))) [] := reads
    obtain ⟨middle, headed, reads⟩ := reads_append.mp parts
    obtain ⟨guarding, marked, reads⟩ := reads_append.mp reads
    rw [Parse.whole, rule, mark]
    simp only [header_eq_ok_iff.mpr ⟨headed, wellFormed⟩, expect_eq_ok_iff.mpr marked, ok_bind,
      guarded_tokens headers within (reads_all_iff.mp reads), Rule.innermost, Rule.condition]
    cases Reduction.ofWords condition.innermost.words <;> rfl

end Parse

namespace Rule

variable {rule : Rule}

theorem Writable.printable_tokens (writable : rule.Writable) : ∀ token ∈ rule.tokens, token.Printable :=
  printable_tokens_iff.mpr ⟨fun header member => (writable.headers header member).1,
    writable.expr.writtenBy_words.2⟩

/-- The text of a writable rule is read as the rule around whatever its words are reduced to. -/
theorem parse_text_eq_ofWords (writable : rule.Writable) :
    Rule.parse rule.text = (Reduction.ofWords rule.innermost.words).map rule.withInnermost := by
  have headers : ∀ header ∈ rule.headers, header.WellFormed := fun header member =>
    (LoopHeader.ofWord?_eq_some_iff.mp (writable.headers header member).2).2
  exact Parse.whole_tokens headers writable.loops (ofRuleText_of_printable writable.printable_tokens)

/-- The text of a writable rule is read as the rule with the tree of its words as a chain in place of its
own, which nests to the right but for comparisons that a connective follows, or is refused if the new tree
is too deep. So it is read as the rule itself if and only if the rule has that tree. -/
theorem parse_text_of_writable (writable : rule.Writable) :
    (∀ (first second third : Expr) (operator next : Operator) (links : List (Operator × Expr)),
      first.reading ((operator, second) :: (next, third) :: links) =
        if operator.isComparison && next.isConnective then
          .binary next (.binary operator first second) (third.reading links)
        else .binary operator first (second.reading ((next, third) :: links))) ∧
    ∃ chain : Chain, chain.words = rule.innermost.words ∧
      chain.read = rule.innermost.first.reading rule.innermost.links ∧
      Rule.parse rule.text =
        (if chain.read.depth ≤ maxExprDepth then .ok (rule.withInnermost chain.read)
        else .error (.malformed .exprTooDeep)) ∧
      (Rule.parse rule.text = .ok rule ↔
        rule.innermost = chain.read ∧ chain.read.depth ≤ maxExprDepth) ∧
      ∀ rule', Rule.parse rule.text = .ok rule' →
        (rule.equal rule' = true ↔ rule.innermost = chain.read) := by
  refine ⟨fun _ _ _ operator next _ => by rw [Expr.reading, Operator.yieldsTo_eq, Bool.and_comm], ?_⟩
  obtain ⟨written, all⟩ := writable.expr.writtenBy_words
  obtain ⟨chain, words, read⟩ := written.exists_chain all
  have tree : Reduction.reduced? rule.innermost.words = some chain.read := by
    rw [← words, chain.reduced?_words]
  have parsed : Rule.parse rule.text = (Reduction.limited chain.read).map rule.withInnermost := by
    rw [parse_text_eq_ofWords writable, Reduction.ofWords, Reduction.empty,
      Reduction.complete_of_completed? tree (by simp)]
  refine ⟨chain, words, read, ?_, ?_, ?_⟩
  · rw [parsed, Reduction.limited]
    split <;> rename_i limit
    · rw [if_neg (Nat.not_le.mpr limit), map_error]
    · rw [if_pos (Nat.le_of_not_lt limit), map_ok]
  · rw [parsed, map_eq_ok_iff]
    constructor
    · rintro ⟨expr, limit, same⟩
      obtain ⟨rfl, within⟩ := Reduction.limited_eq_ok_iff.mp limit
      have inner := congrArg innermost same
      rw [innermost_withInnermost] at inner
      exact ⟨inner.symm, within⟩
    · rintro ⟨same, within⟩
      exact ⟨chain.read, Reduction.limited_eq_ok_iff.mpr ⟨rfl, within⟩, by rw [← same]; simp⟩
  · intro rule' again
    rw [parsed, map_eq_ok_iff] at again
    obtain ⟨expr, limit, rfl⟩ := again
    obtain ⟨rfl, -⟩ := Reduction.limited_eq_ok_iff.mp limit
    constructor
    · intro equal
      have same := equal_innermost equal
      rw [innermost_withInnermost] at same
      have canonical := Expr.canonical_of_equal same (Expr.canonical_reading chain.links chain.first)
      rw [read, Expr.reading_links canonical]
    · intro same
      rw [← same, withInnermost_innermost]
      exact equal_self written.equal_self

/-- The theorem at a rule with a loop, whose tree does not nest to the right. Its text is read with the first
comparison above everything else, and the text of the rule with that tree is read as that rule. -/
theorem parse_text_of_nested_left :
    let leaf (word : String) : Expr := .leaf (.string word) false
    let compared : Expr := .binary .eq (.leaf (.string "xs[i]") true) (.leaf (.int 1) false)
    let joined : Expr := .binary .or (leaf "x") (leaf "y")
    let around (expr : Expr) : Rule :=
      .vector ⟨"i", "0", "xs.size()"⟩ (.loop ⟨"j", "0", "ys.size()"⟩ (.scalar expr))
    let rule := around (.binary .and (.binary .eq (leaf "p") compared) joined)
    let rule' := around (.binary .eq (leaf "p") (.binary .and compared joined))
    rule.Writable ∧ rule'.Writable ∧ rule.text = rule'.text ∧ Rule.parse rule.text = .ok rule' ∧
      rule.equal rule' = false ∧ Rule.parse rule'.text = .ok rule' := by
  intro leaf compared joined around rule rule'
  have writable : rule.Writable := by decide +kernel
  have writable' : rule'.Writable := by decide +kernel
  obtain ⟨-, chain, -, read, again, -⟩ := parse_text_of_writable writable
  obtain ⟨-, chain', -, read', -, same, -⟩ := parse_text_of_writable writable'
  have tree : chain.read = rule'.innermost := read.trans rfl
  have tree' : chain'.read = rule'.innermost := read'.trans rfl
  refine ⟨writable, writable', rfl, ?_, rfl, same.mpr ⟨tree'.symm, ?_⟩⟩
  · rw [again, tree]
    rfl
  · rw [tree']
    decide

end Rule

end DocRules

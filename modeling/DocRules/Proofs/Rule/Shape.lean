import DocRules.Proofs.Cache.Parsed

/-! # The shape of rules from text

Printing, caching and evaluation rely on what reading makes sure of: no operator is absent, every leaf is
the value of an operand, the tree and the loops are within their limits, and every header is one word whose
parts can be told apart (`Rule.shape_of_parse`). The words of a rule are what its tokens allow, and its
leaves are what literals allow, so each part is shown for its own and they only meet in the rule.
-/

namespace DocRules

/-- A leaf as a word of rule text writes it. -/
structure Expr.LeafShape (value : Value) (indexed : Bool) : Prop where
  written : ∃ word, Token.IsWord word ∧ Operator.ofWord? word = none ∧
    Expr.leaf value indexed = .ofWord word
  indexed_iff : indexed = true ↔
    ∃ text, value = .string text ∧ '[' ∈ text.toList ∧ ']' ∈ text.toList
  finite : ∀ x, value = .float x → x.isFinite = true
  /-- A string is not the literal of a value of another kind. -/
  literal : ∀ text, value = .string text → text ≠ "true" ∧ text ≠ "false" ∧
    Decimal.int64? text.toList = none ∧ Value.finite? text.toList = none

/-- No operator is absent, and every leaf has the shape of a leaf. -/
def Expr.Shape : Expr → Prop
  | .leaf value indexed => LeafShape value indexed
  | .binary operator lhs rhs => operator ≠ .nil ∧ lhs.Shape ∧ rhs.Shape

/-- What is read as a string is read as nothing else. -/
theorem Value.literal_of_ofLiteral_string {literal text : String} (read : ofLiteral literal = .string text) :
    text ≠ "true" ∧ text ≠ "false" ∧ Decimal.int64? text.toList = none ∧ finite? text.toList = none := by
  obtain rfl := eq_of_ofLiteral_string read
  unfold ofLiteral at read
  repeat' split at read
  all_goals first | contradiction | exact ⟨‹_›, ‹_›, ‹_›, ‹_›⟩

theorem Expr.leafShape_of_ofWord {word : String} {value : Value} {indexed : Bool}
    (isWord : Token.IsWord word) (operand : Operator.ofWord? word = none)
    (same : Expr.leaf value indexed = .ofWord word) : LeafShape value indexed where
  written := ⟨word, isWord, operand, same⟩
  indexed_iff := by
    obtain ⟨rfl, rfl⟩ := Expr.leaf.inj same
    exact Value.mentionsIndex_iff
  finite x float := by
    obtain ⟨rfl, -⟩ := Expr.leaf.inj same
    exact Value.isFinite_of_ofLiteral float
  literal text string := by
    obtain ⟨rfl, -⟩ := Expr.leaf.inj same
    exact Value.literal_of_ofLiteral_string string

theorem Expr.WrittenBy.shape {words : List String} {expr : Expr} (written : expr.WrittenBy words)
    (all : ∀ word ∈ words, Token.IsWord word) : expr.Shape := by
  induction expr with
  | leaf value indexed =>
    obtain ⟨word, member, operand, same⟩ := written
    exact leafShape_of_ofWord (all word member) operand same
  | binary operator lhs rhs ihl ihr => exact ⟨written.1, ihl written.2.1, ihr written.2.2⟩

/-- A header that one word of rule text can write. -/
structure LoopHeader.Shape (header : LoopHeader) : Prop extends header.WellFormed where
  index_chars : ∀ c ∈ header.index.toList, Cursor.isWordChar c = true
  start_chars : ∀ c ∈ header.start.toList, Cursor.isWordChar c = true
  stop_chars : ∀ c ∈ header.stop.toList, Cursor.isWordChar c = true

/-- The separators of a header may be in a word, and no mark has an equals sign. -/
theorem LoopHeader.shape_iff {header : LoopHeader} :
    header.Shape ↔ header.WellFormed ∧ Token.IsWord header.text := by
  constructor
  · intro shape
    refine ⟨shape.toWellFormed, ?_, ?_, ?_⟩
    · rw [toList_text]
      simp
    · rw [toList_text]
      simp only [List.forall_mem_append, List.forall_mem_cons]
      exact ⟨shape.index_chars, by decide, shape.start_chars, by decide, shape.stop_chars⟩
    · have equals : '=' ∈ header.text.toList := by simp [toList_text]
      unfold Token.ofText
      split <;> first | rfl | simp_all
  · rintro ⟨wellFormed, -, chars, -⟩
    rw [toList_text] at chars
    simp only [List.forall_mem_append, List.forall_mem_cons] at chars
    obtain ⟨index, -, start, -, stop⟩ := chars
    exact ⟨wellFormed, index, start, stop⟩

/-- The tokens of a condition can be read back if the words of its headers and of its expression can. -/
theorem Condition.printable_tokens_iff {condition : Condition} :
    (∀ token ∈ condition.tokens, token.Printable) ↔
      (∀ header ∈ condition.headers, Token.IsWord header.text) ∧
        ∀ word ∈ condition.innermost.words, Token.IsWord word := by
  induction condition with
  | scalar expr =>
    simp only [tokens, List.forall_mem_cons, List.forall_mem_append, List.forall_mem_map]
    simp [headers, innermost, Token.Printable]
  | loop header body ih =>
    simp only [tokens, headers, innermost, List.forall_mem_cons, List.forall_mem_append, ih]
    simp [Token.Printable, and_assoc]

/-- The tokens of a rule can be read back if the words of its headers and of its expression can. -/
theorem Rule.printable_tokens_iff {rule : Rule} :
    (∀ token ∈ rule.tokens, token.Printable) ↔
      (∀ header ∈ rule.headers, Token.IsWord header.text) ∧
        ∀ word ∈ rule.innermost.words, Token.IsWord word := by
  cases rule with
  | scalar condition =>
    simp only [tokens, List.forall_mem_cons, List.forall_mem_append, Condition.printable_tokens_iff]
    simp [headers, asLoops, innermost, Rule.condition, Token.Printable]
  | vector header condition =>
    simp only [tokens, List.forall_mem_cons, List.forall_mem_append, Condition.printable_tokens_iff]
    simp [headers, asLoops, Condition.headers, innermost, Rule.condition, Token.Printable, and_assoc]

/-- What every rule from text has. -/
structure Rule.Shape (rule : Rule) : Prop where
  expr : rule.innermost.Shape
  depth : rule.innermost.depth ≤ maxExprDepth
  loops : rule.condition.loops ≤ maxLoopDepth
  headers : ∀ header ∈ rule.headers, header.Shape

/-- A rule that is read from text has the shape of a rule: all its operators are present, its leaves are
values of operands, its tree and its loops are within the limits, and its headers are words. -/
theorem Rule.shape_of_parse {text : String} {rule : Rule} (parsed : Rule.parse text = .ok rule) :
    rule.Shape := by
  obtain ⟨words, written, within, all⟩ := Rule.writtenBy_of_parse parsed
  refine ⟨written.shape all, within, Rule.loops_le_of_parse parsed, fun header member => ?_⟩
  obtain ⟨named, -⟩ := Rule.printable_tokens_iff.mp (Rule.printable_tokens_of_parse parsed)
  exact LoopHeader.shape_iff.mpr ⟨Rule.wellFormed_of_parse parsed header member, named header member⟩

/-- The theorem at a rule with two loops, whose operator comes after a path with loop variables and a number. -/
theorem Rule.shape_of_nested_parse :
    let rule : Rule := .vector ⟨"i", "0", "xs.size()"⟩ (.loop ⟨"j", "1", "xs[i].size()"⟩ (.scalar
      (.binary .and (.binary .ge (.leaf (.string "xs[i][j]") true) (.leaf (.float ⟨0x4004000000000000⟩) false))
        (.leaf (.string "ok") false))))
    Rule.parse
        "FOR: i=0:xs.size() IF: \x7b FOR: j=1:xs[i].size() \x7b xs[i][j] 2.50 >= && ok \x7d \x7d" =
          .ok rule ∧
      rule.Shape := by
  intro rule
  have parsed : Rule.parse
      "FOR: i=0:xs.size() IF: \x7b FOR: j=1:xs[i].size() \x7b xs[i][j] 2.50 >= && ok \x7d \x7d" =
        .ok rule := by
    rw [← Outcome.toOption_eq_some_iff]
    decide +kernel
  exact ⟨parsed, Rule.shape_of_parse parsed⟩

end DocRules

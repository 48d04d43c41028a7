import DocRules.Proofs.Grammar.Reading
import DocRules.Proofs.Value

/-! # The tokens of the text of a rule

The text of a rule is its tokens with spaces between them (`Rule.spaced_tokens`), and for a rule that
is read from text they are read as these tokens (`Rule.ofRuleText_text`). They spell the rule if the
words of its expression, from left to right, spell the expression (`Rule.Spelling.spelling_tokens`).
-/

namespace DocRules

/-- The words of an expression from left to right. -/
def Expr.words : Expr → List String
  | .leaf value _ => [value.text]
  | .binary operator lhs rhs => lhs.words ++ operator.word :: rhs.words

/-- The tokens of the text of a condition. -/
def Condition.tokens : Condition → List Token
  | .scalar expr => .openBrace :: (expr.words.map .word ++ [.closeBrace])
  | .loop header body =>
    .openBrace :: .forMark :: .word header.text :: (body.tokens ++ [.closeBrace])

def Rule.tokens : Rule → List Token
  | .scalar condition => .ifMark :: (condition.tokens ++ [.thenMark, .openBrace, .closeBrace])
  | .vector header condition =>
    .forMark :: .word header.text :: .ifMark ::
      (condition.tokens ++ [.thenMark, .openBrace, .closeBrace])

private theorem Expr.spaced_words (expr : Expr) :
    ' ' :: expr.text.toList = Token.spaced (expr.words.map .word) := by
  induction expr with
  | leaf value indexed => simp [Expr.text, Expr.words, Token.text]
  | binary operator lhs rhs ihl ihr =>
    simp [Expr.text, Expr.words, Token.text, ← ihl, ← ihr]

theorem Condition.spaced_tokens (condition : Condition) :
    ' ' :: condition.text.toList = Token.spaced condition.tokens := by
  induction condition with
  | scalar expr => simp [Condition.text, Condition.tokens, Token.text, ← Expr.spaced_words]
  | loop header body ih => simp [Condition.text, Condition.tokens, Token.text, ← ih]

/-- The text of a rule is its tokens with spaces between them. -/
theorem Rule.spaced_tokens (rule : Rule) : ' ' :: rule.text.toList = Token.spaced rule.tokens := by
  cases rule with
  | scalar condition =>
    simp [Rule.text, Rule.tokens, Token.text, ← Condition.spaced_tokens]
  | vector header condition =>
    simp [Rule.text, Rule.tokens, Token.text, ← Condition.spaced_tokens]

variable {body other : List String → Expr → Prop} {tokens : List Token}

/-- A property of all words of a condition holds of the words of its body. -/
theorem Condition.Spelling.forall_words {loops : Nat} {condition : Condition} {P : String → Prop}
    (spelling : Spelling body loops tokens condition) (all : ∀ word, .word word ∈ tokens → P word) :
    Spelling (fun words expr => body words expr ∧ ∀ word ∈ words, P word) loops tokens condition := by
  induction spelling with
  | @scalar loops words expr spelled =>
    refine .scalar ⟨spelled, fun word member => all word ?_⟩
    exact List.mem_cons_of_mem _ (List.mem_append_left _ (List.mem_map_of_mem member))
  | loop wellFormed _ ih =>
    refine .loop wellFormed (ih fun word member => all word ?_)
    simp [member]

private theorem Rule.Spelling.forall_words {rule : Rule} {P : String → Prop}
    (spelling : Spelling body tokens rule) (all : ∀ word, .word word ∈ tokens → P word) :
    Spelling (fun words expr => body words expr ∧ ∀ word ∈ words, P word) tokens rule := by
  cases spelling with
  | scalar inner follows =>
    exact .scalar (inner.forall_words fun word member => all word (by simp [member])) follows
  | vector wellFormed inner follows =>
    exact .vector wellFormed (inner.forall_words fun word member => all word (by simp [member])) follows

/-- If the words of the expression spell the expression, the tokens of the text spell the condition. -/
theorem Condition.Spelling.spelling_tokens {loops : Nat} {condition : Condition}
    (spelling : Spelling body loops tokens condition)
    (spelled : other condition.innermost.words condition.innermost) :
    Spelling other loops condition.tokens condition := by
  induction spelling with
  | scalar => exact .scalar spelled
  | loop wellFormed _ ih => exact .loop wellFormed (ih spelled)

theorem Rule.Spelling.spelling_tokens {rule : Rule} (spelling : Spelling body tokens rule)
    (spelled : other rule.innermost.words rule.innermost) : Spelling other rule.tokens rule := by
  cases spelling with
  | scalar inner _ => exact .scalar (inner.spelling_tokens spelled) .empty
  | vector wellFormed inner _ => exact .vector wellFormed (inner.spelling_tokens spelled) .empty

private theorem Condition.Spelling.printable_tokens {loops : Nat} {condition : Condition}
    (spelling : Spelling body loops tokens condition) (printable : ∀ token ∈ tokens, token.Printable)
    (words : ∀ word ∈ condition.innermost.words, Token.IsWord word) :
    ∀ token ∈ condition.tokens, token.Printable := by
  induction spelling with
  | scalar =>
    simp only [Condition.tokens, List.forall_mem_cons, List.forall_mem_append, List.forall_mem_map]
    exact ⟨trivial, words, by simp [Token.Printable]⟩
  | loop wellFormed _ ih =>
    simp only [List.forall_mem_cons, List.forall_mem_append] at printable
    obtain ⟨brace, mark, named, within, closing⟩ := printable
    simp only [Condition.tokens, List.forall_mem_cons, List.forall_mem_append]
    exact ⟨brace, mark, named, ih within words, closing⟩

/-- The text of a rule keeps the words of its headers, so if the words of its expression can be read
back, so can all its tokens. -/
theorem Rule.Spelling.printable_tokens {rule : Rule} (spelling : Spelling body tokens rule)
    (printable : ∀ token ∈ tokens, token.Printable)
    (words : ∀ word ∈ rule.innermost.words, Token.IsWord word) :
    ∀ token ∈ rule.tokens, token.Printable := by
  cases spelling with
  | scalar inner _ =>
    simp only [List.forall_mem_cons, List.forall_mem_append] at printable
    obtain ⟨mark, within, -⟩ := printable
    simp only [Rule.tokens, List.forall_mem_cons, List.forall_mem_append]
    exact ⟨mark, inner.printable_tokens within words, by simp [Token.Printable]⟩
  | vector wellFormed inner _ =>
    simp only [List.forall_mem_cons, List.forall_mem_append] at printable
    obtain ⟨mark, named, mark', within, -⟩ := printable
    simp only [Rule.tokens, List.forall_mem_cons, List.forall_mem_append]
    exact ⟨mark, named, mark', inner.printable_tokens within words, by simp [Token.Printable]⟩

/-- The words of a tree are words of rule text if the words that it was written with are. -/
theorem Expr.WrittenBy.isWord_words {words : List String} {expr : Expr} (written : expr.WrittenBy words)
    (all : ∀ word ∈ words, Token.IsWord word) : ∀ word ∈ expr.words, Token.IsWord word := by
  induction expr with
  | leaf value indexed =>
    obtain ⟨word, member, operand, same⟩ := written
    obtain ⟨rfl, -⟩ := Expr.leaf.inj same
    rw [Expr.words, List.forall_mem_singleton]
    exact (Value.isWord_text (all word member) operand).1
  | binary operator lhs rhs ihl ihr =>
    obtain ⟨written, left, right⟩ := written
    have joined : Token.IsWord operator.word := by
      cases operator <;> first | contradiction | exact ⟨by decide, List.all_eq_true.mp rfl, rfl⟩
    simp only [Expr.words, List.forall_mem_append, List.forall_mem_cons]
    exact ⟨ihl left, joined, ihr right⟩

/-- The tree of a rule that is read from text is written by words of rule text. -/
theorem Rule.writtenBy_of_parse {text : String} {rule : Rule} (parsed : Rule.parse text = .ok rule) :
    ∃ words, rule.innermost.WrittenBy words ∧ rule.innermost.depth ≤ maxExprDepth ∧
      ∀ word ∈ words, Token.IsWord word := by
  have printable := Cursor.printable_of_mem_tokens (Cursor.ofText text)
  have spelling := (Rule.parse_eq_ok_iff.mp parsed).forall_words fun word member => printable _ member
  obtain ⟨words, ⟨reduced, all⟩, -⟩ := spelling.exists_words
  obtain ⟨tree, within⟩ := Reduction.ofWords_eq_ok_iff.mp reduced
  exact ⟨words, Reduction.writtenBy_of_reduced? tree, within, all⟩

/-- The tokens of a rule that is read from text are such as reading gives. -/
theorem Rule.printable_tokens_of_parse {text : String} {rule : Rule} (parsed : Rule.parse text = .ok rule) :
    ∀ token ∈ rule.tokens, token.Printable := by
  have printable := Cursor.printable_of_mem_tokens (Cursor.ofText text)
  obtain ⟨words, written, -, all⟩ := Rule.writtenBy_of_parse parsed
  exact (Rule.parse_eq_ok_iff.mp parsed).printable_tokens printable (written.isWord_words all)

/-- If its tokens are such as reading gives, the text of a rule has these tokens. -/
theorem Rule.ofRuleText_of_printable {rule : Rule} (printable : ∀ token ∈ rule.tokens, token.Printable) :
    Token.ofRuleText rule.text = rule.tokens :=
  Cursor.tokens_of_spaced rule.spaced_tokens printable 0

/-- The text of a rule that is read from text has the tokens of the rule. -/
theorem Rule.ofRuleText_text {text : String} {rule : Rule} (parsed : Rule.parse text = .ok rule) :
    Token.ofRuleText rule.text = rule.tokens :=
  Rule.ofRuleText_of_printable (Rule.printable_tokens_of_parse parsed)

end DocRules

import DocRules.Proofs.Text.Cut
import DocRules.Rule.Text
import DocRules.Token

/-! # The grammar of rule text

The tokens of a rule are `IF:` and a condition, after `FOR:` and a loop header for a vector rule, and
before an empty `THEN:` block or not. A condition stands in braces: it is a body of words, or `FOR:`,
a header and a condition. What the words of a body spell is left open here: it is a relation between
words and expressions.
-/

namespace DocRules

namespace LoopHeader

/-- A header that one word can write: no part is empty, and the separators are the first of their
kind. -/
structure WellFormed (header : LoopHeader) : Prop where
  index_ne : header.index.toList ≠ []
  equals_notMem : '=' ∉ header.index.toList
  start_ne : header.start.toList ≠ []
  colon_notMem : ':' ∉ header.start.toList
  stop_ne : header.stop.toList ≠ []

theorem toList_text (header : LoopHeader) :
    header.text.toList =
      header.index.toList ++ '=' :: (header.start.toList ++ ':' :: header.stop.toList) := by
  simp only [text, String.toList_append, List.append_assoc]
  rfl

theorem ofWord?_text {header : LoopHeader} (wellFormed : header.WellFormed) :
    ofWord? header.text = some header := by
  simp [ofWord?, toList_text, Text.takeWhile_cut wellFormed.equals_notMem,
    Text.dropWhile_cut wellFormed.equals_notMem, Text.takeWhile_cut wellFormed.colon_notMem,
    Text.dropWhile_cut wellFormed.colon_notMem, wellFormed.index_ne, wellFormed.start_ne,
    wellFormed.stop_ne]

/-- A word writes a header if and only if it is the text of the header, which is well formed. -/
theorem ofWord?_eq_some_iff {word : String} {header : LoopHeader} :
    ofWord? word = some header ↔ word = header.text ∧ header.WellFormed := by
  constructor
  · intro found
    simp only [ofWord?] at found
    split at found
    · contradiction
    · rename_i nonempty
      simp only [Bool.or_eq_true, List.isEmpty_iff, not_or] at nonempty
      obtain ⟨⟨index_ne, start_ne⟩, stop_ne⟩ := nonempty
      have tail_ne : (word.toList.dropWhile (· != '=')).drop 1 ≠ [] := by
        intro rest
        simp [rest] at start_ne
      have first := Text.eq_cut tail_ne
      have second := Text.eq_cut stop_ne
      obtain rfl := Option.some.inj found
      refine ⟨?_, ⟨by simpa using index_ne, ?_, by simpa using start_ne, ?_, by simpa using stop_ne⟩⟩
      · apply String.toList_inj.mp
        rw [toList_text]
        simp only [String.toList_ofList]
        rw [← second, ← first]
      · simpa using Text.notMem_takeWhile '=' word.toList
      · simpa using Text.notMem_takeWhile ':' _
  · rintro ⟨rfl, wellFormed⟩
    exact ofWord?_text wellFormed

end LoopHeader

/-- The tokens of a condition in which at most so many loops nest. -/
inductive Condition.Spelling (body : List String → Expr → Prop) :
    Nat → List Token → Condition → Prop
  | scalar {loops : Nat} {words : List String} {expr : Expr} (spelled : body words expr) :
    Spelling body loops (.openBrace :: (words.map .word ++ [.closeBrace])) (.scalar expr)
  | loop {loops : Nat} {header : LoopHeader} {tokens : List Token} {condition : Condition}
    (wellFormed : header.WellFormed) (inner : Spelling body loops tokens condition) :
    Spelling body (loops + 1)
      (.openBrace :: .forMark :: .word header.text :: (tokens ++ [.closeBrace]))
      (.loop header condition)

/-- The tokens of the block that may follow a condition. -/
inductive Token.Action : List Token → Prop
  | absent : Action []
  | empty : Action [.thenMark, .openBrace, .closeBrace]

inductive Rule.Spelling (body : List String → Expr → Prop) : List Token → Rule → Prop
  | scalar {tokens action : List Token} {condition : Condition}
    (inner : Condition.Spelling body maxLoopDepth tokens condition) (follows : Token.Action action) :
    Spelling body (.ifMark :: (tokens ++ action)) (.scalar condition)
  | vector {header : LoopHeader} {tokens action : List Token} {condition : Condition}
    (wellFormed : header.WellFormed) (inner : Condition.Spelling body maxLoopDepth tokens condition)
    (follows : Token.Action action) :
    Spelling body (.forMark :: .word header.text :: .ifMark :: (tokens ++ action))
      (.vector header condition)

/-- The expression inside all loops. -/
def Condition.innermost : Condition → Expr
  | .scalar expr => expr
  | .loop _ body => body.innermost

def Rule.innermost (rule : Rule) : Expr :=
  rule.condition.innermost

def Expr.leaves : Expr → List Expr
  | .leaf value indexed => [.leaf value indexed]
  | .binary _ lhs rhs => lhs.leaves ++ rhs.leaves

def Expr.operators : Expr → List Operator
  | .leaf .. => []
  | .binary operator lhs rhs => lhs.operators ++ operator :: rhs.operators

variable {body other : List String → Expr → Prop} {tokens tokens' : List Token}

private theorem Token.words_inj {words words' : List String} {rest rest' : List Token}
    (same : words.map Token.word ++ .closeBrace :: rest = words'.map .word ++ .closeBrace :: rest') :
    words = words' ∧ rest = rest' := by
  induction words generalizing words' with
  | nil =>
    cases words' with
    | nil => simpa using same
    | cons word' words' => simp at same
  | cons word words ih =>
    cases words' with
    | nil => simp at same
    | cons word' words' =>
      simp only [List.map_cons, List.cons_append, List.cons.injEq, Token.word.injEq] at same
      obtain ⟨rfl, same⟩ := same
      obtain ⟨rfl, rfl⟩ := ih same
      exact ⟨rfl, rfl⟩

private theorem Token.words_ne_forMark {words : List String} {rest rest' : List Token} :
    words.map Token.word ++ .closeBrace :: rest ≠ .forMark :: rest' := by
  cases words with
  | nil => simp
  | cons word words => simp

/-- The tokens determine where a condition ends and which words its body has. -/
theorem Condition.Spelling.words_eq {loops loops' : Nat} {condition condition' : Condition}
    {rest rest' : List Token} (spelling : Spelling body loops tokens condition)
    (spelling' : Spelling other loops' tokens' condition') (same : tokens ++ rest = tokens' ++ rest') :
    rest = rest' ∧ ∃ words, body words condition.innermost ∧ other words condition'.innermost := by
  induction spelling generalizing loops' tokens' condition' rest rest' with
  | @scalar loops words expr spelled =>
    cases spelling' with
    | @scalar _ words' expr' spelled' =>
      simp only [List.cons_append, List.append_assoc, List.cons.injEq, true_and, List.nil_append] at same
      obtain ⟨rfl, rfl⟩ := Token.words_inj same
      exact ⟨rfl, words, spelled, spelled'⟩
    | loop =>
      simp only [List.cons_append, List.append_assoc, List.cons.injEq, true_and, List.nil_append] at same
      exact absurd same Token.words_ne_forMark
  | loop _ _ ih =>
    cases spelling' with
    | scalar =>
      simp only [List.cons_append, List.append_assoc, List.cons.injEq, true_and, List.nil_append] at same
      exact absurd same.symm Token.words_ne_forMark
    | loop _ inner' =>
      simp only [List.cons_append, List.append_assoc, List.cons.injEq, true_and, List.nil_append] at same
      obtain ⟨rest_eq, spelled⟩ := ih inner' same.2
      exact ⟨(List.cons.inj rest_eq).2, spelled⟩

/-- The tokens of a rule determine the words of its body. -/
theorem Rule.Spelling.words_eq {rule rule' : Rule} (spelling : Spelling body tokens rule)
    (spelling' : Spelling other tokens rule') :
    ∃ words, body words rule.innermost ∧ other words rule'.innermost := by
  cases spelling with
  | scalar inner _ =>
    generalize whole : Token.ifMark :: _ = tokens at spelling'
    cases spelling' with
    | scalar inner' _ =>
      exact (inner.words_eq inner' (List.cons.inj whole).2).2
    | vector => cases whole
  | vector _ inner _ =>
    generalize whole : Token.forMark :: _ = tokens at spelling'
    cases spelling' with
    | scalar => cases whole
    | vector _ inner' _ =>
      simp only [List.cons.injEq, true_and] at whole
      exact (inner.words_eq inner' whole.2).2

/-- A condition has a body, and what its words spell may be given otherwise. -/
theorem Condition.Spelling.exists_words {loops : Nat} {condition : Condition}
    (spelling : Spelling body loops tokens condition) :
    ∃ words, body words condition.innermost ∧
      ∀ other : List String → Expr → Prop, other words condition.innermost →
        Spelling other loops tokens condition := by
  induction spelling with
  | @scalar loops words expr spelled => exact ⟨words, spelled, fun _ spelled' => .scalar spelled'⟩
  | loop wellFormed _ ih =>
    obtain ⟨words, spelled, respell⟩ := ih
    exact ⟨words, spelled, fun other spelled' => .loop wellFormed (respell other spelled')⟩

/-- A rule has a body, and what its words spell may be given otherwise. -/
theorem Rule.Spelling.exists_words {rule : Rule} (spelling : Spelling body tokens rule) :
    ∃ words, body words rule.innermost ∧
      ∀ other : List String → Expr → Prop, other words rule.innermost →
        Spelling other tokens rule := by
  cases spelling with
  | scalar inner follows =>
    obtain ⟨words, spelled, respell⟩ := inner.exists_words
    exact ⟨words, spelled, fun other spelled' => .scalar (respell other spelled') follows⟩
  | vector wellFormed inner follows =>
    obtain ⟨words, spelled, respell⟩ := inner.exists_words
    exact ⟨words, spelled, fun other spelled' => .vector wellFormed (respell other spelled') follows⟩

theorem Rule.Spelling.mono {rule : Rule} (spelling : Spelling body tokens rule)
    (implies : ∀ words expr, body words expr → other words expr) : Spelling other tokens rule := by
  obtain ⟨words, spelled, respell⟩ := spelling.exists_words
  exact respell other (implies _ _ spelled)

/-- Words in braces after `IF:` spell a rule. -/
theorem Rule.Spelling.ofWords (words : List String) (expr : Expr) :
    Spelling (fun words' _ => words' = words)
      (.ifMark :: .openBrace :: (words.map .word ++ [.closeBrace])) (.scalar (.scalar expr)) := by
  have condition : Condition.Spelling (fun words' _ => words' = words) maxLoopDepth
      (.openBrace :: (words.map .word ++ [.closeBrace])) (.scalar expr) := .scalar rfl
  have rule := Rule.Spelling.scalar condition .absent
  rwa [List.append_nil] at rule

end DocRules

import DocRules.Proofs.Evaluation.TwoPass
import DocRules.Proofs.Grammar.Reading
import DocRules.Proofs.Text.Replace

/-! # Indexed leaves

The indices of the active loops are put into a string leaf only if the leaf is marked as indexed. A
rule that is read from text marks exactly the leaves with both brackets (`Rule.marked_of_parse`), and
into all others nothing can be put, so its direct evaluation is that of the rule with every leaf
marked (`Rule.direct_indexAll`). A rule that is built otherwise may leave a mark out; its leaf is then
a path as it stands.
-/

namespace DocRules

namespace Indices

/-- Nothing is put into a path that lacks a bracket. -/
theorem substitute_of_not_mentionsIndex (indices : Indices) {path : String}
    (plain : (Value.string path).mentionsIndex = false) : indices.substitute path = path := by
  have lacks : '[' ∉ path.toList ∨ ']' ∉ path.toList := by
    simpa [Value.mentionsIndex, Decidable.not_and_iff_or_not, Decidable.imp_iff_not_or] using plain
  rw [substitute, ← String.toList_inj, String.toList_ofList]
  induction indices with
  | nil => rfl
  | cons entry indices ih =>
    obtain ⟨name, index⟩ := entry
    have kept : Text.replaceFirst ('[' :: name.toList ++ [']']) ('.' :: (toString index).toList)
        path.toList = path.toList := by
      rcases lacks with noOpen | noClose
      · exact Text.replaceFirst_of_notMem _ List.mem_cons_self noOpen
      · exact Text.replaceFirst_of_notMem _ (List.mem_append_right _ List.mem_cons_self) noClose
    simp only [List.foldl_cons, kept, ih]

/-- For a leaf that is marked as its text asks it makes no difference whether the mark is set. -/
theorem leafPath_mentionsIndex (indices : Indices) (path : String) :
    indices.leafPath path (Value.string path).mentionsIndex = indices.leafPath path true := by
  cases marked : (Value.string path).mentionsIndex with
  | true => rfl
  | false => simp [leafPath, substitute_of_not_mentionsIndex indices marked]

end Indices

theorem Value.mentionsIndex_iff {value : Value} :
    value.mentionsIndex = true ↔ ∃ text, value = .string text ∧ '[' ∈ text.toList ∧ ']' ∈ text.toList := by
  cases value with
  | string text => simp [mentionsIndex]
  | int | float | bool => simp [mentionsIndex]

/-- Every leaf is marked as its text asks. -/
def Expr.Marked : Expr → Prop
  | .leaf value indexed => indexed = value.mentionsIndex
  | .binary _ lhs rhs => lhs.Marked ∧ rhs.Marked

theorem Expr.Marked.of_mem_leaves {expr leaf : Expr} (marked : expr.Marked) (among : leaf ∈ expr.leaves) :
    leaf.Marked := by
  induction expr with
  | leaf value indexed =>
    obtain rfl := List.mem_singleton.mp among
    exact marked
  | binary operator lhs rhs ihl ihr =>
    rcases List.mem_append.mp among with left | right
    · exact ihl marked.1 left
    · exact ihr marked.2 right

/-- The marked leaves are the strings with both brackets. -/
theorem Expr.Marked.indexed_iff {expr : Expr} {value : Value} {indexed : Bool} (marked : expr.Marked)
    (among : .leaf value indexed ∈ expr.leaves) :
    indexed = true ↔ ∃ path, value = .string path ∧ '[' ∈ path.toList ∧ ']' ∈ path.toList := by
  obtain rfl : indexed = value.mentionsIndex := marked.of_mem_leaves among
  exact Value.mentionsIndex_iff

/-- The same expression with every leaf marked as indexed. -/
def Expr.indexAll : Expr → Expr
  | .leaf value _ => .leaf value true
  | .binary operator lhs rhs => .binary operator lhs.indexAll rhs.indexAll

def Condition.indexAll : Condition → Condition
  | .scalar expr => .scalar expr.indexAll
  | .loop header body => .loop header body.indexAll

def Rule.indexAll : Rule → Rule
  | .scalar condition => .scalar condition.indexAll
  | .vector header condition => .vector header condition.indexAll

private theorem Expr.resolved_indexAll {expr : Expr} (indices : Indices) (marked : expr.Marked) :
    expr.indexAll.resolved indices = expr.resolved indices := by
  induction expr with
  | leaf value indexed =>
    obtain rfl : indexed = value.mentionsIndex := marked
    cases value with
    | string path => simp only [indexAll, resolved, Indices.leafPath_mentionsIndex]
    | int | float | bool => rfl
  | binary operator lhs rhs ihl ihr => simp only [indexAll, resolved, ihl marked.1, ihr marked.2]

private theorem Condition.alike_indexAll {condition : Condition} (source : Source) (indices : Indices)
    (marked : condition.innermost.Marked) :
    condition.indexAll.Alike source indices condition indices := by
  induction condition generalizing indices with
  | scalar expr => exact Expr.resolved_indexAll indices marked
  | loop header body ih => exact ⟨rfl, fun index => ih ((header.index, index) :: indices) marked⟩

/-- If the leaves are marked as their texts ask, the indices may be put into every string leaf. -/
theorem Rule.direct_indexAll {rule : Rule} (marked : rule.innermost.Marked) (policy : Policy)
    (document : Document) : rule.indexAll.direct policy document = rule.direct policy document := by
  have consulted (condition : Condition) (marked : condition.innermost.Marked) (indices : Indices) :
      condition.indexAll.consult (.ofDocument document) indices =
        condition.consult (.ofDocument document) indices :=
    Condition.consult_of_alike (condition.alike_indexAll _ indices marked)
  have held (condition : Condition) (marked : condition.innermost.Marked) (indices : Indices) :
      condition.indexAll.holdsFrom (.ofDocument document) indices =
        condition.holdsFrom (.ofDocument document) indices :=
    Condition.holdsFrom_of_alike (condition.alike_indexAll _ indices marked)
  cases rule with
  | scalar condition =>
    simp only [direct, asLoops, indexAll, verdictFrom, consulted condition marked,
      held condition marked]
  | vector header condition =>
    simp only [direct, asLoops, indexAll, Condition.consult, verdictFrom, consulted condition marked,
      held condition marked]

private theorem Expr.WrittenBy.marked {words : List String} {expr : Expr} (written : expr.WrittenBy words) :
    expr.Marked := by
  induction expr with
  | leaf value indexed =>
    obtain ⟨word, -, -, same⟩ := written
    simp only [ofWord, ofValue, leaf.injEq] at same
    obtain ⟨rfl, rfl⟩ := same
    rfl
  | binary operator lhs rhs ihl ihr => exact ⟨ihl written.2.1, ihr written.2.2⟩

/-- A rule that is read from text marks its leaves as their texts ask. -/
theorem Rule.marked_of_parse {text : String} {rule : Rule} (parsed : Rule.parse text = .ok rule) :
    rule.innermost.Marked := by
  obtain ⟨words, reduced, -⟩ := (Rule.parse_eq_ok_iff.mp parsed).exists_words
  have tree := (Reduction.ofWords_eq_ok_iff.mp reduced).1
  exact (Reduction.writtenBy_of_reduced? tree).marked

theorem Condition.Spelling.wellFormed {body : List String → Expr → Prop} {loops : Nat}
    {tokens : List Token} {condition : Condition} (spelling : Spelling body loops tokens condition) :
    ∀ header ∈ condition.headers, header.WellFormed := by
  induction spelling with
  | scalar => simp [headers]
  | loop wellFormed _ ih =>
    intro header member
    rcases List.mem_cons.mp member with rfl | member
    · exact wellFormed
    · exact ih header member

theorem Rule.wellFormed_of_parse {text : String} {rule : Rule} (parsed : Rule.parse text = .ok rule) :
    ∀ header ∈ rule.headers, header.WellFormed := by
  have spelling := Rule.parse_eq_ok_iff.mp parsed
  generalize Token.ofRuleText text = tokens at spelling
  cases spelling with
  | scalar inner => exact inner.wellFormed
  | vector wellFormed inner =>
    intro header member
    rcases List.mem_cons.mp member with rfl | member
    · exact wellFormed
    · exact inner.wellFormed header member

/-- A rule that is read from text has no equals sign in the index of a loop. -/
theorem Rule.plain_of_parse {text : String} {rule : Rule} (parsed : Rule.parse text = .ok rule) :
    rule.Plain :=
  fun header member => (Rule.wellFormed_of_parse parsed header member).equals_notMem

/-- An engine gives what a direct evaluation of the rule gives, which puts the indices of the active
loops into the leaves that are marked as indexed. Rules from text satisfy the condition on the indices
of loops and mark exactly the leaves with both brackets, and for them the indices may be put into every
string leaf. -/
theorem Engine.evaluateDocument_eq_direct (engine : Engine) (document : Document) (rule : Rule) :
    (rule.Plain → engine.evaluateDocument rule document =
      (rule.direct engine.policy document).map Prod.fst) ∧
    ∀ text, Rule.parse text = .ok rule → rule.Plain ∧
      (∀ value indexed, .leaf value indexed ∈ rule.innermost.leaves →
        (indexed = true ↔ ∃ path, value = .string path ∧ '[' ∈ path.toList ∧ ']' ∈ path.toList)) ∧
      rule.direct engine.policy document = rule.indexAll.direct engine.policy document := by
  refine ⟨?_, ?_⟩
  · intro plain
    exact engine.evaluateDocument_of_plain plain document
  · intro text parsed
    have marked := Rule.marked_of_parse parsed
    exact ⟨Rule.plain_of_parse parsed, fun _ _ among => marked.indexed_iff among,
      (Rule.direct_indexAll marked engine.policy document).symm⟩

/-- The theorem at nested loops over arrays of different lengths, one of them inside the other. -/
theorem Engine.evaluateDocument_of_nested :
    let rule : Rule := .vector ⟨"i", "0", "xs.size()"⟩ (.loop ⟨"j", "0", "xs[i].ys.size()"⟩ (.scalar
      (.binary .eq (.leaf (.string "xs[i].ys[j]") true) (.leaf (.int 1) false))))
    let document : Document := .ofTable
      ⟨[("xs.0.ys.0", .int 1), ("xs.1.ys.0", .int 1), ("xs.1.ys.1", .int 2)],
        [("xs", 2), ("xs.0.ys", 1), ("xs.1.ys", 2)], []⟩
    Rule.parse
        "FOR: i=0:xs.size() IF: \x7b FOR: j=0:xs[i].ys.size() \x7b xs[i].ys[j] == 1 \x7d \x7d" = .ok rule ∧
      rule.Plain ∧ (⟨.abort⟩ : Engine).evaluateDocument rule document = .ok (.vector [true, false]) := by
  intro rule document
  have parsed : Rule.parse
      "FOR: i=0:xs.size() IF: \x7b FOR: j=0:xs[i].ys.size() \x7b xs[i].ys[j] == 1 \x7d \x7d" =
        .ok rule := by
    rw [← Outcome.toOption_eq_some_iff]
    decide +kernel
  obtain ⟨evaluated, fromText⟩ := Engine.evaluateDocument_eq_direct ⟨.abort⟩ document rule
  have plain : rule.Plain := (fromText _ parsed).1
  have direct : (rule.direct .abort document).map Prod.fst = .ok (.vector [true, false]) := by
    rw [← Outcome.toOption_eq_some_iff]
    decide +kernel
  exact ⟨parsed, plain, (evaluated plain).trans direct⟩

/-- Into a leaf that is not marked no index is put, although its text asks for it. -/
theorem Engine.evaluateDocument_unmarked :
    let rule : Rule := .vector ⟨"i", "0", "xs.size()"⟩
      (.scalar (.binary .eq (.leaf (.string "xs[i]") false) (.leaf (.int 1) false)))
    let document : Document := .ofTable ⟨[("xs.0", .int 1)], [("xs", 1)], []⟩
    rule.Plain ∧ (⟨.recordFalse⟩ : Engine).evaluateDocument rule document = .ok (.vector [false]) ∧
      (rule.indexAll.direct .recordFalse document).map Prod.fst = .ok (.vector [true]) := by
  intro rule document
  have plain : rule.Plain := by
    intro header member
    obtain rfl := List.mem_singleton.mp member
    decide
  refine ⟨plain, ?_, ?_⟩
  · rw [Engine.evaluateDocument_of_plain _ plain, ← Outcome.toOption_eq_some_iff]
    decide +kernel
  · rw [← Outcome.toOption_eq_some_iff]
    decide +kernel

end DocRules

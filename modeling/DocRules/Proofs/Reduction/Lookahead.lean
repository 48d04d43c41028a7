import DocRules.Proofs.Precedence

/-! # One operator of lookahead

The reduction keeps operands and operators open on two stacks and closes most of them only when the
body ends. If operands and operators take turns, the same tree comes out of a single pass that keeps
nothing open and looks ahead by one operator (`Expr.ahead?`). So such a body has exactly one way to be
refused, which is that this tree is too deep (`Parse.condition_of_takesTurns`).
-/

namespace DocRules

open Outcome

/-- From an operand to an operand, every second word is an operator. -/
def TakesTurns (words : List String) : Prop :=
  words.length % 2 = 1 ∧
    ∀ (n : Nat) (inside : n < words.length), (Operator.ofWord? words[n]).isSome ↔ n % 2 = 1

instance (words : List String) : Decidable (TakesTurns words) :=
  inferInstanceAs (Decidable (_ ∧ _))

/-- The tree of words that take turns. An operator has the next operand on its right and nothing more
if it is a comparison and the operator after it a connective; otherwise it has all that follows. -/
def Expr.ahead? : List String → Option Expr
  | [word] => some (.ofWord word)
  | [first, joining, second] => do
    return .binary (← Operator.ofWord? joining) (.ofWord first) (.ofWord second)
  | first :: joining :: second :: following :: rest => do
    let operator ← Operator.ofWord? joining
    let next ← Operator.ofWord? following
    if operator.isComparison && next.isConnective then
      return .binary next (.binary operator (.ofWord first) (.ofWord second)) (← ahead? rest)
    else return .binary operator (.ofWord first) (← ahead? (second :: following :: rest))
  | _ => none

private theorem Operator.word_of_ofWord? {word : String} {operator : Operator}
    (written : Operator.ofWord? word = some operator) : operator.word = word := by
  unfold ofWord? at written
  split at written <;> cases written <;> rfl

namespace TakesTurns

variable {first joining : String} {words : List String}

theorem singleton_iff : TakesTurns [first] ↔ Operator.ofWord? first = none := by
  simp [TakesTurns]

/-- An operand and an operator may be put before words that take turns. -/
theorem cons_cons_iff :
    TakesTurns (first :: joining :: words) ↔
      Operator.ofWord? first = none ∧ (∃ operator, Operator.ofWord? joining = some operator) ∧
        TakesTurns words := by
  have parity (n : Nat) : (n + 1 + 1) % 2 = n % 2 := Nat.add_mod_right n 2
  constructor
  · rintro ⟨odd, turn⟩
    refine ⟨?_, ?_, ?_, ?_⟩
    · simpa using turn 0 (Nat.succ_pos _)
    · simpa [Option.isSome_iff_exists] using turn 1 (Nat.succ_lt_succ (Nat.succ_pos _))
    · simpa [parity] using odd
    · intro n inside
      simpa [parity] using turn (n + 1 + 1) (Nat.add_lt_add_right inside 2)
  · rintro ⟨operand, ⟨operator, written⟩, odd, turn⟩
    refine ⟨by simpa [parity] using odd, ?_⟩
    intro n inside
    match n, inside with
    | 0, _ => simp [operand]
    | 1, _ => simp [written]
    | n + 2, inside => simpa [parity] using turn n (by simpa using inside)

/-- Words that take turns are the words of a chain. -/
theorem exists_chain : ∀ {words : List String}, TakesTurns words → ∃ chain : Chain, chain.words = words
  | [], turns => absurd turns.1 (by decide)
  | [word], turns => ⟨⟨word, [], singleton_iff.mp turns, by simp⟩, rfl⟩
  | first :: joining :: words, turns => by
    obtain ⟨operand, ⟨operator, written⟩, turns⟩ := cons_cons_iff.mp turns
    obtain ⟨chain, rfl⟩ := exists_chain turns
    have leaf : operator ≠ .nil ∧ Operator.ofWord? chain.first = none :=
      ⟨Operator.ne_nil_of_ofWord? written, chain.first_leaf⟩
    refine ⟨⟨first, (operator, chain.first) :: chain.links, operand, ?_⟩, ?_⟩
    · exact List.forall_mem_cons.mpr ⟨leaf, chain.links_leaf⟩
    · rw [← Operator.word_of_ofWord? written]
      rfl

private theorem of_links : ∀ {links : List (Operator × String)} {first : String},
    Operator.ofWord? first = none →
    (∀ link ∈ links, link.1 ≠ .nil ∧ Operator.ofWord? link.2 = none) →
    TakesTurns (first :: Chain.linkWords links)
  | [], _, operand, _ => singleton_iff.mpr operand
  | (_, _) :: _, _, operand, wellFormed => by
    obtain ⟨⟨written, leaf⟩, later⟩ := List.forall_mem_cons.mp wellFormed
    exact cons_cons_iff.mpr ⟨operand, ⟨_, Operator.ofWord?_word written⟩, of_links leaf later⟩

theorem iff_exists_chain : TakesTurns words ↔ ∃ chain : Chain, chain.words = words := by
  constructor
  · exact exists_chain
  · rintro ⟨chain, rfl⟩
    exact of_links chain.first_leaf chain.links_leaf

end TakesTurns

/-- Reading with one operator of lookahead gives the tree of an operand and its links. -/
theorem Expr.ahead?_links : ∀ (links : List (Operator × String)) (first : String),
    (∀ link ∈ links, link.1 ≠ .nil) →
    ahead? (first :: Chain.linkWords links) =
      some ((Expr.ofWord first).reading (Chain.leaves links))
  | [], _, _ => rfl
  | [(operator, second)], first, written => by
    have here := Operator.ofWord?_word (written _ List.mem_cons_self)
    simp [Chain.linkWords, ahead?, here, Chain.leaves, reading]
  | (operator, second) :: (next, third) :: links, first, written => by
    obtain ⟨here, tail⟩ := List.forall_mem_cons.mp written
    obtain ⟨here', later⟩ := List.forall_mem_cons.mp tail
    -- either all that follows is the right operand, or the reading goes on behind the next operator
    have near := ahead?_links ((next, third) :: links) second tail
    have far := ahead?_links links third later
    simp only [Chain.linkWords, Chain.leaves, List.flatMap_cons, List.map_cons, List.cons_append,
      List.nil_append] at near far ⊢
    simp only [ahead?, Operator.ofWord?_word here, Operator.ofWord?_word here', near, far, reading,
      Operator.yieldsTo_eq, Bool.and_comm next.isConnective, Option.bind_eq_bind, Option.bind_some,
      Option.pure_def]
    split <;> rfl

theorem Chain.ahead?_words (chain : Chain) : Expr.ahead? chain.words = some chain.read :=
  Expr.ahead?_links chain.links chain.first fun link member => (chain.links_leaf link member).1

namespace Parse

/-- Words that take turns have a tree by one operator of lookahead. Between braces they are read as the
condition of this tree, or refused if the tree is too deep. -/
theorem condition_of_takesTurns {finish loops : Nat} {words : List String} {lexemes rest : List Lexeme}
    (turns : TakesTurns words)
    (reads : Reads lexemes (.openBrace :: (words.map .word ++ [.closeBrace])) rest) :
    (∃ tree, Expr.ahead? words = some tree ∧
      condition finish loops lexemes =
        if tree.depth ≤ maxExprDepth then .ok (.scalar tree, rest)
        else .error (.malformed .exprTooDeep)) ∧
      Malformation.exprTooDeep.text = "expression nests too deeply" := by
  obtain ⟨chain, rfl⟩ := TakesTurns.iff_exists_chain.mp turns
  refine ⟨⟨chain.read, chain.ahead?_words, ?_⟩, rfl⟩
  rw [condition_of_words reads, chain.ofWords_words, Reduction.limited]
  split <;> rename_i limit
  · rw [if_neg (Nat.not_le.mpr limit), map_error]
  · rw [if_pos (Nat.le_of_not_lt limit), map_ok]

/-- The theorem at a connective after two comparisons, which is put below the first of them, and at 512
connectives in a row, which are one too many. -/
theorem condition_of_turns_at_limit :
    condition 0 0 (Lexeme.ofText "\x7b a == b == c && d \x7d") =
      .ok (.scalar (.binary .eq (.ofWord "a")
        (.binary .and (.binary .eq (.ofWord "b") (.ofWord "c")) (.ofWord "d"))), []) ∧
    ∃ (chain : Chain) (lexemes : List Lexeme),
      chain.first = "a" ∧ chain.links = List.replicate 512 (.and, "a") ∧
      lexemes.map Lexeme.token = .openBrace :: (chain.words.map .word ++ [.closeBrace]) ∧
      condition 0 0 lexemes = .error (.malformed .exprTooDeep) := by
  constructor
  · have turns : TakesTurns ["a", "==", "b", "==", "c", "&&", "d"] := by decide
    have tokens : (Lexeme.ofText "\x7b a == b == c && d \x7d").map Lexeme.token =
        [.openBrace, .word "a", .word "==", .word "b", .word "==", .word "c", .word "&&", .word "d",
          .closeBrace] := by decide +kernel
    obtain ⟨⟨tree, ahead, read⟩, -⟩ := condition_of_takesTurns turns (reads_all_iff.mpr tokens)
    obtain rfl := Option.some.inj ahead
    exact read
  · have links : ∀ link ∈ List.replicate 512 (Operator.and, "a"),
        link.1 ≠ .nil ∧ Operator.ofWord? link.2 = none := by
      intro link member
      obtain rfl := List.eq_of_mem_replicate member
      decide
    let chain : Chain := ⟨"a", _, by decide, links⟩
    let tokens : List Token := .openBrace :: (chain.words.map .word ++ [.closeBrace])
    have mapped : (tokens.map (⟨·, 0, 0⟩)).map Lexeme.token = tokens := by simp [Function.comp_def]
    have deep : ((Expr.ofWord "a").reading
        (Chain.leaves (List.replicate 512 (.and, "a")))).depth = 513 := by decide +kernel
    obtain ⟨⟨tree, ahead, read⟩, -⟩ :=
      condition_of_takesTurns (TakesTurns.iff_exists_chain.mpr ⟨chain, rfl⟩) (reads_all_iff.mpr mapped)
    have same : tree = chain.read := Option.some.inj (ahead.symm.trans chain.ahead?_words)
    refine ⟨chain, _, rfl, rfl, mapped, read.trans (if_neg ?_)⟩
    rw [same, Chain.read, deep]
    decide

end Parse

end DocRules

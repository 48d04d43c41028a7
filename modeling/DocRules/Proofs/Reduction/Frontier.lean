import DocRules.Proofs.Grammar.Reading

/-! # The frontier of a tree

Whatever the order of the words in a body, the reduction keeps account of them: the leaves of the open
operands, read from the first operand to the last, are the operands read so far, and the operators in them
and between them are the operators read so far (`Reduction.Accounts`). Pushing a word and closing an operator
keep the account. So the leaves of the tree are the operands of the body in their order, and its operators
are those of the body in some order (`Reduction.Accounts.of_ofWords`).

A tree has one leaf more than it has operators. A body with any other number of operands has no tree and is
refused where it ends, if not before, and always as malformed (`Rule.parse_of_reaches`).
-/

namespace DocRules

open Outcome

/-- A tree has one leaf more than it has operators. -/
theorem Expr.length_leaves (expr : Expr) : expr.leaves.length = expr.operators.length + 1 := by
  induction expr with
  | leaf => rfl
  | binary operator lhs rhs ihl ihr =>
    simp only [leaves, operators, List.length_append, List.length_cons, ihl, ihr]
    omega

/-- The operands among the words of a body, which are all but the operators. -/
def operandWords (words : List String) : List String :=
  words.filter fun word => (Operator.ofWord? word).isNone

def operatorWords (words : List String) : List Operator :=
  words.filterMap Operator.ofWord?

namespace Reduction

/-- The stacks hold the words that have been read: the operands in their order, and the operators. -/
structure Accounts (pending : Reduction) (words : List String) : Prop where
  leaves : pending.operands.reverse.flatMap Expr.leaves = (operandWords words).map Expr.ofWord
  operators : (pending.operands.flatMap Expr.operators ++ pending.operators).Perm (operatorWords words)

namespace Accounts

variable {operands closed : List Expr} {operators : List Operator} {pending next : Reduction}
  {words : List String} {operator : Operator} {word : String}

private theorem empty : Accounts .empty [] where
  leaves := rfl
  operators := .refl []

theorem pushLeaf (accounts : Accounts pending words) (leaf : Operator.ofWord? word = none) :
    Accounts ⟨.ofWord word :: pending.operands, pending.operators⟩ (words ++ [word]) where
  leaves := by
    simp [operandWords, leaf, accounts.leaves, Expr.ofWord, Expr.ofValue, Expr.leaves]
  operators := by
    simpa [operatorWords, leaf, Expr.ofWord, Expr.ofValue, Expr.operators] using accounts.operators

theorem pushOpen (accounts : Accounts pending words) (written : Operator.ofWord? word = some operator) :
    Accounts ⟨pending.operands, operator :: pending.operators⟩ (words ++ [word]) where
  leaves := by
    simp [operandWords, written, accounts.leaves]
  operators := by
    have read : operatorWords (words ++ [word]) = operatorWords words ++ [operator] := by
      simp [operatorWords, written]
    rw [read]
    exact List.perm_middle.trans ((accounts.operators.cons operator).trans
      (List.perm_append_singleton operator _).symm)

/-- Closing an operator puts it between the leaves of its operands and moves no leaf. -/
theorem close (accounts : Accounts ⟨operands, operator :: operators⟩ words)
    (success : Reduction.close operator operands = .ok closed) : Accounts ⟨closed, operators⟩ words := by
  match operands, success with
  | rhs :: lhs :: below, success =>
    simp only [Reduction.close] at success
    split at success
    · contradiction
    · obtain rfl := Except.ok.inj success
      have moved : ((Expr.binary operator lhs rhs :: below).flatMap Expr.operators ++ operators).Perm
          ((rhs :: lhs :: below).flatMap Expr.operators ++ operator :: operators) := by
        rw [List.perm_iff_count]
        intro counted
        simp only [List.flatMap_cons, Expr.operators, List.count_append, List.count_cons]
        omega
      refine ⟨?_, moved.trans accounts.operators⟩
      rw [← accounts.leaves]
      simp [Expr.leaves]

private theorem push (accounts : Accounts pending words) (success : pending.push word = .ok next) :
    Accounts next (words ++ [word]) := by
  obtain ⟨operands, operators⟩ := pending
  cases written : Operator.ofWord? word with
  | none =>
    rw [push_of_leaf written] at success
    obtain rfl := Except.ok.inj success
    exact accounts.pushLeaf written
  | some operator =>
    by_cases yields : ∃ top ∈ operators.head?, operator.yieldsTo top = true
    · obtain ⟨top, first, yields⟩ := yields
      obtain ⟨below, rfl⟩ := List.head?_eq_some_iff.mp first
      rw [push_of_yields written yields, map_eq_ok_iff] at success
      obtain ⟨closed, success, rfl⟩ := success
      exact (accounts.close success).pushOpen written
    · have stays : ∀ top ∈ operators.head?, operator.yieldsTo top = false := by simpa using yields
      rw [push_of_stays written stays] at success
      obtain rfl := Except.ok.inj success
      exact accounts.pushOpen written

theorem run {later : List String} (accounts : Accounts pending words)
    (success : later.foldlM (fun pending word => pending.push word) pending = .ok next) :
    Accounts next (words ++ later) := by
  induction later generalizing pending words with
  | nil =>
    obtain rfl := Except.ok.inj success
    rwa [List.append_nil]
  | cons word later ih =>
    rw [List.foldlM_cons, bind_eq_ok_iff] at success
    obtain ⟨middle, pushed, success⟩ := success
    rw [List.append_cons]
    exact ih (accounts.push pushed) success

/-- The tree that is left in the end has what the stacks held. -/
theorem finish {expr : Expr} (accounts : Accounts pending words) (success : pending.finish = .ok expr) :
    expr.leaves = (operandWords words).map .ofWord ∧ expr.operators.Perm (operatorWords words) := by
  obtain ⟨operands, operators⟩ := pending
  rw [Reduction.finish, bind_eq_ok_iff] at success
  obtain ⟨left, closed, single⟩ := success
  have kept : Accounts ⟨left, []⟩ words := by
    clear single
    induction operators generalizing operands with
    | nil =>
      obtain rfl := Except.ok.inj closed
      exact accounts
    | cons operator operators ih =>
      rw [List.foldlM_cons, bind_eq_ok_iff] at closed
      obtain ⟨middle, here, closed⟩ := closed
      exact ih middle (accounts.close here) closed
  cases left with
  | nil => contradiction
  | cons only others =>
    cases others with
    | cons => contradiction
    | nil =>
      obtain rfl := Except.ok.inj single
      exact ⟨by simpa using kept.leaves, by simpa using kept.operators⟩

/-- The tree of a body has the operands of the body in their order, and its operators. -/
theorem of_ofWords {expr : Expr} (success : ofWords words = .ok expr) :
    expr.leaves = (operandWords words).map .ofWord ∧ expr.operators.Perm (operatorWords words) := by
  rw [ofWords, complete, bind_eq_ok_iff] at success
  obtain ⟨last, read, success⟩ := success
  exact (empty.run read).finish success

/-- A body that has a tree has one operand more than it has operators. -/
theorem length_of_ofWords {expr : Expr} (success : ofWords words = .ok expr) :
    (operandWords words).length = (operatorWords words).length + 1 := by
  obtain ⟨leaves, operators⟩ := of_ofWords success
  rw [← operators.length_eq, ← expr.length_leaves, leaves, List.length_map]

end Accounts

end Reduction

/-- Inside any number of loops the tokens come to words that a brace closes. What follows is left open. -/
inductive Condition.Reaches (words : List String) : List Token → Prop
  | body (rest : List Token) :
    Reaches words (.openBrace :: (words.map .word ++ .closeBrace :: rest))
  | loop {header : LoopHeader} {tokens : List Token} (wellFormed : header.WellFormed)
    (inner : Reaches words tokens) :
    Reaches words (.openBrace :: .forMark :: .word header.text :: tokens)

inductive Rule.Reaches (words : List String) : List Token → Prop
  | scalar {tokens : List Token} (inner : Condition.Reaches words tokens) :
    Reaches words (.ifMark :: tokens)
  | vector {header : LoopHeader} {tokens : List Token} (wellFormed : header.WellFormed)
    (inner : Condition.Reaches words tokens) :
    Reaches words (.forMark :: .word header.text :: .ifMark :: tokens)

namespace Parse

variable {finish loops : Nat} {words : List String} {lexemes : List Lexeme}

/-- Words without a tree are refused at any depth. -/
theorem condition_of_reaches (refused : ∃ reason, Reduction.ofWords words = .error (.malformed reason))
    (reaches : Condition.Reaches words (lexemes.map Lexeme.token)) :
    ∃ reason, condition finish loops lexemes = .error (.malformed reason) := by
  generalize whole : lexemes.map Lexeme.token = tokens at reaches
  induction reaches generalizing loops lexemes with
  | body rest =>
    obtain ⟨reason, refused⟩ := refused
    have split : lexemes.map Lexeme.token =
        (.openBrace :: (words.map .word ++ [.closeBrace])) ++ rest := by
      simpa using whole
    obtain ⟨after, reads, -⟩ := reads_split split
    exact ⟨reason, by rw [condition_of_words reads, refused, map_error]⟩
  | @loop header tokens wellFormed inner ih =>
    obtain ⟨first, after, rfl, brace, reads⟩ := (reads_all_iff.mpr whole).exists_cons
    obtain ⟨next, after, rfl, mark, reads⟩ := reads.exists_cons
    have parts : Reads after ([.word header.text] ++ tokens) [] := reads
    obtain ⟨middle, headed, reads⟩ := reads_append.mp parts
    rw [condition_of_loop (reads_cons.mpr ⟨brace, reads_nil.mpr rfl⟩) mark,
      header_eq_ok_iff.mpr ⟨headed, wellFormed⟩]
    cases loops with
    | zero => exact ⟨_, rfl⟩
    | succ loops =>
      obtain ⟨reason, failed⟩ : ∃ reason, condition finish loops middle = .error (.malformed reason) :=
        ih (reads_all_iff.mp reads)
      exact ⟨reason, by simp only [ok_bind, failed, error_bind]⟩

private theorem guarded_of_reaches (refused : ∃ reason, Reduction.ofWords words = .error (.malformed reason))
    (reaches : Condition.Reaches words (lexemes.map Lexeme.token)) :
    ∃ reason, guarded finish lexemes = .error (.malformed reason) := by
  obtain ⟨reason, failed⟩ := condition_of_reaches refused reaches
  exact ⟨reason, by rw [guarded, failed, error_bind]⟩

private theorem whole_of_reaches (refused : ∃ reason, Reduction.ofWords words = .error (.malformed reason))
    (reaches : Rule.Reaches words (lexemes.map Lexeme.token)) :
    ∃ reason, whole finish lexemes = .error (.malformed reason) := by
  generalize mapped : lexemes.map Lexeme.token = tokens at reaches
  cases reaches with
  | scalar inner =>
    obtain ⟨first, after, rfl, mark, reads⟩ := (reads_all_iff.mpr mapped).exists_cons
    rw [← reads_all_iff.mp reads] at inner
    obtain ⟨reason, failed⟩ : ∃ reason, guarded finish after = .error (.malformed reason) :=
      guarded_of_reaches refused inner
    exact ⟨reason, by simp only [whole, rule, mark, failed, error_bind]⟩
  | @vector header tokens wellFormed inner =>
    obtain ⟨first, after, rfl, mark, reads⟩ := (reads_all_iff.mpr mapped).exists_cons
    have parts : Reads after ([.word header.text] ++ ([.ifMark] ++ tokens)) [] := reads
    obtain ⟨middle, headed, reads⟩ := reads_append.mp parts
    obtain ⟨guarding, marked, reads⟩ := reads_append.mp reads
    rw [← reads_all_iff.mp reads] at inner
    obtain ⟨reason, failed⟩ : ∃ reason, guarded finish guarding = .error (.malformed reason) :=
      guarded_of_reaches refused inner
    refine ⟨reason, ?_⟩
    simp only [whole, rule, mark, header_eq_ok_iff.mpr ⟨headed, wellFormed⟩,
      expect_eq_ok_iff.mpr marked, failed, ok_bind, error_bind]

end Parse

namespace Rule

/-- A text that reaches words with too few or too many operands is malformed. -/
theorem parse_of_reaches {text : String} {words : List String}
    (reaches : Reaches words (Token.ofRuleText text))
    (apart : (operandWords words).length ≠ (operatorWords words).length + 1) :
    ∃ reason, Rule.parse text = .error (.malformed reason) := by
  apply Parse.whole_of_reaches _ reaches
  cases reduced : Reduction.ofWords words with
  | ok expr => exact absurd (Reduction.Accounts.length_of_ofWords reduced) apart
  | error error =>
    obtain ⟨reason, rfl⟩ := Reduction.malformed_of_ofWords reduced
    exact ⟨reason, rfl⟩

/-- The words of a body keep their operands and operators. The leaves of a rule from text are what the
operands of its body write, in their order, and its operators are those of the body in some order, one fewer
than the operands. A text that comes to the closing brace of a body with any other number of operands is
malformed. -/
theorem frontier_of_parse (text : String) :
    (∀ rule, Rule.parse text = .ok rule → ∃ words,
      Rule.Spelling (fun words' _ => words' = words) (Token.ofRuleText text) rule ∧
      rule.innermost.leaves = (operandWords words).map .ofWord ∧
      rule.innermost.operators.Perm (operatorWords words) ∧
      (operandWords words).length = (operatorWords words).length + 1) ∧
    ∀ words, Reaches words (Token.ofRuleText text) →
      (operandWords words).length ≠ (operatorWords words).length + 1 →
      ∃ reason, Rule.parse text = .error (.malformed reason) := by
  refine ⟨fun rule parsed => ?_, fun words reaches apart => parse_of_reaches reaches apart⟩
  obtain ⟨words, reduced, respell⟩ := (Rule.parse_eq_ok_iff.mp parsed).exists_words
  obtain ⟨leaves, operators⟩ := Reduction.Accounts.of_ofWords reduced
  exact ⟨words, respell (fun words' _ => words' = words) rfl, leaves, operators,
    Reduction.Accounts.length_of_ofWords reduced⟩

/-- The theorem at a body whose words are out of turn, and at one that ends in a loop with an operand too
many. -/
theorem frontier_of_out_of_turn :
    let leaf (word : String) : Expr := .leaf (.string word) false
    let rule : Rule := .scalar (.scalar
      (.binary .and (leaf "a") (.binary .gt (leaf "b") (.binary .eq (leaf "c") (leaf "d")))))
    (Rule.parse "IF: \x7b a b == c d && > \x7d" = .ok rule ∧
      rule.innermost.leaves = ["a", "b", "c", "d"].map .ofWord ∧
      rule.innermost.operators.Perm [.eq, .and, .gt]) ∧
    ∃ reason, Rule.parse "IF: \x7b FOR: i=0:xs.size() \x7b a == b c \x7d THEN:" =
      .error (.malformed reason) := by
  intro leaf rule
  constructor
  · have parsed : Rule.parse "IF: \x7b a b == c d && > \x7d" = .ok rule := by
      rw [← toOption_eq_some_iff]
      decide +kernel
    obtain ⟨words, spelling, leaves, operators, -⟩ := (frontier_of_parse _).1 rule parsed
    have tokens : Token.ofRuleText "IF: \x7b a b == c d && > \x7d" =
        .ifMark :: .openBrace :: (["a", "b", "==", "c", "d", "&&", ">"].map .word ++ [.closeBrace]) := by
      decide +kernel
    rw [tokens] at spelling
    obtain ⟨_, rfl, rfl⟩ := spelling.words_eq (Spelling.ofWords _ (.ofWord ""))
    exact ⟨parsed, leaves, operators⟩
  · have tokens : Token.ofRuleText "IF: \x7b FOR: i=0:xs.size() \x7b a == b c \x7d THEN:" =
        .ifMark :: .openBrace :: .forMark :: .word (LoopHeader.text ⟨"i", "0", "xs.size()"⟩) ::
          .openBrace :: (["a", "==", "b", "c"].map .word ++ .closeBrace :: [.thenMark]) := by
      decide +kernel
    have wellFormed : LoopHeader.WellFormed ⟨"i", "0", "xs.size()"⟩ :=
      (LoopHeader.ofWord?_eq_some_iff.mp (by decide +kernel :
        LoopHeader.ofWord? "i=0:xs.size()" = some ⟨"i", "0", "xs.size()"⟩)).2
    apply (frontier_of_parse _).2 ["a", "==", "b", "c"]
    · rw [tokens]
      exact .scalar (.loop wellFormed (.body [.thenMark]))
    · decide

end Rule

end DocRules

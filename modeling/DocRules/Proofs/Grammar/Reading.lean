import DocRules.Parse
import DocRules.Proofs.Grammar
import DocRules.Proofs.Reduction

/-! # Reading follows the grammar

Each part of a rule is read from the front of the tokens and leaves the rest. A part is read if and
only if the tokens start with a spelling of it, so a text is a rule if and only if its tokens spell
one, where the words of a body spell the expression to which they are reduced
(`Rule.parse_eq_ok_iff`).
-/

namespace DocRules

open Outcome

namespace Parse

/-- The lexemes start with the tokens, before the rest. -/
def Reads (lexemes : List Lexeme) (tokens : List Token) (rest : List Lexeme) : Prop :=
  ∃ front, lexemes = front ++ rest ∧ front.map Lexeme.token = tokens

variable {finish loops : Nat} {lexemes rest : List Lexeme} {lexeme : Lexeme} {token : Token}
  {tokens tokens' : List Token}

@[simp] theorem reads_nil : Reads lexemes [] rest ↔ lexemes = rest := by
  constructor
  · rintro ⟨front, rfl, mapped⟩
    rw [List.map_eq_nil_iff.mp mapped, List.nil_append]
  · rintro rfl
    exact ⟨[], rfl, rfl⟩

@[simp] theorem not_reads_cons : ¬ Reads [] (token :: tokens) rest := by
  rintro ⟨front, split, mapped⟩
  have empty := (List.append_eq_nil_iff.mp split.symm).1
  simp [empty] at mapped

@[simp] theorem reads_cons :
    Reads (lexeme :: lexemes) (token :: tokens) rest ↔
      lexeme.token = token ∧ Reads lexemes tokens rest := by
  constructor
  · rintro ⟨front, split, mapped⟩
    cases front with
    | nil => cases mapped
    | cons first front =>
      obtain ⟨rfl, rfl⟩ := List.cons.inj split
      obtain ⟨same, mapped⟩ := List.cons.inj mapped
      exact ⟨same, front, rfl, mapped⟩
  · rintro ⟨rfl, front, rfl, rfl⟩
    exact ⟨lexeme :: front, rfl, rfl⟩

theorem Reads.exists_cons (reads : Reads lexemes (token :: tokens) rest) :
    ∃ first after, lexemes = first :: after ∧ first.token = token ∧ Reads after tokens rest := by
  cases lexemes with
  | nil => exact absurd reads not_reads_cons
  | cons first after => exact ⟨first, after, rfl, reads_cons.mp reads⟩

theorem reads_append :
    Reads lexemes (tokens ++ tokens') rest ↔
      ∃ middle, Reads lexemes tokens middle ∧ Reads middle tokens' rest := by
  constructor
  · rintro ⟨front, rfl, mapped⟩
    obtain ⟨first, second, rfl, rfl, rfl⟩ := List.map_eq_append_iff.mp mapped
    exact ⟨second ++ rest, ⟨first, List.append_assoc .., rfl⟩, ⟨second, rfl, rfl⟩⟩
  · rintro ⟨_, ⟨first, rfl, rfl⟩, ⟨second, rfl, rfl⟩⟩
    exact ⟨first ++ second, (List.append_assoc ..).symm, List.map_append⟩

theorem reads_all_iff : Reads lexemes tokens [] ↔ lexemes.map Lexeme.token = tokens := by
  simp [Reads]

theorem expect_eq_ok_iff : expect finish token lexemes = .ok rest ↔ Reads lexemes [token] rest := by
  cases lexemes with
  | nil => simp [expect]
  | cons lexeme lexemes =>
    simp only [expect, reads_cons, reads_nil]
    split
    · simp [*]
    · simp [*]

private theorem header?_eq_some_iff {header : LoopHeader} :
    header? token = some header ↔ token = .word header.text ∧ header.WellFormed := by
  cases token with
  | word text => simp [header?, LoopHeader.ofWord?_eq_some_iff]
  | _ => simp [header?]

theorem header_eq_ok_iff {header : LoopHeader} :
    Parse.header finish lexemes = .ok (header, rest) ↔
      Reads lexemes [.word header.text] rest ∧ header.WellFormed := by
  cases lexemes with
  | nil => simp [Parse.header]
  | cons lexeme lexemes =>
    simp only [Parse.header, reads_cons, reads_nil]
    cases found : header? lexeme.token with
    | none =>
      have absent : ¬ (lexeme.token = .word header.text ∧ header.WellFormed) := by
        rw [← header?_eq_some_iff, found]
        exact Option.some_ne_none header ∘ Eq.symm
      simp only [reduceCtorEq, false_iff]
      rintro ⟨⟨same, -⟩, wellFormed⟩
      exact absent ⟨same, wellFormed⟩
    | some other =>
      obtain ⟨same, wellFormed⟩ := header?_eq_some_iff.mp found
      simp only [Except.ok.injEq, Prod.mk.injEq]
      constructor
      · rintro ⟨rfl, rfl⟩
        exact ⟨⟨same, rfl⟩, wellFormed⟩
      · rintro ⟨⟨same', rfl⟩, wellFormed'⟩
        have := header?_eq_some_iff.mpr ⟨same', wellFormed'⟩
        rw [found] at this
        exact ⟨Option.some.inj this, rfl⟩

/-- A body that a brace closes is reduced word by word. -/
theorem body_of_reads {words : List String} {pending : Reduction}
    (reads : Reads lexemes (words.map .word ++ [.closeBrace]) rest) :
    body pending lexemes = (do
      let pending ← words.foldlM (fun pending word => pending.push word) pending
      return (← pending.finish, rest)) := by
  induction words generalizing pending lexemes with
  | nil =>
    cases lexemes with
    | nil => simp at reads
    | cons lexeme lexemes =>
      simp only [List.map_nil, List.nil_append, reads_cons, reads_nil] at reads
      obtain ⟨token, rfl⟩ := reads
      simp only [body, token, List.foldlM_nil, pure_bind]
  | cons word words ih =>
    cases lexemes with
    | nil => simp at reads
    | cons lexeme lexemes =>
      simp only [List.map_cons, List.cons_append, reads_cons] at reads
      obtain ⟨token, reads⟩ := reads
      simp only [body, token, List.foldlM_cons, bind_assoc]
      congr 1
      funext pending
      exact ih reads

/-- What is read as a body is a run of words up to a closing brace. -/
theorem exists_reads_of_body {pending : Reduction} {expr : Expr}
    (read : body pending lexemes = .ok (expr, rest)) :
    ∃ words : List String, Reads lexemes (words.map .word ++ [.closeBrace]) rest := by
  induction lexemes generalizing pending with
  | nil => simp [body] at read
  | cons lexeme lexemes ih =>
    simp only [body] at read
    cases token : lexeme.token with
    | closeBrace =>
      simp only [token, bind_eq_ok_iff, pure_eq_ok, Except.ok.injEq, Prod.mk.injEq] at read
      obtain ⟨-, -, -, rfl⟩ := read
      exact ⟨[], by simp [token]⟩
    | word text =>
      simp only [token, bind_eq_ok_iff] at read
      obtain ⟨pending, -, read⟩ := read
      obtain ⟨words, reads⟩ := ih read
      exact ⟨text :: words, by simpa [token] using reads⟩
    | _ => simp [token] at read

/-- A closed body is reduced as its words are. -/
theorem body_eq_ofWords {words : List String}
    (reads : Reads lexemes (words.map .word ++ [.closeBrace]) rest) :
    body .empty lexemes = (Reduction.ofWords words).map fun expr => (expr, rest) := by
  rw [body_of_reads reads, Reduction.ofWords, Reduction.complete]
  cases words.foldlM (fun pending word => Reduction.push word pending) Reduction.empty with
  | error error => rfl
  | ok pending =>
    rw [ok_bind, ok_bind]
    cases pending.finish <;> rfl

theorem body_eq_ok_iff {expr : Expr} :
    body .empty lexemes = .ok (expr, rest) ↔
      ∃ words : List String, Reads lexemes (words.map .word ++ [.closeBrace]) rest ∧
        Reduction.ofWords words = .ok expr := by
  constructor
  · intro read
    obtain ⟨words, reads⟩ := exists_reads_of_body read
    refine ⟨words, reads, ?_⟩
    rw [body_eq_ofWords reads, map_eq_ok_iff] at read
    obtain ⟨expr', reduced, same⟩ := read
    obtain ⟨rfl, -⟩ := Prod.mk.inj same
    exact reduced
  · rintro ⟨words, reads, reduced⟩
    rw [body_eq_ofWords reads, reduced, map_ok]

/-- The words of a body spell the expression to which they are reduced. -/
def Body (words : List String) (expr : Expr) : Prop :=
  Reduction.ofWords words = .ok expr

/-- A condition without a loop mark is a body of words. -/
theorem condition_of_body {next : Lexeme} (reads : Reads lexemes [.openBrace] (next :: rest))
    (unmarked : next.token ≠ .forMark) :
    condition finish loops lexemes =
      (body .empty (next :: rest)).map fun (expr, rest) => (.scalar expr, rest) := by
  rw [condition, expect_eq_ok_iff.mpr reads]
  simp only [ok_bind, unmarked, ↓reduceIte]
  rfl

/-- Words in braces are read as the expression to which they are reduced. -/
theorem condition_of_words {words : List String}
    (reads : Reads lexemes (.openBrace :: (words.map .word ++ [.closeBrace])) rest) :
    condition finish loops lexemes =
      (Reduction.ofWords words).map fun expr => (.scalar expr, rest) := by
  obtain ⟨first, inner, rfl, brace, reads⟩ := reads.exists_cons
  have unmarked : ∃ next after, inner = next :: after ∧ next.token ≠ .forMark := by
    cases words with
    | nil =>
      obtain ⟨next, after, rfl, token, -⟩ := reads.exists_cons
      exact ⟨next, after, rfl, by simp [token]⟩
    | cons word words =>
      obtain ⟨next, after, rfl, token, -⟩ := reads.exists_cons
      exact ⟨next, after, rfl, by simp [token]⟩
  obtain ⟨next, after, rfl, unmarked⟩ := unmarked
  rw [condition_of_body (reads_cons.mpr ⟨brace, reads_nil.mpr rfl⟩) unmarked, body_eq_ofWords reads]
  cases Reduction.ofWords words <;> rfl

/-- A condition with a loop mark is a loop. -/
theorem condition_of_loop {next : Lexeme} (reads : Reads lexemes [.openBrace] (next :: rest))
    (mark : next.token = .forMark) :
    condition finish loops lexemes = (do
      let (header, rest) ← header finish rest
      match loops with
      | 0 => .error (.malformed .loopsTooDeep)
      | loops + 1 =>
        let (body, rest) ← condition finish loops rest
        let rest ← expect finish .closeBrace rest
        return (.loop header body, rest)) := by
  rw [condition, expect_eq_ok_iff.mpr reads]
  exact if_pos mark

/-- A condition that is read is a body of words or a loop around a condition. -/
theorem condition_cases {read : Condition}
    (success : condition finish loops lexemes = .ok (read, rest)) :
    (∃ (words : List String) (expr : Expr),
      Reads lexemes (.openBrace :: (words.map .word ++ [.closeBrace])) rest ∧ Body words expr ∧
        read = .scalar expr) ∨
    ∃ (fewer : Nat) (header : LoopHeader) (inner : Condition) (middle closing : List Lexeme),
      loops = fewer + 1 ∧ Reads lexemes [.openBrace, .forMark, .word header.text] middle ∧
        header.WellFormed ∧ condition finish fewer middle = .ok (inner, closing) ∧
        Reads closing [.closeBrace] rest ∧ read = .loop header inner := by
  obtain ⟨inner, opened, -⟩ := bind_eq_ok_iff.mp (condition.eq_1 .. ▸ success)
  replace opened := expect_eq_ok_iff.mp opened
  obtain ⟨first, after, rfl, brace, reads⟩ := opened.exists_cons
  obtain rfl := reads_nil.mp reads
  cases after with
  | nil =>
    rw [condition, expect_eq_ok_iff.mpr opened] at success
    cases success
  | cons next after =>
    by_cases mark : next.token = .forMark
    · rw [condition_of_loop opened mark, bind_eq_ok_iff] at success
      obtain ⟨⟨header, middle⟩, found, success⟩ := success
      obtain ⟨headed, wellFormed⟩ := header_eq_ok_iff.mp found
      cases loops with
      | zero => contradiction
      | succ fewer =>
        simp only [bind_eq_ok_iff, pure_eq_ok, Except.ok.injEq, Prod.mk.injEq, Prod.exists] at success
        obtain ⟨inner, closing, nested, _, closed, rfl, rfl⟩ := success
        refine .inr ⟨fewer, header, inner, middle, closing, rfl, ?_, wellFormed, nested,
          expect_eq_ok_iff.mp closed, rfl⟩
        simpa [brace, mark] using headed
    · rw [condition_of_body opened mark, map_eq_ok_iff] at success
      obtain ⟨⟨expr, _⟩, found, same⟩ := success
      obtain ⟨rfl, rfl⟩ := Prod.mk.inj same
      obtain ⟨words, reads, reduced⟩ := body_eq_ok_iff.mp found
      exact .inl ⟨words, expr, by simpa [brace] using reads, reduced, rfl⟩

private theorem exists_spelling_of_condition {read : Condition}
    (success : condition finish loops lexemes = .ok (read, rest)) :
    ∃ tokens, Reads lexemes tokens rest ∧ Condition.Spelling Body loops tokens read := by
  induction loops generalizing lexemes read rest with
  | zero =>
    obtain ⟨words, expr, reads, spelled, rfl⟩ | ⟨fewer, -, -, -, -, impossible, -⟩ :=
      condition_cases success
    · exact ⟨_, reads, .scalar spelled⟩
    · contradiction
  | succ loops ih =>
    obtain ⟨words, expr, reads, spelled, rfl⟩ |
      ⟨fewer, header, inner, middle, closing, same, opened, wellFormed, nested, closed, rfl⟩ :=
      condition_cases success
    · exact ⟨_, reads, .scalar spelled⟩
    · obtain rfl := Nat.succ.inj same
      obtain ⟨tokens, reads, spelling⟩ := ih nested
      have whole := reads_append.mpr ⟨middle, opened, reads_append.mpr ⟨closing, reads, closed⟩⟩
      exact ⟨_, whole, .loop wellFormed spelling⟩

theorem condition_of_spelling {read : Condition} (spelling : Condition.Spelling Body loops tokens read)
    (reads : Reads lexemes tokens rest) : condition finish loops lexemes = .ok (read, rest) := by
  induction spelling generalizing lexemes rest with
  | @scalar loops words expr spelled => rw [condition_of_words reads, spelled, map_ok]
  | @loop loops header tokens inner wellFormed spelling ih =>
    obtain ⟨first, after, rfl, brace, reads⟩ := reads.exists_cons
    obtain ⟨next, after, rfl, mark, reads⟩ := reads.exists_cons
    have parts : Reads after ([.word header.text] ++ (tokens ++ [.closeBrace])) rest := reads
    obtain ⟨middle, headed, reads⟩ := reads_append.mp parts
    obtain ⟨closing, inside, closed⟩ := reads_append.mp reads
    rw [condition_of_loop (reads_cons.mpr ⟨brace, reads_nil.mpr rfl⟩) mark,
      header_eq_ok_iff.mpr ⟨headed, wellFormed⟩]
    simp only [ok_bind, ih inside, expect_eq_ok_iff.mpr closed, pure_eq_ok]

theorem condition_eq_ok_iff {read : Condition} :
    condition finish loops lexemes = .ok (read, rest) ↔
      ∃ tokens, Reads lexemes tokens rest ∧ Condition.Spelling Body loops tokens read := by
  constructor
  · exact exists_spelling_of_condition
  · rintro ⟨tokens, reads, spelling⟩
    exact condition_of_spelling spelling reads

/-- Nothing follows a condition, or only the empty block. -/
theorem action_eq_ok_nil_iff :
    action finish lexemes = .ok [] ↔ Token.Action (lexemes.map Lexeme.token) := by
  cases lexemes with
  | nil => exact iff_of_true rfl .absent
  | cons first after =>
    simp only [action]
    split
    · rename_i mark
      rw [bind_eq_ok_iff]
      simp only [expect_eq_ok_iff]
      constructor
      · rintro ⟨middle, opened, closed⟩
        have whole := reads_append.mpr ⟨middle, opened, closed⟩
        rw [List.map_cons, mark, reads_all_iff.mp whole]
        exact .empty
      · intro block
        rw [List.map_cons, mark] at block
        generalize follows : after.map Lexeme.token = tokens at block
        cases block with
        | empty => exact reads_append.mp (reads_all_iff.mpr follows)
    · rename_i unmarked
      simp only [Except.ok.injEq, reduceCtorEq, false_iff, List.map_cons]
      intro block
      generalize first.token = mark at block unmarked
      generalize after.map Lexeme.token = tokens at block
      cases block with
      | empty => exact unmarked rfl

/-- Lexemes that are followed by nothing are split by their tokens. -/
theorem reads_split (whole : lexemes.map Lexeme.token = tokens ++ tokens') :
    ∃ middle, Reads lexemes tokens middle ∧ middle.map Lexeme.token = tokens' := by
  obtain ⟨middle, first, second⟩ := reads_append.mp (reads_all_iff.mpr whole)
  exact ⟨middle, first, reads_all_iff.mp second⟩

theorem guarded_eq_ok_nil_iff {read : Condition} :
    guarded finish lexemes = .ok (read, []) ↔
      ∃ tokens action, lexemes.map Lexeme.token = tokens ++ action ∧
        Condition.Spelling Body maxLoopDepth tokens read ∧ Token.Action action := by
  simp only [guarded, bind_eq_ok_iff, pure_eq_ok, Except.ok.injEq, Prod.mk.injEq, Prod.exists,
    condition_eq_ok_iff]
  constructor
  · rintro ⟨_, middle, ⟨tokens, reads, spelling⟩, _, follows, rfl, rfl⟩
    refine ⟨tokens, middle.map Lexeme.token, ?_, spelling, action_eq_ok_nil_iff.mp follows⟩
    obtain ⟨front, rfl, rfl⟩ := reads
    exact List.map_append
  · rintro ⟨tokens, action, whole, spelling, follows⟩
    obtain ⟨middle, reads, rfl⟩ := reads_split whole
    exact ⟨read, middle, ⟨tokens, reads, spelling⟩, [], action_eq_ok_nil_iff.mpr follows, rfl, rfl⟩

theorem rule_eq_ok_nil_iff {read : Rule} :
    rule finish lexemes = .ok (read, []) ↔
      Rule.Spelling Body (lexemes.map Lexeme.token) read := by
  constructor
  · intro success
    cases lexemes with
    | nil => simp [rule] at success
    | cons first after =>
      simp only [rule] at success
      split at success
      · rename_i mark
        simp only [bind_eq_ok_iff, pure_eq_ok, Except.ok.injEq, Prod.mk.injEq, Prod.exists] at success
        obtain ⟨inner, _, read, rfl, rfl⟩ := success
        obtain ⟨tokens, action, whole, spelling, follows⟩ := guarded_eq_ok_nil_iff.mp read
        rw [List.map_cons, mark, whole]
        exact .scalar spelling follows
      · rename_i mark
        simp only [bind_eq_ok_iff, pure_eq_ok, Except.ok.injEq, Prod.mk.injEq, Prod.exists] at success
        obtain ⟨header, middle, headed, opened, marked, inner, _, read, rfl, rfl⟩ := success
        obtain ⟨headed, wellFormed⟩ := header_eq_ok_iff.mp headed
        obtain ⟨tokens, action, whole, spelling, follows⟩ := guarded_eq_ok_nil_iff.mp read
        have front := reads_append.mpr ⟨middle, headed, expect_eq_ok_iff.mp marked⟩
        obtain ⟨front, rfl, mapped⟩ := front
        have spelled := Rule.Spelling.vector wellFormed spelling follows
        rw [List.map_cons, mark, List.map_append, mapped, whole]
        exact spelled
      · contradiction
  · intro spelling
    generalize whole : lexemes.map Lexeme.token = tokens at spelling
    cases spelling with
    | @scalar tokens action inner spelling follows =>
      obtain ⟨first, after, rfl, mark, reads⟩ := (reads_all_iff.mpr whole).exists_cons
      have guard : guarded finish after = .ok (inner, []) :=
        guarded_eq_ok_nil_iff.mpr ⟨_, _, reads_all_iff.mp reads, spelling, follows⟩
      simp only [rule, mark, guard, ok_bind, pure_eq_ok]
    | @vector header tokens action inner wellFormed spelling follows =>
      obtain ⟨first, after, rfl, mark, reads⟩ := (reads_all_iff.mpr whole).exists_cons
      have parts : Reads after ([.word header.text] ++ ([.ifMark] ++ (tokens ++ action))) [] := reads
      obtain ⟨middle, headed, reads⟩ := reads_append.mp parts
      obtain ⟨guarding, marked, reads⟩ := reads_append.mp reads
      have guard : guarded finish guarding = .ok (inner, []) :=
        guarded_eq_ok_nil_iff.mpr ⟨_, _, reads_all_iff.mp reads, spelling, follows⟩
      simp only [rule, mark, header_eq_ok_iff.mpr ⟨headed, wellFormed⟩,
        expect_eq_ok_iff.mpr marked, guard, ok_bind, pure_eq_ok]

/-- A rule is read from all the lexemes if and only if their tokens spell it. -/
theorem whole_eq_ok_iff {read : Rule} :
    whole finish lexemes = .ok read ↔ Rule.Spelling Body (lexemes.map Lexeme.token) read := by
  rw [← @rule_eq_ok_nil_iff finish, whole, bind_eq_ok_iff]
  constructor
  · rintro ⟨⟨read, rest⟩, found, complete⟩
    cases rest with
    | nil =>
      obtain rfl := Except.ok.inj complete
      exact found
    | cons next rest => contradiction
  · intro found
    exact ⟨(read, []), found, rfl⟩

end Parse

/-- The tokens of a rule text. -/
def Token.ofRuleText (text : String) : List Token :=
  (Lexeme.ofText text).map Lexeme.token

/-- A text is a rule if and only if its tokens spell one. -/
theorem Rule.parse_eq_ok_iff {text : String} {rule : Rule} :
    Rule.parse text = .ok rule ↔ Rule.Spelling Parse.Body (Token.ofRuleText text) rule :=
  Parse.whole_eq_ok_iff

end DocRules

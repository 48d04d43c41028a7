import DocRules.Proofs.Grammar.Reading
import Mathlib.Data.List.Forall2

/-! # Layout

Reading looks at the tokens; where they stand is told in errors only. Two texts with the same tokens are
therefore the same rule, or are refused for the same reason and at the same token
(`Rule.parse_of_same_tokens`).

For each reader this is a statement about two runs, on lexemes with the same tokens. No reader computes with
an offset, so whatever relates the offsets of the lexemes relates those of the errors.
-/

namespace DocRules

open Outcome

namespace Parse

variable {places : Option Token → Nat → Nat → Prop}

/-- Two lexemes are the same token at related places. -/
def Aligned (places : Option Token → Nat → Nat → Prop) (lexeme other : Lexeme) : Prop :=
  lexeme.token = other.token ∧ places (some lexeme.token) lexeme.start other.start

/-- Two errors are the same, at related places. -/
inductive Agree (places : Option Token → Nat → Nat → Prop) : ParseError → ParseError → Prop
  | unexpected {expected : Expected} {found : Option Token} {offset offset' : Nat}
    (related : places found offset offset') :
    Agree places (.unexpected expected found offset) (.unexpected expected found offset')
  | malformed (reason : Malformation) : Agree places (.malformed reason) (.malformed reason)

/-- The same has been read in front of the same tokens. -/
def ReadAlike {α : Type} (places : Option Token → Nat → Nat → Prop) (read other : α × List Lexeme) : Prop :=
  read.1 = other.1 ∧ List.Forall₂ (Aligned places) read.2 other.2

variable {α : Type} {finish finish' : Nat} {lexemes lexemes' : List Lexeme}

/-- A computation that looks at no lexeme fails without naming a place. -/
theorem parallel_of_malformed {computed : Except ParseError α}
    (failing : ∀ error, computed = .error error → ∃ reason, error = .malformed reason) :
    Parallel (Agree places) Eq computed computed := by
  cases computed with
  | ok a => exact .ok rfl
  | error error =>
    obtain ⟨reason, rfl⟩ := failing error rfl
    exact .error (.malformed reason)

section Readers

variable (ended : places none finish finish')
include ended

private theorem expect_parallel (wanted : Token) (aligned : List.Forall₂ (Aligned places) lexemes lexemes') :
    Parallel (Agree places) (List.Forall₂ (Aligned places))
      (expect finish wanted lexemes) (expect finish' wanted lexemes') := by
  cases aligned with
  | nil => exact .error (.unexpected ended)
  | cons here later =>
    obtain ⟨same, related⟩ := here
    simp only [expect, ← same]
    split
    · exact .ok later
    · exact .error (.unexpected related)

private theorem header_parallel (aligned : List.Forall₂ (Aligned places) lexemes lexemes') :
    Parallel (Agree places) (ReadAlike places) (header finish lexemes) (header finish' lexemes') := by
  cases aligned with
  | nil => exact .error (.unexpected ended)
  | cons here later =>
    obtain ⟨same, related⟩ := here
    simp only [header, ← same]
    split
    · exact .ok ⟨rfl, later⟩
    · exact .error (.unexpected related)

omit ended in
private theorem body_parallel (pending : Reduction) (aligned : List.Forall₂ (Aligned places) lexemes lexemes') :
    Parallel (Agree places) (ReadAlike places) (body pending lexemes) (body pending lexemes') := by
  induction aligned generalizing pending with
  | nil => exact .error (.malformed _)
  | cons here later ih =>
    obtain ⟨same, related⟩ := here
    simp only [body, ← same]
    split
    · have finished : Parallel (Agree places) Eq pending.finish pending.finish :=
        parallel_of_malformed fun _ failed => Reduction.malformed_of_finish failed
      refine finished.bind ?_
      rintro expr _ rfl
      exact .ok ⟨rfl, later⟩
    · rename_i word _
      have pushed : Parallel (Agree places) Eq (pending.push word) (pending.push word) :=
        parallel_of_malformed fun _ failed => Reduction.malformed_of_push failed
      refine pushed.bind ?_
      rintro pending' _ rfl
      exact ih pending'
    · exact .error (.unexpected related)

private theorem condition_parallel (loops : Nat) (aligned : List.Forall₂ (Aligned places) lexemes lexemes') :
    Parallel (Agree places) (ReadAlike places)
      (condition finish loops lexemes) (condition finish' loops lexemes') := by
  induction loops using Nat.strongRecOn generalizing lexemes lexemes' with
  | ind loops ih =>
    rw [condition.eq_1 finish, condition.eq_1 finish']
    refine (expect_parallel ended .openBrace aligned).bind fun inner inner' inside => ?_
    cases inside with
    | nil => exact .error (.malformed _)
    | cons here later =>
      have same := here.1
      simp only [← same]
      split
      · refine (header_parallel ended later).bind ?_
        rintro ⟨header, rest⟩ ⟨_, rest'⟩ ⟨rfl, behind⟩
        cases loops with
        | zero => exact .error (.malformed _)
        | succ loops =>
          refine (ih loops (Nat.lt_succ_self loops) behind).bind ?_
          rintro ⟨body, rest⟩ ⟨_, rest'⟩ ⟨rfl, behind⟩
          refine (expect_parallel ended .closeBrace behind).bind fun rest rest' behind => ?_
          exact .ok ⟨rfl, behind⟩
      · refine (body_parallel .empty (.cons here later)).bind ?_
        rintro ⟨expr, rest⟩ ⟨_, rest'⟩ ⟨rfl, behind⟩
        exact .ok ⟨rfl, behind⟩

private theorem action_parallel (aligned : List.Forall₂ (Aligned places) lexemes lexemes') :
    Parallel (Agree places) (List.Forall₂ (Aligned places)) (action finish lexemes) (action finish' lexemes') := by
  cases aligned with
  | nil => exact .ok .nil
  | cons here later =>
    have same := here.1
    simp only [action, ← same]
    split
    · exact (expect_parallel ended .openBrace later).bind fun _ _ behind =>
        expect_parallel ended .closeBrace behind
    · exact .ok (.cons here later)

private theorem guarded_parallel (aligned : List.Forall₂ (Aligned places) lexemes lexemes') :
    Parallel (Agree places) (ReadAlike places) (guarded finish lexemes) (guarded finish' lexemes') := by
  refine (condition_parallel ended maxLoopDepth aligned).bind ?_
  rintro ⟨condition, rest⟩ ⟨_, rest'⟩ ⟨rfl, behind⟩
  refine (action_parallel ended behind).bind fun rest rest' behind => ?_
  exact .ok ⟨rfl, behind⟩

theorem rule_parallel (aligned : List.Forall₂ (Aligned places) lexemes lexemes') :
    Parallel (Agree places) (ReadAlike places) (rule finish lexemes) (rule finish' lexemes') := by
  cases aligned with
  | nil => exact .error (.malformed _)
  | cons here later =>
    have same := here.1
    simp only [rule, ← same]
    split
    · refine (guarded_parallel ended later).bind ?_
      rintro ⟨condition, rest⟩ ⟨_, rest'⟩ ⟨rfl, behind⟩
      exact .ok ⟨rfl, behind⟩
    · refine (header_parallel ended later).bind ?_
      rintro ⟨header, rest⟩ ⟨_, rest'⟩ ⟨rfl, behind⟩
      refine (expect_parallel ended .ifMark behind).bind fun rest rest' behind => ?_
      refine (guarded_parallel ended behind).bind ?_
      rintro ⟨condition, rest⟩ ⟨_, rest'⟩ ⟨rfl, behind⟩
      exact .ok ⟨rfl, behind⟩
    · exact .error (.malformed _)

theorem whole_parallel (aligned : List.Forall₂ (Aligned places) lexemes lexemes') :
    Parallel (Agree places) Eq (whole finish lexemes) (whole finish' lexemes') := by
  refine (rule_parallel ended aligned).bind ?_
  rintro ⟨rule, rest⟩ ⟨_, rest'⟩ ⟨rfl, behind⟩
  cases behind with
  | nil => exact .ok rfl
  | cons => exact .error (.malformed _)

end Readers

end Parse

/-- The offset of the token with a number, and of the end of the text behind all tokens. -/
def Token.offsetIn (text : String) (index : Nat) : Nat :=
  ((Lexeme.ofText text)[index]?.map Lexeme.start).getD (Text.byteLength text.toList)

/-- The offsets are those of the token with the same number in two texts, or of their ends. -/
def Token.Numbered (text text' : String) (found : Option Token) (offset offset' : Nat) : Prop :=
  ∃ index, found = (ofRuleText text)[index]? ∧ offset = offsetIn text index ∧ offset' = offsetIn text' index

section SameTokens

variable {text text' : String} (same : Token.ofRuleText text = Token.ofRuleText text')
include same

private theorem Lexeme.length_of_same_tokens : (ofText text).length = (ofText text').length := by
  simpa only [Token.ofRuleText, List.length_map] using congrArg List.length same

private theorem Lexeme.aligned_of_same_tokens :
    List.Forall₂ (Parse.Aligned (Token.Numbered text text')) (ofText text) (ofText text') := by
  refine List.forall₂_iff_get.mpr ⟨length_of_same_tokens same, fun index within within' => ⟨?_, index, ?_⟩⟩
  · have here := congrArg (·[index]?) same
    simpa [Token.ofRuleText, within, within'] using here
  · simp [Token.ofRuleText, Token.offsetIn, within, within']

private theorem Token.numbered_end :
    Numbered text text' none (Text.byteLength text.toList) (Text.byteLength text'.toList) := by
  have length := Lexeme.length_of_same_tokens same
  refine ⟨(Lexeme.ofText text).length, ?_, ?_, ?_⟩
  · simp [ofRuleText]
  · simp [offsetIn]
  · simp [offsetIn, length]

/-- Two texts with the same tokens are the same rule, or are malformed for the same reason, or are refused
because the same is expected at the same token or at the end. In the last case the errors differ in the offset
of that token, or of the end, in the one text and in the other. -/
theorem Rule.parse_of_same_tokens :
    (∃ rule, Rule.parse text = .ok rule ∧ Rule.parse text' = .ok rule) ∨
    (∃ reason, Rule.parse text = .error (.malformed reason) ∧
      Rule.parse text' = .error (.malformed reason)) ∨
    ∃ expected found index, found = (Token.ofRuleText text)[index]? ∧
      Rule.parse text = .error (.unexpected expected found (Token.offsetIn text index)) ∧
      Rule.parse text' = .error (.unexpected expected found (Token.offsetIn text' index)) := by
  have parallel : Parallel (Parse.Agree (Token.Numbered text text')) Eq (parse text) (parse text') :=
    Parse.whole_parallel (Token.numbered_end same) (Lexeme.aligned_of_same_tokens same)
  generalize parse text = read, parse text' = read' at parallel
  cases parallel with
  | @ok rule _ equal => exact .inl ⟨rule, rfl, congrArg Except.ok equal.symm⟩
  | error agree =>
    cases agree with
    | malformed reason => exact .inr (.inl ⟨reason, rfl, rfl⟩)
    | @unexpected expected found _ _ related =>
      obtain ⟨index, token, rfl, rfl⟩ := related
      exact .inr (.inr ⟨expected, found, index, token, rfl, rfl⟩)

end SameTokens

/-- The theorem at a rule on one line and on four, and at a text with a token too many, on one line and on
five. -/
theorem Rule.parse_of_relaid :
    let rule : Rule := .scalar (.scalar (.binary .eq (.leaf (.string "é") false) (.leaf (.int 1) false)))
    let line := "IF: \x7b é == 1 \x7d THEN: \x7b \x7d"
    let lines := "\nIF:\x7bé\t==\r\n1\x7dTHEN:\x7b\n\x7d"
    let refusedLine := "IF: \x7b é == 1 \x7d THEN: x"
    let refusedLines := "\nIF:\x7bé\t==\r\n1\x7dTHEN:\n\nx "
    (Token.ofRuleText line = Token.ofRuleText lines ∧ Rule.parse line = .ok rule ∧
      Rule.parse lines = .ok rule) ∧
    Token.ofRuleText refusedLine = Token.ofRuleText refusedLines ∧
    Rule.parse refusedLine = .error (.unexpected (.token .openBrace) (some (.word "x")) 22) ∧
    Rule.parse refusedLines = .error (.unexpected (.token .openBrace) (some (.word "x")) 21) := by
  intro rule line lines refusedLine refusedLines
  constructor
  · have same : Token.ofRuleText line = Token.ofRuleText lines := by decide +kernel
    have parsed : Rule.parse line = .ok rule := by
      rw [← Outcome.toOption_eq_some_iff]
      decide +kernel
    refine ⟨same, parsed, ?_⟩
    obtain ⟨rule', read, relaid⟩ | ⟨reason, malformed, -⟩ | ⟨expected, found, index, -, refused, -⟩ :=
      parse_of_same_tokens same
    · exact relaid.trans (read.symm.trans parsed)
    · exact absurd (malformed.symm.trans parsed) (by simp)
    · exact absurd (refused.symm.trans parsed) (by simp)
  · have same : Token.ofRuleText refusedLine = Token.ofRuleText refusedLines := by decide +kernel
    have failed : Rule.parse refusedLine =
        .error (.unexpected (.token .openBrace) (some (.word "x")) 22) := by
      rw [← Outcome.failure?_eq_some_iff]
      decide +kernel
    refine ⟨same, failed, ?_⟩
    obtain ⟨rule', read, -⟩ | ⟨reason, malformed, -⟩ | ⟨expected, found, index, token, here, there⟩ :=
      parse_of_same_tokens same
    · exact absurd (read.symm.trans failed) (by simp)
    · exact absurd (malformed.symm.trans failed) (by simp)
    · obtain ⟨rfl, rfl, -⟩ := ParseError.unexpected.inj (Except.error.inj (here.symm.trans failed))
      -- the word that is too many stands in one place only
      have only : ∀ index < 8, (Token.ofRuleText refusedLine)[index]? = some (.word "x") → index = 7 := by
        decide +kernel
      have count : (Token.ofRuleText refusedLine).length = 8 := by decide +kernel
      obtain ⟨within, -⟩ := List.getElem?_eq_some_iff.mp token.symm
      obtain rfl := only index (count ▸ within) token.symm
      have offset : Token.offsetIn refusedLines 7 = 21 := by decide +kernel
      rwa [offset] at there

end DocRules

import DocRules.Proofs.Grammar.Reading

/-! # Where reading fails

If reading fails because of a token, it fails with the same error whatever follows the token
(`Parse.Refuses`). If it fails because the tokens end, it has taken all of them, and each further token is
either what is expected or refused in its turn (`Parse.Lacks`). Every error that is not about the rule as a
whole is pinned to a place in one of these ways (`Parse.Pinned`).

This is shown for one reader after the other. A reader that is made of two fails as the first one or, behind
what the first one has taken, as the second one (`Pinned.of_first`, `Pinned.behind`), and a reader that only
looks at the next token fails as the one it then goes on with (`Pinned.of_head`).
-/

namespace DocRules

def Expected.Admits (expected : Expected) (token : Token) : Prop :=
  match expected with
  | .token wanted => token = wanted
  | .header => (Parse.header? token).isSome

namespace Parse

open Outcome

variable {α β : Type} {read : Nat → List Lexeme → Except ParseError α}

/-- Behind the tokens in front the token is refused, wherever it stands and whatever follows it. -/
def Refuses (read : Nat → List Lexeme → Except ParseError α) (expected : Expected) (front : List Lexeme)
    (token : Token) : Prop :=
  ∀ (finish start stop : Nat) (rest : List Lexeme),
    read finish (front ++ ⟨token, start, stop⟩ :: rest) = .error (.unexpected expected (some token) start)

/-- All the tokens are taken, and the end is refused as every further token is that is not expected. -/
structure Lacks (read : Nat → List Lexeme → Except ParseError α) (expected : Expected)
    (lexemes : List Lexeme) : Prop where
  ended : ∀ finish, read finish lexemes = .error (.unexpected expected none finish)
  refuses : ∀ token, ¬ expected.Admits token → Refuses read expected lexemes token

/-- An error names the place at which nothing else but it can come. -/
inductive Pinned (read : Nat → List Lexeme → Except ParseError α) (finish : Nat) (lexemes : List Lexeme) :
    ParseError → Prop
  | ended {expected : Expected} (lacks : Lacks read expected lexemes) :
    Pinned read finish lexemes (.unexpected expected none finish)
  | token {expected : Expected} {front rest : List Lexeme} {lexeme : Lexeme}
    (split : lexemes = front ++ lexeme :: rest) (refuses : Refuses read expected front lexeme.token) :
    Pinned read finish lexemes (.unexpected expected (some lexeme.token) lexeme.start)
  | malformed (reason : Malformation) : Pinned read finish lexemes (.malformed reason)

variable {finish loops : Nat} {lexemes rest : List Lexeme} {lexeme : Lexeme} {error : ParseError}

namespace Pinned

/-- A reader that fails wherever another one does fails at the same places. -/
theorem of_first {first : Nat → List Lexeme → Except ParseError β}
    (fails : ∀ finish lexemes error, first finish lexemes = .error error →
      read finish lexemes = .error error)
    (pinned : Pinned first finish lexemes error) : Pinned read finish lexemes error := by
  cases pinned with
  | ended lacks =>
    refine .ended ⟨fun finish => fails _ _ _ (lacks.ended finish), ?_⟩
    exact fun token other finish start stop rest =>
      fails _ _ _ (lacks.refuses token other finish start stop rest)
  | token split refuses =>
    exact .token split fun finish start stop rest => fails _ _ _ (refuses finish start stop rest)
  | malformed reason => exact .malformed reason

/-- A reader that goes on as another one behind the tokens in front fails there as the other one. -/
theorem behind {next : Nat → List Lexeme → Except ParseError α} (front : List Lexeme)
    (goes_on : ∀ finish rest, read finish (front ++ rest) = next finish rest)
    (pinned : Pinned next finish rest error) : Pinned read finish (front ++ rest) error := by
  have refused {expected : Expected} {token : Token} {middle : List Lexeme}
      (refuses : Refuses next expected middle token) : Refuses read expected (front ++ middle) token := by
    intro finish start stop rest
    rw [List.append_assoc, goes_on]
    exact refuses finish start stop rest
  cases pinned with
  | ended lacks =>
    refine .ended ⟨fun finish => ?_, fun token other => refused (lacks.refuses token other)⟩
    rw [goes_on]
    exact lacks.ended finish
  | token split refuses =>
    exact .token (by rw [split, List.append_assoc]) (refused refuses)
  | malformed reason => exact .malformed reason

/-- A reader that only looks at the first token fails as the one it goes on with. -/
theorem of_head {next : Nat → List Lexeme → Except ParseError α}
    (goes_on : ∀ (finish : Nat) (other : Lexeme) (rest : List Lexeme), other.token = lexeme.token →
      read finish (other :: rest) = next finish (other :: rest))
    (pinned : Pinned next finish (lexeme :: rest) error) : Pinned read finish (lexeme :: rest) error := by
  cases pinned with
  | ended lacks =>
    refine .ended ⟨fun finish => ?_, fun token other finish start stop rest => ?_⟩
    · rw [goes_on finish lexeme rest rfl]
      exact lacks.ended finish
    · rw [List.cons_append, goes_on _ _ _ rfl]
      exact lacks.refuses token other finish start stop rest
  | @token expected front rest refused split refuses =>
    refine .token split fun finish start stop rest => ?_
    rw [← refuses finish start stop rest]
    -- the refused token may be the first one
    cases front with
    | nil =>
      obtain ⟨rfl, -⟩ := List.cons.inj split
      exact goes_on finish _ rest rfl
    | cons _ front =>
      obtain ⟨rfl, -⟩ := List.cons.inj split
      exact goes_on finish _ _ rfl
  | malformed reason => exact .malformed reason

end Pinned

/-- A reader takes the tokens in front and leaves the rest, wherever the end of the text is and whatever the
rest is. -/
def Takes (read : Nat → List Lexeme → Except ParseError α) (lexemes : List Lexeme)
    (result : List Lexeme → α) (rest : List Lexeme) : Prop :=
  ∃ front, lexemes = front ++ rest ∧ ∀ finish rest, read finish (front ++ rest) = .ok (result rest)

/-- Of two readers in sequence either one fails. -/
theorem Pinned.of_bind {first : Nat → List Lexeme → Except ParseError α} {next : Nat → α → Except ParseError β}
    (here : ∀ error, first finish lexemes = .error error → Pinned first finish lexemes error)
    (there : ∀ a, first finish lexemes = .ok a → next finish a = .error error →
      ∃ result rest, Takes first lexemes result rest ∧
        Pinned (fun finish rest => next finish (result rest)) finish rest error)
    (failed : (first finish lexemes >>= next finish) = .error error) :
    Pinned (fun finish lexemes => first finish lexemes >>= next finish) finish lexemes error := by
  rcases bind_eq_error_iff.mp failed with failed | ⟨a, success, failed⟩
  · exact (here error failed).of_first fun finish lexemes error failed => by rw [failed, error_bind]
  · obtain ⟨result, rest, ⟨front, rfl, taken⟩, pinned⟩ := there a success failed
    exact pinned.behind front fun finish rest => by rw [taken, ok_bind]

private theorem takes_of_expect {wanted : Token} (success : expect finish wanted lexemes = .ok rest) :
    Takes (expect · wanted) lexemes id rest := by
  obtain ⟨front, rfl, mapped⟩ := expect_eq_ok_iff.mp success
  exact ⟨front, rfl, fun _ rest => expect_eq_ok_iff.mpr ⟨front, rfl, mapped⟩⟩

private theorem takes_of_header {read : LoopHeader} (success : header finish lexemes = .ok (read, rest)) :
    Takes header lexemes (read, ·) rest := by
  obtain ⟨⟨front, rfl, mapped⟩, wellFormed⟩ := header_eq_ok_iff.mp success
  exact ⟨front, rfl, fun _ rest => header_eq_ok_iff.mpr ⟨⟨front, rfl, mapped⟩, wellFormed⟩⟩

private theorem takes_of_condition {read : Condition}
    (success : condition finish loops lexemes = .ok (read, rest)) :
    Takes (condition · loops) lexemes (read, ·) rest := by
  obtain ⟨tokens, ⟨front, rfl, mapped⟩, spelling⟩ := condition_eq_ok_iff.mp success
  exact ⟨front, rfl, fun _ rest => condition_of_spelling spelling ⟨front, rfl, mapped⟩⟩

private theorem pinned_of_expect {wanted : Token} (error : ParseError)
    (failed : expect finish wanted lexemes = .error error) :
    Pinned (expect · wanted) finish lexemes error := by
  have refuses (token : Token) (other : token ≠ wanted) :
      Refuses (expect · wanted) (.token wanted) [] token :=
    fun _ _ _ _ => if_neg other
  cases lexemes with
  | nil =>
    obtain rfl := Except.error.inj failed
    exact .ended ⟨fun _ => rfl, refuses⟩
  | cons lexeme rest =>
    simp only [expect] at failed
    split at failed
    · contradiction
    · rename_i other
      obtain rfl := Except.error.inj failed
      exact .token (List.nil_append _).symm (refuses _ other)

private theorem pinned_of_header (error : ParseError) (failed : header finish lexemes = .error error) :
    Pinned header finish lexemes error := by
  have refuses (token : Token) (other : header? token = none) : Refuses header .header [] token := by
    intro finish start stop rest
    simp only [List.nil_append, header, other]
  cases lexemes with
  | nil =>
    obtain rfl := Except.error.inj failed
    exact .ended ⟨fun _ => rfl, fun token other => refuses token (by simpa [Expected.Admits] using other)⟩
  | cons lexeme rest =>
    simp only [header] at failed
    split at failed
    · contradiction
    · rename_i other
      obtain rfl := Except.error.inj failed
      exact .token (List.nil_append _).symm (refuses _ other)

private theorem pinned_of_body {pending : Reduction} (finish : Nat) (error : ParseError)
    (failed : body pending lexemes = .error error) :
    Pinned (fun _ => body pending) finish lexemes error := by
  induction lexemes generalizing pending with
  | nil =>
    obtain rfl := Except.error.inj failed
    exact .malformed _
  | cons lexeme rest ih =>
    simp only [body] at failed
    cases token : lexeme.token with
    | closeBrace =>
      simp only [token] at failed
      rcases bind_eq_error_iff.mp failed with failed | ⟨expr, -, failed⟩
      · obtain ⟨reason, rfl⟩ := Reduction.malformed_of_finish failed
        exact .malformed reason
      · contradiction
    | word text =>
      simp only [token] at failed
      rcases bind_eq_error_iff.mp failed with failed | ⟨pending', pushed, failed⟩
      · obtain ⟨reason, rfl⟩ := Reduction.malformed_of_push failed
        exact .malformed reason
      · refine (ih failed).behind [lexeme] fun _ rest => ?_
        simp only [List.singleton_append, body, token, pushed, ok_bind]
    | _ =>
      simp only [token] at failed
      obtain rfl := Except.error.inj failed
      rw [← token]
      refine .token (List.nil_append _).symm fun _ _ _ _ => ?_
      simp only [List.nil_append, body, token]

/-- What stands behind the mark of a loop. -/
def looped (loops finish : Nat) (lexemes : List Lexeme) : Except ParseError (Condition × List Lexeme) := do
  let (header, rest) ← header finish lexemes
  match loops with
  | 0 => .error (.malformed .loopsTooDeep)
  | loops + 1 =>
    let (body, rest) ← condition finish loops rest
    let rest ← expect finish .closeBrace rest
    return (.loop header body, rest)

private theorem pinned_of_looped
    (inner : ∀ fewer < loops, ∀ lexemes error, condition finish fewer lexemes = .error error →
      Pinned (condition · fewer) finish lexemes error)
    (error : ParseError) (failed : looped loops finish lexemes = .error error) :
    Pinned (looped loops) finish lexemes error := by
  refine Pinned.of_bind pinned_of_header ?_ failed
  rintro ⟨read, rest⟩ headed failed
  refine ⟨_, rest, takes_of_header headed, ?_⟩
  cases loops with
  | zero =>
    obtain rfl := Except.error.inj failed
    exact .malformed _
  | succ loops =>
    refine Pinned.of_bind (inner loops (Nat.lt_succ_self loops) rest) ?_ failed
    rintro ⟨body, rest⟩ found failed
    refine ⟨_, rest, takes_of_condition found, ?_⟩
    refine Pinned.of_bind pinned_of_expect (fun rest _ failed => ?_) failed
    contradiction

private theorem pinned_of_condition (error : ParseError)
    (failed : condition finish loops lexemes = .error error) :
    Pinned (condition · loops) finish lexemes error := by
  induction loops using Nat.strongRecOn generalizing lexemes error with
  | ind loops ih =>
    rcases bind_eq_error_iff.mp (condition.eq_1 .. ▸ failed) with closed | ⟨inside, opened, -⟩
    · refine (pinned_of_expect error closed).of_first fun finish lexemes error closed => ?_
      rw [condition, closed, error_bind]
    · obtain ⟨first, after, rfl, brace, reads⟩ := (expect_eq_ok_iff.mp opened).exists_cons
      obtain rfl := reads_nil.mp reads
      have front (rest : List Lexeme) : Reads (first :: rest) [.openBrace] rest :=
        reads_cons.mpr ⟨brace, reads_nil.mpr rfl⟩
      -- what stands in the braces depends on the first token behind the opening one
      refine Pinned.behind [first] (fun _ _ => rfl) ?_
      cases after with
      | nil =>
        rw [condition, expect_eq_ok_iff.mpr (front [])] at failed
        obtain rfl := Except.error.inj failed
        exact .malformed _
      | cons next after =>
        by_cases mark : next.token = .forMark
        · rw [condition_of_loop (front _) mark] at failed
          exact (pinned_of_looped ih error failed).behind [next] fun _ _ => condition_of_loop (front _) mark
        · rw [condition_of_body (front _) mark] at failed
          have inside : Pinned (fun _ rest => (body .empty rest).map fun found =>
              (Condition.scalar found.1, found.2)) finish (next :: after) error := by
            have unread : body .empty (next :: after) = .error error := by
              cases found : body .empty (next :: after) with
              | ok result => simp [found] at failed
              | error error' => simpa [found] using failed
            exact (pinned_of_body finish error unread).of_first fun _ _ _ unread => by rw [unread, map_error]
          exact inside.of_head fun finish other rest same => condition_of_body (front _) (same ▸ mark)

private theorem pinned_of_action (error : ParseError) (failed : action finish lexemes = .error error) :
    Pinned action finish lexemes error := by
  cases lexemes with
  | nil => contradiction
  | cons lexeme rest =>
    by_cases mark : lexeme.token = .thenMark
    · have block : Pinned
          (fun finish rest => expect finish .openBrace rest >>= fun rest => expect finish .closeBrace rest)
          finish rest error := by
        simp only [action, mark, if_true] at failed
        refine Pinned.of_bind pinned_of_expect (fun rest opened failed => ?_) failed
        exact ⟨id, rest, takes_of_expect opened, pinned_of_expect error failed⟩
      exact block.behind [lexeme] fun _ _ => by simp only [List.singleton_append, action, mark, if_true]
    · simp [action, mark] at failed

private theorem pinned_of_guarded (error : ParseError) (failed : guarded finish lexemes = .error error) :
    Pinned guarded finish lexemes error := by
  refine Pinned.of_bind pinned_of_condition ?_ failed
  rintro ⟨read, rest⟩ found failed
  refine ⟨_, rest, takes_of_condition found, ?_⟩
  refine Pinned.of_bind pinned_of_action (fun rest _ failed => ?_) failed
  contradiction

theorem pinned_of_rule (error : ParseError) (failed : rule finish lexemes = .error error) :
    Pinned rule finish lexemes error := by
  cases lexemes with
  | nil =>
    obtain rfl := Except.error.inj failed
    exact .malformed _
  | cons first rest =>
    simp only [rule] at failed
    cases mark : first.token with
    | ifMark =>
      simp only [mark] at failed
      have once : Pinned (fun finish rest => do
          let read ← guarded finish rest
          return (Rule.scalar read.1, read.2)) finish rest error := by
        refine Pinned.of_bind pinned_of_guarded ?_ failed
        intro _ _ failed
        contradiction
      exact once.behind [first] fun _ _ => by simp only [List.singleton_append, rule, mark]
    | forMark =>
      simp only [mark] at failed
      have every : Pinned (fun finish rest => do
          let read ← header finish rest
          let guard ← guarded finish (← expect finish .ifMark read.2)
          return (Rule.vector read.1 guard.1, guard.2)) finish rest error := by
        refine Pinned.of_bind pinned_of_header ?_ failed
        rintro ⟨read, rest⟩ headed failed
        refine ⟨_, rest, takes_of_header headed, ?_⟩
        dsimp only at failed ⊢
        refine Pinned.of_bind pinned_of_expect (fun rest guard failed => ?_) failed
        refine ⟨id, rest, takes_of_expect guard, ?_⟩
        refine Pinned.of_bind pinned_of_guarded ?_ failed
        intro _ _ failed
        contradiction
      exact every.behind [first] fun _ _ => by simp only [List.singleton_append, rule, mark]
    | _ =>
      simp only [mark] at failed
      obtain rfl := Except.error.inj failed
      exact .malformed _

/-- Every error of a rule text is pinned to its place. -/
theorem pinned_of_whole (error : ParseError) (failed : whole finish lexemes = .error error) :
    Pinned whole finish lexemes error := by
  rcases bind_eq_error_iff.mp failed with failed | ⟨⟨read, rest⟩, -, unread⟩
  · exact (pinned_of_rule error failed).of_first fun _ _ _ failed => by rw [whole, failed, error_bind]
  · cases rest with
    | nil => contradiction
    | cons next rest =>
      obtain rfl := Except.error.inj unread
      exact .malformed _

end Parse

end DocRules

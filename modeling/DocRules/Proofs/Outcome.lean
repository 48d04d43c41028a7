/-! # Sequences of computations that may fail

A sequence succeeds if both its parts do; a failing first part is the failure of the whole. Two
computations are compared by how they end: with the same failure, or with related results.
-/

namespace DocRules.Outcome

variable {ε α β : Type}

@[simp] theorem ok_bind (a : α) (next : α → Except ε β) : ((.ok a : Except ε α) >>= next) = next a :=
  rfl

@[simp] theorem error_bind (error : ε) (next : α → Except ε β) :
    ((.error error : Except ε α) >>= next) = .error error := rfl

@[simp] theorem pure_eq_ok (a : α) : (pure a : Except ε α) = .ok a := rfl

@[simp] theorem map_ok (f : α → β) (a : α) : (Except.ok a : Except ε α).map f = .ok (f a) := rfl

@[simp] theorem map_error (f : α → β) (error : ε) :
    (Except.error error : Except ε α).map f = .error error := rfl

theorem bind_eq_ok_iff {first : Except ε α} {next : α → Except ε β} {b : β} :
    (first >>= next) = .ok b ↔ ∃ a, first = .ok a ∧ next a = .ok b := by
  cases first with
  | ok a => simp
  | error error => simp

theorem bind_eq_error_iff {first : Except ε α} {next : α → Except ε β} {error : ε} :
    (first >>= next) = .error error ↔
      first = .error error ∨ ∃ a, first = .ok a ∧ next a = .error error := by
  cases first with
  | ok a => simp
  | error error' => simp

theorem unless_throw_eq_ok_iff {p : Prop} [Decidable p] {error : ε} {next : PUnit → Except ε β} {b : β} :
    (if p then (throw error >>= fun done => next done) else next ⟨⟩) = .ok b ↔
      ¬ p ∧ next ⟨⟩ = .ok b := by
  by_cases refused : p
  · simp [refused, throw, throwThe, MonadExceptOf.throw]
  · simp [refused]

/-- A check in front of a computation fails, or the computation does. -/
theorem unless_throw_eq_error_iff {p : Prop} [Decidable p] {error error' : ε}
    {next : PUnit → Except ε β} :
    (if p then (throw error >>= fun done => next done) else next ⟨⟩) = .error error' ↔
      p ∧ error = error' ∨ ¬ p ∧ next ⟨⟩ = .error error' := by
  by_cases refused : p
  · simp [refused, throw, throwThe, MonadExceptOf.throw]
  · simp [refused]

theorem map_eq_ok_iff {first : Except ε α} {f : α → β} {b : β} :
    first.map f = .ok b ↔ ∃ a, first = .ok a ∧ f a = b := by
  cases first with
  | ok a => simp
  | error error => simp

/-- What a computation gives may be read off it as an option, whose equality is decidable. -/
theorem toOption_eq_some_iff {first : Except ε α} {a : α} :
    first.toOption = some a ↔ first = .ok a := by
  cases first with
  | ok a' => simp [Except.toOption]
  | error error => simp [Except.toOption]

def failure? : Except ε α → Option ε
  | .ok _ => none
  | .error error => some error

theorem failure?_eq_some_iff {first : Except ε α} {error : ε} :
    failure? first = some error ↔ first = .error error := by
  cases first with
  | ok a => simp [failure?]
  | error error' => simp [failure?]

theorem mapM_congr {f g : α → Except ε β} {items : List α} (same : ∀ a ∈ items, f a = g a) :
    items.mapM f = items.mapM g := by
  induction items with
  | nil => rfl
  | cons a items ih =>
    rw [List.mapM_cons, List.mapM_cons, same a List.mem_cons_self,
      ih fun other member => same other (List.mem_cons_of_mem _ member)]

theorem forM_eq_ok_iff {f : α → Except ε Unit} {items : List α} :
    items.forM f = .ok () ↔ ∀ a ∈ items, f a = .ok () := by
  induction items with
  | nil => simp
  | cons a items ih =>
    change (do f a; items.forM f) = .ok () ↔ _
    rw [bind_eq_ok_iff, List.forall_mem_cons, ← ih]
    exact ⟨fun ⟨_, here, later⟩ => ⟨here, later⟩, fun ⟨here, later⟩ => ⟨(), here, later⟩⟩

theorem exists_of_mapM_eq_error {f : α → Except ε β} {items : List α} {error : ε}
    (failed : items.mapM f = .error error) : ∃ a ∈ items, f a = .error error := by
  induction items with
  | nil => simp at failed
  | cons a items ih =>
    rw [List.mapM_cons] at failed
    rcases bind_eq_error_iff.mp failed with here | ⟨_, -, failed⟩
    · exact ⟨a, List.mem_cons_self, here⟩
    · rcases bind_eq_error_iff.mp failed with later | ⟨_, -, failed⟩
      · obtain ⟨other, among, given⟩ := ih later
        exact ⟨other, List.mem_cons_of_mem _ among, given⟩
      · contradiction

/-- Two computations both succeed, with related results, or both fail, with related failures. -/
inductive Parallel {ε' : Type} (fails : ε → ε' → Prop) (ends : α → β → Prop) :
    Except ε α → Except ε' β → Prop
  | ok {a : α} {b : β} (related : ends a b) : Parallel fails ends (.ok a) (.ok b)
  | error {error : ε} {error' : ε'} (related : fails error error') :
    Parallel fails ends (.error error) (.error error')

/-- Two computations fail alike, or both succeed with related results. -/
def EndAlike (related : α → β → Prop) : Except ε α → Except ε β → Prop
  | .ok a, .ok b => related a b
  | .error error, .error error' => error = error'
  | _, _ => False

variable {γ δ ε' : Type} {related : α → β → Prop} {related' : γ → δ → Prop} {fails : ε → ε' → Prop}

/-- Sequences whose parts run in parallel run in parallel. -/
theorem Parallel.bind {first : Except ε α} {second : Except ε' β} {next : α → Except ε γ}
    {next' : β → Except ε' δ} (parallel : Parallel fails related first second)
    (later : ∀ a b, related a b → Parallel fails related' (next a) (next' b)) :
    Parallel fails related' (first >>= next) (second >>= next') := by
  cases parallel with
  | ok ends => exact later _ _ ends
  | error failed => exact .error failed

theorem endAlike_iff_parallel {first : Except ε α} {second : Except ε β} :
    EndAlike related first second ↔ Parallel Eq related first second := by
  constructor
  · intro alike
    cases first with
    | ok a =>
      cases second with
      | ok b => exact .ok alike
      | error => exact alike.elim
    | error error =>
      cases second with
      | ok => exact alike.elim
      | error error' => exact .error alike
  · intro parallel
    cases parallel with
    | ok ends => exact ends
    | error same => exact same

theorem EndAlike.bind {first : Except ε α} {second : Except ε β} {next : α → Except ε γ}
    {next' : β → Except ε δ} (alike : EndAlike related first second)
    (later : ∀ a b, related a b → EndAlike related' (next a) (next' b)) :
    EndAlike related' (first >>= next) (second >>= next') := by
  simp only [endAlike_iff_parallel] at alike later ⊢
  exact alike.bind later

/-- Computations that end alike on each item end alike on all items, with equally many results. -/
theorem EndAlike.mapM {f : γ → Except ε α} {g : γ → Except ε β} {items : List γ}
    (alike : ∀ item ∈ items, EndAlike related (f item) (g item)) :
    EndAlike (fun as bs => as.length = bs.length) (items.mapM f) (items.mapM g) := by
  induction items with
  | nil => rfl
  | cons item items ih =>
    obtain ⟨here, later⟩ := List.forall_mem_cons.mp alike
    rw [List.mapM_cons, List.mapM_cons]
    exact here.bind fun _ _ _ => (ih later).bind fun _ _ same => congrArg (· + 1) same

end DocRules.Outcome

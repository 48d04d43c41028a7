import DocRules.Proofs.Text.Replace

/-! # Occurrences of bracketed names

Occurrences of bare names between brackets do not overlap, so a text is cut into them and the characters around
them (`pieces`), and what is shown for these two kinds of beginnings holds of every text (`pieces_induction`).
Each occurrence is a piece of its own wherever it stands (`pieces_append`). A replacement takes away one
occurrence of its own name at most, and of any other name it neither makes nor breaks one
(`occurrences_replaceFirst`).
-/

namespace DocRules.Text

/-- A piece of a text is a name between brackets or a character. -/
inductive Piece where
  | char (c : Char)
  | bracketed (name : List Char)

def Piece.text : Piece → List Char
  | .char c => [c]
  | .bracketed name => Text.bracketed name

variable {name other segment text : List Char} {c : Char}

/-- The number of places at which a pattern occurs in a text. -/
def occurrences (pattern text : List Char) : Nat :=
  text.tails.countP (pattern.isPrefixOf ·)

@[simp] theorem occurrences_nil (name : List Char) : occurrences (bracketed name) [] = 0 := rfl

theorem occurrences_cons (pattern text : List Char) (c : Char) :
    occurrences pattern (c :: text) =
      occurrences pattern text + if pattern <+: c :: text then 1 else 0 := by
  simp only [occurrences, List.tails_cons, List.countP_cons, List.isPrefixOf_iff_prefix]

/-- No occurrence begins in what has no opening bracket. -/
theorem occurrences_append_left {front : List Char} (absent : '[' ∉ front) (text : List Char) :
    occurrences (bracketed name) (front ++ text) = occurrences (bracketed name) text := by
  induction front with
  | nil => rfl
  | cons c front ih =>
    obtain ⟨other, later⟩ := not_or.mp (mt List.mem_cons.mpr absent)
    have elsewhere : ¬ bracketed name <+: c :: (front ++ text) :=
      fun found => other (List.cons_prefix_cons.mp found).1
    rw [List.cons_append, occurrences_cons, if_neg elsewhere, ih later, Nat.add_zero]

/-- At an occurrence of a name begins no other one. -/
theorem occurrences_bracketed_append (bare : IsBare name) (bare' : IsBare other) (text : List Char) :
    occurrences (bracketed name) (bracketed other ++ text) =
      occurrences (bracketed name) text + if name = other then 1 else 0 := by
  have inside : '[' ∉ other ++ [']'] := by
    simpa using bare'.notMem (by decide)
  have begins : bracketed name <+: '[' :: (other ++ [']'] ++ text) ↔ name = other := by
    constructor
    · exact name_eq_of_startsWith bare bare'
    · rintro rfl
      exact List.prefix_append (bracketed name) text
  have split : bracketed other ++ text = '[' :: (other ++ [']'] ++ text) := rfl
  rw [split, occurrences_cons, occurrences_append_left inside]
  simp only [begins]

/-- A name begins a text after a replacement behind its first character if it does before. -/
theorem bracketed_prefix_cons_replaceFirst_iff (bare : IsBare name) :
    bracketed name <+: c :: replaceFirst (bracketed other) ('.' :: segment) text ↔
      bracketed name <+: c :: text := by
  constructor
  · intro found
    by_contra elsewhere
    exact not_bracketed_prefix_replaceFirst bare elsewhere found
  · rintro ⟨rest, same⟩
    have inside : '[' ∉ name ++ [']'] := by
      simpa using bare.notMem (by decide)
    obtain ⟨rfl, behind⟩ := List.cons.inj same
    have split : text = name ++ [']'] ++ rest := behind.symm
    rw [split, replaceFirst_append_left inside]
    exact List.prefix_append (bracketed name) _

/-- A replacement leaves the occurrences of all other names. -/
theorem occurrences_replaceFirst (bare : IsBare name) (bare' : IsBare other) (different : name ≠ other)
    (unopened : '[' ∉ segment) (text : List Char) :
    occurrences (bracketed name) (replaceFirst (bracketed other) ('.' :: segment) text) =
      occurrences (bracketed name) text := by
  induction text with
  | nil => rfl
  | cons c text ih =>
    by_cases here : bracketed other <+: c :: text
    · obtain ⟨rest, same⟩ := here
      have passed : '[' ∉ '.' :: segment := by
        simpa using unopened
      rw [← same, replaceFirst_append (bracketed_ne_nil other), occurrences_append_left passed,
        occurrences_bracketed_append bare bare', if_neg different, Nat.add_zero]
    · rw [replaceFirst_cons here, occurrences_cons, occurrences_cons, ih]
      simp only [bracketed_prefix_cons_replaceFirst_iff bare]

/-- The bare name between brackets that a text begins with. -/
def name? (text : List Char) : Option (List Char) :=
  let name := (text.drop 1).takeWhile (· != ']')
  if IsBare name ∧ bracketed name <+: text then some name else none

theorem name?_eq_some_iff : name? text = some name ↔ IsBare name ∧ bracketed name <+: text := by
  constructor
  · intro found
    simp only [name?] at found
    split at found
    · rename_i begins
      obtain rfl := Option.some.inj found
      exact begins
    · contradiction
  · rintro ⟨bare, begins⟩
    obtain ⟨rest, rfl⟩ := begins
    have cut : ((bracketed name ++ rest).drop 1).takeWhile (· != ']') = name := by
      have split : (bracketed name ++ rest).drop 1 = name ++ ']' :: rest := by
        simp [bracketed]
      rw [split, takeWhile_cut (bare.notMem (by decide))]
    simp only [name?, cut]
    exact if_pos ⟨bare, List.prefix_append _ _⟩

/-- The bare names between brackets in a text, and the characters around them. -/
def pieces : List Char → List Piece
  | [] => []
  | c :: rest =>
    match name? (c :: rest) with
    | some name => .bracketed name :: pieces (rest.drop (name.length + 1))
    | none => .char c :: pieces rest
termination_by text => text.length

/-- No name between brackets begins here. -/
def Unnamed (text : List Char) : Prop :=
  ∀ name, IsBare name → ¬ bracketed name <+: text

@[simp] theorem pieces_nil : pieces [] = [] := by
  rw [pieces]

theorem pieces_bracketed_append (bare : IsBare name) (text : List Char) :
    pieces (bracketed name ++ text) = .bracketed name :: pieces text := by
  have found : name? ('[' :: (name ++ [']'] ++ text)) = some name :=
    name?_eq_some_iff.mpr ⟨bare, List.prefix_append (bracketed name) text⟩
  have split : bracketed name ++ text = '[' :: (name ++ [']'] ++ text) := rfl
  rw [split, pieces, found]
  simp

theorem pieces_cons (unnamed : Unnamed (c :: text)) : pieces (c :: text) = .char c :: pieces text := by
  have absent : name? (c :: text) = none := by
    rw [Option.eq_none_iff_forall_ne_some]
    intro name found
    obtain ⟨bare, begins⟩ := name?_eq_some_iff.mp found
    exact unnamed name bare begins
  rw [pieces, absent]

/-- Every text is empty, or begins with a bare name between brackets, or with a character at which none
begins. -/
@[elab_as_elim]
theorem pieces_induction {motive : List Char → Prop} (nil : motive [])
    (bracketed : ∀ name text, IsBare name → motive text → motive (bracketed name ++ text))
    (char : ∀ c text, Unnamed (c :: text) → motive text → motive (c :: text)) (text : List Char) :
    motive text := by
  induction length : text.length using Nat.strongRecOn generalizing text with
  | ind count ih =>
    cases text with
    | nil => exact nil
    | cons c text =>
      rw [List.length_cons] at length
      by_cases named : ∃ name, IsBare name ∧ Text.bracketed name <+: c :: text
      · obtain ⟨name, bare, rest, same⟩ := named
        have shorter := congrArg List.length same
        simp only [Text.bracketed, List.length_append, List.length_cons] at shorter
        rw [← same]
        exact bracketed name rest bare (ih rest.length (by omega) rest rfl)
      · have unnamed : Unnamed (c :: text) := fun name bare begins => named ⟨name, bare, begins⟩
        exact char c text unnamed (ih text.length (by omega) text rfl)

theorem flatMap_text_pieces (text : List Char) : (pieces text).flatMap Piece.text = text := by
  induction text using pieces_induction with
  | nil => simp
  | bracketed name text bare ih => rw [pieces_bracketed_append bare, List.flatMap_cons, ih, Piece.text]
  | char c text unnamed ih => rw [pieces_cons unnamed, List.flatMap_cons, ih, Piece.text, List.singleton_append]

/-- An occurrence that begins later does not make one that begins here. -/
theorem Unnamed.append_bracketed (unnamed : Unnamed (c :: text)) (tail : List Char) :
    Unnamed (c :: (text ++ (bracketed name ++ tail))) := by
  intro other bare found
  rcases List.prefix_or_prefix_of_prefix found (List.prefix_append (c :: text) (bracketed name ++ tail)) with
    inside | ⟨more, beyond⟩
  · exact unnamed other bare inside
  · rw [← beyond] at found
    have begins : more <+: bracketed name ++ tail := (List.prefix_append_right_inj (c :: text)).mp found
    cases more with
    | nil => exact unnamed other bare ⟨[], by rw [List.append_nil, ← beyond, List.append_nil]⟩
    | cons d more =>
      obtain ⟨rfl, -⟩ := List.cons_prefix_cons.mp begins
      have body : text ++ '[' :: more = other ++ [']'] := (List.cons.inj beyond).2
      have inside : '[' ∈ other ++ [']'] := by simp [← body]
      simp [bare.notMem] at inside

/-- Every occurrence of a bare name between brackets is a piece, between the pieces before it and those behind
it. -/
theorem pieces_append (bare : IsBare name) (front tail : List Char) :
    pieces (front ++ (bracketed name ++ tail)) = pieces front ++ .bracketed name :: pieces tail := by
  induction front using pieces_induction with
  | nil => rw [List.nil_append, pieces_bracketed_append bare, pieces_nil, List.nil_append]
  | bracketed other front bare' ih =>
    rw [List.append_assoc, pieces_bracketed_append bare', ih, pieces_bracketed_append bare', List.cons_append]
  | char c front unnamed ih =>
    rw [List.cons_append, pieces_cons (unnamed.append_bracketed tail), ih, pieces_cons unnamed, List.cons_append]

end DocRules.Text

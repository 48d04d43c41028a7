import DocRules.Text.Pattern

/-! # Cutting a text at a character

What precedes the first occurrence of a character and what follows it are determined by the text.
Headers of loops and the keys of their bounds are taken apart in this way. Paths are cut at all their
points, so that two paths with a point between them have the segments of the one and of the other.
-/

namespace DocRules.Text

variable {c : Char} {before after : List Char}

/-- What has a property is cut off where something follows that lacks it. -/
theorem cut_of_ends {p : Char → Bool} {front tail : List Char} (all : ∀ c ∈ front, p c = true)
    (ends : ∀ c ∈ tail.head?, p c = false) :
    (front ++ tail).takeWhile p = front ∧ (front ++ tail).dropWhile p = tail := by
  rw [List.takeWhile_append_of_pos all, List.dropWhile_append_of_pos all]
  cases tail with
  | nil => simp
  | cons c tail => simp [ends c rfl]

theorem takeWhile_append_cons {p : Char → Bool} (lacks : p c = false) :
    (before ++ c :: after).takeWhile p = before.takeWhile p := by
  induction before with
  | nil => simp [lacks]
  | cons d before ih => rw [List.cons_append, List.takeWhile_cons, List.takeWhile_cons, ih]

theorem dropWhile_append_cons {p : Char → Bool} (lacks : p c = false) :
    (before ++ c :: after).dropWhile p = before.dropWhile p ++ c :: after := by
  induction before with
  | nil => simp [lacks]
  | cons d before ih =>
    rw [List.cons_append, List.dropWhile_cons, List.dropWhile_cons, ih]
    split <;> rfl

/-- A character of two texts one after the other stands in the first or in the second. -/
theorem cases_append {front tail : List Char} (whole : front ++ tail = before ++ c :: after) :
    (∃ rest, front = before ++ c :: rest) ∨
      ∃ rest, before = front ++ rest ∧ tail = rest ++ c :: after := by
  rcases List.append_eq_append_iff.mp whole with ⟨rest, here, there⟩ | ⟨rest, here, there⟩
  · exact .inr ⟨rest, here, there⟩
  · cases rest with
    | nil => exact .inr ⟨[], by simp [here], there.symm⟩
    | cons d rest =>
      obtain ⟨rfl, -⟩ := List.cons.inj there
      exact .inl ⟨rest, here⟩

theorem takeWhile_cut (absent : c ∉ before) :
    (before ++ c :: after).takeWhile (· != c) = before := by
  rw [List.takeWhile_append_of_pos, List.takeWhile_cons_of_neg, List.append_nil]
  · simp
  · intro other member
    simp only [bne_iff_ne, ne_eq]
    rintro rfl
    exact absent member

theorem dropWhile_cut (absent : c ∉ before) :
    (before ++ c :: after).dropWhile (· != c) = c :: after := by
  rw [List.dropWhile_append_of_pos, List.dropWhile_cons_of_neg]
  · simp
  · intro other member
    simp only [bne_iff_ne, ne_eq]
    rintro rfl
    exact absent member

/-- A text has one cut at the first occurrence of a character. -/
theorem cut_inj {before' after' : List Char} (absent : c ∉ before) (absent' : c ∉ before')
    (same : before ++ c :: after = before' ++ c :: after') : before = before' ∧ after = after' := by
  have taken : (before ++ c :: after).takeWhile (· != c) = before := takeWhile_cut absent
  rw [same, takeWhile_cut absent'] at taken
  subst taken
  exact ⟨rfl, (List.cons.inj (List.append_cancel_left same)).2⟩

theorem notMem_takeWhile (c : Char) (text : List Char) : c ∉ text.takeWhile (· != c) := by
  intro member
  have all := List.all_takeWhile (p := (· != c)) (l := text)
  rw [List.all_eq_true] at all
  simpa using all c member

/-- A text in which something follows the first occurrence of a character is cut there. -/
theorem eq_cut {text : List Char} (follows : (text.dropWhile (· != c)).drop 1 ≠ []) :
    text = text.takeWhile (· != c) ++ c :: (text.dropWhile (· != c)).drop 1 := by
  have whole : text.takeWhile (· != c) ++ text.dropWhile (· != c) = text :=
    List.takeWhile_append_dropWhile
  cases rest : text.dropWhile (· != c) with
  | nil => simp [rest] at follows
  | cons first after =>
    have stopped := List.head?_dropWhile_not (· != c) text
    rw [rest] at stopped whole
    simp only [List.head?_cons, bne_eq_false_iff_eq] at stopped
    simpa [stopped] using whole.symm

/-- The first piece of a text begins as the text does. -/
theorem exists_cutAt_cons {separator : Char} (other : c ≠ separator) (rest : List Char) :
    ∃ piece pieces, cutAt separator (c :: rest) = (c :: piece) :: pieces := by
  rw [cutAt, if_neg other]
  cases cutAt separator rest with
  | nil => exact ⟨[], [], rfl⟩
  | cons piece pieces => exact ⟨piece, pieces, rfl⟩

private theorem cutAt_ne_nil (separator : Char) (text : List Char) : cutAt separator text ≠ [] := by
  cases text with
  | nil => simp [cutAt]
  | cons c rest =>
    rw [cutAt]
    split
    · exact List.cons_ne_nil _ _
    · split <;> exact List.cons_ne_nil _ _

/-- A separator cuts a text into the pieces before it and the pieces behind it. -/
theorem cutAt_append (separator : Char) (before after : List Char) :
    cutAt separator (before ++ separator :: after) = cutAt separator before ++ cutAt separator after := by
  induction before with
  | nil => simp [cutAt]
  | cons c before ih =>
    rw [List.cons_append, cutAt, ih, cutAt]
    split
    · rfl
    · cases pieces : cutAt separator before with
      | nil => exact absurd pieces (cutAt_ne_nil separator before)
      | cons piece pieces => rfl

theorem cutAt_of_notMem {separator : Char} {text : List Char} (absent : separator ∉ text) :
    cutAt separator text = [text] := by
  induction text with
  | nil => rfl
  | cons c text ih =>
    obtain ⟨other, later⟩ := not_or.mp (mt List.mem_cons.mpr absent)
    rw [cutAt, if_neg (Ne.symm other), ih later]

end DocRules.Text

import DocRules.Proofs.Text.Cut
import DocRules.Text.Pattern
import Mathlib.Data.List.Infix

/-! # Replacing bracketed names

The first occurrence of a name between brackets is replaced by a segment, a point followed by an index.
Occurrences of different names do not overlap, and no segment makes or breaks one, so the replacements
of different names commute (`replaceFirst_comm`). Nor do they touch or make a known end behind the path
(`beforeEnd?_replaceFirst`).
-/

namespace DocRules.Text

section Replace

variable {pattern replacement text : List Char}

theorem replaceFirst_append (nonempty : pattern ≠ []) (replacement text : List Char) :
    replaceFirst pattern replacement (pattern ++ text) = replacement ++ text := by
  obtain ⟨c, rest, rfl⟩ := List.exists_cons_of_ne_nil nonempty
  have here : (c :: rest).isPrefixOf (c :: rest ++ text) = true :=
    List.isPrefixOf_iff_prefix.mpr (List.prefix_append _ _)
  rw [List.cons_append] at here ⊢
  rw [replaceFirst, if_pos here, ← List.cons_append, List.drop_left]

theorem replaceFirst_cons {c : Char} (elsewhere : ¬ pattern <+: c :: text) (replacement : List Char) :
    replaceFirst pattern replacement (c :: text) = c :: replaceFirst pattern replacement text := by
  rw [replaceFirst, if_neg (mt List.isPrefixOf_iff_prefix.mp elsewhere)]

/-- A pattern with a character that the text does not have does not occur in it. -/
theorem replaceFirst_of_notMem {c : Char} (replacement : List Char) (inPattern : c ∈ pattern)
    (absent : c ∉ text) : replaceFirst pattern replacement text = text := by
  induction text with
  | nil =>
    have nonempty : pattern.isEmpty = false := List.isEmpty_eq_false_iff_exists_mem.mpr ⟨c, inPattern⟩
    simp [replaceFirst, nonempty]
  | cons first rest ih =>
    have elsewhere : ¬ pattern <+: first :: rest := fun found => absent (found.subset inPattern)
    rw [replaceFirst_cons elsewhere, ih fun member => absent (List.mem_cons_of_mem _ member)]

/-- Nothing is replaced, or one occurrence of the pattern. -/
theorem replaceFirst_cases (nonempty : pattern ≠ []) (replacement text : List Char) :
    replaceFirst pattern replacement text = text ∨
      ∃ before after, text = before ++ pattern ++ after ∧
        replaceFirst pattern replacement text = before ++ replacement ++ after := by
  induction text with
  | nil => simp [replaceFirst, nonempty]
  | cons c text ih =>
    by_cases here : pattern <+: c :: text
    · obtain ⟨after, same⟩ := here
      rw [← same]
      exact .inr ⟨[], after, rfl, replaceFirst_append nonempty replacement after⟩
    · rw [replaceFirst_cons here]
      rcases ih with same | ⟨before, after, same, replaced⟩
      · exact .inl (by rw [same])
      · exact .inr ⟨c :: before, after, by rw [same]; rfl, by rw [replaced]; rfl⟩

/-- An end without the last character of the replacement was there before. -/
theorem suffix_of_suffix_replaceFirst {d : Char} {finish : List Char} (nonempty : pattern ≠ [])
    (last : replacement.getLast? = some d) (absent : d ∉ finish)
    (ends : finish <:+ replaceFirst pattern replacement text) : finish <:+ text := by
  rcases replaceFirst_cases nonempty replacement text with same | ⟨before, after, rfl, replaced⟩
  · rwa [same] at ends
  · obtain ⟨front, rfl⟩ := List.getLast?_eq_some_iff.mp last
    have whole : d :: after <:+ before ++ (front ++ [d]) ++ after := ⟨before ++ front, by simp⟩
    rw [replaced] at ends
    rcases List.suffix_or_suffix_of_suffix ends whole with inside | beyond
    · rcases List.suffix_cons_iff.mp inside with rfl | behind
      · exact absurd List.mem_cons_self absent
      · exact behind.trans (List.suffix_append _ _)
    · exact absurd (beyond.subset List.mem_cons_self) absent

end Replace

def bracketed (name : List Char) : List Char :=
  '[' :: name ++ [']']

/-- A name has none of the characters that paths and keys are put together with. -/
def IsName (name : List Char) : Prop :=
  ∀ c ∈ name, c ∉ ['[', ']', '.', '=']

instance (name : List Char) : Decidable (IsName name) :=
  List.decidableBAll (fun c => c ∉ ['[', ']', '.', '=']) name

theorem IsName.notMem {name : List Char} (named : IsName name) {c : Char}
    (special : c ∈ ['[', ']', '.', '=']) : c ∉ name :=
  fun member => named c member special

/-- A bare name has none of the characters that paths are put together with. -/
def IsBare (name : List Char) : Prop :=
  ∀ c ∈ name, c ∉ ['[', ']', '.']

instance (name : List Char) : Decidable (IsBare name) :=
  List.decidableBAll (fun c => c ∉ ['[', ']', '.']) name

theorem IsBare.notMem {name : List Char} (bare : IsBare name) {c : Char}
    (special : c ∈ ['[', ']', '.']) : c ∉ name :=
  fun member => bare c member special

theorem IsName.isBare {name : List Char} (named : IsName name) : IsBare name :=
  fun c member special => named c member ((by decide : ['[', ']', '.'] ⊆ ['[', ']', '.', '=']) special)

variable {name other segment segment' text : List Char}

theorem bracketed_ne_nil (name : List Char) : bracketed name ≠ [] :=
  List.cons_ne_nil _ _

theorem name_eq_of_startsWith (bare : IsBare name) (bare' : IsBare other)
    (found : bracketed name <+: bracketed other ++ text) : name = other := by
  obtain ⟨rest, same⟩ := found
  have bodies : name ++ ']' :: rest = other ++ ']' :: text := by
    simpa [bracketed] using same
  exact (cut_inj (bare.notMem (by decide)) (bare'.notMem (by decide)) bodies).1

/-- What has no opening bracket is passed over. -/
theorem replaceFirst_append_left {before : List Char} (absent : '[' ∉ before) (text : List Char) :
    replaceFirst (bracketed name) segment (before ++ text) =
      before ++ replaceFirst (bracketed name) segment text := by
  induction before with
  | nil => rfl
  | cons c before ih =>
    have elsewhere : ¬ bracketed name <+: c :: (before ++ text) := by
      intro found
      obtain ⟨rfl, -⟩ := List.cons_prefix_cons.mp found
      exact absent List.mem_cons_self
    have behind : '[' ∉ before := fun member => absent (List.mem_cons_of_mem _ member)
    rw [List.cons_append, replaceFirst_cons elsewhere, ih behind, List.cons_append]

/-- An occurrence ends at its closing bracket. -/
theorem bracketed_prefix_of_append {after : List Char} (absent : ']' ∉ after)
    (found : bracketed name <+: text ++ after) : bracketed name <+: text := by
  rcases List.prefix_or_prefix_of_prefix found (List.prefix_append text after) with inside | ⟨more, split⟩
  · exact inside
  · rw [← split] at found
    have within : more <+: after := (List.prefix_append_right_inj text).mp found
    rcases List.eq_nil_or_concat more with rfl | ⟨front, c, rfl⟩
    · exact ⟨[], by rw [List.append_nil, ← split, List.append_nil]⟩
    · have ends := congrArg List.getLast? split
      simp only [bracketed, List.concat_eq_append, ← List.append_assoc, List.getLast?_concat,
        Option.some.injEq] at ends
      exact absurd (within.subset (by simp [ends])) absent

/-- What has no closing bracket is left alone. -/
theorem replaceFirst_append_right {after : List Char} (absent : ']' ∉ after) (text : List Char) :
    replaceFirst (bracketed name) segment (text ++ after) =
      replaceFirst (bracketed name) segment text ++ after := by
  have closed : ']' ∈ bracketed name := List.mem_append_right _ List.mem_cons_self
  induction text with
  | nil => exact replaceFirst_of_notMem segment closed absent
  | cons c text ih =>
    by_cases here : bracketed name <+: c :: text
    · obtain ⟨rest, same⟩ := here
      rw [← same, List.append_assoc, replaceFirst_append (bracketed_ne_nil name),
        replaceFirst_append (bracketed_ne_nil name), List.append_assoc]
    · have elsewhere : ¬ bracketed name <+: c :: text ++ after :=
        fun found => here (bracketed_prefix_of_append absent found)
      rw [List.cons_append] at elsewhere ⊢
      rw [replaceFirst_cons elsewhere, replaceFirst_cons here, ih, List.cons_append]

/-- Another name stands before and after its occurrences as if these were any text. -/
theorem replaceFirst_bracketed_append (bare : IsBare name) (bare' : IsBare other)
    (different : name ≠ other) (text : List Char) :
    replaceFirst (bracketed name) segment (bracketed other ++ text) =
      bracketed other ++ replaceFirst (bracketed name) segment text := by
  have elsewhere : ¬ bracketed name <+: '[' :: (other ++ [']'] ++ text) :=
    fun found => different (name_eq_of_startsWith bare bare' found)
  have inside : '[' ∉ other ++ [']'] := by
    simpa using bare'.notMem (by decide)
  exact (replaceFirst_cons elsewhere segment).trans
    (congrArg _ (replaceFirst_append_left inside text))

/-- A replacement makes no new beginning that is free of its first character. -/
theorem prefix_of_prefix_replaceFirst {d : Char} {word pattern replacement : List Char}
    (nonempty : pattern ≠ []) (absent : d ∉ word)
    (found : word <+: replaceFirst pattern (d :: replacement) text) : word <+: text := by
  rcases replaceFirst_cases nonempty (d :: replacement) text with same | ⟨before, after, rfl, replaced⟩
  · rwa [same] at found
  · rw [replaced, List.append_assoc] at found
    have front : word <+: before := by
      rcases List.prefix_or_prefix_of_prefix found (List.prefix_append before _) with inside | ⟨more, rfl⟩
      · exact inside
      · have rest := (List.prefix_append_right_inj before).mp found
        cases more with
        | nil => simp
        | cons c more =>
          obtain ⟨rfl, -⟩ := List.cons_prefix_cons.mp rest
          simp at absent
    exact (front.trans (List.prefix_append before pattern)).trans (List.prefix_append _ after)

/-- A replacement does not make an occurrence of a name. -/
theorem not_bracketed_prefix_replaceFirst {c : Char} (bare : IsBare name)
    (elsewhere : ¬ bracketed name <+: c :: text) :
    ¬ bracketed name <+: c :: replaceFirst (bracketed other) ('.' :: segment) text := by
  intro found
  obtain ⟨rfl, body⟩ := List.cons_prefix_cons.mp found
  have absent : '.' ∉ name ++ [']'] := by
    simpa using bare.notMem (by decide)
  have before := prefix_of_prefix_replaceFirst (bracketed_ne_nil other) absent body
  exact elsewhere (List.cons_prefix_cons.mpr ⟨rfl, before⟩)

/-- At an occurrence of one of two names the replacements commute. -/
theorem replaceFirst_comm_append (bare : IsBare name) (bare' : IsBare other)
    (different : name ≠ other) (unopened : '[' ∉ segment) (text : List Char) :
    replaceFirst (bracketed name) ('.' :: segment)
        (replaceFirst (bracketed other) ('.' :: segment') (bracketed name ++ text)) =
      replaceFirst (bracketed other) ('.' :: segment')
        (replaceFirst (bracketed name) ('.' :: segment) (bracketed name ++ text)) := by
  have passed : '[' ∉ '.' :: segment := by
    simpa using unopened
  rw [replaceFirst_bracketed_append bare' bare different.symm,
    replaceFirst_append (bracketed_ne_nil name), replaceFirst_append (bracketed_ne_nil name),
    replaceFirst_append_left passed]

/-- Replacements of different names commute. -/
theorem replaceFirst_comm (bare : IsBare name) (bare' : IsBare other) (different : name ≠ other)
    (unopened : '[' ∉ segment) (unopened' : '[' ∉ segment') (text : List Char) :
    replaceFirst (bracketed name) ('.' :: segment)
        (replaceFirst (bracketed other) ('.' :: segment') text) =
      replaceFirst (bracketed other) ('.' :: segment')
        (replaceFirst (bracketed name) ('.' :: segment) text) := by
  induction text with
  | nil => rfl
  | cons c text ih =>
    by_cases here : bracketed name <+: c :: text
    · obtain ⟨rest, same⟩ := here
      rw [← same]
      exact replaceFirst_comm_append bare bare' different unopened rest
    · by_cases there : bracketed other <+: c :: text
      · obtain ⟨rest, same⟩ := there
        rw [← same]
        exact (replaceFirst_comm_append bare' bare different.symm unopened' rest).symm
      · have here' : ¬ bracketed name <+: c :: replaceFirst (bracketed other) ('.' :: segment') text :=
          not_bracketed_prefix_replaceFirst bare here
        have there' : ¬ bracketed other <+: c :: replaceFirst (bracketed name) ('.' :: segment) text :=
          not_bracketed_prefix_replaceFirst bare' there
        rw [replaceFirst_cons there, replaceFirst_cons here', replaceFirst_cons here,
          replaceFirst_cons there', ih]

theorem beforeEnd?_append (path finish : List Char) : beforeEnd? finish (path ++ finish) = some path := by
  have ends : finish.isSuffixOf (path ++ finish) = true :=
    List.isSuffixOf_iff_suffix.mpr (List.suffix_append _ _)
  simp [beforeEnd?, ends]

private theorem beforeEnd?_of_not_suffix {finish : List Char} (absent : ¬ finish <:+ text) :
    beforeEnd? finish text = none := by
  rw [beforeEnd?, if_neg (mt List.isSuffixOf_iff_suffix.mp absent)]

/-- An end without a closing bracket, and without the last character of the segment, may be taken off
before the replacement or after it. -/
theorem beforeEnd?_replaceFirst {d : Char} {finish : List Char} (unclosed : ']' ∉ finish)
    (last : segment.getLast? = some d) (absent : d ∉ finish) (text : List Char) :
    beforeEnd? finish (replaceFirst (bracketed name) segment text) =
      (beforeEnd? finish text).map (replaceFirst (bracketed name) segment) := by
  by_cases ends : finish <:+ text
  · obtain ⟨path, rfl⟩ := ends
    rw [replaceFirst_append_right unclosed, beforeEnd?_append, beforeEnd?_append, Option.map_some]
  · have ends' := mt (suffix_of_suffix_replaceFirst (bracketed_ne_nil name) last absent) ends
    rw [beforeEnd?_of_not_suffix ends, beforeEnd?_of_not_suffix ends', Option.map_none]

end DocRules.Text

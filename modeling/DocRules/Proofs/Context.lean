import DocRules.Context
import DocRules.Proofs.Decimal
import DocRules.Proofs.Text.Occurrence

/-! # Paths resolved at once

A path is resolved by one replacement for each active loop, each in what the one before it left. Where the
loops have bare names this is a single substitution: every bracketed name of the path gives way to the index
of the loop that it selects by its place among the occurrences of this name, and nothing else changes
(`Context.leafKey_at_once`).

The proof goes along the pieces of the path. All replacements pass over a character at which no name begins
(`Frame.rewrite_cons`), and at a name the innermost loop of this name is used up and all others pass over it
(`Frame.rewrite_bracketed_append`). What the remaining loops do behind the name is what all loops do there if
one occurrence of the name has been counted (`Frame.selected?_bracketed_append`).
-/

namespace DocRules

open Text

namespace Frame

variable {frames frames' : List Frame} {name : List Char}

/-- The loops of a name, the innermost first. -/
def named (frames : List Frame) (name : List Char) : List Frame :=
  frames.filter (·.index.toList == name)

/-- The loop that an occurrence of a name selects: inside it there are as many loops of the name as there are
occurrences of the name in the text before. -/
def selected? (frames : List Frame) (before name : List Char) : Option Frame :=
  (named frames name)[occurrences (bracketed name) before]?

/-- A piece with a selected loop gives way to the index of the loop, any other one stays. -/
def resolvedPiece (frames : List Frame) (before : List Char) : Piece → List Char
  | .char c => [c]
  | .bracketed name => ((selected? frames before name).map segment).getD (bracketed name)

/-- All pieces are resolved, each by the text before it. -/
def resolvedPieces (frames : List Frame) : List Char → List Piece → List Char
  | _, [] => []
  | before, piece :: pieces =>
    resolvedPiece frames before piece ++ resolvedPieces frames (before ++ piece.text) pieces

/-- One replacement for each loop, from the innermost to the outermost. -/
def rewrite (frames : List Frame) (path : List Char) : List Char :=
  frames.foldl (fun path frame => replaceFirst frame.pattern frame.segment path) path

/-- All loops but the innermost one of a name. -/
def without (frames : List Frame) (name : List Char) : List Frame :=
  frames.eraseP (·.index.toList == name)

def Bare (frames : List Frame) : Prop :=
  ∀ frame ∈ frames, IsBare frame.index.toList

instance (frames : List Frame) : Decidable (Bare frames) :=
  List.decidableBAll (fun frame : Frame => IsBare frame.index.toList) frames

private theorem openBracket_notMem_segment (frame : Frame) : '[' ∉ frame.segment := by
  simpa [segment] using Decimal.openBracket_notMem_toString frame.current

@[simp] theorem resolvedPieces_nil (frames : List Frame) (before : List Char) :
    resolvedPieces frames before [] = [] := rfl

theorem resolvedPieces_cons (frames : List Frame) (before : List Char) (piece : Piece) (pieces : List Piece) :
    resolvedPieces frames before (piece :: pieces) =
      resolvedPiece frames before piece ++ resolvedPieces frames (before ++ piece.text) pieces := rfl

private theorem rewrite_frames_cons (frame : Frame) (frames : List Frame) (path : List Char) :
    rewrite (frame :: frames) path = rewrite frames (replaceFirst frame.pattern frame.segment path) := rfl

private theorem rewrite_nil (frames : List Frame) : rewrite frames [] = [] := by
  induction frames with
  | nil => rfl
  | cons frame frames ih => exact ih

private theorem rewrite_append_left {front : List Char} (absent : '[' ∉ front) (text : List Char) :
    rewrite frames (front ++ text) = front ++ rewrite frames text := by
  induction frames generalizing text with
  | nil => rfl
  | cons frame frames ih =>
    have passed : replaceFirst frame.pattern frame.segment (front ++ text) =
        front ++ replaceFirst frame.pattern frame.segment text := replaceFirst_append_left absent text
    rw [rewrite_frames_cons, rewrite_frames_cons, passed, ih]

/-- A character at which no name begins is passed over. -/
theorem rewrite_cons (bare : Bare frames) {c : Char} {text : List Char} (unnamed : Unnamed (c :: text)) :
    rewrite frames (c :: text) = c :: rewrite frames text := by
  induction frames generalizing text with
  | nil => rfl
  | cons frame frames ih =>
    obtain ⟨here, later⟩ := List.forall_mem_cons.mp bare
    have passed : replaceFirst frame.pattern frame.segment (c :: text) =
        c :: replaceFirst frame.pattern frame.segment text := replaceFirst_cons (unnamed _ here) _
    have unnamed' : Unnamed (c :: replaceFirst frame.pattern frame.segment text) :=
      fun name bare => not_bracketed_prefix_replaceFirst bare (unnamed name bare)
    rw [rewrite_frames_cons, rewrite_frames_cons, passed, ih later unnamed']

/-- A name is replaced by the innermost loop of the name, which replaces nothing else. -/
theorem rewrite_bracketed_append (bare : Bare frames) (bare' : IsBare name) (text : List Char) :
    rewrite frames (bracketed name ++ text) =
      resolvedPiece frames [] (.bracketed name) ++ rewrite (without frames name) text := by
  induction frames generalizing text with
  | nil => rfl
  | cons frame frames ih =>
    obtain ⟨here, later⟩ := List.forall_mem_cons.mp bare
    by_cases same : frame.index.toList = name
    · subst same
      have replaced : replaceFirst frame.pattern frame.segment (bracketed frame.index.toList ++ text) =
          frame.segment ++ text := replaceFirst_append (bracketed_ne_nil _) _ text
      have chosen : resolvedPiece (frame :: frames) [] (.bracketed frame.index.toList) = frame.segment := by
        simp [resolvedPiece, selected?, named]
      have rest : without (frame :: frames) frame.index.toList = frames := by
        simp [without]
      rw [chosen, rest, rewrite_frames_cons, replaced, rewrite_append_left frame.openBracket_notMem_segment]
    · have passed : replaceFirst frame.pattern frame.segment (bracketed name ++ text) =
          bracketed name ++ replaceFirst frame.pattern frame.segment text :=
        replaceFirst_bracketed_append here bare' same text
      have chosen : resolvedPiece (frame :: frames) [] (.bracketed name) =
          resolvedPiece frames [] (.bracketed name) := by
        simp [resolvedPiece, selected?, named, same]
      have rest : without (frame :: frames) name = frame :: without frames name := by
        simp [without, same]
      rw [chosen, rest, rewrite_frames_cons, rewrite_frames_cons, passed, ih later]

theorem named_without_self (frames : List Frame) (name : List Char) :
    named (without frames name) name = (named frames name).tail := by
  induction frames with
  | nil => rfl
  | cons frame frames ih =>
    by_cases same : frame.index.toList = name
    · simp [named, without, same]
    · simpa [named, without, same] using ih

theorem named_without_of_ne {other : List Char} (different : other ≠ name) (frames : List Frame) :
    named (without frames name) other = named frames other := by
  induction frames with
  | nil => rfl
  | cons frame frames ih =>
    by_cases same : frame.index.toList = name
    · simp [named, without, same, different.symm]
    · simp only [named, without] at ih
      simp [named, without, same, List.filter_cons, ih]

private theorem named_eq_nil (bare : Bare frames) (special : ¬ IsBare name) : named frames name = [] := by
  rw [named, List.filter_eq_nil_iff]
  rintro frame member same
  exact special (beq_iff_eq.mp same ▸ bare frame member)

/-- An occurrence that has been passed over uses up the innermost loop of its name. -/
theorem selected?_bracketed_append (bare : Bare frames) (bare' : IsBare name) (before other : List Char) :
    selected? frames (bracketed name ++ before) other = selected? (without frames name) before other := by
  by_cases bare'' : IsBare other
  · rw [selected?, selected?, occurrences_bracketed_append bare'' bare']
    by_cases same : other = name
    · rw [if_pos same, same, named_without_self, List.getElem?_tail]
    · rw [if_neg same, named_without_of_ne same, Nat.add_zero]
  · have bare_without : Bare (without frames name) :=
      fun frame member => bare frame (List.mem_of_mem_eraseP member)
    simp only [selected?, named_eq_nil bare bare'', named_eq_nil bare_without bare'', List.getElem?_nil]

/-- A character at which no name begins makes no difference. -/
theorem selected?_cons (bare : Bare frames) {c : Char} {before : List Char} (unnamed : Unnamed (c :: before))
    (other : List Char) : selected? frames (c :: before) other = selected? frames before other := by
  by_cases bare' : IsBare other
  · rw [selected?, selected?, occurrences_cons, if_neg (unnamed other bare'), Nat.add_zero]
  · simp only [selected?, named_eq_nil bare bare', List.getElem?_nil]

private theorem resolvedPieces_bracketed_append (bare : Bare frames) (bare' : IsBare name) (before : List Char)
    (pieces : List Piece) :
    resolvedPieces frames (bracketed name ++ before) pieces =
      resolvedPieces (without frames name) before pieces := by
  induction pieces generalizing before with
  | nil => rfl
  | cons piece pieces ih =>
    rw [resolvedPieces_cons, resolvedPieces_cons, List.append_assoc, ih]
    cases piece with
    | char => rfl
    | bracketed other => simp only [resolvedPiece, selected?_bracketed_append bare bare']

private theorem resolvedPieces_cons_of_unnamed (bare : Bare frames) {c : Char} {before : List Char}
    {pieces : List Piece} (unnamed : Unnamed (c :: (before ++ pieces.flatMap Piece.text))) :
    resolvedPieces frames (c :: before) pieces = resolvedPieces frames before pieces := by
  induction pieces generalizing before with
  | nil => rfl
  | cons piece pieces ih =>
    rw [List.flatMap_cons, ← List.append_assoc] at unnamed
    have here : Unnamed (c :: before) := fun name bare begins =>
      unnamed name bare (begins.trans ⟨piece.text ++ pieces.flatMap Piece.text, by simp⟩)
    rw [resolvedPieces_cons, resolvedPieces_cons, List.cons_append, ih unnamed]
    cases piece with
    | char => rfl
    | bracketed other => simp only [resolvedPiece, selected?_cons bare here]

/-- One replacement after the other resolves all pieces at once. -/
theorem rewrite_eq_resolvedPieces (bare : Bare frames) (path : List Char) :
    rewrite frames path = resolvedPieces frames [] (pieces path) := by
  induction path using pieces_induction generalizing frames with
  | nil => rw [rewrite_nil, pieces_nil, resolvedPieces_nil]
  | bracketed name text bare' ih =>
    have fewer : Bare (without frames name) :=
      fun frame member => bare frame (List.mem_of_mem_eraseP member)
    have counted := resolvedPieces_bracketed_append bare bare' [] (pieces text)
    rw [List.append_nil] at counted
    rw [rewrite_bracketed_append bare bare', ih fewer, pieces_bracketed_append bare', resolvedPieces_cons,
      List.nil_append, Piece.text, counted]
  | char c text unnamed ih =>
    have passed : Unnamed (c :: ([] ++ (pieces text).flatMap Piece.text)) := by
      rwa [List.nil_append, flatMap_text_pieces]
    rw [rewrite_cons bare unnamed, ih bare, pieces_cons unnamed, resolvedPieces_cons, List.nil_append, Piece.text,
      resolvedPieces_cons_of_unnamed bare passed]
    rfl

theorem resolvedPieces_congr (same : ∀ name, named frames name = named frames' name) (before : List Char)
    (pieces : List Piece) : resolvedPieces frames before pieces = resolvedPieces frames' before pieces := by
  induction pieces generalizing before with
  | nil => rfl
  | cons piece pieces ih =>
    rw [resolvedPieces_cons, resolvedPieces_cons, ih]
    cases piece with
    | char => rfl
    | bracketed name => simp only [resolvedPiece, selected?, same]

private theorem resolvedPieces_append (before : List Char) (front pieces : List Piece) :
    resolvedPieces frames before (front ++ pieces) =
      resolvedPieces frames before front ++
        resolvedPieces frames (before ++ front.flatMap Piece.text) pieces := by
  induction front generalizing before with
  | nil => simp
  | cons piece front ih =>
    simp only [List.cons_append, resolvedPieces_cons, ih, List.flatMap_cons, List.append_assoc]

end Frame

/-- If no active loop has a bracket or a point in its name, a path is resolved at once: each of its bracketed
names gives way to the index of the loop of this name that it selects, the first occurrence the innermost one,
the second one the next, and everything else is kept. Every occurrence of a bare name is one of the pieces that
the path consists of. So only the order of loops of the same name matters, the innermost of them has the first
occurrence, and the replacement for a loop leaves the occurrences of all other names as they are. -/
theorem Context.leafKey_at_once {context : Context} (bare : Frame.Bare context.frames) :
    (∀ path : String, (context.leafKey path true).toList =
      Frame.resolvedPieces context.frames [] (pieces path.toList)) ∧
    (∀ text, (pieces text).flatMap Piece.text = text) ∧
    (∀ name front tail, IsBare name → pieces (front ++ (bracketed name ++ tail)) =
      pieces front ++ .bracketed name :: pieces tail) ∧
    (∀ other : Context, (∀ name, Frame.named other.frames name = Frame.named context.frames name) →
      ∀ path, other.leafKey path true = context.leafKey path true) ∧
    (∀ (frame : Frame) (outer : List Frame) (front tail : String),
      Frame.named context.frames frame.index.toList = frame :: outer →
      occurrences frame.pattern front.toList = 0 →
      ∃ rest, context.leafKey (front ++ "[" ++ frame.index ++ "]" ++ tail) true =
        context.leafKey front true ++ "." ++ toString frame.current ++ rest) ∧
    ∀ frame ∈ context.frames, ∀ name, IsBare name → name ≠ frame.index.toList → ∀ text,
      occurrences (bracketed name) (replaceFirst frame.pattern frame.segment text) =
        occurrences (bracketed name) text := by
  have resolved {other : Context} (bare : Frame.Bare other.frames) (path : String) :
      (other.leafKey path true).toList = Frame.resolvedPieces other.frames [] (pieces path.toList) := by
    rw [← Frame.rewrite_eq_resolvedPieces bare]
    exact String.toList_ofList
  refine ⟨resolved bare, flatMap_text_pieces, fun name front tail named => pieces_append named front tail, ?_,
    ?_, ?_⟩
  · intro other same path
    have bare' : Frame.Bare other.frames := by
      intro frame member
      have among : frame ∈ Frame.named context.frames frame.index.toList := by
        rw [← same]
        simpa [Frame.named] using member
      exact bare frame (List.mem_filter.mp among).1
    rw [← String.toList_inj, resolved bare', resolved bare, Frame.resolvedPieces_congr same]
  · intro frame outer front tail innermost first
    have among : frame ∈ Frame.named context.frames frame.index.toList := innermost ▸ List.mem_cons_self
    have named := bare frame (List.mem_filter.mp among).1
    have chosen : Frame.resolvedPiece context.frames front.toList (.bracketed frame.index.toList) =
        frame.segment := by
      have none_before : occurrences (bracketed frame.index.toList) front.toList = 0 := first
      simp [Frame.resolvedPiece, Frame.selected?, none_before, innermost]
    have split : (front ++ "[" ++ frame.index ++ "]" ++ tail).toList =
        front.toList ++ (bracketed frame.index.toList ++ tail.toList) := by
      simp [bracketed]
    refine ⟨.ofList (Frame.resolvedPieces context.frames (front.toList ++ bracketed frame.index.toList)
      (pieces tail.toList)), ?_⟩
    rw [← String.toList_inj, resolved bare, split, pieces_append named, Frame.resolvedPieces_append,
      List.nil_append, flatMap_text_pieces, ← resolved bare, Frame.resolvedPieces_cons, chosen, Piece.text]
    simp [Frame.segment]
  · intro frame member name bare' different text
    exact occurrences_replaceFirst bare' (bare frame member) different
      (Decimal.openBracket_notMem_toString frame.current) text

/-- The theorem at three loops, two of which have one name. -/
theorem Context.leafKey_of_shadowed :
    let frames : List Frame := [⟨"i", 0, 3, 2⟩, ⟨"k=1", 0, 2, 1⟩, ⟨"i", 0, 9, 0⟩]
    let reordered : List Frame := [⟨"i", 0, 3, 2⟩, ⟨"i", 0, 9, 0⟩, ⟨"k=1", 0, 2, 1⟩]
    Frame.Bare frames ∧
      ({ frames } : Context).leafKey "a[[i]].b[k=1][i].c[i]" true = "a[.2].b.1.0.c[i]" ∧
      ({ frames := reordered } : Context).leafKey "a[[i]].b[k=1][i].c[i]" true = "a[.2].b.1.0.c[i]" := by
  intro frames reordered
  have bare : Frame.Bare frames := by decide
  have read : ({ frames } : Context).leafKey "a[[i]].b[k=1][i].c[i]" true = "a[.2].b.1.0.c[i]" := by
    decide +kernel
  have same (name : List Char) : Frame.named reordered name = Frame.named frames name := by
    by_cases outer : ['k', '=', '1'] = name
    · subst outer
      rfl
    · simp [Frame.named, frames, reordered, List.filter_cons, outer]
  have context : Frame.Bare ({ frames } : Context).frames := bare
  obtain ⟨-, -, -, interleaved, -⟩ := leafKey_at_once context
  exact ⟨bare, read, (interleaved { frames := reordered } same _).trans read⟩

end DocRules

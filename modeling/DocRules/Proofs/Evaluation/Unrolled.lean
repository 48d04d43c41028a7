import DocRules.Proofs.Decimal
import DocRules.Proofs.Evaluation.Indexed
import DocRules.Proofs.Text.Replace

/-! # Vector rules, unrolled

For every index of its loop a vector rule gives what its condition gives as a scalar rule, once the index
has been put in: in every string leaf, and in the array of every nested loop, the first `[name]` is
replaced by the segment of the index (`Condition.atIndex`). Evaluation puts the index of the outermost
loop in last. Replacements of different names commute, so it may as well be put in first
(`Indices.substitute_append`), and that is what a scalar rule with the index already in its texts amounts
to (`Condition.alike_atIndex`).
-/

namespace DocRules

open Outcome

/-- The text with the first `[name]` replaced by the segment that selects an index. -/
def Text.atIndex (name : String) (index : Int) (text : String) : String :=
  .ofList (replaceFirst (bracketed name.toList) ('.' :: (toString index).toList) text.toList)

def LoopHeader.atIndex (name : String) (index : Int) (header : LoopHeader) : LoopHeader :=
  { header with stop := Text.atIndex name index header.stop }

/-- The expression with an index put in its string leaves, which are marked as their texts ask. -/
def Expr.atIndex (name : String) (index : Int) : Expr → Expr
  | .leaf (.string text) _ => .ofValue (.string (Text.atIndex name index text))
  | .leaf value indexed => .leaf value indexed
  | .binary operator lhs rhs => .binary operator (lhs.atIndex name index) (rhs.atIndex name index)

def Condition.atIndex (name : String) (index : Int) : Condition → Condition
  | .scalar expr => .scalar (expr.atIndex name index)
  | .loop header body => .loop (header.atIndex name index) (body.atIndex name index)

namespace Text

/-- Indices of different names may be put in in any order. -/
theorem atIndex_comm {name other : String} (named : IsName name.toList) (named' : IsName other.toList)
    (different : name ≠ other) (index index' : Int) (text : String) :
    atIndex name index (atIndex other index' text) = atIndex other index' (atIndex name index text) := by
  have lists : name.toList ≠ other.toList := fun same => different (String.toList_inj.mp same)
  simp only [atIndex, String.toList_ofList]
  rw [replaceFirst_comm named.isBare named'.isBare lists (Decimal.openBracket_notMem_toString index)
    (Decimal.openBracket_notMem_toString index')]

/-- A segment ends in a digit. -/
theorem exists_getLast?_segment (index : Int) :
    ∃ d : Char, ('.' :: (toString index).toList).getLast? = some d ∧ d.isDigit = true := by
  obtain ⟨digits, all, nonempty, written⟩ := Decimal.toString_eq index
  obtain ⟨front, d, rfl⟩ := (List.eq_nil_or_concat digits).resolve_left nonempty
  refine ⟨d, ?_, all d (by simp)⟩
  rcases written with written | written
  · rw [written, List.concat_eq_append, ← List.cons_append, List.getLast?_concat]
  · rw [written, List.concat_eq_append, ← List.cons_append, ← List.cons_append, List.getLast?_concat]

end Text

/-- Putting an index in the text that ends a header is putting it in the path of the array. -/
theorem LoopHeader.arrayPath_atIndex (name : String) (index : Int) (header : LoopHeader) :
    (header.atIndex name index).arrayPath = Text.atIndex name index header.arrayPath := by
  obtain ⟨d, last, digit⟩ := Text.exists_getLast?_segment index
  have absent : d ∉ lengthMarker.toList := by
    have plain : lengthMarker.toList.any Char.isDigit = false := by decide
    intro member
    exact absurd digit (by simpa using List.any_eq_false.mp plain d member)
  have unclosed : ']' ∉ lengthMarker.toList := by decide
  simp only [arrayPath, atIndex, Text.atIndex, String.toList_ofList,
    Text.beforeEnd?_replaceFirst unclosed last absent]
  cases Text.beforeEnd? lengthMarker.toList header.stop.toList with
  | none => rfl
  | some path => simp only [Option.map_some, String.toList_ofList]

namespace Indices

theorem substitute_cons (name : String) (index : Int) (indices : Indices) (path : String) :
    substitute ((name, index) :: indices) path = indices.substitute (Text.atIndex name index path) := by
  simp only [substitute, Text.atIndex, List.foldl_cons, String.toList_ofList]
  rfl

/-- All active loops have names, other than the given one. -/
def Besides (name : String) (indices : Indices) : Prop :=
  ∀ entry ∈ indices, Text.IsName entry.1.toList ∧ entry.1 ≠ name

variable {name : String} {inner : Indices}

/-- The index of the outermost loop may be put in first. -/
theorem substitute_append (named : Text.IsName name.toList) (besides : inner.Besides name)
    (index : Int) (path : String) :
    (inner ++ [(name, index)]).substitute path = inner.substitute (Text.atIndex name index path) := by
  induction inner generalizing path with
  | nil => exact substitute_cons name index [] path
  | cons entry inner ih =>
    obtain ⟨⟨named', different⟩, rest⟩ := List.forall_mem_cons.mp besides
    rw [List.cons_append, substitute_cons, ih rest, substitute_cons,
      Text.atIndex_comm named named' different.symm]

/-- In a leaf that is marked as its text asks the index of the outermost loop may be put in first, and
the leaf be marked anew. -/
theorem leafPath_append (named : Text.IsName name.toList) (besides : inner.Besides name) (index : Int)
    (path : String) :
    (inner ++ [(name, index)]).leafPath path (Value.string path).mentionsIndex =
      inner.leafPath (Text.atIndex name index path)
        (Value.string (Text.atIndex name index path)).mentionsIndex := by
  rw [leafPath_mentionsIndex, leafPath_mentionsIndex]
  exact substitute_append named besides index path

end Indices

section AtIndex

variable {document : Document} {name : String} {index : Int} {inner : Indices}

/-- An expression with the index put in has the paths that it has inside the loop. -/
theorem Expr.resolved_atIndex {expr : Expr} (named : Text.IsName name.toList)
    (besides : inner.Besides name) (marked : expr.Marked) :
    (expr.atIndex name index).resolved inner = expr.resolved (inner ++ [(name, index)]) := by
  induction expr with
  | leaf value indexed =>
    obtain rfl : indexed = value.mentionsIndex := marked
    cases value with
    | string text => simp only [atIndex, ofValue, resolved, Indices.leafPath_append named besides]
    | int | float | bool => rfl
  | binary operator lhs rhs ihl ihr => simp only [atIndex, resolved, ihl marked.1, ihr marked.2]

/-- The loop runs over the same indices with the index put in. -/
theorem LoopHeader.rangeFrom_atIndex {header : LoopHeader} (named : Text.IsName name.toList)
    (besides : inner.Besides name) :
    (header.atIndex name index).rangeFrom (.ofDocument document) inner =
      header.rangeFrom (.ofDocument document) (inner ++ [(name, index)]) := by
  have bounds (path : String) : (Source.ofDocument document).bounds (header.atIndex name index) path =
      (Source.ofDocument document).bounds header path :=
    Source.bounds_ofDocument_congr path rfl
  simp only [rangeFrom, arrayPath_atIndex, Indices.substitute_append named besides, bounds]

/-- All loops of the condition have names, other than the given one. -/
def Condition.Besides (name : String) (condition : Condition) : Prop :=
  ∀ header ∈ condition.headers, Text.IsName header.index.toList ∧ header.index ≠ name

private theorem Condition.Besides.body {header : LoopHeader} {body : Condition}
    (apart : (Condition.loop header body).Besides name) (besides : inner.Besides name) (index : Int) :
    body.Besides name ∧ Indices.Besides name ((header.index, index) :: inner) := by
  obtain ⟨here, below⟩ := List.forall_mem_cons.mp apart
  exact ⟨below, List.forall_mem_cons.mpr ⟨here, besides⟩⟩

/-- A condition with the index put in is like the condition inside the loop at the index. -/
theorem Condition.alike_atIndex {condition : Condition} (named : Text.IsName name.toList)
    (besides : inner.Besides name) (apart : condition.Besides name)
    (marked : condition.innermost.Marked) :
    (condition.atIndex name index).Alike (.ofDocument document) inner condition
      (inner ++ [(name, index)]) := by
  induction condition generalizing inner with
  | scalar expr => exact Expr.resolved_atIndex named besides marked
  | loop header body ih =>
    refine ⟨LoopHeader.rangeFrom_atIndex named besides, ?_⟩
    intro k
    obtain ⟨below, besides⟩ := apart.body besides k
    exact ih besides below marked

@[simp] theorem Condition.headers_atIndex (name : String) (index : Int) (condition : Condition) :
    (condition.atIndex name index).headers = condition.headers.map (LoopHeader.atIndex name index) := by
  induction condition with
  | scalar expr => rfl
  | loop header body ih => simp only [atIndex, headers, ih, List.map_cons]

/-- The verdict of the condition at an index, as that of a scalar rule in a new context. -/
def Condition.verdictAt (name : String) (document : Document) (index : Int) (condition : Condition) :
    Except EvalError Verdict :=
  ({} : Engine).evaluateDocument (.scalar (condition.atIndex name index)) document

/-- If the condition has answers to all its questions inside the loop at the index, its verdict there is
what it gives inside the loop. -/
theorem Condition.verdictAt_eq {condition : Condition} (named : Text.IsName name.toList)
    (apart : condition.Besides name) (marked : condition.innermost.Marked)
    (consulted : condition.consult (.ofDocument document) [(name, index)] = .ok ()) :
    condition.verdictAt name document index =
      (condition.holdsFrom (.ofDocument document) [(name, index)]).map .scalar := by
  have besides : Indices.Besides name [] := List.forall_mem_nil _
  have plain : (Rule.scalar (condition.atIndex name index)).Plain := by
    intro header member
    change header ∈ (condition.atIndex name index).headers at member
    rw [headers_atIndex] at member
    obtain ⟨original, among, rfl⟩ := List.mem_map.mp member
    exact (apart original among).1.notMem (by decide)
  have alike : (condition.atIndex name index).Alike (.ofDocument document) [] condition [(name, index)] :=
    alike_atIndex named besides apart marked
  have answered := (consult_of_alike alike).trans consulted
  rw [verdictAt, Engine.evaluateDocument_of_plain _ plain]
  simp only [Rule.direct, Rule.asLoops, answered, ok_bind, Rule.verdictFrom, holdsFrom_of_alike alike]
  cases condition.holdsFrom (.ofDocument document) [(name, index)] <;> rfl

end AtIndex

section Unrolled

variable {header : LoopHeader} {condition : Condition} {document : Document}

/-- A loop outside of all others runs from its written start up to the length of its array. -/
theorem LoopHeader.exists_of_rangeFrom {range : List Int}
    (asked : header.rangeFrom (.ofDocument document) [] = .ok range) :
    ∃ (start : Int) (length : Nat), header.first? = some start ∧
      document.length header.arrayPath = .ok length ∧ range = Indices.range start length := by
  obtain ⟨⟨start, stop⟩, bounds, same⟩ := bind_eq_ok_iff.mp asked
  obtain rfl := Except.ok.inj same
  rw [Indices.substitute_nil] at bounds
  obtain ⟨first, length, measured, rfl⟩ := Source.exists_of_bounds bounds
  exact ⟨start, length, first, measured, rfl⟩

theorem Rule.plain_of_besides (named : Text.IsName header.index.toList)
    (apart : condition.Besides header.index) : (Rule.vector header condition).Plain :=
  List.forall_mem_cons.mpr ⟨named.notMem (by decide),
    fun inner member => (apart inner member).1.notMem (by decide)⟩

/-- A vector rule that was bound to a document outside of all loops has an entry for every index of its
own loop. The entry is the verdict of the condition with the index put in, evaluated as a scalar rule in
a new context, or it is false where that evaluation fails. The failures are those of the indices, in
order, and no others. -/
theorem Rule.evaluate_eq_unrolled {context after : Context} (marked : condition.innermost.Marked)
    (named : Text.IsName header.index.toList) (apart : condition.Besides header.index)
    (outside : context.frames = [])
    (bound : (Rule.vector header condition).bind document context = .ok () after) :
    ∃ (start : Int) (length : Nat) (entries : List Bool) (failures : List IterationFailure),
      header.first? = some start ∧ document.length header.arrayPath = .ok length ∧
      (Rule.vector header condition).evaluate .recordFalse after =
        .ok (.vector entries, failures) after ∧
      entries.length = (length - start).toNat ∧
      (∀ (n : Nat) (within : n < entries.length),
        condition.verdictAt header.index document (start + n) = .ok (.scalar entries[n]) ∨
        ∃ error, condition.verdictAt header.index document (start + n) = .error error ∧
          entries[n] = false ∧ ⟨start + n, error⟩ ∈ failures) ∧
      failures = (Indices.range start length).filterMap fun index =>
        IterationFailure.of? (index,
          (condition.verdictAt header.index document index).map Verdict.all) := by
  have noLoop : context.indices = [] := by
    rw [Context.indices, outside, List.map_nil]
  obtain ⟨consulted, evaluated⟩ := Rule.evaluate_of_bind bound
    (Rule.not_clash_of_plain (Rule.plain_of_besides named apart) document _) .recordFalse
  rw [noLoop] at consulted evaluated
  obtain ⟨range, asked, bodies⟩ := bind_eq_ok_iff.mp consulted
  obtain ⟨start, length, first, measured, rfl⟩ := LoopHeader.exists_of_rangeFrom asked
  let result (index : Int) : Except EvalError Bool :=
    condition.holdsFrom (.ofDocument document) [(header.index, index)]
  have verdicts : ∀ index ∈ Indices.range start length,
      condition.verdictAt header.index document index = (result index).map .scalar :=
    fun index among => Condition.verdictAt_eq named apart marked (forM_eq_ok_iff.mp bodies index among)
  refine ⟨start, length, (Indices.range start length).map fun index => (result index).toOption.getD false,
    (Indices.range start length).filterMap fun index => IterationFailure.of? (index, result index),
    first, measured, ?_, ?_, ?_, ?_⟩
  · rw [evaluated, verdictFrom, asked, ok_bind]
    simp only [Policy.collect, List.map_map, List.filterMap_map]
    rfl
  · simp [Indices.range]
  · intro n within
    simp only [Indices.range, List.length_map, List.length_range] at within
    have among : start + (n : Int) ∈ Indices.range start length :=
      List.mem_map.mpr ⟨n, List.mem_range.mpr within, rfl⟩
    simp only [verdicts _ among, Indices.range, List.getElem_map, List.getElem_range]
    cases given : result (start + n) with
    | ok b => exact .inl rfl
    | error error =>
      exact .inr ⟨error, rfl, rfl, List.mem_filterMap.mpr ⟨_, among, by rw [given]; rfl⟩⟩
  · apply List.filterMap_congr
    intro index among
    rw [verdicts index among]
    cases result index <;> rfl

end Unrolled

/-- The theorem at a rule whose nested loop runs over a different array at every index, and at the last
one finds a string where it needs a number. -/
theorem Rule.evaluate_nested_unrolled :
    let header : LoopHeader := ⟨"i", "1", "xs.size()"⟩
    let condition : Condition := .loop ⟨"j", "0", "xs[i].ys.size()"⟩
      (.scalar (.binary .gt (.leaf (.string "xs[i].ys[j]") true) (.leaf (.int 1) false)))
    let document : Document := .ofTable
      ⟨[("xs.1.ys.0", .int 2), ("xs.1.ys.1", .int 3), ("xs.2.ys.0", .string "a")],
        [("xs", 3), ("xs.1.ys", 2), ("xs.2.ys", 1)], []⟩
    Rule.parse "FOR: i=1:xs.size() IF: \x7b FOR: j=0:xs[i].ys.size() \x7b xs[i].ys[j] > 1 \x7d \x7d" =
        .ok (.vector header condition) ∧
      condition.innermost.Marked ∧ Text.IsName header.index.toList ∧ condition.Besides header.index ∧
      ∃ (after : Context) (failures : List IterationFailure) (error : EvalError),
        (Rule.vector header condition).bind document Context.empty = .ok () after ∧
        (Rule.vector header condition).evaluate .recordFalse after =
          .ok (.vector [true, false], failures) after ∧
        condition.verdictAt header.index document 2 = .error error ∧ ⟨2, error⟩ ∈ failures := by
  intro header condition document
  have parsed : Rule.parse
      "FOR: i=1:xs.size() IF: \x7b FOR: j=0:xs[i].ys.size() \x7b xs[i].ys[j] > 1 \x7d \x7d" =
        .ok (.vector header condition) := by
    rw [← Outcome.toOption_eq_some_iff]
    decide +kernel
  have marked : condition.innermost.Marked := Rule.marked_of_parse parsed
  have named : Text.IsName header.index.toList := by decide
  have apart : condition.Besides header.index := by
    intro inner member
    obtain rfl := List.mem_singleton.mp member
    decide
  have consulted : (Rule.vector header condition).asLoops.consult (.ofDocument document)
      Context.empty.indices = .ok () := by
    rw [← Outcome.toOption_eq_some_iff]
    decide +kernel
  have bound := Rule.bind_of_consult consulted
  obtain ⟨start, length, entries, failures, first, measured, evaluated, count, given, -⟩ :=
    Rule.evaluate_eq_unrolled marked named apart rfl bound
  have starts : header.first? = some 1 := by decide +kernel
  have measures : document.length header.arrayPath = .ok 3 := by
    rw [← Outcome.toOption_eq_some_iff]
    decide +kernel
  obtain rfl := Option.some.inj (starts.symm.trans first)
  obtain rfl := Except.ok.inj (measures.symm.trans measured)
  obtain ⟨b, b', rfl⟩ := List.length_eq_two.mp count
  have here : condition.verdictAt header.index document 1 = .ok (.scalar true) := by
    rw [← Outcome.toOption_eq_some_iff]
    decide +kernel
  have there : (condition.verdictAt header.index document 2).toOption = none := by
    decide +kernel
  rcases given 0 Nat.zero_lt_two with entry | ⟨_, failed, -⟩
  · obtain rfl : true = b := Verdict.scalar.inj (Except.ok.inj (here.symm.trans entry))
    rcases given 1 Nat.one_lt_two with entry | ⟨error, failed, rfl, recorded⟩
    · exact absurd ((congrArg Except.toOption entry).symm.trans there) (by simp [Except.toOption])
    · exact ⟨parsed, marked, named, apart, _, failures, error, bound, evaluated, failed, recorded⟩
  · exact absurd (here.symm.trans failed) (by simp)

end DocRules

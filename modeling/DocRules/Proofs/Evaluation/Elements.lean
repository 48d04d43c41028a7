import DocRules.Proofs.Evaluation.TwoPass
import DocRules.Proofs.Evaluation.Unrolled
import DocRules.Proofs.Json.Path

/-! # Vector rules over the elements of an array

A rule over an array speaks of the current element by its path, the path of the array with the index in
brackets, and of what is in the element by a path behind that. Inside the loop the path leads through the
array to the same place as the path behind it does in the element alone (`Indices.leafPath_element`,
`Json.lookup_element`). So the rule has for every element what the expression, with only the paths into
the element, has on the element as a document of its own (`Rule.evaluate_elements`).
-/

namespace DocRules

open Outcome

namespace Expr

def strings : Expr → List String
  | .leaf (.string text) _ => [text]
  | .leaf _ _ => []
  | .binary _ lhs rhs => lhs.strings ++ rhs.strings

/-- An expression over a document, as one over the current element of the array at a path. -/
def ofElement (path index : String) : Expr → Expr
  | .leaf (.string text) _ => .leaf (.string (path ++ "[" ++ index ++ "]." ++ text)) true
  | .leaf value indexed => .leaf value indexed
  | .binary operator lhs rhs =>
    .binary operator (lhs.ofElement path index) (rhs.ofElement path index)

/-- Whether an expression holds on a document as a scalar rule. Where the rule fails it does not. -/
def holdsOn (expr : Expr) (document : Document) : Bool :=
  (({} : Engine).evaluateDocument (.scalar (.scalar expr)) document).toOption.any Verdict.all

end Expr

/-- At an index the path into the current element goes through the index. -/
theorem Indices.leafPath_element {path : String} (unbracketed : '[' ∉ path.toList) (name : String)
    (index : Int) (text : String) :
    leafPath [(name, index)] (path ++ "[" ++ name ++ "]." ++ text) true =
      path ++ "." ++ toString index ++ "." ++ text := by
  have chars : (path ++ "[" ++ name ++ "]." ++ text).toList =
      path.toList ++ (Text.bracketed name.toList ++ '.' :: text.toList) := by
    simp [String.toList_append, Text.bracketed]
  rw [leafPath, if_pos rfl, substitute_cons, substitute_nil, Text.atIndex, chars,
    Text.replaceFirst_append_left unbracketed, Text.replaceFirst_append (Text.bracketed_ne_nil _),
    ← String.toList_inj]
  simp [String.toList_append]

section Sources

variable {source source' : Source} {indices : Indices} {path index : String} {expr : Expr}

/-- An expression over an element asks for, and has the value of, the expression over what is read
through the element. -/
theorem Expr.ofElement_from
    (reads : ∀ text ∈ expr.strings,
      source.read (indices.leafPath (path ++ "[" ++ index ++ "]." ++ text) true) = source'.read text) :
    (expr.ofElement path index).consult source indices = expr.consult source' [] ∧
      (expr.ofElement path index).valueFrom source indices = expr.valueFrom source' [] := by
  induction expr with
  | leaf value indexed =>
    cases value with
    | string text =>
      have read := reads text (List.mem_singleton_self text)
      simp only [ofElement, consult, valueFrom, read, Indices.leafPath_nil, and_self]
    | int | float | bool => exact ⟨rfl, rfl⟩
  | binary operator lhs rhs ihl ihr =>
    obtain ⟨consulted, value⟩ := ihl fun text member => reads text (List.mem_append_left _ member)
    obtain ⟨consulted', value'⟩ := ihr fun text member => reads text (List.mem_append_right _ member)
    simp only [ofElement, consult, valueFrom, consulted, consulted', value, value', and_self]

/-- An expression has answers to all its questions if all its string leaves are read. -/
theorem Expr.consult_of_reads (reads : ∀ text ∈ expr.strings, ∃ value, source.read text = .ok value) :
    expr.consult source [] = .ok () := by
  induction expr with
  | leaf value indexed =>
    cases value with
    | string text =>
      obtain ⟨value, read⟩ := reads text (List.mem_singleton_self text)
      rw [consult, Indices.leafPath_nil, read, map_ok]
    | int | float | bool => rfl
  | binary operator lhs rhs ihl ihr =>
    rw [consult, ihl fun text member => reads text (List.mem_append_left _ member), ok_bind]
    exact ihr fun text member => reads text (List.mem_append_right _ member)

/-- On a document with all its paths an expression holds as it does for the document. -/
theorem Expr.holdsOn_eq {document : Document}
    (reads : ∀ text ∈ expr.strings, ∃ value, (Source.ofDocument document).read text = .ok value) :
    expr.holdsOn document =
      ((Condition.scalar expr).holdsFrom (.ofDocument document) []).toOption.getD false := by
  have plain : (Rule.scalar (.scalar expr)).Plain := nofun
  rw [holdsOn, Engine.evaluateDocument_of_plain _ plain, Rule.direct, Rule.asLoops, Condition.consult,
    consult_of_reads reads, ok_bind, Rule.verdictFrom]
  cases (Condition.scalar expr).holdsFrom (.ofDocument document) [] with
  | error error => rfl
  | ok holds => cases holds <;> rfl

/-- All bounds in the trace of a single loop are the bounds of that loop. -/
theorem Condition.bounds_of_mem_trace {header : LoopHeader} {visit : Visit} {key : String}
    {bounds : Int × Int}
    (member : visit ∈ ((Condition.loop header (.scalar expr)).trace source indices).visits)
    (given : visit.bounds? key = some bounds) :
    source.bounds header (indices.substitute header.arrayPath) = .ok bounds := by
  have agrees := agrees_trace member
  simp only [trace] at member
  split at member
  · rcases Trace.mem_andThen member with here | later
    · obtain rfl := List.mem_singleton.mp here
      simp only [Visit.bounds?, Option.ite_none_right_eq_some, Option.some.injEq] at given
      obtain ⟨-, rfl⟩ := given
      exact agrees
    · obtain ⟨trace, among, there⟩ := Trace.mem_sequence later
      obtain ⟨index, -, rfl⟩ := List.mem_map.mp among
      cases visit with
      | field => cases given
      | loop => exact absurd there Expr.loop_notMem_trace
  · cases member

/-- A single loop does not clash with itself. -/
theorem Condition.not_clash_of_single (source : Source) (indices : Indices) (header : LoopHeader)
    (expr : Expr) :
    ¬ Visit.Clash ((Condition.loop header (.scalar expr)).trace source indices).visits := by
  rintro ⟨key, first, member, second, member', bounds, bounds', different, given, given'⟩
  have asked := bounds_of_mem_trace member given
  have asked' := bounds_of_mem_trace member' given'
  exact different (Except.ok.inj (asked.symm.trans asked'))

end Sources

/-- A loop outside of all others runs from its first index up to the length of its array, which has to
fit a signed word. -/
theorem LoopHeader.rangeFrom_of_length {header : LoopHeader} {document : Document} {start : Int}
    {length : Nat} (starts : header.first? = some start)
    (measured : document.length header.arrayPath = .ok length) :
    header.rangeFrom (.ofDocument document) [] =
      if Decimal.fitsInt64 length then .ok (Indices.range start length)
      else .error (.invalidIndex (toString length)) := by
  simp only [rangeFrom, Source.ofDocument, Indices.substitute_nil, starts, measured, ok_bind]
  split <;> rfl

/-- What a list has behind a position it has from that position on. -/
theorem mem_drop_of_getElem? {α : Type} {items : List α} {item : α} {first n : Nat}
    (there : items[first + n]? = some item) : item ∈ items.drop first :=
  List.mem_iff_getElem?.mpr ⟨n, by rw [List.getElem?_drop, there]⟩

/-- The indices from a position on are those of the elements from there on. -/
theorem Indices.map_range {α β : Type} {items : List α} {first : Nat} {f : Int → β} {g : α → β}
    (same : ∀ (n : Nat), ∀ item ∈ items.drop first, items[n]? = some item → f n = g item) :
    (range first items.length).map f = (items.drop first).map g := by
  apply List.ext_getElem
  · simp only [range, List.length_map, List.length_range, List.length_drop]
    omega
  · intro n within within'
    simp only [List.length_map, List.length_drop] at within'
    have there : items[first + n]? = some items[first + n] := List.getElem?_eq_getElem (by omega)
    simpa [range] using same (first + n) _ (mem_drop_of_getElem? there) there

private theorem Indices.exists_of_mem_range {α : Type} {items : List α} {first : Nat} {index : Int}
    (among : index ∈ range first items.length) :
    ∃ (n : Nat), ∃ item ∈ items.drop first, index = n ∧ items[n]? = some item := by
  obtain ⟨n, within, rfl⟩ := List.mem_map.mp among
  have inside : first + n < items.length := by
    have := List.mem_range.mp within
    omega
  have there := List.getElem?_eq_getElem inside
  exact ⟨first + n, _, mem_drop_of_getElem? there, rfl, there⟩

section Elements

variable {json : Json} {path index start : String} {first : Nat} {items : List Json} {expr : Expr}

/-- Every string leaf leads to a boolean, a number or a string in the document. -/
def Expr.FoundIn (expr : Expr) (document : Document) : Prop :=
  ∀ text ∈ expr.strings, ∃ value, document.lookup text = .ok (some value)

/-- At an index the condition over the element has what the expression has on the element. -/
theorem Condition.ofElement_at (index : String) {element : Json} {n : Nat} (unbracketed : '[' ∉ path.toList)
    (holds : json.at? path = some (.array items)) (small : n < UInt64.size)
    (there : items[n]? = some element) (found : expr.FoundIn (.ofJson element)) :
    (Condition.scalar (expr.ofElement path index)).consult (.ofDocument (.ofJson json)) [(index, n)] =
        .ok () ∧
      ((Condition.scalar (expr.ofElement path index)).holdsFrom (.ofDocument (.ofJson json))
        [(index, n)]).toOption.getD false = expr.holdsOn (.ofJson element) := by
  have reads : ∀ text ∈ expr.strings,
      ∃ value, (Source.ofDocument (.ofJson element)).read text = .ok value := by
    intro text member
    obtain ⟨value, found⟩ := found text member
    exact ⟨value, Source.read_of_lookup found⟩
  have same : ∀ text ∈ expr.strings,
      (Source.ofDocument (.ofJson json)).read
          (Indices.leafPath [(index, (n : Int))] (path ++ "[" ++ index ++ "]." ++ text) true) =
        (Source.ofDocument (.ofJson element)).read text := by
    intro text member
    obtain ⟨value, found⟩ := found text member
    rw [Indices.leafPath_element unbracketed, Source.read_of_lookup found]
    apply Source.read_of_lookup
    rw [Json.lookup_element holds small there, found]
  obtain ⟨consulted, value⟩ := Expr.ofElement_from same
  constructor
  · rw [consult, consulted, Expr.consult_of_reads reads]
  · rw [Expr.holdsOn_eq reads, holdsFrom, value]
    rfl

/-- The rule with an expression over the elements of the array at a path. -/
def Rule.overElements (path index start : String) (expr : Expr) : Rule :=
  .vector ⟨index, start, path ++ ".size()"⟩ (.scalar (expr.ofElement path index))

/-- A rule over the elements of an array has an entry for every element from the first index on, which is
whether the expression holds on that element by itself. All that is needed is that these elements have
what the expression speaks of. -/
theorem Rule.evaluate_elements (unbracketed : '[' ∉ path.toList)
    (holds : json.at? path = some (.array items))
    (starts : LoopHeader.first? ⟨index, start, path ++ ".size()"⟩ = some (first : Int))
    (found : ∀ element ∈ items.drop first, expr.FoundIn (.ofJson element)) :
    ({ policy := .recordFalse } : Engine).evaluateDocument (.overElements path index start expr)
        (.ofJson json) =
      if Decimal.fitsInt64 items.length then
        .ok (.vector ((items.drop first).map fun element => expr.holdsOn (.ofJson element)))
      else .error (.invalidIndex (toString items.length)) := by
  have array : LoopHeader.arrayPath ⟨index, start, path ++ ".size()"⟩ = path := by
    have marker : (path ++ ".size()").toList = path.toList ++ LoopHeader.lengthMarker.toList :=
      String.toList_append
    rw [LoopHeader.arrayPath, marker, Text.beforeEnd?_append]
    exact String.ofList_toList
  have measured : (Document.ofJson json).length path = .ok items.length := by
    simp only [Document.ofJson, holds]
  have range := LoopHeader.rangeFrom_of_length starts (array.symm ▸ measured)
  have apart : ¬ Visit.Clash ((Rule.overElements path index start expr).asLoops.trace
      (.ofDocument (.ofJson json)) []).visits := Condition.not_clash_of_single _ _ _ _
  rw [Engine.evaluateDocument_of_apart _ apart, direct, overElements, asLoops, Condition.consult,
    verdictFrom, range]
  split
  · rename_i fits
    have each (n : Nat) (element : Json) (member : element ∈ items.drop first)
        (there : items[n]? = some element) := by
      -- a segment is read as a word of 64 bits, and an array that a loop runs over is not longer
      have small : n < UInt64.size := by
        have inside := (List.getElem?_eq_some_iff.mp there).1
        have bound := (Decimal.fitsInt64_iff.mp fits).2
        have size : UInt64.size = 2 ^ 64 := rfl
        omega
      exact Condition.ofElement_at index unbracketed holds small there (found element member)
    have consulted : (Indices.range first items.length).forM (fun k =>
        (Condition.scalar (expr.ofElement path index)).consult (.ofDocument (.ofJson json))
          [(index, k)]) = .ok () := by
      refine forM_eq_ok_iff.mpr fun k among => ?_
      obtain ⟨n, element, member, rfl, there⟩ := Indices.exists_of_mem_range among
      exact (each n element member there).1
    have entries : (Indices.range first items.length).map (fun k =>
        ((Condition.scalar (expr.ofElement path index)).holdsFrom (.ofDocument (.ofJson json))
          [(index, k)]).toOption.getD false) =
        (items.drop first).map fun element => expr.holdsOn (.ofJson element) :=
      Indices.map_range fun n element member there => (each n element member there).2
    rw [ok_bind, consulted, ok_bind, ok_bind, ← entries]
    simp only [Policy.collect, List.map_map]
    rfl
  · rfl

/-- The theorem at an array within an array, whose first element has nothing and is not asked for. At the
next one the comparison fails. -/
theorem Rule.evaluate_elements_of_nested :
    let element (found : Json) : Json := .object [("v", .object [("n", found)])]
    let items : List Json := [.null, element (.string "a"), element (.number (.int 2))]
    let json : Json := .object [("x", .array [.array items])]
    let expr : Expr := .binary .gt (.leaf (.string "v.n") false) (.leaf (.int 1) false)
    '[' ∉ "x.0".toList ∧ json.at? "x.0" = some (.array items) ∧
      LoopHeader.first? ⟨"i", "1", "x.0.size()"⟩ = some 1 ∧
      (∀ element ∈ items.drop 1, expr.FoundIn (.ofJson element)) ∧
      Rule.parse "FOR: i=1:x.0.size() IF: \x7b x.0[i].v.n > 1 \x7d" =
        .ok (.overElements "x.0" "i" "1" expr) ∧
      ({ policy := .recordFalse } : Engine).evaluateDocument (.overElements "x.0" "i" "1" expr)
        (.ofJson json) = .ok (.vector [false, true]) := by
  intro element items json expr
  have unbracketed : '[' ∉ "x.0".toList := by decide
  have holds : json.at? "x.0" = some (.array items) := rfl
  have starts : LoopHeader.first? ⟨"i", "1", "x.0.size()"⟩ = some 1 := by decide +kernel
  have found : ∀ element ∈ items.drop 1, expr.FoundIn (.ofJson element) := by
    intro element member text leaf
    obtain rfl := List.mem_singleton.mp leaf
    simp only [items, List.drop_succ_cons, List.drop_zero, List.mem_cons, List.not_mem_nil,
      or_false] at member
    rcases member with rfl | rfl
    · exact ⟨.string "a", rfl⟩
    · exact ⟨.int 2, rfl⟩
  have parsed : Rule.parse "FOR: i=1:x.0.size() IF: \x7b x.0[i].v.n > 1 \x7d" =
      .ok (.overElements "x.0" "i" "1" expr) := by
    rw [← toOption_eq_some_iff]
    decide +kernel
  have entries : (items.drop 1).map (fun element => expr.holdsOn (.ofJson element)) = [false, true] := by
    decide +kernel
  refine ⟨unbracketed, holds, starts, found, parsed, ?_⟩
  have fits : Decimal.fitsInt64 items.length = true := by decide +kernel
  rw [Rule.evaluate_elements unbracketed holds starts found, if_pos fits, entries]

end Elements

end DocRules

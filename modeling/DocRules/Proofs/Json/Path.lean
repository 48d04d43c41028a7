import DocRules.Json
import DocRules.Proofs.Decimal
import DocRules.Proofs.Text.Cut

/-! # Paths into a document

A path is walked segment by segment, so a path with another one behind it leads to where the other one
leads from there (`Json.at?_append`). The text of an index is a single segment, which leads from an array
to its element (`Json.at?_index`). A path that goes through an element is therefore a path into the
element, whatever points the paths before and behind the index have (`Json.lookup_element`).
-/

namespace DocRules

namespace Json

variable {json : Json} {path : String} {items : List Json}

/-- Behind a path is what the rest of the path leads to from there. -/
theorem at?_append (json : Json) (path rest : String) :
    json.at? (path ++ "." ++ rest) = (json.at? path).bind fun inner => inner.at? rest := by
  have chars : (path ++ "." ++ rest).toList = path.toList ++ '.' :: rest.toList := by
    simp only [String.toList_append, List.append_assoc]
    rfl
  simp only [at?, chars, Text.cutAt_append, List.foldlM_append]
  rfl

theorem at?_index (items : List Json) {n : Nat} (small : n < UInt64.size) :
    (array items).at? (toString (n : Int)) = items[n]? := by
  have whole : '.' ∉ (toString (n : Int)).toList :=
    Decimal.notMem_toString rfl (by decide) (by decide) n
  rw [at?, Text.cutAt_of_notMem whole, List.foldlM_cons, step?, Decimal.position?_toString small,
    Option.bind_some]
  cases items[n]? <;> rfl

/-- A path through an element of an array is a path into the element. -/
theorem lookup_element {element : Json} {n : Nat} (holds : json.at? path = some (.array items))
    (small : n < UInt64.size) (there : items[n]? = some element) (rest : String) :
    (Document.ofJson json).lookup (path ++ "." ++ toString (n : Int) ++ "." ++ rest) =
      (Document.ofJson element).lookup rest := by
  have same : json.at? (path ++ "." ++ toString (n : Int) ++ "." ++ rest) = element.at? rest := by
    rw [at?_append, at?_append, holds, Option.bind_some, at?_index items small, there, Option.bind_some]
  simp only [Document.ofJson, same]

end Json

end DocRules

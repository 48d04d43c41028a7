import DocRules.Proofs.Evaluation.Iterations
import DocRules.Proofs.Evaluation.Unrolled
import DocRules.Proofs.Json.Path

/-! # Words in quotes

A word in quotes is a leaf like any other. The indices of the active loops are put into it, nothing is found
under it in a document whose names have no quotes, and the value is the text that is then between the quotes
(`Source.read_quoted`). In every iteration of a rule that is bound to the document the leaf has this value
(`Rule.evaluate_quoted`).

Every replacement takes an opening bracket away and none brings one in. So the text is the one that was
written if and only if no active loop is mentioned between the quotes (`Indices.substitute_eq_self_iff`).
-/

namespace DocRules

namespace Text

variable {pattern replacement text : List Char}

/-- Of a pattern that occurs in a text one occurrence is replaced. -/
theorem exists_replaceFirst_of_infix (nonempty : pattern ≠ []) (replacement : List Char)
    (occurs : pattern <:+: text) :
    ∃ before after, text = before ++ pattern ++ after ∧
      replaceFirst pattern replacement text = before ++ replacement ++ after := by
  induction text with
  | nil => exact absurd (List.infix_nil.mp occurs) nonempty
  | cons c text ih =>
    by_cases here : pattern <+: c :: text
    · obtain ⟨after, same⟩ := here
      rw [← same]
      exact ⟨[], after, rfl, replaceFirst_append nonempty replacement after⟩
    · obtain ⟨before, after, rfl, replaced⟩ := ih ((List.infix_cons_iff.mp occurs).resolve_left here)
      rw [replaceFirst_cons here, replaced]
      exact ⟨c :: before, after, rfl, rfl⟩

private theorem replaceFirst_of_not_infix (nonempty : pattern ≠ []) (replacement : List Char)
    (absent : ¬ pattern <:+: text) : replaceFirst pattern replacement text = text := by
  rcases replaceFirst_cases nonempty replacement text with same | ⟨before, after, rfl, -⟩
  · exact same
  · exact absurd ⟨before, after, rfl⟩ absent

def Mentions (name text : String) : Prop :=
  bracketed name.toList <:+: text.toList

theorem atIndex_of_not_mentions {name text : String} (absent : ¬ Mentions name text) (index : Int) :
    atIndex name index text = text := by
  rw [atIndex, replaceFirst_of_not_infix (bracketed_ne_nil _) _ absent, String.ofList_toList]

/-- Putting in the index of a loop that is mentioned takes an opening bracket away. -/
theorem count_atIndex_lt {name text : String} (occurs : Mentions name text) (index : Int) :
    (atIndex name index text).toList.count '[' < text.toList.count '[' := by
  obtain ⟨before, after, split, replaced⟩ :=
    exists_replaceFirst_of_infix (bracketed_ne_nil _) ('.' :: (toString index).toList) occurs
  have segment : ('.' :: (toString index).toList).count '[' = 0 := by
    rw [List.count_eq_zero]
    simpa using Decimal.openBracket_notMem_toString index
  have pattern : 0 < (bracketed name.toList).count '[' :=
    List.count_pos_iff.mpr List.mem_cons_self
  rw [atIndex, String.toList_ofList, replaced, split]
  simp only [List.count_append, segment]
  omega

private theorem count_atIndex_le (name text : String) (index : Int) :
    (atIndex name index text).toList.count '[' ≤ text.toList.count '[' := by
  by_cases occurs : Mentions name text
  · exact (count_atIndex_lt occurs index).le
  · rw [atIndex_of_not_mentions occurs]

end Text

namespace Indices

private theorem count_substitute_le (indices : Indices) (path : String) :
    (indices.substitute path).toList.count '[' ≤ path.toList.count '[' := by
  induction indices generalizing path with
  | nil => rw [substitute_nil]
  | cons entry indices ih =>
    rw [substitute_cons]
    exact (ih _).trans (Text.count_atIndex_le entry.1 path entry.2)

/-- A text stays as it is if and only if no active loop is mentioned in it. -/
theorem substitute_eq_self_iff {indices : Indices} {path : String} :
    indices.substitute path = path ↔ ∀ entry ∈ indices, ¬ Text.Mentions entry.1 path := by
  induction indices generalizing path with
  | nil => simp
  | cons entry indices ih =>
    rw [substitute_cons, List.forall_mem_cons]
    by_cases occurs : Text.Mentions entry.1 path
    · have fewer := (count_substitute_le indices _).trans_lt (Text.count_atIndex_lt occurs entry.2)
      simp only [occurs, not_true_eq_false, false_and, iff_false]
      intro same
      rw [same] at fewer
      exact lt_irrefl _ fewer
    · rw [Text.atIndex_of_not_mentions occurs, ih]
      simp only [occurs, not_false_eq_true, true_and]

end Indices

def Text.quoted (text : String) : String :=
  "\"" ++ text ++ "\""

theorem Text.toList_quoted (text : String) : (quoted text).toList = '"' :: (text.toList ++ ['"']) := by
  simp only [quoted, String.toList_append]
  rfl

theorem Text.unquote_quoted (text : String) : unquote (quoted text).toList = text.toList := by
  rw [toList_quoted, unquote, beforeEnd?_append, Option.getD_some]

private theorem Text.atIndex_quoted (name : String) (index : Int) (text : String) :
    atIndex name index (quoted text) = quoted (atIndex name index text) := by
  have opening : '[' ∉ ['"'] := by decide
  have closing : ']' ∉ ['"'] := by decide
  apply String.toList_inj.mp
  rw [toList_quoted, atIndex, atIndex, String.toList_ofList, String.toList_ofList, toList_quoted]
  exact (replaceFirst_append_left opening _).trans
    (congrArg ('"' :: ·) (replaceFirst_append_right closing text.toList))

theorem Indices.substitute_quoted (indices : Indices) (text : String) :
    indices.substitute (Text.quoted text) = Text.quoted (indices.substitute text) := by
  induction indices generalizing text with
  | nil => rw [substitute_nil, substitute_nil]
  | cons entry indices ih => rw [substitute_cons, substitute_cons, Text.atIndex_quoted, ih]

private theorem Expr.ofWord_quoted (word : String) :
    ofWord (Text.quoted word) =
      .leaf (.string (Text.quoted word)) (Value.string (Text.quoted word)).mentionsIndex := by
  have chars := Text.toList_quoted word
  have notTrue : Text.quoted word ≠ "true" := by
    intro same
    rw [same] at chars
    simp at chars
  have notFalse : Text.quoted word ≠ "false" := by
    intro same
    rw [same] at chars
    simp at chars
  have whole : Decimal.int64? (Text.quoted word).toList = none := by
    simp [chars, Decimal.int64?, Decimal.signed?, Decimal.natural?]
  have real : Value.finite? (Text.quoted word).toList = none := by
    simp [chars, Value.finite?, Value.startsNumeral]
  rw [ofWord, ofValue, Value.ofLiteral, if_neg notTrue, if_neg notFalse, whole, real]

/-- The names at the root of a value, at which a path can begin. -/
def Json.names : Json → List String
  | .object members => members.map Prod.fst
  | _ => []

/-- Nothing is found under a path that begins with a quote. -/
theorem Json.lookup_quoted {json : Json} (unquoted : ∀ name ∈ json.names, '"' ∉ name.toList)
    (text : String) : (Document.ofJson json).lookup (Text.quoted text) = .ok none := by
  have other : '"' ≠ '.' := by decide
  obtain ⟨piece, pieces, cut⟩ := Text.exists_cutAt_cons other (text.toList ++ ['"'])
  have step : json.step? ('"' :: piece) = none := by
    cases json with
    | object members =>
      rw [step?, member?, List.lookup_eq_none_iff]
      intro member among
      have plain := unquoted member.1 (List.mem_map_of_mem (List.mem_reverse.mp among))
      rw [bne_iff_ne]
      intro same
      rw [← same, String.toList_ofList] at plain
      exact plain List.mem_cons_self
    | array items => simp [step?, Decimal.position?, Decimal.unsigned?, Decimal.natural?]
    | null | bool | number | string => rfl
  have nowhere : json.at? (Text.quoted text) = none := by
    rw [at?, Text.toList_quoted, cut, List.foldlM_cons, step]
    rfl
  simp only [Document.ofJson, nowhere]

/-- What is read at a word in quotes is the text between the quotes. -/
theorem Source.read_quoted {json : Json} (unquoted : ∀ name ∈ json.names, '"' ∉ name.toList)
    (text : String) : (ofDocument (.ofJson json)).read (Text.quoted text) = .ok (.string text) := by
  refine read_eq_ok_iff.mpr ⟨none, json.lookup_quoted unquoted text, ?_⟩
  rw [Option.getD_none, Text.unquote_quoted, String.ofList_toList]

/-- In every iteration of a rule from text a word in quotes has its text, with the indices of the active
loops put in. This is the text as it is written if and only if no active loop is mentioned in it. -/
theorem Rule.evaluate_quoted {text word : String} {rule : Rule} {json : Json} {context after : Context}
    (parsed : Rule.parse text = .ok rule) (among : .ofWord (Text.quoted word) ∈ rule.innermost.leaves)
    (unquoted : ∀ name ∈ json.names, '"' ∉ name.toList)
    (bound : rule.bind (.ofJson json) context = .ok () after) :
    ∀ inner, rule.Iterates after inner →
      (Expr.ofWord (Text.quoted word)).evaluate inner = .ok (.string (inner.indices.substitute word)) ∧
      (inner.indices.substitute word = word ↔ ∀ entry ∈ inner.indices, ¬ Text.Mentions entry.1 word) := by
  intro inner iterates
  refine ⟨?_, Indices.substitute_eq_self_iff⟩
  rw [Expr.ofWord_quoted] at among ⊢
  rw [evaluate_leaf_of_parse parsed bound among iterates, Indices.substitute_quoted]
  exact Source.read_quoted unquoted _

/-- The theorem inside two loops, at a word with points, digits, the name of an active loop and the brackets
of a loop that is not active. -/
theorem Rule.evaluate_quoted_of_inactive :
    let rule : Rule := .vector ⟨"i", "0", "xs.size()"⟩ (.loop ⟨"j", "0", "xs.size()"⟩ (.scalar
      (.binary .eq (.leaf (.string "\"x[k].j.1\"") true) (.leaf (.string "s") false))))
    let json : Json := .object [("xs", .array [.null, .bool true]), ("s", .string "x[k].j.1")]
    Rule.parse
        "FOR: i=0:xs.size() IF: \x7b FOR: j=0:xs.size() \x7b \"x[k].j.1\" == s \x7d \x7d" = .ok rule ∧
      ∃ after, rule.bind (.ofJson json) Context.empty = .ok () after ∧
        ∀ inner : Context, inner.fields = after.fields → inner.indices = [("j", 1), ("i", 0)] →
          (Expr.ofWord (Text.quoted "x[k].j.1")).evaluate inner = .ok (.string "x[k].j.1") := by
  intro rule json
  let after := Context.empty.record (rule.asLoops.trace (.ofDocument (.ofJson json)) []).visits
  have parsed : Rule.parse
      "FOR: i=0:xs.size() IF: \x7b FOR: j=0:xs.size() \x7b \"x[k].j.1\" == s \x7d \x7d" = .ok rule := by
    rw [← Outcome.toOption_eq_some_iff]
    decide +kernel
  have among : .ofWord (Text.quoted "x[k].j.1") ∈ rule.innermost.leaves := by decide +kernel
  have unquoted : ∀ name ∈ json.names, '"' ∉ name.toList := by decide
  have consulted : rule.asLoops.consult (.ofDocument (.ofJson json)) Context.empty.indices = .ok () := by
    rw [← Outcome.toOption_eq_some_iff]
    decide +kernel
  have bound : rule.bind (.ofJson json) Context.empty = .ok () after := Rule.bind_of_consult consulted
  have iteration : [("j", 1), ("i", 0)] ∈ rule.asLoops.iterations (.ofContext after) after.indices := by
    decide +kernel
  refine ⟨parsed, after, bound, fun inner same here => ?_⟩
  rw [← here] at iteration
  have given := evaluate_quoted parsed among unquoted bound inner ⟨same, iteration⟩
  have inactive : ∀ entry ∈ inner.indices, ¬ Text.Mentions entry.1 "x[k].j.1" := by
    rw [here]
    unfold Text.Mentions
    decide
  rw [given.1, given.2.mpr inactive]

/-- A word in quotes that mentions an active loop does not have its own text. -/
theorem Rule.evaluate_quoted_of_active :
    let rule : Rule := .vector ⟨"i", "0", "xs.size()"⟩ (.scalar
      (.binary .eq (.leaf (.string "\"x[i]\"") true) (.leaf (.string "s") false)))
    let json : Json := .object [("xs", .array [.null]), ("s", .string "x[i]")]
    Rule.parse "FOR: i=0:xs.size() IF: \x7b \"x[i]\" == s \x7d" = .ok rule ∧
      .ofWord (Text.quoted "x[i]") ∈ rule.innermost.leaves ∧
      (∀ name ∈ json.names, '"' ∉ name.toList) ∧
      (∃ after inner, rule.bind (.ofJson json) Context.empty = .ok () after ∧ rule.Iterates after inner ∧
        (Expr.ofWord (Text.quoted "x[i]")).evaluate inner = .ok (.string "x.0")) ∧
      ({} : Engine).evaluateDocument rule (.ofJson json) = .ok (.vector [false]) := by
  intro rule json
  let after := Context.empty.record (rule.asLoops.trace (.ofDocument (.ofJson json)) []).visits
  have parsed : Rule.parse "FOR: i=0:xs.size() IF: \x7b \"x[i]\" == s \x7d" = .ok rule := by
    rw [← Outcome.toOption_eq_some_iff]
    decide +kernel
  have consulted : rule.asLoops.consult (.ofDocument (.ofJson json)) Context.empty.indices = .ok () := by
    rw [← Outcome.toOption_eq_some_iff]
    decide +kernel
  have among : .ofWord (Text.quoted "x[i]") ∈ rule.innermost.leaves := by decide +kernel
  have unquoted : ∀ name ∈ json.names, '"' ∉ name.toList := by decide
  have bound : rule.bind (.ofJson json) Context.empty = .ok () after := Rule.bind_of_consult consulted
  have iteration : (after.enter ⟨"i", 0, 1, 0⟩).indices ∈
      rule.asLoops.iterations (.ofContext after) after.indices := by
    decide +kernel
  have value : (Expr.ofWord (Text.quoted "x[i]")).evaluate (after.enter ⟨"i", 0, 1, 0⟩) =
      .ok (.string "x.0") := by
    rw [← Outcome.toOption_eq_some_iff]
    decide +kernel
  have verdict : ({} : Engine).evaluateDocument rule (.ofJson json) = .ok (.vector [false]) := by
    rw [← Outcome.toOption_eq_some_iff]
    decide +kernel
  exact ⟨parsed, among, unquoted,
    ⟨after, after.enter ⟨"i", 0, 1, 0⟩, bound, ⟨after.fields_enter _, iteration⟩, value⟩, verdict⟩

end DocRules

import DocRules.Proofs.Evaluation.Indexed
import DocRules.Proofs.Json.Number
import DocRules.Proofs.Json.Token

/-! # A numeral in a rule and in a document

The same numeral is a literal in the rule `x == n` and a number in the document `{"x": n}`, and the two
are read in different ways: the literal is an integer if it writes one that fits, or else the nearest
number, while the document has floating point numbers for zero with a minus sign and for integers beyond
the signed words, and scales digits by powers of ten in floating point arithmetic. That the rule gives
what the comparison of the two readings does (`Engine.evaluate_comparing`) is a matter of reading both
texts; where the readings meet is a fact about numerals (`Json.Numeral.number?_of_exact`,
`Json.Number.apply_ofLiteral`).
-/

namespace DocRules

open Outcome

variable {text : String} {numeral : Json.Numeral}

/-- A text that is an object with a number is read as one, if the number is finite. -/
theorem Json.ofText?_of_numeral (written : Json.Numeral.ofChars? text.toList = some numeral) :
    Json.ofText? ("\x7b\"x\": " ++ text ++ "\x7d") =
      numeral.number?.map fun number => .object [("x", .number number)] := by
  have chars : ("\x7b\"x\": " ++ text ++ "\x7d").toList =
      '\x7b' :: '"' :: 'x' :: '"' :: ':' :: ' ' :: (text.toList ++ ['\x7d']) := by
    simp only [String.toList_append, List.append_assoc]
    rfl
  have name : Json.Token.pieces? ('x' :: '"' :: ':' :: ' ' :: (text.toList ++ ['\x7d'])) =
      some ([.char 'x'], ':' :: ' ' :: (text.toList ++ ['\x7d'])) := by
    simp [Json.Token.pieces?]
  have ends : ∀ c ∈ ['\x7d'].head?, Json.Token.isPlainChar c = false := by
    intro c first
    obtain rfl := Option.some.inj first
    rfl
  have last : Json.Token.ofChars? [] = some [] := by rw [Json.Token.ofChars?]
  have tokens : Json.Token.ofChars? ("\x7b\"x\": " ++ text ++ "\x7d").toList =
      some [.openBrace, .string (some "x"), .colon, .plain (.number numeral.number?), .closeBrace] := by
    rw [chars, Json.Token.ofChars?_of_mark rfl, Json.Token.ofChars?_of_pieces name,
      Json.Token.ofChars?_of_mark rfl, Json.Token.ofChars?_of_isBlank rfl,
      Json.Token.ofChars?_of_numeral written ends, Json.Token.ofChars?_of_mark rfl, last]
    rfl
  rw [ofText?, Tree.ofText?, tokens]
  cases numeral.number? <;> rfl

private theorem Json.lookup_number (number : Json.Number) :
    (Document.ofJson (.object [("x", .number number)])).lookup "x" = .ok (some number.asValue) := by
  cases number <;> rfl

/-- Nothing is found at a path that is a numeral. -/
theorem Json.lookup_numeral (written : Json.Numeral.ofChars? text.toList = some numeral) (number : Number) :
    (Document.ofJson (.object [("x", .number number)])).lookup text = .ok none := by
  obtain ⟨c, rest, path, first⟩ := Numeral.exists_first written
  have notPoint : c ≠ '.' := by rintro rfl; simp at first
  have notName : c ≠ 'x' := by rintro rfl; simp at first
  obtain ⟨segment, segments, cut⟩ := Text.exists_cutAt_cons notPoint rest
  have other : (String.ofList (c :: segment) == "x") = false := by
    rw [beq_eq_false_iff_ne, ne_eq, ← String.toList_inj, String.toList_ofList]
    exact fun same => notName (List.cons.inj same).1
  have missed : step? (c :: segment) (.object [("x", .number number)]) = none := by
    simp only [step?, member?, List.reverse_singleton, List.lookup_cons, other, List.lookup_nil]
  have absent : Json.at? (.object [("x", .number number)]) text = none := by
    rw [at?, path, cut, List.foldlM_cons, missed]
    rfl
  simp [Document.ofJson, absent]

private theorem Json.ofBytes?_toUTF8 (text : String) : ofBytes? text.toUTF8 = ofText? text := by
  have decoded : String.fromUTF8? text.toUTF8 = some text := by
    simp only [String.fromUTF8?]
    exact dif_pos text.isValidUTF8
  rw [ofBytes?, decoded]
  rfl

/-- The rule that compares what is at a path with a literal. -/
def Rule.comparing (path literal : String) : Rule :=
  .scalar (.scalar (.binary .eq (.leaf (.string path) false) (.ofWord literal)))

/-- A word that is no path into the document and has no quotes stands for its value. -/
theorem Expr.valueFrom_ofWord {document : Document} {literal : String}
    (absent : document.lookup literal = .ok none)
    (unquoted : Text.unquote literal.toList = literal.toList) :
    (Expr.ofWord literal).consult (.ofDocument document) [] = .ok () ∧
      (Expr.ofWord literal).valueFrom (.ofDocument document) [] = .ok (.ofLiteral literal) := by
  rw [ofWord, ofValue]
  cases value : Value.ofLiteral literal with
  | string path =>
    obtain rfl := Value.eq_of_ofLiteral_string value
    have read : (Source.ofDocument document).read literal = .ok (.string literal) := by
      refine Source.read_eq_ok_iff.mpr ⟨none, absent, ?_⟩
      rw [Option.getD_none, unquoted, String.ofList_toList]
    exact ⟨by simp only [consult, Indices.leafPath_nil, read, map_ok],
      by simp only [valueFrom, Indices.leafPath_nil, read]⟩
  | int | float | bool => exact ⟨rfl, rfl⟩

/-- The rule that compares a path with a literal holds if the two values are equal. -/
theorem Engine.evaluateDocument_comparing (engine : Engine) {document : Document} {path literal : String}
    {value : Value} (found : document.lookup path = .ok (some value))
    (absent : document.lookup literal = .ok none)
    (unquoted : Text.unquote literal.toList = literal.toList) :
    engine.evaluateDocument (.comparing path literal) document =
      (Operator.eq.apply value (.ofLiteral literal)).map .scalar := by
  have plain : (Rule.comparing path literal).Plain := nofun
  obtain ⟨consulted, valued⟩ := Expr.valueFrom_ofWord absent unquoted
  have read := Source.read_of_lookup found
  rw [engine.evaluateDocument_of_plain plain]
  simp only [Rule.direct, Rule.comparing, Rule.asLoops, Condition.consult, Expr.consult, Indices.leafPath_nil,
    read, map_ok, consulted, ok_bind, Rule.verdictFrom, Condition.holdsFrom, Expr.valueFrom, valued]
  cases Operator.eq.apply value (.ofLiteral literal) <;> rfl

/-- A word without an operator after a path and `==` is read as the literal to compare with. -/
theorem Rule.parse_comparing {literal : String} (word : Token.IsWord literal)
    (operand : Operator.ofWord? literal = none) :
    Rule.parse ("IF: \x7b x == " ++ literal ++ " \x7d") = .ok (.comparing "x" literal) := by
  let tokens : List Token := [.ifMark, .openBrace, .word "x", .word "==", .word literal, .closeBrace]
  have printable : ∀ token ∈ tokens, token.Printable := by
    have path : Token.IsWord "x" := ⟨by decide, List.all_eq_true.mp rfl, rfl⟩
    have operator : Token.IsWord "==" := ⟨by decide, List.all_eq_true.mp rfl, rfl⟩
    simpa [tokens, Token.Printable] using ⟨path, operator, word⟩
  have separated : ' ' :: ("IF: \x7b x == " ++ literal ++ " \x7d").toList = Token.spaced tokens := by
    simp only [String.toList_append, List.append_assoc]
    rfl
  have spelled : Parse.Body ["x", "==", literal]
      (.binary .eq (.leaf (.string "x") false) (.ofWord literal)) := by
    have name : Operator.ofWord? "x" = none := rfl
    have equals : Operator.ofWord? "==" = some .eq := rfl
    refine Reduction.ofWords_eq_ok_iff.mpr ⟨?_, by change 2 ≤ maxExprDepth; decide⟩
    simp only [Reduction.reduced?, Reduction.completed?, name, equals, operand]
    rfl
  rw [parse_eq_ok_iff]
  have read : Token.ofRuleText ("IF: \x7b x == " ++ literal ++ " \x7d") = tokens :=
    Cursor.tokens_of_spaced separated printable 0
  rw [read]
  exact .scalar (.scalar spelled) .absent

/-- A numeral is such a word. -/
theorem Rule.parse_comparing_of_numeral (written : Json.Numeral.ofChars? text.toList = some numeral) :
    Rule.parse ("IF: \x7b x == " ++ text ++ " \x7d") = .ok (.comparing "x" text) := by
  obtain ⟨nonempty, chars⟩ := Json.Numeral.isNumeralChar_of_written written
  obtain ⟨word, operand⟩ := Value.isWord_of_isNumeralChar nonempty chars
  exact parse_comparing word operand

/-- The verdict is that of the number of the document against the value of the literal. -/
theorem Engine.evaluate_comparing (engine : Engine)
    (written : Json.Numeral.ofChars? text.toList = some numeral) :
    engine.evaluate (.comparing "x" text) ("\x7b\"x\": " ++ text ++ "\x7d").toUTF8 =
      match numeral.number? with
      | none => .error .input
      | some number =>
        ((Operator.eq.apply number.asValue (.ofLiteral text)).map .scalar).mapError .eval := by
  obtain ⟨c, rest, chars, first⟩ := Json.Numeral.exists_first written
  have notQuote : c ≠ '"' := by rintro rfl; simp at first
  have unquoted : Text.unquote text.toList = text.toList := by
    rw [chars]
    simp [Text.unquote, notQuote]
  rw [evaluate, document, Json.ofBytes?_toUTF8, Json.ofText?_of_numeral written]
  cases numeral.number? with
  | none => rfl
  | some number =>
    have found := Json.lookup_number number
    have absent := Json.lookup_numeral written number
    simp only [Option.map_some, ok_bind, engine.evaluateDocument_comparing found absent unquoted]

/-- A rule that compares a field with a numeral is read, and against a document with the same numeral in
that field it gives an error if the number of the document is not finite, and otherwise whether this
number is the nearest one. Zero with a minus sign is compared with an integer, and a numeral whose
nearest number is infinite with a string. Short numerals are equal to themselves. -/
theorem Engine.evaluate_numeral (engine : Engine)
    (written : Json.Numeral.ofChars? text.toList = some numeral) :
    ∃ rule, Rule.parse ("IF: \x7b x == " ++ text ++ " \x7d") = .ok rule ∧
      engine.evaluate rule ("\x7b\"x\": " ++ text ++ "\x7d").toUTF8 =
        (match numeral.number? with
        | none => .error .input
        | some number =>
          if text = "-0" then .error (.eval (.typeMismatch .eq .float .int))
          else if numeral.nearest.isFinite then .ok (.scalar (number.toBinary64 = numeral.nearest))
          else .error (.eval (.typeMismatch .eq .float .string))) ∧
      (numeral.Exact → text ≠ "-0" →
        engine.evaluate rule ("\x7b\"x\": " ++ text ++ "\x7d").toUTF8 = .ok (.scalar true)) := by
  have evaluated : engine.evaluate (.comparing "x" text) ("\x7b\"x\": " ++ text ++ "\x7d").toUTF8 =
      match numeral.number? with
      | none => .error .input
      | some number =>
        if text = "-0" then .error (.eval (.typeMismatch .eq .float .int))
        else if numeral.nearest.isFinite then .ok (.scalar (number.toBinary64 = numeral.nearest))
        else .error (.eval (.typeMismatch .eq .float .string)) := by
    rw [engine.evaluate_comparing written]
    cases read : numeral.number? with
    | none => rfl
    | some number =>
      simp only [Json.Number.apply_ofLiteral written read]
      split
      · rfl
      · split <;> rfl
  refine ⟨_, Rule.parse_comparing_of_numeral written, evaluated, ?_⟩
  intro short other
  obtain ⟨number, read, same, finite⟩ := Json.Numeral.number?_of_exact short
  rw [evaluated, read]
  simp only [if_neg other, if_pos finite, decide_eq_true same]

/-- The theorem at a numeral with all parts. -/
theorem Engine.evaluate_numeral_of_all_parts :
    Json.Numeral.ofChars? "-0.10E+02".toList = some ⟨true, ['0'], ['1', '0'], some 2⟩ ∧
      Rule.parse "IF: \x7b x == -0.10E+02 \x7d" = .ok (.comparing "x" "-0.10E+02") ∧
      (⟨.abort⟩ : Engine).evaluate (.comparing "x" "-0.10E+02") "\x7b\"x\": -0.10E+02\x7d".toUTF8 =
        .ok (.scalar true) := by
  have written : Json.Numeral.ofChars? "-0.10E+02".toList = some ⟨true, ['0'], ['1', '0'], some 2⟩ := by
    decide +kernel
  have read := Rule.parse_comparing_of_numeral written
  obtain ⟨rule, parsed, -, exact_numeral⟩ := (⟨.abort⟩ : Engine).evaluate_numeral written
  obtain rfl := Except.ok.inj (read.symm.trans parsed)
  exact ⟨written, read, exact_numeral (.inr (by decide +kernel)) (by decide)⟩

/-- Zero with a minus sign is an integer in a rule and a floating point number in a document, and of the
numeral `3e23` the document has a number below the nearest one. -/
theorem Engine.evaluate_comparing_of_apart :
    (Rule.parse "IF: \x7b x == -0 \x7d" = .ok (.comparing "x" "-0") ∧
      (⟨.recordFalse⟩ : Engine).evaluate (.comparing "x" "-0") "\x7b\"x\": -0\x7d".toUTF8 =
        .error (.eval (.typeMismatch .eq .float .int))) ∧
    Rule.parse "IF: \x7b x == 3e23 \x7d" = .ok (.comparing "x" "3e23") ∧
      (⟨.recordFalse⟩ : Engine).evaluate (.comparing "x" "3e23") "\x7b\"x\": 3e23\x7d".toUTF8 =
        .ok (.scalar false) := by
  constructor
  · have written : Json.Numeral.ofChars? "-0".toList = some ⟨true, ['0'], [], none⟩ := by decide
    have number : Json.Numeral.number? ⟨true, ['0'], [], none⟩ = some (.float ⟨0x8000000000000000⟩) := by
      decide +kernel
    have literal : Value.ofLiteral "-0" = .int 0 := by decide +kernel
    have parsed := Rule.parse_comparing_of_numeral written
    have evaluated := (⟨.recordFalse⟩ : Engine).evaluate_comparing written
    rw [number, literal] at evaluated
    exact ⟨parsed, evaluated⟩
  · have written : Json.Numeral.ofChars? "3e23".toList = some ⟨false, ['3'], [], some 23⟩ := by decide +kernel
    have number : Json.Numeral.number? ⟨false, ['3'], [], some 23⟩ = some (.float ⟨0x44cfc3842bd1f071⟩) := by
      decide +kernel
    have literal : Value.ofLiteral "3e23" = .float ⟨0x44cfc3842bd1f072⟩ := by decide +kernel
    have parsed := Rule.parse_comparing_of_numeral written
    have evaluated := (⟨.recordFalse⟩ : Engine).evaluate_comparing written
    rw [number, literal] at evaluated
    exact ⟨parsed, evaluated⟩

end DocRules

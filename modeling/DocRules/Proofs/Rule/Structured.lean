import DocRules.Proofs.Json.Text
import DocRules.Proofs.Rule.Reprint
import DocRules.Rule.Structured

/-! # Structured rules read back

Reading the structured form of a rule gives the rule, but for two things. A number in it is read as JSON text
is read, so it may come back as another number or not at all; and every level of an expression takes two
containers, of which JSON text admits so many only (`Rule.ofStructured?_structured`). Each function that reads
has one equation here, for the tree of what was written: it gives what comes back if the containers fit, and
nothing otherwise. Rule text allows more levels than that, and numbers that do not come back, so a rule from
text is lost or changed in one of these ways or comes back as it is.
-/

namespace DocRules

open Json (Tree)

/-- What a value in structured form is read as. -/
def Value.reread? : Value → Option Value
  | .float x => x.reread?.map .float
  | value => some value

/-- What an expression in structured form is read as, however deep it is. -/
def Expr.reread? : Expr → Option Expr
  | .leaf value indexed => value.reread?.map (.leaf · indexed)
  | .binary operator lhs rhs => do
    let lhs ← lhs.reread?
    let rhs ← rhs.reread?
    return .binary operator lhs rhs

def Condition.reread? (condition : Condition) : Option Condition :=
  condition.innermost.reread?.map condition.withInnermost

def Rule.reread? (rule : Rule) : Option Rule :=
  rule.innermost.reread?.map rule.withInnermost

/-- The containers within each other in the structured form of an expression. -/
def Expr.containers (expr : Expr) : Nat :=
  2 * expr.depth + 1

def Condition.containers : Condition → Nat
  | .scalar expr => expr.containers + 1
  | .loop _ body => body.containers + 2

def Rule.containers : Rule → Nat
  | .scalar condition => condition.containers + 2
  | .vector _ condition => condition.containers + 3

theorem Operator.ofName?_name (operator : Operator) : ofName? operator.name = some operator := by
  cases operator <;> rfl

theorem Value.ofTree?_toJson (levels : Nat) (value : Value) :
    ofTree? levels value.toJson.tree = if 1 ≤ levels then value.reread? else none := by
  cases levels with
  | zero => rfl
  | succ levels =>
    rw [if_pos (by omega)]
    cases value with
    | int n => rfl
    | bool b => rfl
    | string text => rfl
    | float x =>
      cases finite : x.isFinite with
      | true =>
        simp only [toJson, Json.tree, Json.memberTrees, Json.Number.tree, finite, if_true, reread?,
          Binary64.reread?, ofTree?, Tree.alternative?]
        cases (Json.Numeral.ofChars? (Json.style.text x).toList).bind Json.Numeral.number? <;> rfl
      | false =>
        rw [reread?, Binary64.reread?_of_not_isFinite finite]
        simp only [toJson, Json.tree, Json.memberTrees, Json.Number.tree, finite, Bool.false_eq_true,
          if_false, ofTree?, Tree.alternative?]
        rfl

private theorem Expr.ofTree?_leaf_toJson (levels : Nat) (value : Value) (indexed : Bool) :
    ofTree? (levels + 2) (leaf value indexed).toJson.tree =
      (Value.ofTree? levels value.toJson.tree).map (leaf · indexed) := by
  show (do
    let value ← Value.ofTree? levels value.toJson.tree
    return leaf value (← some indexed) : Option Expr) = _
  cases Value.ofTree? levels value.toJson.tree <;> rfl

private theorem Expr.ofTree?_binary_toJson (levels : Nat) (operator : Operator) (lhs rhs : Expr) :
    ofTree? (levels + 2) (binary operator lhs rhs).toJson.tree = (do
      let lhs ← ofTree? levels lhs.toJson.tree
      let rhs ← ofTree? levels rhs.toJson.tree
      return binary operator lhs rhs) := by
  show (do
    let operator ← Operator.ofTree? levels (.string (some operator.name))
    let lhs ← ofTree? levels lhs.toJson.tree
    let rhs ← ofTree? levels rhs.toJson.tree
    return binary operator lhs rhs) = _
  have named : Operator.ofTree? levels (.string (some operator.name)) = some operator := by
    rw [Operator.ofTree?]
    exact Operator.ofName?_name operator
  rw [named]
  rfl

/-- An expression takes two containers for each of its levels and one for the value of its deepest leaf. -/
theorem Expr.ofTree?_toJson (levels : Nat) (expr : Expr) :
    ofTree? levels expr.toJson.tree = if expr.containers ≤ levels then expr.reread? else none := by
  induction expr generalizing levels with
  | leaf value indexed =>
    match levels with
    | 0 => rfl
    | 1 => rfl
    | levels + 2 =>
      have fits : (leaf value indexed).containers ≤ levels + 2 ↔ 1 ≤ levels := by
        simp only [containers, depth]
        omega
      simp only [ofTree?_leaf_toJson, Value.ofTree?_toJson, fits, reread?]
      split <;> rfl
  | binary operator lhs rhs ihl ihr =>
    match levels with
    | 0 => rfl
    | 1 =>
      rw [if_neg (by simp [containers, depth])]
      rfl
    | levels + 2 =>
      have fits : (binary operator lhs rhs).containers ≤ levels + 2 ↔
          lhs.containers ≤ levels ∧ rhs.containers ≤ levels := by
        simp only [containers, depth]
        omega
      simp only [ofTree?_binary_toJson, ihl, ihr, fits, reread?]
      by_cases left : lhs.containers ≤ levels
      · by_cases right : rhs.containers ≤ levels <;> simp [left, right]
      · simp [left]

theorem LoopHeader.ofTree?_toJson (levels : Nat) (header : LoopHeader) :
    ofTree? levels header.toJson.tree = if 1 ≤ levels then some header else none := by
  cases levels <;> rfl

private theorem Condition.reread?_loop (header : LoopHeader) (body : Condition) :
    (loop header body).reread? = body.reread?.map (loop header) := by
  simp [reread?, innermost, withInnermost, Function.comp_def]

private theorem Condition.containers_pos (condition : Condition) : 1 ≤ condition.containers := by
  cases condition <;> simp [containers]

theorem Condition.ofTree?_toJson (levels : Nat) (condition : Condition) :
    ofTree? levels condition.toJson.tree =
      if condition.containers ≤ levels then condition.reread? else none := by
  induction condition generalizing levels with
  | scalar expr =>
    match levels with
    | 0 => rfl
    | levels + 1 =>
      have read : ofTree? (levels + 1) (scalar expr).toJson.tree =
          (Expr.ofTree? levels expr.toJson.tree).map .scalar := rfl
      simp only [read, Expr.ofTree?_toJson, containers, Nat.add_le_add_iff_right, reread?]
      split <;> rfl
  | loop header body ih =>
    match levels with
    | 0 => rfl
    | 1 => rfl
    | levels + 2 =>
      have read : ofTree? (levels + 2) (loop header body).toJson.tree = (do
          let header ← LoopHeader.ofTree? levels header.toJson.tree
          let body ← ofTree? levels body.toJson.tree
          return loop header body) := rfl
      simp only [read, LoopHeader.ofTree?_toJson, ih, containers, Nat.add_le_add_iff_right, reread?_loop]
      by_cases fits : body.containers ≤ levels
      · have headed : 1 ≤ levels := body.containers_pos.trans fits
        simp only [fits, headed, if_true]
        cases body.reread? <;> rfl
      · simp [fits]

private theorem Condition.ofGuardedTree?_toGuardedJson (levels : Nat) (condition : Condition) :
    ofGuardedTree? levels condition.toGuardedJson.tree =
      if condition.containers + 1 ≤ levels then condition.reread? else none := by
  cases levels with
  | zero => rfl
  | succ levels =>
    have read : ofGuardedTree? (levels + 1) condition.toGuardedJson.tree =
        ofTree? levels condition.toJson.tree := rfl
    simp only [read, ofTree?_toJson, Nat.add_le_add_iff_right]

private theorem Rule.reread?_scalar (condition : Condition) :
    (scalar condition).reread? = condition.reread?.map scalar := by
  simp [reread?, Condition.reread?, innermost, Rule.condition, withInnermost, Function.comp_def]

private theorem Rule.reread?_vector (header : LoopHeader) (condition : Condition) :
    (vector header condition).reread? = condition.reread?.map (vector header) := by
  simp [reread?, Condition.reread?, innermost, Rule.condition, withInnermost, Function.comp_def]

theorem Rule.ofTree?_toJson (levels : Nat) (rule : Rule) :
    ofTree? levels rule.toJson.tree = if rule.containers ≤ levels then rule.reread? else none := by
  match levels with
  | 0 => cases rule <;> rfl
  | 1 => cases rule <;> rfl
  | levels + 2 =>
    cases rule with
    | scalar condition =>
      have read : ofTree? (levels + 2) (scalar condition).toJson.tree =
          (Condition.ofGuardedTree? (levels + 1) condition.toGuardedJson.tree).map .scalar := rfl
      simp only [read, Condition.ofGuardedTree?_toGuardedJson, containers, Nat.add_le_add_iff_right,
        reread?_scalar]
      split <;> rfl
    | vector header condition =>
      have read : ofTree? (levels + 2) (vector header condition).toJson.tree = (do
          let header ← LoopHeader.ofTree? levels header.toJson.tree
          let condition ← Condition.ofGuardedTree? levels condition.toGuardedJson.tree
          return vector header condition) := rfl
      have fits : (vector header condition).containers ≤ levels + 2 ↔ condition.containers + 1 ≤ levels := by
        simp only [containers]
        omega
      simp only [read, LoopHeader.ofTree?_toJson, Condition.ofGuardedTree?_toGuardedJson, fits,
        reread?_vector]
      by_cases guarded : condition.containers + 1 ≤ levels
      · have headed : 1 ≤ levels := by omega
        simp only [guarded, headed, if_true]
        cases condition.reread? <;> rfl
      · simp [guarded]

theorem Condition.containers_eq (condition : Condition) :
    condition.containers = 2 * (condition.innermost.depth + condition.loops) + 2 := by
  induction condition with
  | scalar expr => simp [containers, Expr.containers, innermost, loops]
  | loop header body ih =>
    simp only [containers, innermost, loops, ih]
    omega

/-- JSON text has room for a rule up to some depth, to which every loop in the condition counts as a level. -/
theorem Rule.containers_le_maxDepth_iff (rule : Rule) :
    rule.containers ≤ Json.maxDepth ↔ rule.innermost.depth + rule.condition.loops ≤ 61 := by
  have room : Json.maxDepth = 127 := rfl
  cases rule with
  | scalar condition =>
    simp only [containers, innermost, Rule.condition, condition.containers_eq]
    omega
  | vector header condition =>
    simp only [containers, innermost, Rule.condition, condition.containers_eq]
    omega

/-- Reading the structured form of a rule gives the rule with its numbers as they are read, if it is not too
deep. -/
theorem Rule.ofStructured?_structured (rule : Rule) :
    ofStructured? rule.structured =
      if rule.innermost.depth + rule.condition.loops ≤ 61 then rule.reread? else none := by
  simp only [ofStructured?, structured, Json.ofText?_text, Option.bind_some, ofTree?_toJson,
    containers_le_maxDepth_iff]

theorem Value.reread?_eq_self_iff {value : Value} :
    value.reread? = some value ↔ ∀ x, .float x = value → x.reread? = some x := by
  cases value with
  | float x => simp [reread?]
  | int | bool | string => simp [reread?]

theorem Expr.reread?_eq_self_iff {expr : Expr} :
    expr.reread? = some expr ↔ ∀ x, .float x ∈ expr.values → x.reread? = some x := by
  induction expr with
  | leaf value indexed =>
    simp only [values, List.mem_singleton, ← Value.reread?_eq_self_iff]
    simp [reread?]
  | binary operator lhs rhs ihl ihr =>
    simp only [values, List.mem_append, or_imp, forall_and, ← ihl, ← ihr, reread?]
    simp [Option.bind_eq_some_iff]

theorem Rule.reread?_eq_self_iff {rule : Rule} :
    rule.reread? = some rule ↔ ∀ x, .float x ∈ rule.innermost.values → x.reread? = some x := by
  rw [← Expr.reread?_eq_self_iff, reread?, Option.map_eq_some_iff]
  constructor
  · rintro ⟨expr, read, same⟩
    rw [read, ← same, innermost_withInnermost]
  · intro read
    exact ⟨rule.innermost, read, rule.withInnermost_innermost⟩

/-- A value without infinities comes back as an equal one only if it comes back as it is. -/
theorem Value.eq_of_equal_reread? {value read : Value} (finite : ∀ x, value = .float x → x.isFinite = true)
    (found : value.reread? = some read) (same : value.equal read = true) : read = value := by
  cases value with
  | float x =>
    obtain ⟨y, number, rfl⟩ := Option.map_eq_some_iff.mp found
    rw [(Binary64.equal_of_reread? (finite x rfl) number).mp same]
  | int | bool | string => exact (Option.some.inj found).symm

private theorem Expr.eq_of_equal_reread? {expr read : Expr}
    (finite : ∀ x, .float x ∈ expr.values → x.isFinite = true) (found : expr.reread? = some read)
    (same : expr.equal read = true) : read = expr := by
  induction expr generalizing read with
  | leaf value indexed =>
    obtain ⟨value', leaf, rfl⟩ := Option.map_eq_some_iff.mp found
    simp only [equal, Bool.and_eq_true, beq_self_eq_true, and_true] at same
    rw [Value.eq_of_equal_reread? (fun x float => finite x (by simp [values, float])) leaf same]
  | binary operator lhs rhs ihl ihr =>
    simp only [reread?, Option.bind_eq_bind, Option.bind_eq_some_iff, Option.pure_def, Option.some.injEq]
      at found
    obtain ⟨lhs', left, rhs', right, rfl⟩ := found
    simp only [equal, Bool.and_eq_true, beq_self_eq_true, true_and] at same
    simp only [values, List.mem_append, or_imp, forall_and] at finite
    rw [ihl finite.1 left same.1, ihr finite.2 right same.2]

theorem Rule.eq_of_equal_reread? {rule read : Rule}
    (finite : ∀ x, .float x ∈ rule.innermost.values → x.isFinite = true) (found : rule.reread? = some read)
    (same : rule.equal read = true) : read = rule := by
  obtain ⟨expr, inner, rfl⟩ := Option.map_eq_some_iff.mp found
  have inside := equal_innermost same
  rw [innermost_withInnermost] at inside
  rw [Expr.eq_of_equal_reread? finite inner inside, withInnermost_innermost]

private theorem Expr.WrittenBy.isFinite_of_mem_values {words : List String} {expr : Expr} {x : Binary64}
    (written : expr.WrittenBy words) (member : .float x ∈ expr.values) : x.isFinite = true := by
  obtain ⟨word, -, -, same⟩ := written.exists_word member
  exact Value.isFinite_of_ofLiteral same.symm

/-- A rule that is read from text comes back from its structured form if and only if its levels and loops fit
and all its floating point numbers come back. What comes back otherwise is not equal to the rule. The form
has every one of these numbers as the nearest one of its numeral, and if the numeral is exact, it comes
back. -/
theorem Rule.ofStructured?_structured_of_parse {text : String} {rule : Rule}
    (parsed : Rule.parse text = .ok rule) :
    (ofStructured? rule.structured = some rule ↔
      rule.innermost.depth + rule.condition.loops ≤ 61 ∧
        ∀ x, .float x ∈ rule.innermost.values → x.reread? = some x) ∧
    (∀ read, ofStructured? rule.structured = some read → (rule.equal read = true ↔ read = rule)) ∧
    ∀ x, .float x ∈ rule.innermost.values →
      ∃ numeral, Json.Numeral.ofChars? (Json.style.text x).toList = some numeral ∧ numeral.nearest = x ∧
        (numeral.Exact → x.reread? = some x) := by
  obtain ⟨words, written, -, -⟩ := writtenBy_of_parse parsed
  rw [ofStructured?_structured]
  refine ⟨?_, ?_, ?_⟩
  · rw [← reread?_eq_self_iff]
    split <;> simp_all
  · intro read found
    split at found
    · constructor
      · exact eq_of_equal_reread? (fun x member => written.isFinite_of_mem_values member) found
      · rintro rfl
        exact equal_self written.equal_self
    · contradiction
  · intro x member
    have finite := written.isFinite_of_mem_values member
    obtain ⟨numeral, spelled, -, nearest, -⟩ := Json.exists_numeral_of_text finite
    exact ⟨numeral, spelled, nearest, Binary64.reread?_of_exact finite spelled⟩

/-- The theorem at a rule with a loop, a quote and a number of few digits, which comes back. -/
theorem Rule.ofStructured?_structured_of_quoted_parse :
    let rule : Rule := .vector ⟨"i", "0", "xs.size()"⟩ (.scalar
      (.binary .and (.binary .ge (.leaf (.string "xs[i]") true) (.leaf (.float ⟨0x4004000000000000⟩) false))
        (.binary .eq (.leaf (.string "name") false) (.leaf (.string "\"q\"") false))))
    Rule.parse "FOR: i=0:xs.size() IF: \x7b xs[i] >= 2.50 && name == \"q\" \x7d" = .ok rule ∧
      ofStructured? rule.structured = some rule := by
  intro rule
  have parsed :
      Rule.parse "FOR: i=0:xs.size() IF: \x7b xs[i] >= 2.50 && name == \"q\" \x7d" = .ok rule := by
    rw [← Outcome.toOption_eq_some_iff]
    decide +kernel
  obtain ⟨comesBack, -⟩ := ofStructured?_structured_of_parse parsed
  refine ⟨parsed, comesBack.mpr ⟨by decide, fun x member => ?_⟩⟩
  have value : x = ⟨0x4004000000000000⟩ := by
    simpa [rule, innermost, Rule.condition, Condition.innermost, Expr.values] using member
  rw [value]
  decide +kernel

/-- A rule from text that does not come back, as its number is read as the one before it, and one whose text
is read again but whose structured form is refused, as it has one level too many. -/
theorem Rule.ofStructured?_structured_of_apart :
    let against (x : Binary64) : Rule :=
      .scalar (.scalar (.binary .eq (.leaf (.string "x") false) (.leaf (.float x) false)))
    let rule := against ⟨0x44cfc3842bd1f072⟩
    let read := against ⟨0x44cfc3842bd1f071⟩
    let leaf : Expr := .leaf (.string "a") false
    let nested : Rule := .scalar (.scalar ((List.replicate 61 leaf).foldr (.binary .and) leaf))
    (Rule.parse "IF: \x7b x == 3e23 \x7d" = .ok rule ∧
      ofStructured? rule.structured = some read ∧ rule.equal read = false) ∧
    Rule.parse nested.text = .ok nested ∧ nested.innermost.depth = 62 ∧
      ofStructured? nested.structured = none := by
  intro against rule read leaf nested
  constructor
  · refine ⟨?_, ?_, by decide +kernel⟩
    · rw [← Outcome.toOption_eq_some_iff]
      decide +kernel
    · rw [ofStructured?_structured]
      decide +kernel
  · have writable : nested.Writable := by decide +kernel
    have deep : nested.innermost.depth = 62 := by decide +kernel
    refine ⟨?_, deep, ?_⟩
    · rw [parse_text_eq_ofWords writable, ← Outcome.toOption_eq_some_iff]
      decide +kernel
    · rw [ofStructured?_structured, if_neg (by decide +kernel)]

end DocRules

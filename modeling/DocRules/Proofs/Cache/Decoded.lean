import DocRules.Proofs.Cache.Parsed

/-! # What comes out of a cache

Bytes that no writer has made may be read as a rule too: the checksum can be right, numbers can be
written wider than they need, and anything can follow the content. What is read is as a constructor
would build it nevertheless. No code stands for the absent operator and leaves are marked from their
values, so the operators that wait while an expression is read hold only regular expressions
(`Cache.expr?_regular`). All other limits are those of the check. Hence a rule that was read is written
again, and reading that gives the rule back (`Rule.wellFormed_of_ofBytes`).
-/

namespace DocRules

open Outcome

/-- An expression whose leaves are marked as their values ask and whose operators are all there. -/
structure Expr.Regular (expr : Expr) : Prop where
  marked : expr.Marked
  nil_notMem : .nil ∉ expr.operators

private theorem Expr.regular_ofValue (value : Value) : (Expr.ofValue value).Regular :=
  ⟨rfl, List.not_mem_nil⟩

private theorem Expr.Regular.binary {operator : Operator} {lhs rhs : Expr} (given : operator ≠ .nil)
    (left : lhs.Regular) (right : rhs.Regular) : (Expr.binary operator lhs rhs).Regular := by
  refine ⟨⟨left.marked, right.marked⟩, ?_⟩
  simp only [operators, List.mem_append, List.mem_cons, not_or]
  exact ⟨left.nil_notMem, given.symm, right.nil_notMem⟩

namespace Cache

variable {bytes rest : List UInt8}

/-- What waits is an operator that is there, with a regular left operand once that is read. -/
def Waiting.Regular : Waiting → Prop
  | .lhs operator => operator ≠ .nil
  | .rhs operator left => operator ≠ .nil ∧ left.Regular

private theorem ne_nil_of_operatorOfCode? {code : Nat} {operator : Operator}
    (read : operatorOfCode? code = some operator) : operator ≠ .nil := by
  rintro rfl
  unfold operatorOfCode? at read
  split at read <;> contradiction

private theorem ne_nil_of_node? {operator : Operator} (read : node? bytes = some (.binary operator, rest)) :
    operator ≠ .nil := by
  simp only [node?, Option.bind_eq_bind, Option.bind_eq_some_iff] at read
  obtain ⟨⟨kind, middle⟩, -, read⟩ := read
  split at read
  · simp at read
  · simp only [Option.bind_eq_some_iff, Option.pure_def] at read
    obtain ⟨⟨code, after⟩, -, found, coded, same⟩ := read
    obtain ⟨same, -⟩ := Prod.mk.inj (Option.some.inj same)
    obtain rfl := Node.binary.inj same
    exact ne_nil_of_operatorOfCode? coded
  · contradiction

/-- Giving a regular expression to the operators that wait completes a regular expression, or leaves
operators whose left operands are regular. -/
theorem supply_regular {expr : Expr} {waiting : List Waiting} (regular : expr.Regular)
    (all : ∀ entry ∈ waiting, entry.Regular) :
    match supply expr waiting with
    | .inl whole => whole.Regular
    | .inr left => ∀ entry ∈ left, entry.Regular := by
  induction waiting generalizing expr with
  | nil => exact regular
  | cons nearest outer ih =>
    obtain ⟨here, later⟩ := List.forall_mem_cons.mp all
    cases nearest with
    | lhs operator => exact List.forall_mem_cons.mpr ⟨⟨here, regular⟩, later⟩
    | rhs operator lhs => exact ih (.binary here.1 here.2 regular) later

theorem expr?_regular {expr : Expr} {waiting : List Waiting} (all : ∀ entry ∈ waiting, entry.Regular)
    (read : expr? waiting bytes = some (expr, rest)) : expr.Regular := by
  fun_induction expr? waiting bytes with
  | case1 => contradiction
  | case2 waiting bytes operator after node _ ih =>
    exact ih (List.forall_mem_cons.mpr ⟨ne_nil_of_node? node, all⟩) read
  | case3 waiting bytes value after node _ whole complete =>
    have regular := supply_regular (Expr.regular_ofValue value) all
    rw [complete] at regular
    obtain ⟨rfl, -⟩ := Prod.mk.inj (Option.some.inj read)
    exact regular
  | case4 waiting bytes value after node _ left incomplete ih =>
    have regular := supply_regular (Expr.regular_ofValue value) all
    rw [incomplete] at regular
    exact ih regular read

private theorem condition?_regular {condition : Condition} (read : condition? bytes = some (condition, rest)) :
    condition.innermost.Regular := by
  fun_induction condition? bytes generalizing condition rest with
  | case1 => contradiction
  | case2 bytes after header =>
    obtain ⟨⟨expr, _⟩, inner, same⟩ := Option.map_eq_some_iff.mp read
    obtain ⟨rfl, -⟩ := Prod.mk.inj same
    exact expr?_regular (by simp) inner
  | case3 bytes header after _ _ ih =>
    obtain ⟨⟨body, _⟩, inner, same⟩ := Option.map_eq_some_iff.mp read
    obtain ⟨rfl, -⟩ := Prod.mk.inj same
    have regular := ih inner
    exact regular

theorem rule?_regular {rule : Rule} (read : rule? bytes = some (rule, rest)) :
    rule.innermost.Regular := by
  simp only [rule?, Option.bind_eq_bind, Option.bind_eq_some_iff] at read
  obtain ⟨⟨header, _⟩, -, ⟨condition, _⟩, inner, read⟩ := read
  cases header with
  | none =>
    obtain ⟨rfl, -⟩ := Prod.mk.inj (Option.some.inj read)
    exact condition?_regular inner
  | some header =>
    obtain ⟨rfl, -⟩ := Prod.mk.inj (Option.some.inj read)
    exact condition?_regular inner

theorem Payload.ofBytes?_regular {payload : Payload} (read : Payload.ofBytes? bytes = some payload) :
    payload.rule.innermost.Regular := by
  simp only [ofBytes?, Option.bind_eq_bind, Option.bind_eq_some_iff, Option.pure_def] at read
  obtain ⟨_, -, _, -, ⟨rule, _⟩, inner, same⟩ := read
  obtain rfl := Option.some.inj same
  exact rule?_regular inner

private theorem isVector_of_header {header : Header} (read : Header.ofBytes bytes = .ok header) :
    header.isVector = (field bytes 8 4 % 2 == 1) := by
  obtain ⟨-, -, rfl⟩ := Header.ofBytes_eq_ok_iff.mp read
  rfl

theorem exists_unframe_of_payload {header : Header} {found : Payload}
    (read : payload bytes = .ok (header, found)) :
    ∃ content, unframe bytes = .ok (header, content) ∧ Payload.ofBytes? content = some found := by
  obtain ⟨⟨front, content⟩, framed, read⟩ := bind_eq_ok_iff.mp read
  cases decoded : Payload.ofBytes? content with
  | none =>
    simp only [decoded] at read
    contradiction
  | some inner =>
    simp only [decoded] at read
    obtain ⟨rfl, rfl⟩ := Prod.mk.inj (Except.ok.inj read)
    exact ⟨content, framed, decoded⟩

/-- What is read is the header in front of the bytes and a content in the format. -/
theorem payload_eq_ok {header : Header} {found : Payload}
    (read : payload bytes = .ok (header, found)) :
    Header.ofBytes bytes = .ok header ∧ ∃ content, Payload.ofBytes? content = some found := by
  obtain ⟨content, framed, decoded⟩ := exists_unframe_of_payload read
  exact ⟨(unframe_eq_ok_iff.mp framed).1, content, decoded⟩

/-- A payload passes the check if the flags and the number of nodes are those of a valid rule. -/
theorem check_eq_ok_iff {header : Header} {found : Payload} :
    check header found = .ok () ↔ found.rule.isVector = header.isVector ∧ Valid found.rule ∧
      found.rule.nodes = found.nodeCount := by
  have counted : (if found.rule.nodes ≠ found.nodeCount then
      (throw (.nodeCount found.nodeCount found.rule.nodes) : Check) else pure ()) = .ok () ↔
        found.rule.nodes = found.nodeCount := by
    split <;> simp_all [throw, throwThe, MonadExceptOf.throw]
  simp only [check, unless_throw_eq_ok_iff, check_bind_eq_ok_iff, checkRule_eq_ok_iff, counted,
    bne_iff_ne, ne_eq, not_not]

end Cache

/-- Whatever the bytes are, the rule that is read from them has an operator at every node, the marks
that its values ask for, and all limits of a cached rule, and it is a vector rule if and only if the
lowest bit of the flags is set. It is written again, with or without a source, and comes back. -/
theorem Rule.wellFormed_of_ofBytes {bytes : List UInt8} {rule : Rule}
    (read : Rule.ofBytes bytes = .ok rule) :
    .nil ∉ rule.innermost.operators ∧ rule.innermost.Marked ∧ Cache.Valid rule ∧
    rule.isVector = (Cache.field bytes 8 4 % 2 == 1) ∧
    ∀ source, (∀ content, (Cache.Payload.ofRule rule source).toBytes? = some content →
        content.length < UInt32.size) →
      ∃ rewritten, rule.toBytes source = .ok rewritten ∧ Rule.ofBytes rewritten = .ok rule := by
  obtain ⟨⟨header, payload⟩, opened, read⟩ := bind_eq_ok_iff.mp read
  obtain ⟨front, content, decoded⟩ := Cache.payload_eq_ok opened
  cases checked : Cache.check header payload with
  | error reason =>
    simp only [checked] at read
    contradiction
  | ok done =>
    simp only [checked] at read
    obtain rfl := Except.ok.inj read
    obtain ⟨flags, valid, -⟩ := Cache.check_eq_ok_iff.mp checked
    obtain ⟨marked, operators⟩ := Cache.Payload.ofBytes?_regular decoded
    refine ⟨operators, marked, valid, flags.trans (Cache.isVector_of_header front), ?_⟩
    intro source short
    have writable : (Cache.Payload.ofRule payload.rule source).toBytes?.isSome :=
      Cache.Payload.isSome_toBytes?_iff.mpr operators
    obtain ⟨written, given⟩ := Option.isSome_iff_exists.mp writable
    have within := short written given
    have back := Cache.ofBytes_frame_eq given within
    rw [Rule.withMarks_of_marked marked, Cache.checkRule_eq_ok_iff.mpr valid] at back
    exact ⟨_, Cache.toBytes_of_some given within, back⟩

/-- The theorem at bytes that no writer makes: the number of nodes is wider than it needs, and something
follows the rule and the content. -/
theorem Rule.wellFormed_of_widened :
    let content : List UInt8 := [251, 4, 0, 0] ++
      [1, 1, 105, 2, 45, 51, 2, 120, 115, 0, 1, 6, 0, 3, 5, 120, 115, 91, 105, 93, 0, 1, 1, 0, 0, 0, 0, 0, 248, 255]
      ++ [7]
    let rule : Rule := .vector ⟨"i", "-3", "xs"⟩
      (.scalar (.binary .lt (.leaf (.string "xs[i]") true) (.leaf (.float ⟨0xfff8000000000001⟩) false)))
    Rule.ofBytes (Cache.frame true content ++ [8, 9]) = .ok rule ∧ .nil ∉ rule.innermost.operators ∧
      rule.innermost.Marked ∧ Cache.Valid rule ∧ rule.isVector = true ∧
      ∃ rewritten, rule.toBytes none = .ok rewritten ∧ Rule.ofBytes rewritten = .ok rule := by
  intro content rule
  have read : Rule.ofBytes (Cache.frame true content ++ [8, 9]) = .ok rule := by
    -- with the frame taken off, the checksum of the content need not be computed
    have opened := Cache.unframe_frame true (show content.length < UInt32.size by decide) [8, 9]
    rw [Rule.ofBytes, Cache.payload, opened, ← toOption_eq_some_iff]
    decide +kernel
  have short : ∀ content, (Cache.Payload.ofRule rule none).toBytes? = some content →
      content.length < UInt32.size :=
    Cache.short_of_all (by decide +kernel)
  obtain ⟨operators, marked, valid, -, again⟩ := Rule.wellFormed_of_ofBytes read
  exact ⟨read, operators, marked, valid, rfl, again none short⟩

end DocRules

import DocRules.Proofs.Cache.RoundTrip
import DocRules.Proofs.Canonical
import DocRules.Proofs.Evaluation.Indexed

/-! # Caching rules from text

A rule that is read from text keeps all limits of a cached rule but one: rule text lets a loop start at
any word, a cached rule only at an integer (`Rule.valid_iff_of_parse`). Its leaves are marked as their
values ask, so it comes back as it is if it is valid. If it is not, the first loop without an integer is
named (`Rule.ofBytes_toBytes_of_parse`).
-/

namespace DocRules

theorem Expr.withMarks_of_marked {expr : Expr} (marked : expr.Marked) : expr.withMarks = expr := by
  induction expr with
  | leaf value indexed =>
    obtain rfl : indexed = value.mentionsIndex := marked
    rfl
  | binary operator lhs rhs ihl ihr => rw [withMarks, ihl marked.1, ihr marked.2]

theorem Condition.withMarks_of_marked {condition : Condition} (marked : condition.innermost.Marked) :
    condition.withMarks = condition := by
  induction condition with
  | scalar expr => exact congrArg Condition.scalar (Expr.withMarks_of_marked marked)
  | loop header body ih => exact congrArg (Condition.loop header) (ih marked)

theorem Rule.withMarks_of_marked {rule : Rule} (marked : rule.innermost.Marked) :
    rule.withMarks = rule := by
  cases rule with
  | scalar condition => exact congrArg Rule.scalar (Condition.withMarks_of_marked marked)
  | vector header condition =>
    exact congrArg (Rule.vector header) (Condition.withMarks_of_marked marked)

private theorem Rule.withMarks_of_parse {text : String} {rule : Rule} (parsed : Rule.parse text = .ok rule) :
    rule.withMarks = rule :=
  Rule.withMarks_of_marked (Rule.marked_of_parse parsed)

private theorem Expr.WrittenBy.nil_notMem {words : List String} {expr : Expr}
    (written : expr.WrittenBy words) : .nil ∉ expr.operators := by
  induction expr with
  | leaf => simp [operators]
  | binary operator lhs rhs ihl ihr =>
    obtain ⟨joined, left, right⟩ := written
    simp only [operators, List.mem_append, List.mem_cons, not_or]
    exact ⟨ihl left, joined.symm, ihr right⟩

/-- Every value of a tree is that of an operand among the words that write the tree. -/
theorem Expr.WrittenBy.exists_word {words : List String} {expr : Expr} {value : Value}
    (written : expr.WrittenBy words) (member : value ∈ expr.values) :
    ∃ word ∈ words, Operator.ofWord? word = none ∧ value = .ofLiteral word := by
  induction expr with
  | leaf value' indexed =>
    obtain ⟨word, listed, operand, same⟩ := written
    obtain ⟨rfl, -⟩ := Expr.leaf.inj same
    exact ⟨word, listed, operand, List.mem_singleton.mp member⟩
  | binary operator lhs rhs ihl ihr =>
    obtain ⟨-, left, right⟩ := written
    exact (List.mem_append.mp member).elim (ihl left) (ihr right)

private theorem Expr.WrittenBy.empty_notMem {words : List String} {expr : Expr}
    (written : expr.WrittenBy words) (all : ∀ word ∈ words, Token.IsWord word) :
    .string "" ∉ expr.values := by
  intro empty
  obtain ⟨word, listed, -, same⟩ := written.exists_word empty
  have literal := Value.eq_of_ofLiteral_string same.symm
  exact (all word listed).nonempty (congrArg String.toList literal)

private theorem Condition.Spelling.loops_le {body : List String → Expr → Prop} {loops : Nat}
    {tokens : List Token} {condition : Condition} (spelling : Spelling body loops tokens condition) :
    condition.loops ≤ loops := by
  induction spelling with
  | scalar => exact Nat.zero_le _
  | loop _ _ ih => exact Nat.succ_le_succ ih

theorem Rule.loops_le_of_parse {text : String} {rule : Rule} (parsed : Rule.parse text = .ok rule) :
    rule.condition.loops ≤ maxLoopDepth := by
  have spelling := Rule.parse_eq_ok_iff.mp parsed
  generalize Token.ofRuleText text = tokens at spelling
  cases spelling with
  | scalar inner => exact inner.loops_le
  | vector _ inner => exact inner.loops_le

def LoopHeader.startsAtInteger (header : LoopHeader) : Bool :=
  (Decimal.int64? header.start.toList).isSome

private theorem LoopHeader.WellFormed.parts_ne {header : LoopHeader} (wellFormed : header.WellFormed) :
    header.index ≠ "" ∧ header.stop ≠ "" :=
  ⟨fun same => wellFormed.index_ne (congrArg String.toList same),
    fun same => wellFormed.stop_ne (congrArg String.toList same)⟩

theorem LoopHeader.WellFormed.validHeader_iff {header : LoopHeader} (wellFormed : header.WellFormed) :
    Cache.ValidHeader header ↔ header.startsAtInteger :=
  ⟨fun valid => valid.start_isSome, fun start => ⟨wellFormed.parts_ne.1, wellFormed.parts_ne.2, start⟩⟩

/-- A rule that is read from text is valid if and only if all its loops start at integers. -/
theorem Rule.valid_iff_of_parse {text : String} {rule : Rule} (parsed : Rule.parse text = .ok rule) :
    Cache.Valid rule ↔ ∀ header ∈ rule.headers, header.startsAtInteger := by
  have wellFormed := Rule.wellFormed_of_parse parsed
  obtain ⟨words, written, within, all⟩ := Rule.writtenBy_of_parse parsed
  constructor
  · intro valid header member
    exact (wellFormed header member).validHeader_iff.mp (valid.headers header member)
  · intro starts
    refine ⟨?_, Rule.loops_le_of_parse parsed, within, written.empty_notMem all⟩
    intro header member
    exact (wellFormed header member).validHeader_iff.mpr (starts header member)

namespace Cache

variable {header first : LoopHeader}

private theorem checkHeader_of_not_startsAtInteger (wellFormed : header.WellFormed)
    (word : header.startsAtInteger = false) : checkHeader header = .error (.start header.start) := by
  obtain ⟨index_ne, stop_ne⟩ := wellFormed.parts_ne
  simp only [LoopHeader.startsAtInteger, Option.isSome_eq_false_iff] at word
  simp [checkHeader, index_ne, stop_ne, word]

/-- The check of well formed headers one after the other stops at the first that does not start at an
integer. -/
theorem checkHeader_then {headers : List LoopHeader} {next : Check} (wellFormed : header.WellFormed)
    (found : (header :: headers).find? (fun header => !header.startsAtInteger) = some first)
    (later : headers.find? (fun header => !header.startsAtInteger) = some first →
      next = .error (.start first.start)) :
    (do checkHeader header; next) = .error (.start first.start) := by
  cases start : header.startsAtInteger with
  | false =>
    rw [List.find?_cons_of_pos (by simp [start])] at found
    obtain rfl := Option.some.inj found
    rw [checkHeader_of_not_startsAtInteger wellFormed start]
    rfl
  | true =>
    rw [List.find?_cons_of_neg (by simp [start])] at found
    rw [checkHeader_eq_ok_iff.mpr (wellFormed.validHeader_iff.mpr start), Outcome.ok_bind]
    exact later found

private theorem checkCondition_of_find? {loops : Nat} {condition : Condition}
    (wellFormed : ∀ header ∈ condition.headers, header.WellFormed) (within : condition.loops ≤ loops)
    (found : condition.headers.find? (fun header => !header.startsAtInteger) = some first) :
    checkCondition loops condition = .error (.start first.start) := by
  induction condition generalizing loops with
  | scalar expr => contradiction
  | loop header body ih =>
    obtain ⟨here, below⟩ := List.forall_mem_cons.mp wellFormed
    cases loops with
    | zero => contradiction
    | succ loops => exact checkHeader_then here found (ih below (Nat.le_of_succ_le_succ within))

private theorem checkRule_of_find? {rule : Rule}
    (wellFormed : ∀ header ∈ rule.headers, header.WellFormed)
    (within : rule.condition.loops ≤ maxLoopDepth)
    (found : rule.headers.find? (fun header => !header.startsAtInteger) = some first) :
    checkRule rule = .error (.start first.start) := by
  cases rule with
  | scalar condition => exact checkCondition_of_find? wellFormed within found
  | vector header condition =>
    obtain ⟨here, below⟩ := List.forall_mem_cons.mp wellFormed
    exact checkHeader_then here found (checkCondition_of_find? below within)

end Cache

/-- A rule that is read from text is written, and it is read back as itself if all its loops start at
integers. Otherwise the first loop that does not is named. -/
theorem Rule.ofBytes_toBytes_of_parse {text : String} {rule : Rule}
    (parsed : Rule.parse text = .ok rule) (source : Option String)
    (short : ∀ content, (Cache.Payload.ofRule rule source).toBytes? = some content →
      content.length < UInt32.size) :
    ∃ bytes, rule.toBytes source = .ok bytes ∧
      ((∀ header ∈ rule.headers, header.startsAtInteger) →
        Rule.ofBytes bytes = .ok rule ∧ rule.equal rule = true) ∧
      ∀ first, rule.headers.find? (fun header => !header.startsAtInteger) = some first →
        Rule.ofBytes bytes = .error (.invalid (.start first.start)) := by
  obtain ⟨words, written, -⟩ := Rule.writtenBy_of_parse parsed
  have writable : (Cache.Payload.ofRule rule source).toBytes?.isSome :=
    Cache.Payload.isSome_toBytes?_iff.mpr written.nil_notMem
  obtain ⟨content, given⟩ := Option.isSome_iff_exists.mp writable
  have within := short content given
  have read := Cache.ofBytes_frame_eq given within
  rw [Rule.withMarks_of_parse parsed] at read
  refine ⟨_, Cache.toBytes_of_some given within, ?_, ?_⟩
  · intro starts
    have valid := (Rule.valid_iff_of_parse parsed).mpr starts
    rw [read, Cache.checkRule_eq_ok_iff.mpr valid]
    exact ⟨rfl, Rule.equal_self written.equal_self⟩
  · intro first found
    have checked := Cache.checkRule_of_find? (Rule.wellFormed_of_parse parsed)
      (Rule.loops_le_of_parse parsed) found
    rw [read, checked]

/-- The theorem at nested loops, one of which starts below zero and the other at a number with a sign and
zeros in front. -/
theorem Rule.restored_of_integer_starts :
    let rule : Rule := .vector ⟨"i", "-1", "xs.size()"⟩ (.loop ⟨"j", "+07", "xs[i].size()"⟩ (.scalar
      (.binary .and (.binary .ge (.leaf (.string "xs[i][j]") true) (.leaf (.int 7) false))
        (.leaf (.string "ok") false))))
    Rule.parse
        "FOR: i=-1:xs.size() IF: \x7b FOR: j=+07:xs[i].size() \x7b xs[i][j] >= 007 && ok \x7d \x7d" = .ok rule ∧
      (∀ content, (Cache.Payload.ofRule rule (some "source")).toBytes? = some content →
        content.length < UInt32.size) ∧
      (∀ header ∈ rule.headers, header.startsAtInteger) ∧
      ∃ bytes, rule.toBytes (some "source") = .ok bytes ∧ Rule.ofBytes bytes = .ok rule := by
  intro rule
  have parsed : Rule.parse
      "FOR: i=-1:xs.size() IF: \x7b FOR: j=+07:xs[i].size() \x7b xs[i][j] >= 007 && ok \x7d \x7d" =
        .ok rule := by
    rw [← Outcome.toOption_eq_some_iff]
    decide +kernel
  have short : ∀ content, (Cache.Payload.ofRule rule (some "source")).toBytes? = some content →
      content.length < UInt32.size :=
    Cache.short_of_all (by decide +kernel)
  have starts : ∀ header ∈ rule.headers, header.startsAtInteger := by decide
  obtain ⟨bytes, written, restored, -⟩ := Rule.ofBytes_toBytes_of_parse parsed (some "source") short
  exact ⟨parsed, short, starts, bytes, written, (restored starts).1⟩

/-- A rule from text whose loop starts at a word. It is written, but no rule is read back. -/
theorem Rule.not_restored_of_word_start :
    let rule : Rule := .vector ⟨"i", "x", "xs.size()"⟩
      (.scalar (.binary .eq (.leaf (.string "a") false) (.leaf (.int 1) false)))
    Rule.parse "FOR: i=x:xs.size() IF: \x7b a == 1 \x7d" = .ok rule ∧
      ∃ bytes, rule.toBytes none = .ok bytes ∧ ¬ ∃ rule', Rule.ofBytes bytes = .ok rule' := by
  intro rule
  have parsed : Rule.parse "FOR: i=x:xs.size() IF: \x7b a == 1 \x7d" = .ok rule := by
    rw [← Outcome.toOption_eq_some_iff]
    decide +kernel
  have writable : (Cache.Payload.ofRule rule none).toBytes?.any (·.length < UInt32.size) = true := by
    decide +kernel
  obtain ⟨content, given, within⟩ := (Option.any_eq_true _ _).mp writable
  have short := of_decide_eq_true within
  refine ⟨parsed, _, Cache.toBytes_of_some given short, ?_⟩
  have checked : Cache.checkRule rule.withMarks = .error (.start "x") := by decide
  rw [Cache.ofBytes_frame_eq given short, checked]
  rintro ⟨rule', restored⟩
  contradiction

end DocRules

import DocRules.Proofs.Cache.Frame

/-! # Caching any rule

A rule is written if none of its nodes carries the absent operator, and if it is not too long
(`Cache.toBytes_of_some`). What was written is read back with the flags that the rule asks for
(`Cache.payload_frame`), and only the rule itself is left to be checked (`Cache.check_headerOf`): it is
read as the rule with its leaves marked as their values ask if it is valid, and refused if it is not
(`Rule.ofBytes_toBytes`). The digest of the source is read in both cases.
-/

namespace DocRules

open Outcome

/-- What is cached of a rule, with the digest of a source if one is given. -/
def Cache.Payload.ofRule (rule : Rule) (source : Option String) : Payload :=
  ⟨rule.nodes, source.map Digest.ofText, rule⟩

namespace Cache

variable {rule : Rule} {source : Option String} {content : List UInt8}

theorem toBytes_of_none (absent : (Payload.ofRule rule source).toBytes? = none) :
    rule.toBytes source = .error .absentOperator := by
  simp only [Payload.ofRule] at absent
  simp only [Rule.toBytes, absent]

theorem toBytes_of_some (written : (Payload.ofRule rule source).toBytes? = some content)
    (short : content.length < UInt32.size) :
    rule.toBytes source = .ok (frame rule.isVector content) := by
  simp only [Payload.ofRule] at written
  simp only [Rule.toBytes, written, if_pos short]

/-- Whether the content of a rule is short enough can be decided. -/
theorem short_of_all
    (within : (Payload.ofRule rule source).toBytes?.all (·.length < UInt32.size) = true) (content : List UInt8)
    (written : (Payload.ofRule rule source).toBytes? = some content) : content.length < UInt32.size :=
  of_decide_eq_true ((Option.all_eq_true _ _).mp within content written)

/-- Bytes that were written are the frame of a content that is not too long. -/
theorem exists_content_of_toBytes {bytes : List UInt8} (written : rule.toBytes source = .ok bytes) :
    ∃ content, (Payload.ofRule rule source).toBytes? = some content ∧ content.length < UInt32.size ∧
      bytes = frame rule.isVector content := by
  cases given : (Payload.ofRule rule source).toBytes? with
  | none => exact absurd (written.symm.trans (toBytes_of_none given)) (by simp)
  | some content =>
    by_cases short : content.length < UInt32.size
    · exact ⟨content, rfl, short, Except.ok.inj (written.symm.trans (toBytes_of_some given short))⟩
    · simp only [Payload.ofRule] at given
      simp only [Rule.toBytes, given, if_neg short] at written
      contradiction

def headerOf (rule : Rule) (content : List UInt8) : Header :=
  ⟨formatVersion, if rule.isVector then 1 else 0, content.length, checksum content⟩

/-- What was written is read with the leaves of the rule marked. -/
theorem payload_frame (written : (Payload.ofRule rule source).toBytes? = some content)
    (short : content.length < UInt32.size) :
    payload (frame rule.isVector content) =
      .ok (headerOf rule content, Payload.ofRule rule.withMarks source) := by
  have framed := unframe_frame rule.isVector short []
  have size : ∀ digest ∈ (Payload.ofRule rule source).sourceDigest, digest.length = digestSize := by
    intro digest member
    obtain ⟨text, -, rfl⟩ := Option.map_eq_some_iff.mp member
    exact Digest.length_ofBytes _
  have within : content.length < UInt64.size := Nat.lt_trans short (by decide)
  have read := Payload.ofBytes?_of_toBytes? written within rfl size []
  rw [List.append_nil] at framed read
  rw [payload, framed, ok_bind]
  simp only [read, Payload.ofRule, Rule.nodes_withMarks]
  rfl

/-- The flags and the number of nodes are those of the rule, so it is only the rule that is checked. -/
theorem check_headerOf (rule : Rule) (source : Option String) (content : List UInt8) :
    check (headerOf rule content) (Payload.ofRule rule.withMarks source) =
      checkRule rule.withMarks := by
  have flags : (rule.withMarks.isVector != (headerOf rule content).isVector) = false := by
    cases rule <;> rfl
  simp only [check, Payload.ofRule, flags, Bool.false_eq_true, if_false, ne_eq, not_true_eq_false]
  cases checkRule rule.withMarks <;> rfl

theorem ofBytes_frame_eq (written : (Payload.ofRule rule source).toBytes? = some content)
    (short : content.length < UInt32.size) :
    Rule.ofBytes (frame rule.isVector content) =
      match checkRule rule.withMarks with
      | .ok () => .ok rule.withMarks
      | .error reason => .error (.invalid reason) := by
  rw [Rule.ofBytes, payload_frame written short, ok_bind]
  simp only [check_headerOf]
  cases checkRule rule.withMarks <;> rfl

theorem sourceDigest_frame (written : (Payload.ofRule rule source).toBytes? = some content)
    (short : content.length < UInt32.size) :
    sourceDigest (frame rule.isVector content) = .ok (source.map Digest.ofText) := by
  rw [sourceDigest, payload_frame written short]
  rfl

end Cache

/-- A rule is not written exactly if one of its nodes carries the absent operator. Otherwise the bytes
are read as the rule with its leaves marked as their values ask, or are refused by the check if the
rule is not valid, and they hold the digest of the source. -/
theorem Rule.ofBytes_toBytes (rule : Rule) (source : Option String)
    (short : ∀ content, (Cache.Payload.ofRule rule source).toBytes? = some content →
      content.length < UInt32.size) :
    ((∃ error, rule.toBytes source = .error error) ↔ .nil ∈ rule.innermost.operators) ∧
    (∀ error, rule.toBytes source = .error error → error = .absentOperator) ∧
    ∀ bytes, rule.toBytes source = .ok bytes →
      (Cache.Valid rule → Rule.ofBytes bytes = .ok rule.withMarks) ∧
      (¬ Cache.Valid rule → ∃ reason, Rule.ofBytes bytes = .error (.invalid reason)) ∧
      Cache.sourceDigest bytes = .ok (source.map Digest.ofText) := by
  have writable : (Cache.Payload.ofRule rule source).toBytes?.isSome ↔ .nil ∉ rule.innermost.operators :=
    Cache.Payload.isSome_toBytes?_iff
  cases written : (Cache.Payload.ofRule rule source).toBytes? with
  | none =>
    have failed := Cache.toBytes_of_none written
    rw [written] at writable
    rw [failed]
    refine ⟨⟨fun _ => by simpa using writable, fun _ => ⟨_, rfl⟩⟩, ?_, ?_⟩
    · intro error same
      exact (Except.error.inj same).symm
    · intro bytes absent
      contradiction
  | some content =>
    have within := short content written
    have success := Cache.toBytes_of_some written within
    rw [written] at writable
    rw [success]
    refine ⟨⟨?_, fun absent => absurd absent (writable.mp rfl)⟩, ?_, ?_⟩
    · rintro ⟨error, absent⟩
      contradiction
    · intro error absent
      contradiction
    · intro bytes same
      obtain rfl := Except.ok.inj same
      rw [Cache.ofBytes_frame_eq written within, ← Cache.valid_withMarks_iff, ← Cache.checkRule_eq_ok_iff]
      refine ⟨?_, ?_, Cache.sourceDigest_frame written within⟩
      · intro valid
        rw [valid]
      · intro invalid
        cases checked : Cache.checkRule rule.withMarks with
        | ok => exact absurd checked invalid
        | error reason => exact ⟨reason, rfl⟩

/-- The theorem at a rule that is not read from text: its leaves are marked the wrong way round, one of
them is no number, and its loop starts below zero. -/
theorem Rule.ofBytes_toBytes_of_marked_wrong :
    let rule : Rule := .vector ⟨"i", "-3", "xs"⟩ (.loop ⟨"j", "+07", "xs[i]"⟩ (.scalar
      (.binary .ge (.leaf (.string "xs[i][j]") false) (.leaf (.float ⟨0x7ff8000000000001⟩) true))))
    let marked : Rule := .vector ⟨"i", "-3", "xs"⟩ (.loop ⟨"j", "+07", "xs[i]"⟩ (.scalar
      (.binary .ge (.leaf (.string "xs[i][j]") true) (.leaf (.float ⟨0x7ff8000000000001⟩) false))))
    (∀ content, (Cache.Payload.ofRule rule none).toBytes? = some content →
        content.length < UInt32.size) ∧
      .nil ∉ rule.innermost.operators ∧ Cache.Valid rule ∧
      ∃ bytes, rule.toBytes none = .ok bytes ∧ Rule.ofBytes bytes = .ok marked ∧
        Cache.sourceDigest bytes = .ok none := by
  intro rule marked
  have short : ∀ content, (Cache.Payload.ofRule rule none).toBytes? = some content →
      content.length < UInt32.size :=
    Cache.short_of_all (by decide +kernel)
  have operators : .nil ∉ rule.innermost.operators := by decide
  have valid : Cache.Valid rule := Cache.checkRule_eq_ok_iff.mp (by decide +kernel)
  obtain ⟨fails, -, reads⟩ := Rule.ofBytes_toBytes rule none short
  cases written : rule.toBytes none with
  | error error => exact absurd (fails.mp ⟨error, written⟩) operators
  | ok bytes =>
    obtain ⟨restored, -, digest⟩ := reads bytes written
    exact ⟨short, operators, valid, bytes, rfl, restored valid, digest⟩

end DocRules

import DocRules.Proofs.Cache.Decoded

/-! # Cached rules that were tampered with

The checksum covers the content alone. The rest of a header is not protected, but it has no influence on the
rule: the version of the engine and all flags but the lowest are not looked at, the magic bytes, the version
and the lowest flag are compared with what they have to be, and the length says only where the content ends.
So bytes that state the same checksum and are accepted have the same content, and then the same rule and the
same digest, or the two contents have one checksum although they differ (`Rule.ofBytes_of_checksum`).
-/

namespace DocRules

open Outcome

namespace Cache

def statedChecksum (bytes : List UInt8) : List UInt8 :=
  (bytes.drop 16).take checksumSize

/-- The content of the bytes, as long as their header states. -/
def statedContent (bytes : List UInt8) : List UInt8 :=
  (bytes.drop headerSize).take (field bytes 12 4)

/-- Two contents that differ have one checksum. -/
def Collision (content content' : List UInt8) : Prop :=
  content ≠ content' ∧ checksum content = checksum content'

variable {bytes : List UInt8}

/-- A frame that is intact has the stated content, and this has the stated checksum. -/
theorem statedContent_of_unframe {header : Header} {content : List UInt8}
    (framed : unframe bytes = .ok (header, content)) :
    content = statedContent bytes ∧ checksum content = statedChecksum bytes := by
  obtain ⟨opened, -, -, rfl, intact⟩ := unframe_eq_ok_iff.mp framed
  obtain ⟨-, -, rfl⟩ := Header.ofBytes_eq_ok_iff.mp opened
  exact ⟨rfl, intact⟩

/-- A rule that is read is the one in the stated content, together with the digest of its source. -/
theorem exists_payload_of_ofBytes {rule : Rule} (read : Rule.ofBytes bytes = .ok rule) :
    ∃ found, checksum (statedContent bytes) = statedChecksum bytes ∧
      Payload.ofBytes? (statedContent bytes) = some found ∧ rule = found.rule ∧
      sourceDigest bytes = .ok found.sourceDigest := by
  obtain ⟨⟨header, found⟩, opened, read⟩ := bind_eq_ok_iff.mp read
  obtain ⟨content, framed, decoded⟩ := exists_unframe_of_payload opened
  obtain ⟨rfl, intact⟩ := statedContent_of_unframe framed
  have digest : sourceDigest bytes = .ok found.sourceDigest := by
    rw [sourceDigest, opened]
    rfl
  cases checked : check header found with
  | error reason =>
    simp only [checked] at read
    cases read
  | ok done =>
    simp only [checked] at read
    obtain rfl := Except.ok.inj read
    exact ⟨found, intact, decoded, rfl, digest⟩

/-- The version of the engine, all flags but the lowest and what follows the content make no difference. -/
theorem ofBytes_layout_append {content : List UInt8} {vector : Bool} {flags : Nat} (engine : Nat)
    (word : flags < Nat.pow 256 4) (kind : flags % 2 = kindFlags vector)
    (short : content.length < UInt32.size) (rest : List UInt8) :
    Rule.ofBytes (layout engine flags content ++ rest) = Rule.ofBytes (frame vector content) ∧
      sourceDigest (layout engine flags content ++ rest) = sourceDigest (frame vector content) := by
  have changed := unframe_layout engine word short rest
  have framed := unframe_frame vector short []
  rw [List.append_nil] at framed
  have checks (found : Payload) :
      check ⟨formatVersion, flags, content.length, checksum content⟩ found =
        check ⟨formatVersion, kindFlags vector, content.length, checksum content⟩ found := by
    have same : kindFlags vector % 2 = kindFlags vector := by cases vector <;> rfl
    simp only [check, Header.isVector, kind, same]
  simp only [Rule.ofBytes, sourceDigest, payload, changed, framed, ok_bind]
  cases Payload.ofBytes? content with
  | none => exact ⟨rfl, rfl⟩
  | some found => exact ⟨by simp only [pure_eq_ok, ok_bind, checks, kindFlags], rfl⟩

end Cache

/-- Bytes that state the checksum of a cached rule and are read as a rule are read as the rule that was
cached, with the digest of its source, whatever else of them was changed. The only other possibility is that
their content collides with that of the cached rule. -/
theorem Rule.ofBytes_of_checksum {rule restored tampered : Rule} {source : Option String}
    {bytes bytes' : List UInt8} (written : rule.toBytes source = .ok bytes)
    (read : Rule.ofBytes bytes = .ok restored)
    (kept : Cache.statedChecksum bytes' = Cache.statedChecksum bytes)
    (accepted : Rule.ofBytes bytes' = .ok tampered) :
    (Cache.statedContent bytes' = Cache.statedContent bytes ∧ tampered = restored ∧
      restored = rule.withMarks ∧ Cache.sourceDigest bytes' = Cache.sourceDigest bytes ∧
      Cache.sourceDigest bytes = .ok (source.map Digest.ofText)) ∨
    Cache.Collision (Cache.statedContent bytes') (Cache.statedContent bytes) := by
  obtain ⟨found, intact, decoded, rfl, digest⟩ := Cache.exists_payload_of_ofBytes read
  obtain ⟨found', intact', decoded', rfl, digest'⟩ := Cache.exists_payload_of_ofBytes accepted
  by_cases same : Cache.statedContent bytes' = Cache.statedContent bytes
  · obtain rfl : found' = found := Option.some.inj (by rw [← decoded', ← decoded, same])
    obtain ⟨content, given, short, rfl⟩ := Cache.exists_content_of_toBytes written
    have restored := Cache.ofBytes_frame_eq given short
    have original := Cache.sourceDigest_frame given short
    refine .inl ⟨same, rfl, ?_, digest'.trans digest.symm, original⟩
    rw [read] at restored
    split at restored
    · exact Except.ok.inj restored
    · cases restored
  · exact .inr ⟨same, by rw [intact', kept, intact]⟩

/-- The theorem at a cached rule in whose header another version of the engine and a further flag were put, and
behind which something was added. -/
theorem Rule.ofBytes_of_changed_header :
    let source := "IF: \x7b x == 1 \x7d"
    let rule : Rule := .scalar (.scalar (.binary .eq (.leaf (.string "x") false) (.leaf (.int 1) false)))
    ∃ bytes content, rule.toBytes (some source) = .ok bytes ∧ Rule.ofBytes bytes = .ok rule ∧
      (Cache.Payload.ofRule rule (some source)).toBytes? = some content ∧
      let bytes' := Cache.layout 9 4 content ++ [0]
      bytes[6]? = some 1 ∧ bytes'[6]? = some 9 ∧ bytes[8]? = some 0 ∧ bytes'[8]? = some 4 ∧
      bytes'.length = bytes.length + 1 ∧
      Cache.statedChecksum bytes' = Cache.statedChecksum bytes ∧ Rule.ofBytes bytes' = .ok rule ∧
      Cache.sourceDigest bytes' = .ok (some (Digest.ofText source)) := by
  intro source rule
  have writable : (Cache.Payload.ofRule rule (some source)).toBytes?.any (·.length < UInt32.size) = true := by
    decide +kernel
  obtain ⟨content, given, short⟩ := (Option.any_eq_true _ _).mp writable
  replace short := of_decide_eq_true short
  have written : rule.toBytes (some source) = .ok (Cache.frame rule.isVector content) :=
    Cache.toBytes_of_some given short
  have read : Rule.ofBytes (Cache.frame rule.isVector content) = .ok rule := by
    rw [Cache.ofBytes_frame_eq given short]
    rfl
  have word : 4 < Nat.pow 256 4 := by decide
  have kind : 4 % 2 = Cache.kindFlags rule.isVector := rfl
  obtain ⟨same, -⟩ := Cache.ofBytes_layout_append 9 word kind short [0]
  have framed := Cache.unframe_frame rule.isVector short []
  rw [List.append_nil] at framed
  obtain ⟨inner, sum⟩ := Cache.statedContent_of_unframe framed
  obtain ⟨inner', sum'⟩ := Cache.statedContent_of_unframe (Cache.unframe_layout 9 word short [0])
  have longer : (Cache.layout 9 4 content ++ [0]).length = (Cache.frame rule.isVector content).length + 1 := by
    rw [Cache.frame_eq, List.length_append, Cache.length_layout, Cache.length_layout]
    rfl
  rcases Rule.ofBytes_of_checksum written read (sum'.symm.trans sum) (same.trans read) with
    ⟨-, -, -, digest, original⟩ | ⟨different, -⟩
  · exact ⟨_, content, written, read, given, rfl, rfl, rfl, rfl, longer, sum'.symm.trans sum,
      same.trans read, digest.trans original⟩
  · exact absurd (inner'.symm.trans inner) different

end DocRules

import DocRules.Proofs.Cache.RoundTrip
import Mathlib.Data.List.Infix

/-! # How far a cached rule reaches

The header of a cached rule states where its content ends. Bytes that end before that, or within the header,
are refused for their length (`Cache.refused_of_short`, `Cache.refused_of_cut`), and these are the only ones
(`Cache.lengthMismatch_iff_isCutOff`). Of all others nothing is looked at behind the stated end, so they may go
on in any way (`Cache.unframe_of_front`). Bytes that were written state their own size
(`Cache.stated_of_toBytes`): cut off anywhere they are refused for their length, and continued in any way they
are read as before (`Rule.ofBytes_extent`).
-/

namespace DocRules

open Outcome

namespace Cache

variable {bytes : List UInt8}

/-- The bytes begin as a cached rule in the supported format does. -/
def Recognized (bytes : List UInt8) : Prop :=
  bytes.take 4 = magic ∧ field bytes 4 2 = formatVersion

/-- The number of bytes of a cached rule, as its header states it. -/
def statedSize (bytes : List UInt8) : Nat :=
  headerSize + field bytes 12 4

/-- The bytes end within the header, or before the end that it states. -/
def IsCutOff (bytes : List UInt8) : Prop :=
  bytes.length < headerSize ∨ (Recognized bytes ∧ bytes.length < statedSize bytes)

/-- Neither the rule nor the digest of its source is read, and the error is the same. -/
structure Refused (bytes : List UInt8) (error : ReadError) : Prop where
  rule : Rule.ofBytes bytes = .error error
  digest : sourceDigest bytes = .error error

/-- Two byte sequences have the same header and content or are no frames for the same reason, and the rule and
the digest that are read from them, or the errors, are the same. -/
structure SameReading (bytes bytes' : List UInt8) : Prop where
  frame : unframe bytes = unframe bytes'
  rule : Rule.ofBytes bytes = Rule.ofBytes bytes'
  digest : sourceDigest bytes = sourceDigest bytes'

/-- The rule and the digest are read from the header and the content. -/
theorem SameReading.of_unframe {bytes' : List UInt8} (frame : unframe bytes = unframe bytes') :
    SameReading bytes bytes' := by
  have opened : payload bytes = payload bytes' := by
    rw [payload, payload, frame]
  refine ⟨frame, ?_, ?_⟩
  · rw [Rule.ofBytes, Rule.ofBytes, opened]
  · rw [sourceDigest, sourceDigest, opened]

theorem Refused.of_unframe {error : ReadError} (failed : unframe bytes = .error error) :
    Refused bytes error := by
  have opened : payload bytes = .error error := by
    rw [payload, failed, error_bind]
  refine ⟨?_, ?_⟩
  · rw [Rule.ofBytes, opened, error_bind]
  · rw [sourceDigest, opened, error_bind]

/-- The length is looked at before anything else. -/
theorem refused_of_short (short : bytes.length < headerSize) :
    Refused bytes (.lengthMismatch headerSize bytes.length) := by
  have unopened := Header.ofBytes_eq_error_iff.mpr (.inl ⟨short, rfl⟩)
  exact .of_unframe (unframe_eq_error_iff.mpr (.inl unopened))

/-- The stated length is looked at before the content. -/
theorem refused_of_cut (long : headerSize ≤ bytes.length) (known : Recognized bytes)
    (cut : bytes.length < statedSize bytes) :
    Refused bytes (.lengthMismatch (field bytes 12 4) (bytes.length - headerSize)) := by
  have opened := Header.ofBytes_eq_ok_iff.mpr ⟨long, known.1, rfl⟩
  exact .of_unframe (unframe_eq_error_iff.mpr (.inr ⟨_, opened, .inr ⟨known.2, .inl ⟨cut, rfl⟩⟩⟩))

private theorem headerSize_le_statedSize (bytes : List UInt8) : headerSize ≤ statedSize bytes :=
  Nat.le_add_right _ _

/-- Bytes that go on as far as they state are not cut off, since they state at least a header. -/
theorem not_isCutOff_of_reached (reached : statedSize bytes ≤ bytes.length) : ¬ IsCutOff bytes := by
  have header := headerSize_le_statedSize bytes
  rintro (short | ⟨-, cut⟩)
  · omega
  · omega

private theorem exists_refused_of_isCutOff (cut : IsCutOff bytes) :
    ∃ expected actual, Refused bytes (.lengthMismatch expected actual) := by
  by_cases short : bytes.length < headerSize
  · exact ⟨_, _, refused_of_short short⟩
  · obtain ⟨known, within⟩ := cut.resolve_left short
    exact ⟨_, _, refused_of_cut (Nat.not_lt.mp short) known within⟩

private theorem isCutOff_of_unframe {expected actual : Nat}
    (failed : unframe bytes = .error (.lengthMismatch expected actual)) : IsCutOff bytes := by
  rcases unframe_eq_error_iff.mp failed with unopened | ⟨header, opened, version | ⟨version, short | sum⟩⟩
  · rcases Header.ofBytes_eq_error_iff.mp unopened with ⟨short, -⟩ | ⟨-, -, other⟩
    · exact .inl short
    · contradiction
  · exact absurd version.2 (by simp)
  · obtain ⟨-, start, rfl⟩ := Header.ofBytes_eq_ok_iff.mp opened
    exact .inr ⟨⟨start, version⟩, short.1⟩
  · exact absurd sum.2.2 (by simp)

/-- Neither a content that is not in the format nor a rule that is not valid is refused for a length. -/
theorem unframe_of_lengthMismatch {expected actual : Nat}
    (failed : Rule.ofBytes bytes = .error (.lengthMismatch expected actual)) :
    unframe bytes = .error (.lengthMismatch expected actual) := by
  rcases bind_eq_error_iff.mp failed with failed | ⟨⟨header, found⟩, -, failed⟩
  · rcases bind_eq_error_iff.mp failed with failed | ⟨⟨header, content⟩, -, failed⟩
    · exact failed
    · cases decoded : Payload.ofBytes? content with
      | none =>
        simp only [decoded] at failed
        cases failed
      | some found =>
        simp only [decoded] at failed
        cases failed
  · cases checked : check header found with
    | ok done =>
      simp only [checked] at failed
      cases failed
    | error reason =>
      simp only [checked] at failed
      cases failed

/-- Bytes are refused for their length if and only if they are cut off. -/
theorem lengthMismatch_iff_isCutOff :
    (∃ expected actual, Rule.ofBytes bytes = .error (.lengthMismatch expected actual)) ↔
      IsCutOff bytes := by
  constructor
  · rintro ⟨expected, actual, failed⟩
    exact isCutOff_of_unframe (unframe_of_lengthMismatch failed)
  · intro cut
    obtain ⟨expected, actual, refused⟩ := exists_refused_of_isCutOff cut
    exact ⟨expected, actual, refused.rule⟩

section Front

variable {whole : List UInt8} (front : bytes <+: whole)
include front

private theorem take_of_front {width : Nat} (within : width ≤ bytes.length) :
    whole.take width = bytes.take width := by
  obtain ⟨rest, rfl⟩ := front
  exact List.take_append_of_le_length within

/-- A part of the bytes is the same if they go on. -/
theorem take_drop_of_front {offset width : Nat} (within : offset + width ≤ bytes.length) :
    (whole.drop offset).take width = (bytes.drop offset).take width := by
  have enough : width ≤ (bytes.drop offset).length := by
    rw [List.length_drop]
    omega
  exact take_of_front (front.drop offset) enough

private theorem field_of_front (long : headerSize ≤ bytes.length) {offset width : Nat}
    (within : offset + width ≤ headerSize) : field whole offset width = field bytes offset width := by
  rw [field, field, take_drop_of_front front (Nat.le_trans within long)]

private theorem magic_of_front (long : headerSize ≤ bytes.length) : whole.take 4 = bytes.take 4 :=
  take_of_front front (Nat.le_trans (by decide) long)

private theorem Header.ofBytes_of_front (long : headerSize ≤ bytes.length) :
    Header.ofBytes whole = Header.ofBytes bytes := by
  have longer : headerSize ≤ whole.length := Nat.le_trans long front.length_le
  have sum : (whole.drop 16).take checksumSize = (bytes.drop 16).take checksumSize :=
    take_drop_of_front front long
  rw [Header.ofBytes, Header.ofBytes, if_neg (Nat.not_lt.mpr longer), if_neg (Nat.not_lt.mpr long),
    magic_of_front front long, sum, field_of_front front long (by decide),
    field_of_front front long (by decide), field_of_front front long (by decide)]

private theorem recognized_iff_of_front (long : headerSize ≤ bytes.length) :
    Recognized whole ↔ Recognized bytes := by
  rw [Recognized, Recognized, magic_of_front front long, field_of_front front long (by decide)]

theorem statedSize_of_front (long : headerSize ≤ bytes.length) : statedSize whole = statedSize bytes := by
  rw [statedSize, statedSize, field_of_front front long (by decide)]

/-- What follows bytes that are not cut off is not looked at. -/
theorem unframe_of_front (complete : ¬ IsCutOff bytes) : unframe whole = unframe bytes := by
  obtain ⟨long, reached⟩ := not_or.mp complete
  rw [unframe, unframe, Header.ofBytes_of_front front (Nat.not_lt.mp long)]
  cases opened : Header.ofBytes bytes with
  | error => rw [error_bind, error_bind]
  | ok header =>
    obtain ⟨-, start, rfl⟩ := Header.ofBytes_eq_ok_iff.mp opened
    -- bytes in another format are refused before the length is looked at, so they may be shorter than stated
    by_cases version : field bytes 4 2 = formatVersion
    · have enough : headerSize + field bytes 12 4 ≤ bytes.length :=
        Nat.not_lt.mp fun cut => reached ⟨⟨start, version⟩, cut⟩
      have longer : headerSize + field bytes 12 4 ≤ whole.length := Nat.le_trans enough front.length_le
      simp only [ok_bind, take_drop_of_front front enough, if_neg (Nat.not_lt.mpr enough),
        if_neg (Nat.not_lt.mpr longer)]
    · simp only [ok_bind, ne_eq, version, not_false_eq_true, if_true, throw, throwThe, MonadExceptOf.throw,
        error_bind]

theorem sameReading_of_front (complete : ¬ IsCutOff bytes) : SameReading whole bytes :=
  .of_unframe (unframe_of_front front complete)

end Front

/-- Bytes that go on as far as they state, or further, are read like the stated part of them. -/
theorem sameReading_take (reached : statedSize bytes ≤ bytes.length) :
    SameReading bytes (bytes.take (statedSize bytes)) := by
  have front := List.take_prefix (statedSize bytes) bytes
  have size : (bytes.take (statedSize bytes)).length = statedSize bytes := List.length_take_of_le reached
  have long : headerSize ≤ (bytes.take (statedSize bytes)).length := by
    rw [size]
    exact headerSize_le_statedSize bytes
  have stated := statedSize_of_front front long
  exact sameReading_of_front front (not_isCutOff_of_reached (stated.symm.trans size.symm).le)

variable {content : List UInt8} {rule : Rule} {source : Option String} {written : List UInt8}

private theorem stated_frame (vector : Bool) (short : content.length < UInt32.size) :
    Recognized (frame vector content) ∧
      statedSize (frame vector content) = (frame vector content).length := by
  have opened := ofBytes_layout engineVersion (kindFlags_lt vector) short []
  rw [List.append_nil, ← frame_eq] at opened
  obtain ⟨-, start, fields⟩ := Header.ofBytes_eq_ok_iff.mp opened
  obtain ⟨version, -, length, -⟩ := Header.mk.inj fields
  refine ⟨⟨start, version.symm⟩, ?_⟩
  rw [statedSize, ← length, frame_eq, length_layout]

theorem stated_of_toBytes (given : rule.toBytes source = .ok written) :
    Recognized written ∧ statedSize written = written.length := by
  obtain ⟨content, -, short, rfl⟩ := exists_content_of_toBytes given
  exact stated_frame rule.isVector short

/-- A part in front of bytes that were written states the size of all of them. -/
theorem stated_of_front (given : rule.toBytes source = .ok written) (front : bytes <+: written)
    (long : headerSize ≤ bytes.length) : Recognized bytes ∧ statedSize bytes = written.length := by
  obtain ⟨known, size⟩ := stated_of_toBytes given
  exact ⟨(recognized_iff_of_front front long).mp known, (statedSize_of_front front long).symm.trans size⟩

private theorem isCutOff_of_front (given : rule.toBytes source = .ok written) (front : bytes <+: written)
    (part : bytes ≠ written) : IsCutOff bytes := by
  by_cases short : bytes.length < headerSize
  · exact .inl short
  · obtain ⟨known, size⟩ := stated_of_front given front (Nat.not_lt.mp short)
    have shorter : bytes.length < written.length :=
      Nat.lt_of_le_of_ne front.length_le fun same => part (front.eq_of_length same)
    exact .inr ⟨known, by omega⟩

private theorem not_isCutOff_of_toBytes (given : rule.toBytes source = .ok written) : ¬ IsCutOff written :=
  not_isCutOff_of_reached (stated_of_toBytes given).2.le

end Cache

/-- Bytes that end within the header, and recognized ones that end before the stated size, are refused for their
length; bytes of the stated size or more are read like their part of that size. Hence a part in front of bytes
that were written is always refused for its length, and what follows all of them, or any bytes that are not
refused for their length, changes neither the rule nor the digest nor the error. -/
theorem Rule.ofBytes_extent (bytes : List UInt8) :
    (bytes.length < Cache.headerSize →
      Cache.Refused bytes (.lengthMismatch Cache.headerSize bytes.length)) ∧
    (Cache.headerSize ≤ bytes.length → Cache.Recognized bytes → bytes.length < Cache.statedSize bytes →
      Cache.Refused bytes
        (.lengthMismatch (Cache.field bytes 12 4) (bytes.length - Cache.headerSize))) ∧
    (Cache.statedSize bytes ≤ bytes.length →
      Cache.SameReading bytes (bytes.take (Cache.statedSize bytes))) ∧
    (∀ rule source written, Rule.toBytes rule source = .ok written →
      (bytes <+: written → bytes ≠ written →
        ∃ expected actual, Cache.Refused bytes (.lengthMismatch expected actual)) ∧
      Cache.SameReading (written ++ bytes) written) ∧
    ((∀ expected actual, Rule.ofBytes bytes ≠ .error (.lengthMismatch expected actual)) →
      ∀ rest, Cache.SameReading (bytes ++ rest) bytes) := by
  refine ⟨Cache.refused_of_short, Cache.refused_of_cut, Cache.sameReading_take, ?_, ?_⟩
  · intro rule source written given
    have complete := Cache.not_isCutOff_of_toBytes given
    refine ⟨?_, Cache.sameReading_of_front (List.prefix_append written bytes) complete⟩
    intro front part
    exact Cache.exists_refused_of_isCutOff (Cache.isCutOff_of_front given front part)
  · intro accepted rest
    refine Cache.sameReading_of_front (List.prefix_append bytes rest) ?_
    rw [← Cache.lengthMismatch_iff_isCutOff]
    rintro ⟨expected, actual, failed⟩
    exact accepted expected actual failed

/-- The theorem at a vector rule that was written to 56 bytes: they are cut off within the header and within the
content, and continued. -/
theorem Rule.ofBytes_extent_of_cut_and_continued :
    let rule : Rule := .vector ⟨"i", "0", "xs"⟩
      (.scalar (.binary .ge (.leaf (.string "xs[i]") true) (.leaf (.int (-3)) false)))
    ∃ written, rule.toBytes none = .ok written ∧ written.length = 56 ∧
      Cache.Refused (written.take 20) (.lengthMismatch 32 20) ∧
      Cache.Refused (written.take 40) (.lengthMismatch 24 8) ∧
      (∃ expected actual, Cache.Refused (written.take 55) (.lengthMismatch expected actual)) ∧
      Rule.ofBytes (written ++ [7, 9]) = .ok rule ∧ Cache.sourceDigest (written ++ [7, 9]) = .ok none ∧
      Cache.SameReading (written ++ [7, 9]) ((written ++ [7, 9]).take 56) ∧
      Cache.SameReading (written ++ [7]) written := by
  intro rule
  have writable : (Cache.Payload.ofRule rule none).toBytes?.any (·.length = 24) = true := by decide +kernel
  obtain ⟨content, given, count⟩ := (Option.any_eq_true _ _).mp writable
  replace count := of_decide_eq_true count
  have short : content.length < UInt32.size := by
    rw [count]
    decide
  have written := Cache.toBytes_of_some given short
  have read : Rule.ofBytes (Cache.frame rule.isVector content) = .ok rule := by
    rw [Cache.ofBytes_frame_eq given short]
    rfl
  have digest := Cache.sourceDigest_frame given short
  have size : (Cache.frame rule.isVector content).length = 56 := by
    rw [Cache.frame_eq, Cache.length_layout, count]
    rfl
  -- from here on it does not matter what the bytes are
  generalize Cache.frame rule.isVector content = whole at written read digest size
  have part (count : Nat) (within : count ≤ 56) : (whole.take count).length = count :=
    List.length_take_of_le (by omega)
  have long : Cache.headerSize ≤ (whole.take 40).length := by
    rw [part 40 (by decide)]
    decide
  obtain ⟨known, stated⟩ := Cache.stated_of_front written (List.take_prefix 40 whole) long
  rw [size] at stated
  have length : Cache.field (whole.take 40) 12 4 = 24 := by
    rw [Cache.statedSize, Cache.headerSize] at stated
    omega
  have statedMore : Cache.statedSize (whole ++ [7, 9]) = 56 := by
    rw [Cache.statedSize_of_front (List.prefix_append whole [7, 9]) (by rw [size]; decide),
      (Cache.stated_of_toBytes written).2, size]
  obtain ⟨inHeader, -⟩ := Rule.ofBytes_extent (whole.take 20)
  obtain ⟨-, inContent, -⟩ := Rule.ofBytes_extent (whole.take 40)
  obtain ⟨-, -, reached, -⟩ := Rule.ofBytes_extent (whole ++ [7, 9])
  obtain ⟨-, -, -, cut, -⟩ := Rule.ofBytes_extent (whole.take 55)
  obtain ⟨-, -, -, continued, -⟩ := Rule.ofBytes_extent [7, 9]
  obtain ⟨-, -, -, -, unmoved⟩ := Rule.ofBytes_extent whole
  replace inHeader := inHeader (by rw [part 20 (by decide)]; decide)
  replace inContent := inContent long known (by rw [stated, part 40 (by decide)]; decide)
  replace reached := reached (by rw [statedMore, List.length_append, size]; decide)
  have other : whole.take 55 ≠ whole := by
    intro same
    have all := congrArg List.length same
    rw [part 55 (by decide), size] at all
    contradiction
  obtain ⟨cut, -⟩ := cut rule none whole written
  obtain ⟨-, continued⟩ := continued rule none whole written
  rw [part 20 (by decide)] at inHeader
  rw [part 40 (by decide), length] at inContent
  rw [statedMore] at reached
  exact ⟨whole, written, size, inHeader, inContent, cut (List.take_prefix 55 whole) other,
    continued.rule.trans read, continued.digest.trans digest, reached, unmoved (by rw [read]; simp) [7]⟩

end DocRules

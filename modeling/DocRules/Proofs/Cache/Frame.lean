import DocRules.Cache
import DocRules.Proofs.Cache.Validity

/-! # The frame of a cached rule

The fields of a header stand one after the other, so each is found behind the ones before it. A content
comes back from behind its header, whatever follows it and whatever stands in the two fields that nothing
depends on (`Cache.unframe_layout`); the frame that is written is the one with certain values there
(`Cache.unframe_frame`). Any bytes are taken apart in the same way, but only if their content has the
checksum that they state (`Cache.unframe_eq_ok_iff`).
-/

namespace DocRules

namespace Digest

theorem length_ofBytes (bytes : List UInt8) : (ofBytes bytes).length = Cache.digestSize := by
  simp only [ofBytes, List.length_flatMap, Bytes.length_ofNat, List.map_const', Vector.length_toList,
    List.sum_replicate_nat]
  rfl

end Digest

namespace Cache

open Bytes Outcome

variable {content : List UInt8}

theorem length_checksum (content : List UInt8) : (checksum content).length = checksumSize := by
  rw [checksum, List.length_take, Digest.length_ofBytes]
  rfl

/-- A field is found behind what stands before it. -/
theorem field_append {front : List UInt8} {offset width n : Nat} (position : front.length = offset)
    (fits : n < Nat.pow 256 width) (rest : List UInt8) :
    field (front ++ (ofNat width n ++ rest)) offset width = n := by
  rw [field, List.drop_left' position, List.take_left' (length_ofNat width n), toNat_ofNat fits]

/-- The bytes of a header before the checksum. -/
def headerBytes (engine flags length : Nat) : List UInt8 :=
  magic ++ ofNat 2 formatVersion ++ ofNat 2 engine ++ ofNat 4 flags ++ ofNat 4 length

/-- A content with a header in which the version of the engine and the flags may be any. -/
def layout (engine flags : Nat) (content : List UInt8) : List UInt8 :=
  headerBytes engine flags content.length ++ (checksum content ++ content)

variable {engine flags : Nat}

theorem length_headerBytes (engine flags length : Nat) : (headerBytes engine flags length).length = 16 := by
  simp [headerBytes, magic]

theorem length_layout (engine flags : Nat) (content : List UInt8) :
    (layout engine flags content).length = headerSize + content.length := by
  rw [layout, List.length_append, List.length_append, length_headerBytes, length_checksum, headerSize,
    checksumSize]
  omega

theorem ofBytes_layout (engine : Nat) (word : flags < Nat.pow 256 4) (short : content.length < UInt32.size)
    (rest : List UInt8) :
    Header.ofBytes (layout engine flags content ++ rest) =
      .ok ⟨formatVersion, flags, content.length, checksum content⟩ := by
  have length : content.length < Nat.pow 256 4 := short
  have long : ¬ (layout engine flags content ++ rest).length < headerSize := by
    rw [List.length_append, length_layout]
    omega
  have start : (layout engine flags content ++ rest).take 4 = magic := by
    simp only [layout, headerBytes, List.append_assoc]
    exact List.take_left' rfl
  have version : field (layout engine flags content ++ rest) 4 2 = formatVersion := by
    simp only [layout, headerBytes, List.append_assoc]
    exact field_append rfl (by decide) _
  have kind : field (layout engine flags content ++ rest) 8 4 = flags := by
    have position : (magic ++ (ofNat 2 formatVersion ++ ofNat 2 engine)).length = 8 := rfl
    have found := field_append position word
    simp only [List.append_assoc] at found
    simp only [layout, headerBytes, List.append_assoc, found]
  have size : field (layout engine flags content ++ rest) 12 4 = content.length := by
    have position : (magic ++ (ofNat 2 formatVersion ++ (ofNat 2 engine ++ ofNat 4 flags))).length = 12 := by
      simp [magic]
    have found := field_append position length
    simp only [List.append_assoc] at found
    simp only [layout, headerBytes, List.append_assoc, found]
  have sum : ((layout engine flags content ++ rest).drop 16).take checksumSize = checksum content := by
    rw [layout, List.append_assoc, List.append_assoc,
      List.drop_left' (length_headerBytes engine flags content.length), List.take_left' (length_checksum content)]
  rw [Header.ofBytes, if_neg long, start, version, kind, size, sum]
  rfl

/-- A content is given back with its header, whatever follows it. -/
theorem unframe_layout (engine : Nat) (word : flags < Nat.pow 256 4) (short : content.length < UInt32.size)
    (rest : List UInt8) :
    unframe (layout engine flags content ++ rest) =
      .ok (⟨formatVersion, flags, content.length, checksum content⟩, content) := by
  have long : ¬ (layout engine flags content ++ rest).length < headerSize + content.length := by
    rw [List.length_append, length_layout]
    omega
  have position : (headerBytes engine flags content.length ++ checksum content).length = headerSize := by
    rw [List.length_append, length_headerBytes, length_checksum]
    rfl
  have inner :
      ((layout engine flags content ++ rest).drop headerSize).take content.length = content := by
    rw [layout, ← List.append_assoc, List.append_assoc, List.drop_left' position]
    exact List.take_left' rfl
  simp only [unframe, ofBytes_layout engine word short rest, ok_bind, ne_eq, not_true_eq_false, if_false,
    if_neg long, inner]
  rfl

def kindFlags (vector : Bool) : Nat :=
  if vector then 1 else 0

theorem kindFlags_lt (vector : Bool) : kindFlags vector < Nat.pow 256 4 := by
  cases vector <;> decide

theorem frame_eq (vector : Bool) (content : List UInt8) :
    frame vector content = layout engineVersion (kindFlags vector) content := by
  simp only [frame, layout, headerBytes, kindFlags, List.append_assoc]

/-- A frame gives its header and its content back. -/
theorem unframe_frame (vector : Bool) (short : content.length < UInt32.size) (rest : List UInt8) :
    unframe (frame vector content ++ rest) =
      .ok (⟨formatVersion, if vector then 1 else 0, content.length, checksum content⟩, content) := by
  rw [frame_eq, unframe_layout engineVersion (kindFlags_lt vector) short rest, kindFlags]

variable {bytes : List UInt8} {header : Header}

theorem Header.ofBytes_eq_ok_iff :
    Header.ofBytes bytes = .ok header ↔
      headerSize ≤ bytes.length ∧ bytes.take 4 = magic ∧
        header = ⟨field bytes 4 2, field bytes 8 4, field bytes 12 4, (bytes.drop 16).take checksumSize⟩ := by
  unfold Header.ofBytes
  split <;> rename_i short
  · simp [Nat.not_le.mpr short]
  · split <;> rename_i start
    · simp [start]
    · simp [Nat.not_lt.mp short, not_not.mp start, eq_comm]

theorem Header.ofBytes_eq_error_iff {error : ReadError} :
    Header.ofBytes bytes = .error error ↔
      bytes.length < headerSize ∧ .lengthMismatch headerSize bytes.length = error ∨
      headerSize ≤ bytes.length ∧ bytes.take 4 ≠ magic ∧ .badMagic = error := by
  unfold Header.ofBytes
  split <;> rename_i short
  · simp [short, Nat.not_le.mpr short]
  · split <;> rename_i start
    · simp [short, Nat.not_lt.mp short, start]
    · simp [short, not_not.mp start]

/-- Bytes have a frame if the version is supported, the content is as long as stated and the checksum is
that of the content. -/
theorem unframe_eq_ok_iff :
    unframe bytes = .ok (header, content) ↔
      Header.ofBytes bytes = .ok header ∧ header.version = formatVersion ∧
        headerSize + header.length ≤ bytes.length ∧
        content = (bytes.drop headerSize).take header.length ∧ checksum content = header.checksum := by
  simp only [unframe, bind_eq_ok_iff, unless_throw_eq_ok_iff, not_not, not_lt, pure_eq_ok, Except.ok.injEq,
    Prod.mk.injEq]
  constructor
  · rintro ⟨_, opened, version, long, intact, rfl, rfl⟩
    exact ⟨opened, version, long, rfl, intact⟩
  · rintro ⟨opened, version, long, rfl, intact⟩
    exact ⟨header, opened, version, long, intact, rfl, rfl⟩

/-- Bytes are no frame because of the first of these: the length of the header, the magic bytes, the version,
the length of the content and its checksum. -/
theorem unframe_eq_error_iff {error : ReadError} :
    unframe bytes = .error error ↔
      Header.ofBytes bytes = .error error ∨
      ∃ header, Header.ofBytes bytes = .ok header ∧
        (header.version ≠ formatVersion ∧ .incompatibleVersion header.version formatVersion = error ∨
        header.version = formatVersion ∧
          (bytes.length < headerSize + header.length ∧
            .lengthMismatch header.length (bytes.length - headerSize) = error ∨
          headerSize + header.length ≤ bytes.length ∧
            checksum ((bytes.drop headerSize).take header.length) ≠ header.checksum ∧
            .checksumMismatch = error)) := by
  simp only [unframe, bind_eq_error_iff, unless_throw_eq_error_iff, not_not, not_lt, ne_eq, pure_eq_ok,
    reduceCtorEq, and_false, or_false]

end Cache

end DocRules

import DocRules.Cache.Payload.Reading
import DocRules.Cache.Validity
import DocRules.Digest

/-! # Cached rules

A cached rule is a header of 32 bytes and a content. The header holds four magic bytes, the version
of the format, the version of the engine, flags, the length of the content and the first half of its
digest. The version has to be the supported one; the version of the engine is not looked at. Bytes
after the content are ignored.
-/

namespace DocRules.Cache

open Bytes

/-- The bytes that every cached rule begins with. -/
def magic : List UInt8 :=
  [0x52, 0x56, 0x41, 0x4c]

def formatVersion : Nat :=
  1

def engineVersion : Nat :=
  1

def headerSize : Nat :=
  32

def checksumSize : Nat :=
  16

/-- The first half of the digest of the content. -/
def checksum (content : List UInt8) : List UInt8 :=
  (Digest.ofBytes content).take checksumSize

/-- What a header says about the content. -/
structure Header where
  version : Nat
  flags : Nat
  length : Nat
  checksum : List UInt8

/-- The number in `width` bytes from an offset on. -/
def field (bytes : List UInt8) (offset width : Nat) : Nat :=
  Bytes.toNat ((bytes.drop offset).take width)

/-- The header of at least 32 bytes that begin with the magic ones. -/
def Header.ofBytes (bytes : List UInt8) : Except ReadError Header :=
  if bytes.length < headerSize then .error (.lengthMismatch headerSize bytes.length)
  else if bytes.take 4 ≠ magic then .error .badMagic
  else .ok ⟨field bytes 4 2, field bytes 8 4, field bytes 12 4, (bytes.drop 16).take checksumSize⟩

/-- Whether the flags say that the rule is a vector rule: their lowest bit. -/
def Header.isVector (header : Header) : Bool :=
  header.flags % 2 == 1

/-- The header and the content of a cached rule whose frame is intact. -/
def unframe (bytes : List UInt8) : Except ReadError (Header × List UInt8) := do
  let header ← Header.ofBytes bytes
  if header.version ≠ formatVersion then throw (.incompatibleVersion header.version formatVersion)
  if bytes.length < headerSize + header.length then
    throw (.lengthMismatch header.length (bytes.length - headerSize))
  let content := (bytes.drop headerSize).take header.length
  if checksum content ≠ header.checksum then throw .checksumMismatch
  return (header, content)

def frame (vector : Bool) (content : List UInt8) : List UInt8 :=
  magic ++ Bytes.ofNat 2 formatVersion ++ Bytes.ofNat 2 engineVersion
    ++ Bytes.ofNat 4 (if vector then 1 else 0) ++ Bytes.ofNat 4 content.length
    ++ checksum content ++ content

def payload (bytes : List UInt8) : Except ReadError (Header × Payload) := do
  let (header, content) ← unframe bytes
  match Payload.ofBytes? content with
  | some payload => return (header, payload)
  | none => throw .undecodable

def check (header : Header) (payload : Payload) : Check := do
  if payload.rule.isVector != header.isVector then throw .flags
  checkRule payload.rule
  if payload.rule.nodes ≠ payload.nodeCount then
    throw (.nodeCount payload.nodeCount payload.rule.nodes)

/-- The digest of the source that the rule was cached with. Whether the rule is valid is not
checked. -/
def sourceDigest (bytes : List UInt8) : Except ReadError (Option (List UInt8)) := do
  let (_, payload) ← payload bytes
  return payload.sourceDigest

end DocRules.Cache

namespace DocRules.Rule

/-- The bytes of a cached rule, with the digest of a source if one is given. -/
def toBytes (rule : Rule) (source : Option String) : Except Cache.WriteError (List UInt8) :=
  let payload : Cache.Payload := ⟨rule.nodes, source.map Digest.ofText, rule⟩
  match payload.toBytes? with
  | none => .error .absentOperator
  | some content =>
    if content.length < UInt32.size then .ok (Cache.frame rule.isVector content)
    else .error (.tooLong content.length)

/-- The rule that was cached as the bytes. -/
def ofBytes (bytes : List UInt8) : Except Cache.ReadError Rule := do
  let (header, payload) ← Cache.payload bytes
  match Cache.check header payload with
  | .ok () => return payload.rule
  | .error reason => throw (.invalid reason)

end DocRules.Rule

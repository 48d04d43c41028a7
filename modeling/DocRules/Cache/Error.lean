import DocRules.Rule.Text

/-! # Errors of cached rules

A rule cannot be written if it has a node without an operator or is too long. Reading fails where
the frame is damaged, where the content makes no sense, and where it makes a rule that no reader
would have accepted.
-/

namespace DocRules.Cache

/-- Why a rule is not written. -/
inductive WriteError where
  /-- A binary node carries the absent operator. -/
  | absentOperator
  /-- The content has too many bytes. -/
  | tooLong (size : Nat)
deriving DecidableEq

def WriteError.message : WriteError → String
  | .absentOperator => "rule cannot be encoded: binary node carries the NIL operator"
  | .tooLong size =>
    "encoded payload of " ++ toString size ++ " bytes exceeds the format limit"

/-- Why a rule that was read is refused. -/
inductive Invalidity where
  | flags
  | emptyPart (header : LoopHeader)
  | start (text : String)
  | loopsTooDeep
  | exprTooDeep
  | emptyLeaf
  | nodeCount (stated actual : Nat)
deriving DecidableEq

def Invalidity.text : Invalidity → String
  | .flags => "header flags disagree with the rule kind"
  | .emptyPart header => "loop header '" ++ header.text ++ "' has an empty part"
  | .start written => "loop start index '" ++ written ++ "' is not an integer"
  | .loopsTooDeep => "loops nest deeper than " ++ toString maxLoopDepth
  | .exprTooDeep => "expression nests deeper than " ++ toString maxExprDepth
  | .emptyLeaf => "empty string leaf"
  | .nodeCount stated actual =>
    "metadata node_count " ++ toString stated ++ " does not match actual " ++ toString actual

/-- Why bytes are no cached rule. -/
inductive ReadError where
  | badMagic
  | incompatibleVersion (found supported : Nat)
  | checksumMismatch
  | lengthMismatch (expected actual : Nat)
  /-- The content is not in the format. -/
  | undecodable
  | invalid (reason : Invalidity)
deriving DecidableEq

def ReadError.message : ReadError → String
  | .badMagic => "not a ruleval binary: invalid magic bytes"
  | .incompatibleVersion found supported =>
    "incompatible format version: blob is v" ++ toString found ++ ", engine supports v"
      ++ toString supported
  | .checksumMismatch => "integrity check failed: BLAKE3 checksum mismatch"
  | .lengthMismatch expected actual =>
    "payload length mismatch: expected " ++ toString expected ++ " bytes, got " ++ toString actual
  | .undecodable => "failed to decode payload"
  | .invalid reason => "validation failed: " ++ reason.text

end DocRules.Cache

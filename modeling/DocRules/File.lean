import DocRules.Cache
import DocRules.Parse

/-! # Rules in files

A file is its content, or nothing if it cannot be read. A file of rule text has to be UTF-8.
-/

namespace DocRules

/-- Why there is no rule in a file of rule text. -/
inductive FileError where
  /-- The file is not there, or is no text. -/
  | unreadable
  | parse (error : ParseError)
deriving DecidableEq

/-- Why there is no rule in a file of a cached rule. -/
inductive CacheFileError where
  /-- The file is not there. -/
  | unreadable
  | read (error : Cache.ReadError)
deriving DecidableEq

/-- Why a rule is not in a file. -/
inductive StoreError where
  /-- The file cannot be written. -/
  | unwritable
  | write (error : Cache.WriteError)
deriving DecidableEq

namespace Rule

def ofFile (content : Option ByteArray) : Except FileError Rule :=
  match content.bind String.fromUTF8? with
  | none => .error .unreadable
  | some text => (parse text).mapError .parse

def ofCacheFile (content : Option (List UInt8)) : Except CacheFileError Rule :=
  match content with
  | none => .error .unreadable
  | some bytes => (ofBytes bytes).mapError .read

/-- The content of the file of a cached rule, at a place that can be written or not. -/
def toCacheFile (rule : Rule) (source : Option String) (writable : Bool) :
    Except StoreError (List UInt8) := do
  let bytes ← (rule.toBytes source).mapError .write
  if writable then return bytes else throw .unwritable

end Rule

end DocRules

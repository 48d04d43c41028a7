/-! # Bytes

Texts are bytes in UTF-8. Numbers are written with their lowest byte first, either in a fixed number
of bytes or in as few as their size needs. Reading takes what it needs off the front of a byte
sequence and returns the rest.
-/

namespace DocRules.Bytes

def ofText (text : String) : List UInt8 :=
  text.toUTF8.data.toList

def toText? (bytes : List UInt8) : Option String :=
  String.fromUTF8? ⟨bytes.toArray⟩

/-- The bytes of a text are that text. -/
theorem toText?_ofText (text : String) : toText? (ofText text) = some text := by
  simp only [toText?, ofText, Array.toArray_toList, String.fromUTF8?]
  exact dif_pos text.isValidUTF8

/-- The lowest `width` bytes of a number, the lowest first. -/
def ofNat : Nat → Nat → List UInt8
  | 0, _ => []
  | width + 1, n => UInt8.ofNat n :: ofNat width (n / 256)

/-- The number written by bytes, the lowest first. -/
def toNat (bytes : List UInt8) : Nat :=
  bytes.foldr (fun byte n => byte.toNat + 256 * n) 0

/-- The first bytes of a sequence, if it is long enough, and the rest. -/
def take? : Nat → List UInt8 → Option (List UInt8 × List UInt8)
  | 0, bytes => some ([], bytes)
  | _ + 1, [] => none
  | count + 1, byte :: bytes =>
    (take? count bytes).map fun (taken, rest) => (byte :: taken, rest)

theorem length_le_of_take? {count : Nat} {bytes taken rest : List UInt8}
    (read : take? count bytes = some (taken, rest)) : rest.length ≤ bytes.length := by
  induction count generalizing bytes taken with
  | zero => simp_all [take?]
  | succ count ih =>
    cases bytes with
    | nil => simp [take?] at read
    | cons byte bytes =>
      simp only [take?, Option.map_eq_some_iff, Prod.mk.injEq] at read
      obtain ⟨⟨inner, after⟩, more, -, rfl⟩ := read
      exact Nat.le_succ_of_le (ih more)

def fixed? (width : Nat) (bytes : List UInt8) : Option (Nat × List UInt8) :=
  (take? width bytes).map fun (taken, rest) => (toNat taken, rest)

/-- A number below `2 ^ 64` in one byte if it is below 251, and in two, four or eight bytes after a
byte that says so if it is not. -/
def ofCompact (n : Nat) : List UInt8 :=
  if n < 251 then ofNat 1 n
  else if n < UInt16.size then 251 :: ofNat 2 n
  else if n < UInt32.size then 252 :: ofNat 4 n
  else 253 :: ofNat 8 n

/-- Read a number of variable width, of at most `widest` bytes. It may be written wider than it
needs. -/
def compact? (widest : Nat) : List UInt8 → Option (Nat × List UInt8)
  | [] => none
  | first :: bytes =>
    if first < 251 then some (first.toNat, bytes)
    else if first = 251 then fixed? 2 bytes
    else if first = 252 then fixed? 4 bytes
    else if first = 253 ∧ 8 ≤ widest then fixed? 8 bytes
    else none

theorem length_le_of_fixed? {width n : Nat} {bytes rest : List UInt8}
    (read : fixed? width bytes = some (n, rest)) : rest.length ≤ bytes.length := by
  simp only [fixed?, Option.map_eq_some_iff, Prod.mk.injEq] at read
  obtain ⟨⟨taken, after⟩, more, -, rfl⟩ := read
  exact length_le_of_take? more

theorem length_lt_of_compact? {widest n : Nat} {bytes rest : List UInt8}
    (read : compact? widest bytes = some (n, rest)) : rest.length < bytes.length := by
  cases bytes with
  | nil => simp [compact?] at read
  | cons first bytes =>
    simp only [compact?] at read
    simp only [List.length_cons]
    refine Nat.lt_succ_of_le ?_
    split at read
    · simp_all
    · split at read
      · exact length_le_of_fixed? read
      · split at read
        · exact length_le_of_fixed? read
        · split at read
          · exact length_le_of_fixed? read
          · contradiction

/-- A signed number as a natural one: the numbers alternate between the signs. -/
def zigzag (n : Int) : Nat :=
  if 0 ≤ n then 2 * n.toNat else 2 * n.natAbs - 1

def unzigzag (n : Nat) : Int :=
  if n % 2 = 0 then (n / 2 : Nat) else -((n / 2 : Nat) + 1)

end DocRules.Bytes

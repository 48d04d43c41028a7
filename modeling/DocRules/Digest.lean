import DocRules.Bytes

/-! # BLAKE3 digests

The digest of a byte sequence. The bytes are cut into chunks of 1024 bytes, the leaves of a binary
tree in which every left subtree is complete and as large as possible; a chunk is a chain of blocks
of 64 bytes. One compression function serves blocks and inner nodes, and the root is compressed once
more under a mark of its own.
-/

namespace DocRules.Digest

/-- Eight words that stand for everything compressed so far. -/
abbrev Chaining := Vector UInt32 8

/-- Sixteen words: the content of a block, or the state of a compression. -/
abbrev Block := Vector UInt32 16

/-- The chaining value at the beginning of every chunk and in every inner node. -/
def initial : Chaining :=
  #v[0x6a09e667, 0xbb67ae85, 0x3c6ef372, 0xa54ff53a, 0x510e527f, 0x9b05688c, 0x1f83d9ab, 0x5be0cd19]

/-- Marks that tell apart what is compressed. -/
structure Marks where
  chunkStart : Bool := false
  chunkEnd : Bool := false
  parent : Bool := false
  root : Bool := false

def Marks.word (marks : Marks) : UInt32 :=
  (if marks.chunkStart then 1 else 0) ||| (if marks.chunkEnd then 2 else 0)
    ||| (if marks.parent then 4 else 0) ||| (if marks.root then 8 else 0)

def rotateRight (word count : UInt32) : UInt32 :=
  word >>> count ||| word <<< (32 - count)

/-- Mix two words of the message into four words of the state. -/
def mix (state : Block) (a b c d : Fin 16) (x y : UInt32) : Block :=
  let state := state.set a (state[a] + state[b] + x)
  let state := state.set d (rotateRight (state[d] ^^^ state[a]) 16)
  let state := state.set c (state[c] + state[d])
  let state := state.set b (rotateRight (state[b] ^^^ state[c]) 12)
  let state := state.set a (state[a] + state[b] + y)
  let state := state.set d (rotateRight (state[d] ^^^ state[a]) 8)
  let state := state.set c (state[c] + state[d])
  state.set b (rotateRight (state[b] ^^^ state[c]) 7)

/-- Mix a message into the state, first along the columns and then along the diagonals. -/
def round (state message : Block) : Block :=
  let state := mix state 0 4 8 12 message[0] message[1]
  let state := mix state 1 5 9 13 message[2] message[3]
  let state := mix state 2 6 10 14 message[4] message[5]
  let state := mix state 3 7 11 15 message[6] message[7]
  let state := mix state 0 5 10 15 message[8] message[9]
  let state := mix state 1 6 11 12 message[10] message[11]
  let state := mix state 2 7 8 13 message[12] message[13]
  mix state 3 4 9 14 message[14] message[15]

/-- The order in which the next round takes the words of a message. -/
def permute (m : Block) : Block :=
  #v[m[2], m[6], m[3], m[10], m[7], m[0], m[4], m[13],
    m[1], m[11], m[12], m[5], m[9], m[14], m[15], m[8]]

/-- So many rounds, each with the message in its next order. -/
def rounds : Nat → Block → Block → Block
  | 0, state, _ => state
  | count + 1, state, message => rounds count (round state message) (permute message)

/-- What is compressed: a block with the chaining value before it, the number of its chunk, the
number of its bytes and its marks. -/
structure Input where
  chaining : Chaining
  message : Block
  chunk : Nat
  size : Nat
  marks : Marks

def Input.compress (input : Input) : Chaining :=
  let h := input.chaining
  let state : Block :=
    #v[h[0], h[1], h[2], h[3], h[4], h[5], h[6], h[7],
      initial[0], initial[1], initial[2], initial[3],
      UInt32.ofNat input.chunk, UInt32.ofNat (input.chunk >>> 32),
      UInt32.ofNat input.size, input.marks.word]
  let state := rounds 7 state input.message
  Vector.ofFn fun i : Fin 8 => state[i.val] ^^^ state[i.val + 8]

/-- The words of at most 64 bytes, filled up with zeros. -/
def blockOfBytes (bytes : List UInt8) : Block :=
  let bytes := bytes.toArray
  Vector.ofFn fun i : Fin 16 =>
    UInt32.ofNat (Bytes.toNat (List.ofFn fun j : Fin 4 => bytes[4 * i.val + j.val]?.getD 0))

def blockSize : Nat :=
  64

def chunkSize : Nat :=
  1024

/-- The last block of a chunk, with the chaining value of the blocks before it. -/
def chunk (number : Nat) (chaining : Chaining) (chunkStart : Bool) (bytes : List UInt8) : Input :=
  if blockSize < bytes.length then
    let block := bytes.take blockSize
    let input : Input := ⟨chaining, blockOfBytes block, number, blockSize, { chunkStart }⟩
    chunk number input.compress false (bytes.drop blockSize)
  else ⟨chaining, blockOfBytes bytes, number, bytes.length, { chunkStart, chunkEnd := true }⟩
termination_by bytes.length
decreasing_by simp only [List.length_drop, blockSize] at *; omega

def parent (left right : Chaining) : Input :=
  ⟨initial, left ++ right, 0, blockSize, { parent := true }⟩

/-- The number of bytes in the left subtree over more than one chunk: the greatest power of two of
chunks that leaves something for the right one. -/
def leftSize (size : Nat) : Nat :=
  chunkSize <<< ((size - 1) / chunkSize).log2

/-- Both subtrees over more than one chunk get bytes. -/
theorem leftSize_bounds {size : Nat} (large : chunkSize < size) :
    0 < leftSize size ∧ leftSize size < size := by
  have chunks : (size - 1) / chunkSize ≠ 0 := by
    simp only [chunkSize] at *
    omega
  have positive := Nat.two_pow_pos ((size - 1) / chunkSize).log2
  have power := Nat.mul_le_mul_left chunkSize (Nat.log2_self_le chunks)
  have whole := Nat.mul_div_le (size - 1) chunkSize
  simp only [leftSize, chunkSize, Nat.shiftLeft_eq] at *
  omega

/-- The root of the tree over bytes whose first chunk has a number. -/
def tree (number : Nat) (bytes : List UInt8) : Input :=
  if large : chunkSize < bytes.length then
    have := leftSize_bounds large
    let left := bytes.take (leftSize bytes.length)
    let right := bytes.drop (leftSize bytes.length)
    parent (tree number left).compress
      (tree (number + leftSize bytes.length / chunkSize) right).compress
  else chunk number initial true bytes
termination_by bytes.length
decreasing_by
  · simp only [List.length_take]; omega
  · simp only [List.length_drop]; omega

def ofBytes (bytes : List UInt8) : List UInt8 :=
  let root := tree 0 bytes
  let marked := { root with marks := { root.marks with root := true } }
  marked.compress.toList.flatMap fun word => Bytes.ofNat 4 word.toNat

def ofText (text : String) : List UInt8 :=
  ofBytes (Bytes.ofText text)

end DocRules.Digest

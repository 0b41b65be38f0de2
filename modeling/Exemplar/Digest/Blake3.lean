/-!
# BLAKE3

The unkeyed BLAKE3 hash with 32 bytes of output, over lists of bytes.

Input is cut into chunks of 1024 bytes and those into blocks of 64. The chunks
are the leaves of a binary tree whose left subtrees are full; a parent hashes
the chaining values of its two children. The last compression, whatever it is,
carries the root flag.
-/

namespace Exemplar.Blake3

/-- The state of the compression function, or one block of input, as words. -/
abbrev Words := Vector UInt32 16

abbrev Chain := Vector UInt32 8

abbrev Digest := Vector UInt8 32

/-- The chaining value that every chunk and every parent starts from. -/
def initial : Chain :=
  #v[0x6A09E667, 0xBB67AE85, 0x3C6EF372, 0xA54FF53A, 0x510E527F, 0x9B05688C, 0x1F83D9AB, 0x5BE0CD19]

/-- Which word of a block comes where in the next round. -/
def schedule : Vector (Fin 16) 16 :=
  #v[2, 6, 3, 10, 7, 0, 4, 13, 1, 11, 12, 5, 9, 14, 15, 8]

def chunkStart : UInt32 := 1
def chunkEnd : UInt32 := 2
def parent : UInt32 := 4
def root : UInt32 := 8

def rotateRight (word amount : UInt32) : UInt32 :=
  (word >>> amount) ||| (word <<< (32 - amount))

/-- Mix two words of a block into four words of the state. -/
def mix (a b c d : Fin 16) (state : Words) (x y : UInt32) : Words :=
  let state := state.set a (state[a] + state[b] + x)
  let state := state.set d (rotateRight (state[d] ^^^ state[a]) 16)
  let state := state.set c (state[c] + state[d])
  let state := state.set b (rotateRight (state[b] ^^^ state[c]) 12)
  let state := state.set a (state[a] + state[b] + y)
  let state := state.set d (rotateRight (state[d] ^^^ state[a]) 8)
  let state := state.set c (state[c] + state[d])
  state.set b (rotateRight (state[b] ^^^ state[c]) 7)

/-- One round: mix the columns, then the diagonals. -/
def mixAll (state block : Words) : Words :=
  let state := mix 0 4 8 12 state block[0] block[1]
  let state := mix 1 5 9 13 state block[2] block[3]
  let state := mix 2 6 10 14 state block[4] block[5]
  let state := mix 3 7 11 15 state block[6] block[7]
  let state := mix 0 5 10 15 state block[8] block[9]
  let state := mix 1 6 11 12 state block[10] block[11]
  let state := mix 2 7 8 13 state block[12] block[13]
  mix 3 4 9 14 state block[14] block[15]

def rounds : Nat → Words → Words → Words
  | 0, state, _ => state
  | n + 1, state, block =>
    rounds n (mixAll state block) (schedule.map fun i => block[i])

/-- One application of the compression function, before it is applied. -/
structure Node where
  chain : Chain
  block : Words
  counter : UInt64
  length : UInt32
  flags : UInt32

def Node.compress (node : Node) (flags : UInt32) : Chain :=
  let start : Words :=
    node.chain ++ (#v[initial[0], initial[1], initial[2], initial[3],
      node.counter.toUInt32, (node.counter >>> 32).toUInt32, node.length, node.flags ||| flags] :
      Vector UInt32 8)
  let final := rounds 7 start node.block
  Vector.ofFn fun i : Fin 8 => final[i.val] ^^^ final[i.val + 8]

/-- A little-endian word of a list of bytes, zero where the list has ended. -/
def wordAt (bytes : List UInt8) (index : Nat) : UInt32 :=
  let byte (i : Nat) : UInt32 := (bytes.getD (4 * index + i) 0).toUInt32
  byte 0 ||| (byte 1 <<< 8) ||| (byte 2 <<< 16) ||| (byte 3 <<< 24)

/-- The words of a block of at most 64 bytes, filled up with zeros. -/
def blockOf (bytes : List UInt8) : Words :=
  Vector.ofFn fun i : Fin 16 => wordAt bytes i

/-- The last compression of a chunk, from the block that follows a chaining value. -/
def chunkFrom (counter : UInt64) (chain : Chain) (flags : UInt32) (bytes : List UInt8) : Node :=
  if bytes.length ≤ 64 then
    ⟨chain, blockOf bytes, counter, bytes.length.toUInt32, flags ||| chunkEnd⟩
  else
    let block : Node := ⟨chain, blockOf (bytes.take 64), counter, 64, flags⟩
    chunkFrom counter (block.compress 0) 0 (bytes.drop 64)
termination_by bytes.length
decreasing_by simp only [List.length_drop]; omega

def chunk (counter : UInt64) (bytes : List UInt8) : Node :=
  chunkFrom counter initial chunkStart bytes

/-- How many bytes go into the left subtree: the greatest power of two of chunks that leaves
something to the right. -/
def leftLength (length : Nat) : Nat :=
  1024 * Nat.pow 2 ((length - 1) / 1024).log2

theorem leftLength_pos (length : Nat) : 0 < leftLength length :=
  Nat.mul_pos (by decide) (Nat.two_pow_pos _)

theorem leftLength_lt {length : Nat} (h : 1024 < length) : leftLength length < length := by
  have hk : (length - 1) / 1024 ≠ 0 := by omega
  have : Nat.pow 2 ((length - 1) / 1024).log2 ≤ (length - 1) / 1024 := Nat.log2_self_le hk
  unfold leftLength
  omega

/-- The last compression of a subtree whose first chunk has a number. -/
def subtree (counter : Nat) (bytes : List UInt8) : Node :=
  if h : bytes.length ≤ 1024 then chunk counter.toUInt64 bytes
  else
    have := leftLength_pos bytes.length
    have := leftLength_lt (Nat.lt_of_not_le h)
    let size := leftLength bytes.length
    let left := subtree counter (bytes.take size)
    let right := subtree (counter + size / 1024) (bytes.drop size)
    ⟨initial, left.compress 0 ++ right.compress 0, 0, 64, parent⟩
termination_by bytes.length
decreasing_by
  · simp only [List.length_take]; omega
  · simp only [List.length_drop]; omega

/-- The bytes of a chaining value, little end first. -/
def bytesOf (chain : Chain) : Digest :=
  Vector.ofFn fun i : Fin 32 =>
    (chain.get ⟨i.val / 4, by omega⟩ >>> (8 * (i.val % 4)).toUInt32).toUInt8

def hash (bytes : List UInt8) : Digest :=
  bytesOf ((subtree 0 bytes).compress root)

/-- A digest in lower-case hexadecimal. -/
def hex (digest : Digest) : String :=
  String.ofList <| digest.toList.flatMap fun byte =>
    [Nat.digitChar (byte.toNat / 16), Nat.digitChar (byte.toNat % 16)]

end Exemplar.Blake3

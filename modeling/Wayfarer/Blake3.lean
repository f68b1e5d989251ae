/-!
# BLAKE3

The unkeyed 256-bit hash of a byte string. Input is cut into chunks of 1024
bytes, each chunk is compressed block by block (64 bytes), and the chunks are
joined by a binary tree whose left side always holds the largest power of two of
chunks below the total. The root is compressed with its own flag.

* `Blake3.compress` is the keyed permutation on sixteen words.
* `Blake3.Pending` is a compression that waits for its flags: inner nodes read
  their chaining value from it, the root its digest.
* `Blake3.hash` gives the 32 digest bytes.
-/

namespace Wayfarer.Blake3

/-- The eight words every chunk starts from. -/
def startWords : Vector UInt32 8 :=
  #v[0x6A09E667, 0xBB67AE85, 0x3C6EF372, 0xA54FF53A, 0x510E527F, 0x9B05688C, 0x1F83D9AB, 0x5BE0CD19]

/-- Where each message word of the next round comes from. -/
def schedule : Vector (Fin 16) 16 :=
  #v[2, 6, 3, 10, 7, 0, 4, 13, 1, 11, 12, 5, 9, 14, 15, 8]

def chunkStart : UInt32 := 1
def chunkEnd : UInt32 := 2
def parentFlag : UInt32 := 4
def rootFlag : UInt32 := 8

/-- Rotation to the right by `n` bits, `0 < n < 32`. -/
def rotateRight (x n : UInt32) : UInt32 := (x >>> n) ||| (x <<< (32 - n))

/-- The quarter round on the state words `a b c d` with two message words. -/
def quarter (s : Vector UInt32 16) (a b c d : Fin 16) (x y : UInt32) : Vector UInt32 16 :=
  let va := s[a] + s[b] + x
  let vd := rotateRight (s[d] ^^^ va) 16
  let vc := s[c] + vd
  let vb := rotateRight (s[b] ^^^ vc) 12
  let va := va + vb + y
  let vd := rotateRight (vd ^^^ va) 8
  let vc := vc + vd
  let vb := rotateRight (vb ^^^ vc) 7
  (((s.set a va).set b vb).set c vc).set d vd

/-- One round: four columns, then four diagonals. -/
def round (s m : Vector UInt32 16) : Vector UInt32 16 :=
  let s := quarter s 0 4 8 12 m[0] m[1]
  let s := quarter s 1 5 9 13 m[2] m[3]
  let s := quarter s 2 6 10 14 m[4] m[5]
  let s := quarter s 3 7 11 15 m[6] m[7]
  let s := quarter s 0 5 10 15 m[8] m[9]
  let s := quarter s 1 6 11 12 m[10] m[11]
  let s := quarter s 2 7 8 13 m[12] m[13]
  quarter s 3 4 9 14 m[14] m[15]

/-- The message words in the order of the next round. -/
def reorder (m : Vector UInt32 16) : Vector UInt32 16 :=
  schedule.map fun i => m[i]

/-- `n` rounds, reordering the message between them. -/
def rounds : Nat → Vector UInt32 16 → Vector UInt32 16 → Vector UInt32 16
  | 0, s, _ => s
  | n + 1, s, m => rounds n (round s m) (reorder m)

/-- The compression function: seven rounds, then the two halves of the state
folded together. -/
def compress (chain : Vector UInt32 8) (block : Vector UInt32 16) (counter : UInt64)
    (length flags : UInt32) : Vector UInt32 8 :=
  let s : Vector UInt32 16 :=
    #v[chain[0], chain[1], chain[2], chain[3], chain[4], chain[5], chain[6], chain[7],
      startWords[0], startWords[1], startWords[2], startWords[3],
      counter.toUInt32, (counter >>> 32).toUInt32, length, flags]
  let s := rounds 7 s block
  #v[s[0] ^^^ s[8], s[1] ^^^ s[9], s[2] ^^^ s[10], s[3] ^^^ s[11],
    s[4] ^^^ s[12], s[5] ^^^ s[13], s[6] ^^^ s[14], s[7] ^^^ s[15]]

/-- The little-endian word of the first four bytes, missing bytes read as
zero. -/
def word (bytes : List UInt8) : UInt32 :=
  (bytes.getD 0 0).toUInt32 ||| ((bytes.getD 1 0).toUInt32 <<< 8) |||
    ((bytes.getD 2 0).toUInt32 <<< 16) ||| ((bytes.getD 3 0).toUInt32 <<< 24)

/-- A block of at most 64 bytes as sixteen words, padded with zeros. -/
def blockWords (bytes : List UInt8) : Vector UInt32 16 :=
  Vector.ofFn fun i : Fin 16 => word (bytes.drop (4 * i.val))

/-- The four bytes of a word, least significant first. -/
def wordBytes (w : UInt32) : List UInt8 :=
  [w.toUInt8, (w >>> 8).toUInt8, (w >>> 16).toUInt8, (w >>> 24).toUInt8]

/-- A compression of which the last step is still to be done. -/
structure Pending where
  chain : Vector UInt32 8
  block : Vector UInt32 16
  counter : UInt64
  length : UInt32
  flags : UInt32

/-- The chaining value that a parent reads. -/
def Pending.value (p : Pending) : Vector UInt32 8 :=
  compress p.chain p.block p.counter p.length p.flags

/-- The digest when this compression is the root of the tree. -/
def Pending.digest (p : Pending) : List UInt8 :=
  (compress p.chain p.block 0 p.length (p.flags ||| rootFlag)).toList.flatMap wordBytes

/-- The list cut into pieces of `size` elements, at most `fuel` of them. -/
def slices (size : Nat) : Nat → List UInt8 → List (List UInt8)
  | 0, _ => []
  | fuel + 1, bytes =>
    if bytes.isEmpty then []
    else bytes.take size :: slices size fuel (bytes.drop size)

/-- The pieces of a byte string; the empty string is one empty piece. -/
def pieces (size : Nat) (bytes : List UInt8) : List (List UInt8) :=
  if bytes.isEmpty then [[]] else slices size bytes.length bytes

/-- The blocks of one chunk absorbed in order, the last one left pending. -/
def absorb (counter : UInt64) : UInt32 → Vector UInt32 8 → List (List UInt8) → Pending
  | flags, chain, [] => ⟨chain, blockWords [], counter, 0, flags ||| chunkEnd⟩
  | flags, chain, [last] =>
    ⟨chain, blockWords last, counter, last.length.toUInt32, flags ||| chunkEnd⟩
  | flags, chain, block :: rest =>
    absorb counter 0 (compress chain (blockWords block) counter 64 flags) rest

/-- One chunk of at most 1024 bytes. -/
def chunk (counter : UInt64) (bytes : List UInt8) : Pending :=
  absorb counter chunkStart startWords (pieces 64 bytes)

/-- The parent of two subtrees. -/
def parent (left right : Pending) : Pending :=
  let l := left.value
  let r := right.value
  ⟨startWords,
    #v[l[0], l[1], l[2], l[3], l[4], l[5], l[6], l[7],
      r[0], r[1], r[2], r[3], r[4], r[5], r[6], r[7]],
    0, 64, parentFlag⟩

/-- The largest power of two below `n`, for `n` at least two. -/
def leftSize (n : Nat) : Nat := 1 <<< Nat.log2 (n - 1)

/-- The tree over a list of chunks; `fuel` bounds its depth. -/
def join : Nat → List Pending → Pending
  | _, [] => chunk 0 []
  | _, [leaf] => leaf
  | 0, leaf :: _ => leaf
  | fuel + 1, leaves =>
    let size := leftSize leaves.length
    parent (join fuel (leaves.take size)) (join fuel (leaves.drop size))

/-- The 32 digest bytes of a byte string. -/
def hash (bytes : List UInt8) : List UInt8 :=
  let leaves := (pieces 1024 bytes).mapIdx fun i piece => chunk i.toUInt64 piece
  (join leaves.length leaves).digest

end Wayfarer.Blake3

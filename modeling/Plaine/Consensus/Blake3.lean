import Plaine.Consensus.Crypto

/-!
# BLAKE3

`blake3.rs`, the portable form.  The source feeds its hasher piece by piece; the model hashes
one input, cut into chunks of 1024 bytes and those into blocks of 64.
-/

namespace Plaine.Consensus.Blake3

open Plaine.Lib

def blockLen : Nat := 64

def chunkLen : Nat := 1024

def chunkStart : UInt32 := 1

def chunkEnd : UInt32 := 2

def parent : UInt32 := 4

def root : UInt32 := 8

def iv : List UInt32 :=
  [0x6A09E667, 0xBB67AE85, 0x3C6EF372, 0xA54FF53A, 0x510E527F, 0x9B05688C, 0x1F83D9AB, 0x5BE0CD19]

def msgPermutation : List Nat := [2, 6, 3, 10, 7, 0, 4, 13, 1, 11, 12, 5, 9, 14, 15, 8]

/-- `u32::rotate_right`. -/
def rotateRight (x n : UInt32) : UInt32 := (x >>> n) ||| (x <<< (32 - n))

/-- `g`, on the four words it mixes. -/
def g (a b c d mx my : UInt32) : UInt32 × UInt32 × UInt32 × UInt32 :=
  let a := a + b + mx
  let d := rotateRight (d ^^^ a) 16
  let c := c + d
  let b := rotateRight (b ^^^ c) 12
  let a := a + b + my
  let d := rotateRight (d ^^^ a) 8
  let c := c + d
  let b := rotateRight (b ^^^ c) 7
  (a, b, c, d)

/-- `round`: the columns of the state, then its diagonals. -/
def round (state m : List UInt32) : List UInt32 :=
  match state, m with
  | [s0, s1, s2, s3, s4, s5, s6, s7, s8, s9, s10, s11, s12, s13, s14, s15],
    [m0, m1, m2, m3, m4, m5, m6, m7, m8, m9, m10, m11, m12, m13, m14, m15] =>
    let (s0, s4, s8, s12) := g s0 s4 s8 s12 m0 m1
    let (s1, s5, s9, s13) := g s1 s5 s9 s13 m2 m3
    let (s2, s6, s10, s14) := g s2 s6 s10 s14 m4 m5
    let (s3, s7, s11, s15) := g s3 s7 s11 s15 m6 m7
    let (s0, s5, s10, s15) := g s0 s5 s10 s15 m8 m9
    let (s1, s6, s11, s12) := g s1 s6 s11 s12 m10 m11
    let (s2, s7, s8, s13) := g s2 s7 s8 s13 m12 m13
    let (s3, s4, s9, s14) := g s3 s4 s9 s14 m14 m15
    [s0, s1, s2, s3, s4, s5, s6, s7, s8, s9, s10, s11, s12, s13, s14, s15]
  | _, _ => state

/-- `permute`. -/
def permute (m : List UInt32) : List UInt32 := msgPermutation.map (m.getD · 0)

/-- The rounds of `compress`, each but the first on a permuted block. -/
def rounds : Nat → List UInt32 → List UInt32 → List UInt32
  | 0, state, _ => state
  | n + 1, state, m => rounds n (round state m) (permute m)

/-- `compress`. -/
def compress (chainingValue blockWords : List UInt32) (counter : Nat) (len flags : UInt32) :
    List UInt32 :=
  let state := rounds 7 (chainingValue ++ iv.take 4 ++
    [UInt32.ofNat counter, UInt32.ofNat (counter / 2 ^ 32), len, flags]) blockWords
  let (lo, hi) := (state.take 8, state.drop 8)
  lo.zipWith (· ^^^ ·) hi ++ hi.zipWith (· ^^^ ·) chainingValue

/-- `words_from_le_bytes`, for a block padded with zeros. -/
def wordsFromLeBytes (block : Bytes) : List UInt32 :=
  (List.range 16).map fun i ↦ UInt32.ofNat (leAt 4 (4 * i) (block ++ List.replicate blockLen 0))

/-- `Output`. -/
structure Output where
  inputChainingValue : List UInt32
  blockWords : List UInt32
  counter : Nat
  blockLen : UInt32
  flags : UInt32

/-- `Output::chaining_value`. -/
def Output.chainingValue (o : Output) : List UInt32 :=
  (compress o.inputChainingValue o.blockWords o.counter o.blockLen o.flags).take 8

/-- `Output::root_hash`. -/
def Output.rootHash (o : Output) : Bytes :=
  ((compress o.inputChainingValue o.blockWords 0 o.blockLen (o.flags ||| root)).take 8).flatMap
    fun w ↦ leBytes 4 w.toNat

/-- Cut a list into pieces of `n`, the last of them the shorter; of nothing there is one
piece, the empty one. -/
def pieces (n : Nat) : Nat → Bytes → List Bytes
  | 0, l => [l]
  | fuel + 1, l => if l.length ≤ n then [l] else l.take n :: pieces n fuel (l.drop n)

/-- The block loop of `ChunkState`: the flag `start` is up at the first block, and the last
block is kept for the output. -/
def chunkOutput (counter : Nat) : UInt32 → List UInt32 → List Bytes → Output
  | start, cv, [] => ⟨cv, wordsFromLeBytes [], counter, 0, start ||| chunkEnd⟩
  | start, cv, [block] =>
    ⟨cv, wordsFromLeBytes block, counter, UInt32.ofNat block.length, start ||| chunkEnd⟩
  | start, cv, block :: blocks =>
    chunkOutput counter 0
      ((compress cv (wordsFromLeBytes block) counter (UInt32.ofNat blockLen) start).take 8) blocks

/-- `ChunkState::output` of a whole chunk. -/
def chunk (counter : Nat) (bytes : Bytes) : Output :=
  chunkOutput counter chunkStart iv (pieces blockLen bytes.length bytes)

/-- `parent_output`. -/
def parentOutput (left right : List UInt32) : Output :=
  ⟨iv, left ++ right, 0, UInt32.ofNat blockLen, parent⟩

/-- `Hasher::add_chunk_chaining_value`: merge while the chunk count is even. -/
def addChunk : Nat → List (List UInt32) → List UInt32 → Nat → List (List UInt32)
  | fuel + 1, left :: stack, cv, total =>
    if total % 2 = 0 then addChunk fuel stack (parentOutput left cv).chainingValue (total / 2)
    else cv :: left :: stack
  | _, stack, cv, _ => cv :: stack

/-- The chunk loop of `Hasher::update` and `Hasher::finalize`: `stack` has the chaining values
of the completed subtrees, the deepest last. -/
def hashChunks : Nat → List (List UInt32) → List Bytes → Bytes
  | counter, stack, [] => (stack.foldl (fun o cv ↦ parentOutput cv o.chainingValue)
      (chunk counter [])).rootHash
  | counter, stack, [bytes] => (stack.foldl (fun o cv ↦ parentOutput cv o.chainingValue)
      (chunk counter bytes)).rootHash
  | counter, stack, bytes :: rest =>
    hashChunks (counter + 1)
      (addChunk stack.length stack (chunk counter bytes).chainingValue (counter + 1)) rest

/-- `blake3::hash`. -/
def hash (input : Bytes) : Bytes := hashChunks 0 [] (pieces chunkLen input.length input)

end Plaine.Consensus.Blake3

namespace Plaine.Consensus

open Plaine.Lib

/-- The primitives with BLAKE3 as the source computes it, and a signature check that knows the
given key, message and signature triples to verify and no others. -/
@[reducible]
def Crypto.ofSignatures (signatures : List (Arr 32 × Bytes × Arr 64)) : Crypto where
  blake3 input := Arr.ofSlice 32 0 (Blake3.hash input)
  validKey key := signatures.any fun s ↦ s.1 = key
  verifyStrict key msg sig := (key, msg, sig) ∈ signatures

end Plaine.Consensus

import Plaine.Consensus.Blake3
import Plaine.Lib.Forest

/-!
# The streaming hasher

`ChunkState` and `Hasher` of `blake3.rs`.  A block is compressed, and a chunk completed, only once
there is a byte that no longer fits, so that the last block and the last chunk are still there when the
hash is finished.  Wherever the input is cut, the hash is that of the tree over its chunks.

What would stop the source is a failure here: a chaining value taken off an empty stack, one put on a
full stack, or a chunk state with more than a chunk in it.
-/

namespace Plaine.Consensus.Blake3

open Plaine.Lib

def maxDepth : Nat := 54

/-! ## Chunks -/

/-- `ChunkState`, the block as far as it is filled; the rest of it is zeros. -/
structure ChunkState where
  chainingValue : List UInt32
  chunkCounter : Nat
  block : Bytes
  blocksCompressed : Nat
  block_le : block.length ≤ blockLen

namespace ChunkState

/-- `ChunkState::new`. -/
def new (chunkCounter : Nat) : ChunkState := ⟨iv, chunkCounter, [], 0, Nat.zero_le _⟩

/-- `ChunkState::len`. -/
def len (s : ChunkState) : Nat := blockLen * s.blocksCompressed + s.block.length

/-- `ChunkState::start_flag`. -/
def startFlag (s : ChunkState) : UInt32 := if s.blocksCompressed = 0 then chunkStart else 0

/-- A block that is full, in `ChunkState::update`. -/
def compressFull (s : ChunkState) : ChunkState :=
  if s.block.length = blockLen then
    { s with
      chainingValue := (compress s.chainingValue (wordsFromLeBytes s.block) s.chunkCounter
        (UInt32.ofNat blockLen) s.startFlag).take 8
      blocksCompressed := s.blocksCompressed + 1
      block := []
      block_le := Nat.zero_le _ }
  else s

theorem length_compressFull_lt (s : ChunkState) : s.compressFull.block.length < blockLen := by
  unfold compressFull
  split
  case isTrue => exact Nat.succ_pos 63
  case isFalse hne => exact lt_of_le_of_ne s.block_le hne

/-- What fits into the block. -/
def fill (s : ChunkState) (input : Bytes) : ChunkState :=
  { s with
    block := s.block ++ input.take (min (blockLen - s.block.length) input.length)
    block_le := by
      have hle := s.block_le
      rw [List.length_append, List.length_take]
      omega }

/-- `ChunkState::update`. -/
def update (s : ChunkState) (input : Bytes) : ChunkState :=
  if input = [] then s
  else
    let t := s.compressFull
    update (t.fill input) (input.drop (min (blockLen - t.block.length) input.length))
termination_by input.length
decreasing_by
  have hlt := s.length_compressFull_lt
  have hpos := List.length_pos_iff.mpr ‹_›
  rw [List.length_drop]
  omega

/-- `ChunkState::output`. -/
def output (s : ChunkState) : Output :=
  ⟨s.chainingValue, wordsFromLeBytes s.block, s.chunkCounter, UInt32.ofNat s.block.length,
    s.startFlag ||| chunkEnd⟩

end ChunkState

/-! ## The hasher -/

/-- `Hasher`, the stack with its top first. -/
structure Hasher where
  chunkState : ChunkState
  cvStack : List (List UInt32)

namespace Hasher

/-- `Hasher::new`. -/
def new : Hasher := ⟨.new 0, []⟩

/-- `Hasher::add_chunk_chaining_value`, with `push_stack` and `pop_stack`. -/
def addChunkChainingValue (stack : List (List UInt32)) (newCv : List UInt32) (totalChunks : Nat) :
    Option (List (List UInt32)) :=
  Forest.add parentOutput Output.chainingValue maxDepth stack newCv totalChunks

/-- A chunk that is full, in `Hasher::update`. -/
def completeFull (h : Hasher) : Option Hasher :=
  if h.chunkState.len = chunkLen then
    let total := h.chunkState.chunkCounter + 1
    (addChunkChainingValue h.cvStack h.chunkState.output.chainingValue total).map fun stack ↦
      ⟨.new total, stack⟩
  else some h

/-- `Hasher::update`. -/
def update (h : Hasher) (input : Bytes) : Option Hasher :=
  if input = [] then some h
  else
    match h.completeFull with
    | none => none
    | some h =>
      if h.chunkState.len < chunkLen then
        let take := min (chunkLen - h.chunkState.len) input.length
        update { h with chunkState := h.chunkState.update (input.take take) } (input.drop take)
      else none
termination_by input.length
decreasing_by
  have hpos := List.length_pos_iff.mpr ‹_›
  rw [List.length_drop]
  omega

/-- `Hasher::finalize`. -/
def finalize (h : Hasher) : Bytes :=
  (Forest.close parentOutput Output.chainingValue h.cvStack h.chunkState.output).rootHash

end Hasher

/-! ## The tree -/

/-- A chunk of an input. -/
def chunkOf (input : Bytes) (i : Nat) : Output := chunk i ((input.drop (chunkLen * i)).take chunkLen)

/-- The number of chunks of an input; the empty one has one. -/
def chunkCount (input : Bytes) : Nat := max 1 ((input.length + chunkLen - 1) / chunkLen)

/-- BLAKE3 by its definition: the tree over the chunks of an input. -/
def treeHash (input : Bytes) : Bytes :=
  (Forest.tree parentOutput Output.chainingValue (chunkOf input) 0 (chunkCount input)).rootHash

/-! ## Blocks and pieces -/

/-- The chaining value after whole blocks. -/
def chain (counter : Nat) : UInt32 → List UInt32 → List Bytes → List UInt32
  | _, cv, [] => cv
  | start, cv, block :: blocks => chain counter 0
    ((compress cv (wordsFromLeBytes block) counter (UInt32.ofNat blockLen) start).take 8) blocks

variable {counter n fuel : Nat} {start : UInt32} {cv : List UInt32} {blocks : List Bytes}
  {block last bytes input : Bytes} {s : ChunkState} {h : Hasher}

/-- Pieces of one length, and what is left. -/
structure Pieces (n : Nat) (blocks : List Bytes) (last : Bytes) : Prop where
  full : ∀ b ∈ blocks, b.length = n
  last_le : last.length ≤ n
  last_ne : last = [] → blocks = []

theorem Pieces.length_flatten (h : Pieces n blocks last) : blocks.flatten.length = n * blocks.length := by
  have hall := h.full
  clear h
  induction blocks with
  | nil => rfl
  | cons b blocks ih =>
    rw [List.flatten_cons, List.length_append, List.length_cons, hall b List.mem_cons_self,
      ih fun c hc ↦ hall c (List.mem_cons_of_mem _ hc), Nat.mul_succ, Nat.add_comm]

theorem Pieces.length_le (h : Pieces n blocks last) (hn : 0 < n) :
    blocks.length ≤ (blocks.flatten ++ last).length := by
  rw [List.length_append, h.length_flatten]
  exact (Nat.le_mul_of_pos_left _ hn).trans (Nat.le_add_right _ _)

/-- What an input is cut into. -/
theorem Pieces.pieces_eq (h : Pieces n blocks last) (hfuel : blocks.length ≤ fuel) :
    pieces n fuel (blocks.flatten ++ last) = blocks ++ [last] := by
  induction blocks generalizing fuel with
  | nil =>
    cases fuel with
    | zero => rfl
    | succ fuel => rw [List.flatten_nil, List.nil_append, pieces, if_pos h.last_le, List.nil_append]
  | cons b blocks ih =>
    have hb := h.full b List.mem_cons_self
    have hlast : last ≠ [] := fun hnil ↦ by cases h.last_ne hnil
    have hrest : Pieces n blocks last :=
      ⟨fun c hc ↦ h.full c (List.mem_cons_of_mem _ hc), h.last_le, fun hnil ↦ absurd hnil hlast⟩
    cases fuel with
    | zero => cases hfuel
    | succ fuel =>
      have hpos := List.length_pos_iff.mpr hlast
      rw [List.flatten_cons, List.append_assoc, pieces, if_neg, List.take_left' hb, List.drop_left' hb,
        ih hrest (Nat.le_of_succ_le_succ hfuel), List.cons_append]
      rw [List.length_append, List.length_append]
      omega

/-- The output of a chunk of so many blocks. -/
theorem chunkOutput_eq : chunkOutput counter start cv (blocks ++ [last]) =
    ⟨chain counter start cv blocks, wordsFromLeBytes last, counter, UInt32.ofNat last.length,
      (if blocks = [] then start else 0) ||| chunkEnd⟩ := by
  induction blocks generalizing start cv with
  | nil => rfl
  | cons b blocks ih =>
    obtain ⟨c, cs, hcs⟩ : ∃ c cs, blocks ++ [last] = c :: cs :=
      List.exists_cons_of_ne_nil (List.append_ne_nil_of_right_ne_nil _ (List.cons_ne_nil _ _))
    have hstep : chunkOutput counter start cv (b :: (c :: cs)) = chunkOutput counter 0
      ((compress cv (wordsFromLeBytes b) counter (UInt32.ofNat blockLen) start).take 8) (c :: cs) := rfl
    rw [List.cons_append, hcs, hstep, ← hcs, ih, if_neg (List.cons_ne_nil b blocks), ite_self]
    rfl

theorem chain_concat : chain counter start cv (blocks ++ [block]) =
    (compress (chain counter start cv blocks) (wordsFromLeBytes block) counter
      (UInt32.ofNat blockLen) (if blocks = [] then start else 0)).take 8 := by
  induction blocks generalizing start cv with
  | nil => rfl
  | cons b blocks ih =>
    rw [List.cons_append, chain, ih, if_neg (List.cons_ne_nil b blocks), ite_self]
    rfl

/-! ## A chunk byte by byte -/

/-- A chunk state that has taken in so many bytes of its chunk. -/
structure ChunkState.Took (s : ChunkState) (counter : Nat) (bytes : Bytes) (blocks : List Bytes) :
    Prop where
  pieces : Pieces blockLen blocks s.block
  bytes_eq : bytes = blocks.flatten ++ s.block
  counter_eq : s.chunkCounter = counter
  compressed : s.blocksCompressed = blocks.length
  value : s.chainingValue = chain counter chunkStart iv blocks

namespace ChunkState.Took

theorem new (counter : Nat) : (ChunkState.new counter).Took counter [] [] where
  pieces := ⟨fun _ hb ↦ absurd hb List.not_mem_nil, Nat.zero_le _, fun _ ↦ rfl⟩
  bytes_eq := rfl
  counter_eq := rfl
  compressed := rfl
  value := rfl

theorem startFlag (h : s.Took counter bytes blocks) :
    s.startFlag = if blocks = [] then chunkStart else 0 := by
  rw [ChunkState.startFlag, h.compressed]
  exact if_congr List.length_eq_zero_iff rfl rfl

theorem len (h : s.Took counter bytes blocks) : s.len = bytes.length := by
  rw [ChunkState.len, h.compressed, h.bytes_eq, List.length_append, h.pieces.length_flatten]

/-- What a chunk state puts out is that of the chunk. -/
theorem output (h : s.Took counter bytes blocks) : s.output = chunk counter bytes := by
  have hpieces : Blake3.pieces blockLen bytes.length bytes = blocks ++ [s.block] := by
    rw [h.bytes_eq]
    exact h.pieces.pieces_eq (h.pieces.length_le (Nat.succ_pos 63))
  rw [chunk, hpieces, chunkOutput_eq, ChunkState.output, h.value, h.counter_eq, h.startFlag]

/-- One turn of the loop: a full block is compressed before the next byte. -/
theorem fill (h : s.Took counter bytes blocks) (hne : input ≠ []) :
    ∃ blocks', (s.compressFull.fill input).Took counter
      (bytes ++ input.take (min (blockLen - s.compressFull.block.length) input.length)) blocks' := by
  have hlt := s.length_compressFull_lt
  have hpos := List.length_pos_iff.mpr hne
  have hle := (s.compressFull.fill input).block_le
  have hnew : (s.compressFull.fill input).block ≠ [] := by
    refine List.append_ne_nil_of_right_ne_nil _ (List.length_pos_iff.mp ?_)
    rw [List.length_take]
    omega
  have hfilled : (s.compressFull.fill input).block = s.compressFull.block ++
      input.take (min (blockLen - s.compressFull.block.length) input.length) := rfl
  by_cases hfull : s.block.length = blockLen
  · have hcompressed : s.compressFull.block = [] ∧ s.compressFull.blocksCompressed = s.blocksCompressed + 1 ∧
        s.compressFull.chunkCounter = s.chunkCounter ∧ s.compressFull.chainingValue =
          (compress s.chainingValue (wordsFromLeBytes s.block) s.chunkCounter (UInt32.ofNat blockLen)
            s.startFlag).take 8 := by
      rw [compressFull, if_pos hfull]
      exact ⟨rfl, rfl, rfl, rfl⟩
    obtain ⟨hblock, hcount, hcounter, hvalue⟩ := hcompressed
    refine ⟨blocks ++ [s.block], ⟨fun b hb ↦ ?_, hle, fun hnil ↦ absurd hnil hnew⟩, ?_, ?_, ?_, ?_⟩
    · rcases List.mem_append.mp hb with hb | hb
      · exact h.pieces.full b hb
      · exact List.mem_singleton.mp hb ▸ hfull
    · rw [hfilled, hblock, h.bytes_eq, List.flatten_append, List.flatten_singleton, List.nil_append]
    · exact hcounter.trans h.counter_eq
    · rw [List.length_append, List.length_singleton, ← h.compressed]
      exact hcount
    · rw [chain_concat, ← h.value, ← h.startFlag, ← h.counter_eq]
      exact hvalue
  · have hsame : s.compressFull = s := if_neg hfull
    rw [hsame] at hle hnew hfilled ⊢
    refine ⟨blocks, ⟨h.pieces.full, hle, fun hnil ↦ absurd hnil hnew⟩, ?_, h.counter_eq, h.compressed,
      h.value⟩
    rw [hfilled, ← List.append_assoc, ← h.bytes_eq]

theorem update (h : s.Took counter bytes blocks) (input : Bytes) :
    ∃ blocks', (s.update input).Took counter (bytes ++ input) blocks' := by
  induction s, input using ChunkState.update.induct generalizing bytes blocks with
  | case1 s =>
    rw [ChunkState.update, if_pos rfl, List.append_nil]
    exact ⟨blocks, h⟩
  | case2 s input hne t =>
    rename_i ih
    obtain ⟨blocks₁, h₁⟩ := h.fill hne
    obtain ⟨blocks₂, h₂⟩ := ih h₁
    rw [List.append_assoc, List.take_append_drop] at h₂
    rw [ChunkState.update, if_neg hne]
    exact ⟨blocks₂, h₂⟩

end ChunkState.Took

/-! ## An input piece by piece -/

/-- A chunk that is complete does not change with what comes later. -/
theorem chunkOf_append {i : Nat} (hi : chunkLen * (i + 1) ≤ bytes.length) (input : Bytes) :
    chunkOf (bytes ++ input) i = chunkOf bytes i := by
  rw [Nat.mul_succ] at hi
  rw [chunkOf, chunkOf, List.drop_append_of_le_length (by omega),
    List.take_append_of_le_length (by rw [List.length_drop]; omega)]

/-- A hasher that has taken in so many bytes: the chunks before the one at hand are on the stack. -/
structure Hasher.Took (h : Hasher) (bytes : Bytes) : Prop where
  start_le : chunkLen * h.chunkState.chunkCounter ≤ bytes.length
  le_stop : bytes.length ≤ chunkLen * (h.chunkState.chunkCounter + 1)
  chunk : ∃ blocks, h.chunkState.Took h.chunkState.chunkCounter
    (bytes.drop (chunkLen * h.chunkState.chunkCounter)) blocks
  stack : Forest.Peaks parentOutput Output.chainingValue (chunkOf bytes) 0 h.chunkState.chunkCounter
    h.cvStack

/-- There is a byte in the chunk at hand, unless it is the first. -/
def Hasher.Begun (h : Hasher) (bytes : Bytes) : Prop :=
  h.chunkState.chunkCounter ≠ 0 → chunkLen * h.chunkState.chunkCounter < bytes.length

namespace Hasher.Took

theorem new : Hasher.new.Took [] := ⟨le_rfl, Nat.zero_le _, ⟨[], .new 0⟩, .nil⟩

theorem len (h' : h.Took bytes) :
    h.chunkState.len = bytes.length - chunkLen * h.chunkState.chunkCounter := by
  obtain ⟨blocks, hchunk⟩ := h'.chunk
  rw [hchunk.len, List.length_drop]

/-- The chunk at hand. -/
theorem output (h' : h.Took bytes) : h.chunkState.output = chunkOf bytes h.chunkState.chunkCounter := by
  obtain ⟨blocks, hchunk⟩ := h'.chunk
  have hle := h'.le_stop
  rw [Nat.mul_succ] at hle
  rw [hchunk.output, chunkOf, List.take_of_length_le (by rw [List.length_drop]; omega)]

/-- A chunk that is full goes on the stack, which neither runs empty nor over. -/
theorem completeFull (h' : h.Took bytes) (hlen : bytes.length < 2 ^ 64) :
    ∃ t, h.completeFull = some t ∧ t.Took bytes ∧ t.chunkState.len < chunkLen := by
  have hchunk : chunkLen = 2 ^ 10 := rfl
  have hstart := h'.start_le
  have hstop := h'.le_stop
  by_cases hfull : h.chunkState.len = chunkLen
  · have hbytes : bytes.length = chunkLen * (h.chunkState.chunkCounter + 1) := by
      have := h'.len
      rw [Nat.mul_succ]
      omega
    have hcap : h.chunkState.chunkCounter + 2 ^ 0 < 2 ^ maxDepth := by
      rw [hbytes, hchunk] at hlen
      have hpow : 2 ^ 64 = 2 ^ 10 * 2 ^ maxDepth := rfl
      rw [hpow] at hlen
      exact Nat.lt_of_mul_lt_mul_left hlen
    obtain ⟨stack, hadd, hpeaks⟩ := h'.stack.exists_add hcap
    rw [Nat.pow_zero, Nat.div_one, Forest.tree_of_le le_rfl, ← h'.output] at hadd
    refine ⟨⟨.new (h.chunkState.chunkCounter + 1), stack⟩, ?_, ⟨hbytes.ge, ?_, ⟨[], ?_⟩, hpeaks⟩, ?_⟩
    · rw [Hasher.completeFull, if_pos hfull]
      dsimp only
      rw [addChunkChainingValue, hadd, Option.map_some]
    · rw [hbytes]
      exact Nat.mul_le_mul_left _ (Nat.le_succ _)
    · have hnil : bytes.drop (chunkLen * (h.chunkState.chunkCounter + 1)) = [] :=
        List.drop_of_length_le hbytes.le
      show ChunkState.Took _ _ (bytes.drop (chunkLen * (h.chunkState.chunkCounter + 1))) _
      rw [hnil]
      exact .new _
    · exact Nat.succ_pos 1023
  · refine ⟨h, if_neg hfull, h', ?_⟩
    have := h'.len
    rw [Nat.mul_succ] at hstop
    omega

/-- Bytes that fit into the chunk at hand. -/
theorem fill (h' : h.Took bytes) (input : Bytes) (hpos : 0 < input.length)
    (hfit : h.chunkState.len + input.length ≤ chunkLen) :
    ({ h with chunkState := h.chunkState.update input } : Hasher).Took (bytes ++ input) ∧
      ({ h with chunkState := h.chunkState.update input } : Hasher).Begun (bytes ++ input) := by
  obtain ⟨blocks, hchunk⟩ := h'.chunk
  obtain ⟨blocks', hchunk'⟩ := hchunk.update input
  have hcounter := hchunk'.counter_eq
  have hstart := h'.start_le
  have hlen := h'.len
  refine ⟨⟨?_, ?_, ⟨blocks', ?_⟩, ?_⟩, fun _ ↦ ?_⟩
  · rw [hcounter, List.length_append]
    omega
  · rw [hcounter, List.length_append, Nat.mul_succ]
    omega
  · rw [hcounter, List.drop_append_of_le_length hstart]
    exact hchunk'
  · rw [hcounter]
    refine h'.stack.congr fun i hi ↦ (chunkOf_append ?_ input).symm
    exact (Nat.mul_le_mul_left _ hi).trans hstart
  · rw [hcounter, List.length_append]
    omega

end Hasher.Took

/-- However much comes, it is taken in. -/
theorem Hasher.exists_update (h' : h.Took bytes) (hbegun : h.Begun bytes) (input : Bytes)
    (hlen : (bytes ++ input).length < 2 ^ 64) :
    ∃ t, h.update input = some t ∧ t.Took (bytes ++ input) ∧ t.Begun (bytes ++ input) := by
  induction h, input using Hasher.update.induct generalizing bytes with
  | case1 h =>
    rw [Hasher.update, if_pos rfl, List.append_nil]
    exact ⟨h, rfl, h', hbegun⟩
  | case2 h input hne hnone =>
    obtain ⟨t, ht, -⟩ := h'.completeFull ((List.length_append ▸ Nat.le_add_right _ _).trans_lt hlen)
    cases hnone.symm.trans ht
  | case4 h input hne t ht hfull =>
    obtain ⟨t', ht', -, hlt⟩ := h'.completeFull ((List.length_append ▸ Nat.le_add_right _ _).trans_lt hlen)
    obtain rfl := Option.some.inj (ht.symm.trans ht')
    exact absurd hlt hfull
  | case3 h input hne t ht hroom take =>
    rename_i ih
    obtain ⟨t', ht', htook, -⟩ :=
      h'.completeFull ((List.length_append ▸ Nat.le_add_right _ _).trans_lt hlen)
    obtain rfl := Option.some.inj (ht.symm.trans ht')
    have hpos := List.length_pos_iff.mpr hne
    have htake : (input.take take).length = take := by
      rw [List.length_take]
      exact Nat.min_eq_left (Nat.min_le_right _ _)
    obtain ⟨hfilled, hgrown⟩ := htook.fill (input.take take) (by rw [htake]; omega)
      (by rw [htake]; omega)
    have hwhole : bytes ++ input = bytes ++ input.take take ++ input.drop take := by
      rw [List.append_assoc, List.take_append_drop]
    obtain ⟨t'', ht'', htook'', hbegun''⟩ := ih hfilled hgrown (hwhole ▸ hlen)
    refine ⟨t'', ?_, hwhole ▸ htook'', hwhole ▸ hbegun''⟩
    rw [Hasher.update, if_neg hne, ht]
    dsimp only
    rw [if_pos hroom]
    exact ht''

/-- The hash of what was taken in is that of the tree. -/
theorem Hasher.Took.finalize (h' : h.Took bytes) (hbegun : h.Begun bytes) :
    h.finalize = treeHash bytes := by
  have hstop := h'.le_stop
  have hchunk : chunkLen = 1024 := rfl
  have hcount : chunkCount bytes = h.chunkState.chunkCounter + 1 := by
    unfold Hasher.Begun at hbegun
    unfold chunkCount
    rw [hchunk] at hbegun hstop ⊢
    rcases Nat.eq_zero_or_pos h.chunkState.chunkCounter with hzero | hpos
    · omega
    · have := hbegun hpos.ne'
      omega
  have hclose := h'.stack.close_eq Nat.one_pos le_rfl
  rw [Forest.tree_of_le le_rfl, ← h'.output] at hclose
  rw [Hasher.finalize, hclose, treeHash, hcount]

/-- Any number of pieces is taken in. -/
theorem Hasher.exists_foldlM (h' : h.Took bytes) (hbegun : h.Begun bytes) (parts : List Bytes)
    (hlen : (bytes ++ parts.flatten).length < 2 ^ 64) :
    ∃ t, parts.foldlM Hasher.update h = some t ∧ t.Took (bytes ++ parts.flatten) ∧
      t.Begun (bytes ++ parts.flatten) := by
  induction parts generalizing h bytes with
  | nil => exact ⟨h, rfl, (List.append_nil bytes).symm ▸ h', (List.append_nil bytes).symm ▸ hbegun⟩
  | cons part parts ih =>
    rw [List.flatten_cons, ← List.append_assoc] at hlen ⊢
    obtain ⟨t, ht, htook, htbegun⟩ := Hasher.exists_update h' hbegun part
      ((List.length_append ▸ Nat.le_add_right _ _).trans_lt hlen)
    obtain ⟨t', ht', hspec⟩ := ih htook htbegun hlen
    refine ⟨t', ?_, hspec⟩
    rw [List.foldlM_cons, ht]
    exact ht'

/-- However an input of less than `2 ^ 64` bytes is cut into calls of `update`, none of them fails: the
stack is never popped empty and never overflows.  After them the hash is that of the tree over the
whole, the chunks but the one at hand are complete, the stack has an entry for each one bit of their
number, and all counters fit their types. -/
theorem hasher_spec (parts : List Bytes) (hlen : parts.flatten.length < 2 ^ 64) :
    ∃ h, parts.foldlM Hasher.update .new = some h ∧ h.finalize = treeHash parts.flatten ∧
      h.chunkState.chunkCounter = (parts.flatten.length - 1) / chunkLen ∧
      h.cvStack.length = Forest.ones h.chunkState.chunkCounter ∧ h.cvStack.length ≤ maxDepth ∧
      h.chunkState.chunkCounter < 2 ^ 64 ∧ h.chunkState.blocksCompressed < 2 ^ 8 := by
  obtain ⟨h, hrun, htook, hbegun⟩ := Hasher.exists_foldlM .new (fun hne ↦ absurd rfl hne) parts hlen
  rw [List.nil_append] at htook hbegun
  have hstart := htook.start_le
  have hstop := htook.le_stop
  have hchunk : chunkLen = 1024 := rfl
  have hcounter : h.chunkState.chunkCounter < 2 ^ maxDepth := by
    have hpow : 2 ^ 64 = 2 ^ 10 * 2 ^ maxDepth := rfl
    rw [hpow] at hlen
    exact Nat.lt_of_mul_lt_mul_left (hstart.trans_lt hlen)
  refine ⟨h, hrun, htook.finalize hbegun, ?_, htook.stack.length_eq, htook.stack.length_le hcounter,
    hcounter.trans (Nat.pow_lt_pow_right (by decide) (by decide)), ?_⟩
  · unfold Hasher.Begun at hbegun
    rw [hchunk] at hstart hstop hbegun ⊢
    rcases Nat.eq_zero_or_pos h.chunkState.chunkCounter with hzero | hpos
    · omega
    · have := hbegun hpos.ne'
      omega
  · have hsize := htook.len
    rw [ChunkState.len, hchunk] at hsize
    rw [hchunk] at hstop
    have hblock : blockLen = 64 := rfl
    rw [hblock] at hsize
    omega

/-- Three bytes in two calls. -/
theorem hasher_spec_two : ∃ h, [[1], [2, 3]].foldlM Hasher.update .new = some h ∧
    h.finalize = treeHash [1, 2, 3] := by
  obtain ⟨h, hrun, hhash, -⟩ := hasher_spec [[1], [2, 3]] (by decide)
  exact ⟨h, hrun, hhash⟩

/-! ## At once -/

/-- Merging a chunk as long as the stack has room. -/
theorem addChunk_eq {cap total : Nat} {stack stack' : List (List UInt32)}
    (h : Forest.add parentOutput Output.chainingValue cap stack cv total = some stack') :
    addChunk stack.length stack cv total = stack' := by
  induction stack generalizing cv total with
  | nil =>
    rw [Forest.add] at h
    split_ifs at h
    exact Option.some.inj h
  | cons left stack ih =>
    rw [Forest.add] at h
    rw [List.length_cons, addChunk]
    split_ifs at h ⊢
    · exact ih h
    · exact Option.some.inj h

/-- The chunks of one input, from some chunk on. -/
theorem hashChunks_eq {stack : List (List UInt32)}
    (hpeaks : Forest.Peaks parentOutput Output.chainingValue (chunkOf input) 0 counter stack)
    (hchunks : ∀ i b, (blocks ++ [last])[i]? = some b → chunkOf input (counter + i) = chunk (counter + i) b) :
    hashChunks counter stack (blocks ++ [last]) = (Forest.tree parentOutput Output.chainingValue
      (chunkOf input) 0 (counter + blocks.length + 1)).rootHash := by
  induction blocks generalizing counter stack with
  | nil =>
    have hclose := hpeaks.close_eq Nat.one_pos le_rfl
    have hlast := hchunks 0 last rfl
    rw [Nat.add_zero] at hlast
    rw [Forest.tree_of_le le_rfl, hlast] at hclose
    exact congrArg Output.rootHash hclose
  | cons b blocks ih =>
    obtain ⟨c, cs, hcs⟩ : ∃ c cs, blocks ++ [last] = c :: cs :=
      List.exists_cons_of_ne_nil (List.append_ne_nil_of_right_ne_nil _ (List.cons_ne_nil _ _))
    obtain ⟨stack', hadd, hpeaks'⟩ := hpeaks.exists_add (Nat.lt_two_pow_self : counter + 1 < 2 ^ (counter + 1))
    have hfirst := hchunks 0 b rfl
    rw [Nat.add_zero] at hfirst
    rw [Nat.pow_zero, Nat.div_one, Forest.tree_of_le le_rfl, hfirst] at hadd
    rw [Nat.pow_zero] at hpeaks'
    have hstep : hashChunks counter stack (b :: (c :: cs)) = hashChunks (counter + 1)
      (addChunk stack.length stack (chunk counter b).chainingValue (counter + 1)) (c :: cs) := rfl
    rw [List.cons_append, hcs, hstep, addChunk_eq hadd, ← hcs, ih hpeaks' fun i b' hb' ↦ ?_,
      List.length_cons, Nat.add_assoc counter 1, Nat.add_comm 1]
    rw [Nat.add_assoc, Nat.add_comm 1]
    exact hchunks (i + 1) b' hb'

/-- Every input is cut into pieces. -/
theorem Pieces.exists_eq (hn : 0 < n) (input : Bytes) :
    ∃ blocks last, Pieces n blocks last ∧ input = blocks.flatten ++ last := by
  induction hk : input.length using Nat.strong_induction_on generalizing input with
  | _ k ih =>
    by_cases hle : input.length ≤ n
    · exact ⟨[], input, ⟨fun _ hb ↦ absurd hb List.not_mem_nil, hle, fun _ ↦ rfl⟩, rfl⟩
    · have hlen : (input.drop n).length < k := by rw [List.length_drop]; omega
      obtain ⟨blocks, last, hpieces, heq⟩ := ih _ hlen (input.drop n) rfl
      refine ⟨input.take n :: blocks, last, ⟨fun b hb ↦ ?_, hpieces.last_le, fun hnil ↦ ?_⟩, ?_⟩
      · rcases List.mem_cons.mp hb with rfl | hb
        · rw [List.length_take]
          omega
        · exact hpieces.full b hb
      · rw [hpieces.last_ne hnil, hnil] at heq
        have := congrArg List.length heq
        rw [List.length_drop, List.flatten_nil, List.append_nil, List.length_nil] at this
        omega
      · rw [List.flatten_cons, List.append_assoc, ← heq, List.take_append_drop]

/-- A piece of an input. -/
theorem Pieces.getElem?_eq (h : Pieces n blocks last) {i : Nat} {b : Bytes}
    (hi : (blocks ++ [last])[i]? = some b) : ((blocks.flatten ++ last).drop (n * i)).take n = b := by
  induction blocks generalizing i with
  | nil =>
    cases i with
    | zero =>
      rw [List.flatten_nil, List.nil_append, Nat.mul_zero, List.drop_zero,
        List.take_of_length_le h.last_le]
      exact Option.some.inj hi
    | succ i => cases hi
  | cons c blocks ih =>
    have hc := h.full c List.mem_cons_self
    cases i with
    | zero =>
      rw [Nat.mul_zero, List.drop_zero, List.flatten_cons, List.append_assoc, List.take_left' hc]
      exact Option.some.inj hi
    | succ i =>
      have hrest : Pieces n blocks last :=
        ⟨fun d hd ↦ h.full d (List.mem_cons_of_mem _ hd), h.last_le, fun hnil ↦ by cases h.last_ne hnil⟩
      rw [List.flatten_cons, List.append_assoc, Nat.mul_succ, Nat.add_comm, ← List.drop_drop,
        List.drop_left' hc]
      exact ih hrest hi

/-- `hash` is the hash of the tree. -/
theorem hash_eq_treeHash (input : Bytes) : hash input = treeHash input := by
  obtain ⟨blocks, last, hpieces, heq⟩ := Pieces.exists_eq (n := chunkLen) (Nat.succ_pos 1023) input
  have hcut : pieces chunkLen input.length input = blocks ++ [last] := by
    rw [heq]
    exact hpieces.pieces_eq (hpieces.length_le (Nat.succ_pos 1023))
  have hcount : chunkCount input = 0 + blocks.length + 1 := by
    have hlen := congrArg List.length heq
    have hlast := hpieces.last_le
    have hchunk : chunkLen = 1024 := rfl
    rw [List.length_append, hpieces.length_flatten, hchunk] at hlen
    rw [hchunk] at hlast
    rw [chunkCount, hlen, hchunk]
    rcases Nat.eq_zero_or_pos last.length with hzero | hpos
    · have := congrArg List.length (hpieces.last_ne (List.length_eq_zero_iff.mp hzero))
      rw [List.length_nil] at this
      omega
    · omega
  rw [hash, hcut, treeHash, hcount]
  refine hashChunks_eq .nil fun i b hb ↦ ?_
  rw [Nat.zero_add, chunkOf, heq, hpieces.getElem?_eq hb]

end Plaine.Consensus.Blake3

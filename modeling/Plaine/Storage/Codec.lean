import Plaine.Consensus.Constants
import Plaine.Consensus.Crypto
import Plaine.Lib.Digest

/-!
# Segments and encodings

`layout.rs`, `codec.rs`, `crc32c.rs`, the constants of `lib.rs` and the account types of `types.rs`.
Headers, bodies and body indexes lie in segment files of 4096 blocks, so that a height gives the file
and the place in it.  Account rows are kept decoded in the tables of the model, and `encodeAccount` is
what the state fingerprint digests; undo rows are kept as the blobs they are, since reading one back
may fail.
-/

namespace Plaine.Storage

open Plaine.Lib Plaine.Consensus

/-! ## Segment arithmetic -/

/-- `SEG_SHIFT`. -/
def segShift : Nat := 12

/-- `SEG_BLOCKS`. -/
def segBlocks : Nat := 2 ^ segShift

/-- `BIDX_ENTRY_BYTES`. -/
def bidxEntryBytes : Nat := 8

/-- `SECTOR`. -/
def sector : Nat := 4096

/-- `BODY_FRAME_BYTES`. -/
def bodyFrameBytes : Nat := 8

/-- `MAX_BODY_BYTES`. -/
def maxBodyBytes : Nat := maxBlockBytes - headerBytes

/-- `UNDO_RING`. -/
def undoRing : Nat := 256

/-- `CHAINWORK_CKPT_SHIFT`. -/
def chainworkCkptShift : Nat := 10

/-- `STALE_INDEX_REBUILD_THRESHOLD`. -/
def staleIndexRebuildThreshold : Nat := 65536

/-- `VERIFY_WINDOW`. -/
def verifyWindow : Nat := 256

/-- `MAX_BATCH_BYTES`. -/
def maxBatchBytes : Nat := 256 * 1024 * 1024

/-- `u32::MAX`. -/
def u32Max : Nat := 2 ^ 32 - 1

/-- `seg_of`. -/
def segOf (h : Nat) : Nat := h / segBlocks

/-- `slot_of`. -/
def slotOf (h : Nat) : Nat := h % segBlocks

/-- `hdr_offset`. -/
def hdrOffset (h : Nat) : Nat := slotOf h * headerBytes

/-- `bidx_offset`. -/
def bidxOffset (h : Nat) : Nat := slotOf h * bidxEntryBytes

/-- `seg_first_height`. -/
def segFirstHeight (s : Nat) : Nat := s * segBlocks

variable {h s : Nat}

theorem segBlocks_pos : 0 < segBlocks := by decide

theorem slotOf_lt (h : Nat) : slotOf h < segBlocks := Nat.mod_lt h segBlocks_pos

/-- A height is the first of its segment and its slot. -/
theorem segFirstHeight_add_slotOf (h : Nat) : segFirstHeight (segOf h) + slotOf h = h := by
  rw [segFirstHeight, segOf, slotOf, Nat.mul_comm]
  exact Nat.div_add_mod h segBlocks

theorem segOf_add (hk : h < segBlocks) : segOf (segFirstHeight s + h) = s := by
  rw [segOf, segFirstHeight, Nat.mul_comm, Nat.mul_add_div segBlocks_pos, Nat.div_eq_of_lt hk,
    Nat.add_zero]

theorem slotOf_add (hk : h < segBlocks) : slotOf (segFirstHeight s + h) = h := by
  rw [slotOf, segFirstHeight, Nat.mul_add_mod', Nat.mod_eq_of_lt hk]

theorem segOf_mono {h h' : Nat} (hle : h ≤ h') : segOf h ≤ segOf h' := Nat.div_le_div_right hle

/-- The undo ring reaches deeper than any reorg, `SPEC 9`. -/
theorem maxReorgDepth_lt_undoRing : maxReorgDepth < undoRing := by decide

/-! ## Rows -/

/-- `Account`. -/
structure Account where
  balance : U128
  nonce : UInt64
deriving DecidableEq, Inhabited

/-- `Account::is_absent`. -/
def Account.isAbsent (a : Account) : Bool := a.balance = 0 ∧ a.nonce = 0

/-- `StateDelta`. -/
structure StateDelta where
  addr : Address
  balance : U128
  nonce : UInt64
deriving DecidableEq

/-- The account a delta leaves. -/
def StateDelta.next (d : StateDelta) : Account := ⟨d.balance, d.nonce⟩

/-- `UndoRec`. -/
structure UndoRec where
  addr : Address
  prevBalance : U128
  prevNonce : UInt64
  existed : Bool
deriving DecidableEq

/-- The account an undo record restores. -/
def UndoRec.prev (u : UndoRec) : Account := ⟨u.prevBalance, u.prevNonce⟩

/-- The row an undo record restores, if it restores one. -/
def UndoRec.row (u : UndoRec) : Option Account := if u.existed then some u.prev else none

/-! ## Accounts -/

/-- `encode_account`. -/
def encodeAccount (a : Account) : Bytes := leBytes 16 a.balance.toNat ++ leBytes 8 a.nonce.toNat

/-- `decode_account`. -/
def decodeAccount (v : Bytes) : Account := ⟨.ofNat 128 (leAt 16 0 v), .ofNat (leAt 8 16 v)⟩

/-- The rows of the state table lose nothing. -/
theorem decodeAccount_encodeAccount (a : Account) : decodeAccount (encodeAccount a) = a := by
  have hb : leAt 16 0 (encodeAccount a) = a.balance.toNat :=
    leAt_append 16 _ [] _ rfl a.balance.isLt
  have hn : leAt 8 16 (encodeAccount a) = a.nonce.toNat := by
    have := leAt_append 8 a.nonce.toNat (leBytes 16 a.balance.toNat) [] (length_leBytes 16 _)
      a.nonce.toNat_lt
    rwa [List.append_nil] at this
  rw [decodeAccount, hb, hn, BitVec.ofNat_toNat, BitVec.setWidth_eq, UInt64.ofNat_toNat]

/-! ## Undo rows -/

/-- `UNDO_REC_BYTES`. -/
def undoRecBytes : Nat := 45

/-- `MAX_UNDO_RECS`. -/
def maxUndoRecs : Nat := 2 * maxTxsPerBlock + 1

/-- `UNDO_HDR_BYTES`. -/
def undoHdrBytes : Nat := 20

/-- One record of `encode_undo`.  The flag is 0 for an account that existed. -/
def encodeUndoRec (r : UndoRec) : Bytes :=
  r.addr.bytes ++ (leBytes 16 r.prevBalance.toNat ++ (leBytes 8 r.prevNonce.toNat ++
    [if r.existed then 0 else 1]))

/-- `encode_undo`. -/
def encodeUndo (recs : List UndoRec) (issuedDelta : U128) : Bytes :=
  leBytes 4 recs.length ++ (leBytes 16 issuedDelta.toNat ++ recs.flatMap encodeUndoRec)

/-- One record of `decode_undo`, at an offset. -/
def decodeUndoRec (blob : Bytes) (o : Nat) : UndoRec where
  addr := .ofSlice 20 o blob
  prevBalance := .ofNat 128 (leAt 16 (o + 20) blob)
  prevNonce := .ofNat (leAt 8 (o + 36) blob)
  existed := leAt 1 (o + 44) blob % 2 = 0

/-- `decode_undo`. -/
def decodeUndo (blob : Bytes) : Option (List UndoRec × U128) :=
  let count := leAt 4 0 blob
  if blob.length < undoHdrBytes then none
  else if maxUndoRecs < count ∨ blob.length ≠ undoHdrBytes + count * undoRecBytes then none
  else some ((List.range count).map fun i ↦ decodeUndoRec blob (undoHdrBytes + i * undoRecBytes),
    .ofNat 128 (leAt 16 4 blob))

theorem length_encodeUndoRec (r : UndoRec) : (encodeUndoRec r).length = undoRecBytes := by
  simp [encodeUndoRec, r.addr.length_eq, undoRecBytes]

theorem length_flatMap_encodeUndoRec (recs : List UndoRec) :
    (recs.flatMap encodeUndoRec).length = recs.length * undoRecBytes := by
  induction recs with
  | nil => rw [List.flatMap_nil, List.length_nil, List.length_nil, Nat.zero_mul]
  | cons r recs ih =>
    rw [List.flatMap_cons, List.length_append, length_encodeUndoRec, ih, List.length_cons,
      Nat.succ_mul, Nat.add_comm]

/-- A record is read back from wherever it stands. -/
theorem decodeUndoRec_append (r : UndoRec) (pre post : Bytes) {o : Nat} (h : pre.length = o) :
    decodeUndoRec (pre ++ (encodeUndoRec r ++ post)) o = r := by
  have haddr : Arr.ofSlice 20 o (pre ++ (encodeUndoRec r ++ post)) = r.addr := by
    rw [encodeUndoRec, List.append_assoc]
    exact Arr.ofSlice_append r.addr pre _ h
  have hbalance : leAt 16 (o + 20) (pre ++ (encodeUndoRec r ++ post)) = r.prevBalance.toNat := by
    rw [encodeUndoRec, List.append_assoc, ← List.append_assoc pre, List.append_assoc (leBytes 16 _)]
    exact leAt_append 16 _ _ _ (by simp [h, r.addr.length_eq]) r.prevBalance.isLt
  have hnonce : leAt 8 (o + 36) (pre ++ (encodeUndoRec r ++ post)) = r.prevNonce.toNat := by
    rw [encodeUndoRec, ← List.append_assoc r.addr.bytes, List.append_assoc, ← List.append_assoc pre,
      List.append_assoc (leBytes 8 _)]
    exact leAt_append 8 _ _ _ (by simp [h, r.addr.length_eq]) r.prevNonce.toNat_lt
  have hflag : leAt 1 (o + 44) (pre ++ (encodeUndoRec r ++ post)) =
      if r.existed then 0 else 1 := by
    have hbyte : [if r.existed then (0 : UInt8) else 1] = leBytes 1 (if r.existed then 0 else 1) := by
      cases r.existed <;> rfl
    rw [encodeUndoRec, hbyte, ← List.append_assoc (leBytes 16 _), ← List.append_assoc r.addr.bytes,
      List.append_assoc, ← List.append_assoc pre]
    exact leAt_append 1 _ _ _ (by simp [h, r.addr.length_eq]) (by split <;> decide)
  have hexisted : decide ((if r.existed then 0 else 1) % 2 = 0) = r.existed := by
    cases r.existed <;> rfl
  rw [decodeUndoRec, haddr, hbalance, hnonce, hflag, hexisted, BitVec.ofNat_toNat,
    BitVec.setWidth_eq, UInt64.ofNat_toNat]

/-- Where a record stands in an undo row. -/
theorem exists_encodeUndo_eq {recs : List UndoRec} (issuedDelta : U128) {i : Nat}
    (h : i < recs.length) : ∃ pre post,
      encodeUndo recs issuedDelta = pre ++ (encodeUndoRec recs[i] ++ post) ∧
        pre.length = undoHdrBytes + i * undoRecBytes := by
  refine ⟨leBytes 4 recs.length ++ (leBytes 16 issuedDelta.toNat ++
    (recs.take i).flatMap encodeUndoRec), (recs.drop (i + 1)).flatMap encodeUndoRec, ?_, ?_⟩
  · have hsplit : recs.flatMap encodeUndoRec = (recs.take i).flatMap encodeUndoRec ++
        (encodeUndoRec recs[i] ++ (recs.drop (i + 1)).flatMap encodeUndoRec) := by
      rw [← List.flatMap_cons, ← List.drop_eq_getElem_cons h, ← List.flatMap_append,
        List.take_append_drop]
    rw [encodeUndo, hsplit, List.append_assoc, List.append_assoc]
  · rw [List.length_append, List.length_append, length_leBytes, length_leBytes,
      length_flatMap_encodeUndoRec, List.length_take_of_le h.le, ← Nat.add_assoc, undoHdrBytes]

/-- An undo row is read back exactly where it has no more records than a block may touch
accounts. -/
theorem decodeUndo_encodeUndo (recs : List UndoRec) (issuedDelta : U128) :
    decodeUndo (encodeUndo recs issuedDelta) =
      if recs.length ≤ maxUndoRecs then some (recs, issuedDelta) else none := by
  have hlen : (encodeUndo recs issuedDelta).length =
      undoHdrBytes + recs.length * undoRecBytes := by
    simp only [encodeUndo, List.length_append, length_leBytes, length_flatMap_encodeUndoRec]
    rw [undoHdrBytes]
    omega
  have hissued : leAt 16 4 (encodeUndo recs issuedDelta) = issuedDelta.toNat :=
    leAt_append 16 _ (leBytes 4 recs.length) _ (length_leBytes 4 _) issuedDelta.isLt
  have hcount : leAt 4 0 (encodeUndo recs issuedDelta) = recs.length % 2 ^ 32 := by
    rw [leAt, encodeUndo, List.drop_zero, List.take_left' (length_leBytes 4 _), ofLe_leBytes,
      show 256 ^ 4 = 2 ^ 32 from rfl]
  unfold decodeUndo
  dsimp only
  rw [hcount, hlen, if_neg (by omega)]
  split_ifs with hbad hle hle
  · -- A count that fits is the number of records, and then nothing is wrong with it.
    have hsame : recs.length % 2 ^ 32 = recs.length :=
      Nat.mod_eq_of_lt (hle.trans_lt (by decide))
    rw [hsame] at hbad
    exact absurd hbad (by omega)
  · rfl
  · have hsame : recs.length % 2 ^ 32 = recs.length :=
      Nat.mod_eq_of_lt (hle.trans_lt (by decide))
    rw [hsame, hissued, BitVec.ofNat_toNat, BitVec.setWidth_eq]
    refine congrArg some (Prod.ext (List.ext_getElem (by simp) fun i h₁ h₂ ↦ ?_) rfl)
    rw [List.getElem_map, List.getElem_range]
    obtain ⟨pre, post, hsplit, hpre⟩ := exists_encodeUndo_eq issuedDelta h₂
    rw [hsplit]
    exact decodeUndoRec_append _ pre post hpre
  · refine absurd hle ?_
    obtain ⟨hle, hlen⟩ := not_or.mp hbad
    have := Nat.eq_of_mul_eq_mul_right (by decide : 0 < undoRecBytes)
      (Nat.add_left_cancel (not_not.mp hlen))
    omega

/-! ## Frames -/

/-- `encode_frame_header`. -/
def encodeFrameHeader (len : Nat) (crc : UInt32) : Bytes := leBytes 4 len ++ leBytes 4 crc.toNat

/-- `decode_frame_header`. -/
def decodeFrameHeader (v : Bytes) : Nat × UInt32 := (leAt 4 0 v, .ofNat (leAt 4 4 v))

/-- `encode_bidx`. -/
def encodeBidx (offset len : Nat) : Bytes := leBytes 4 offset ++ leBytes 4 len

/-- `decode_bidx`. -/
def decodeBidx (v : Bytes) : Nat × Nat := (leAt 4 0 v, leAt 4 4 v)

/-! ## Digests -/

/-- `hash_prefix_n`. -/
def hashPrefixN (h : Hash32) (n : Nat) : Nat :=
  (h.bytes.take (max 1 (min n 8))).foldl (fun v b ↦ v * 256 + b.toNat) 0

/-- `row_digest`. -/
def rowDigest [Crypto] (addr : Address) (a : Account) : Hash32 :=
  Crypto.blake3 (addr.bytes ++ encodeAccount a)

/-- `fp_xor`. -/
def fpXor (fp d : Hash32) : Hash32 := fp.xor d

/-! ## CRC-32C -/

/-- `POLY`. -/
def crcPoly : UInt32 := 0x82F63B78

/-- `TABLE`, by row and index. -/
def crcTable : Nat → UInt32 → UInt32
  | 0, i => Nat.iterate (fun crc ↦ if crc &&& 1 ≠ 0 then (crc >>> 1) ^^^ crcPoly else crc >>> 1) 8 i
  | s + 1, i =>
    let prev := crcTable s i
    (prev >>> 8) ^^^ crcTable 0 (prev &&& 0xFF)

/-- A chunk of eight bytes. -/
def crcChunk (crc : UInt32) (c : Bytes) : UInt32 :=
  let lo := UInt32.ofNat (leAt 4 0 c) ^^^ crc
  let hi := UInt32.ofNat (leAt 4 4 c)
  crcTable 7 (lo &&& 0xFF) ^^^ crcTable 6 ((lo >>> 8) &&& 0xFF) ^^^
    crcTable 5 ((lo >>> 16) &&& 0xFF) ^^^ crcTable 4 ((lo >>> 24) &&& 0xFF) ^^^
    crcTable 3 (hi &&& 0xFF) ^^^ crcTable 2 ((hi >>> 8) &&& 0xFF) ^^^
    crcTable 1 ((hi >>> 16) &&& 0xFF) ^^^ crcTable 0 ((hi >>> 24) &&& 0xFF)

/-- The loops of `crc32c`: the whole chunks, then the bytes that are left. -/
def crcLoop : Nat → UInt32 → Bytes → UInt32
  | 0, crc, data => data.foldl (fun crc b ↦
      (crc >>> 8) ^^^ crcTable 0 ((crc ^^^ b.toUInt32) &&& 0xFF)) crc
  | n + 1, crc, data => crcLoop n (crcChunk crc (data.take 8)) (data.drop 8)

/-- `crc32c`. -/
def crc32c (data : Bytes) : UInt32 := ~~~crcLoop (data.length / 8) 0xFFFFFFFF data

example : crc32c [0x31, 0x32, 0x33, 0x34, 0x35, 0x36, 0x37, 0x38, 0x39] = 0xE3069283 := by
  decide +kernel

end Plaine.Storage

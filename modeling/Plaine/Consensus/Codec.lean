import Plaine.Consensus.Crypto
import Plaine.Lib.Result

/-!
# Wire encoding

`codec.rs`: headers, the three transaction types, the author note and the block body
envelope, each with its encoder and its decoder.  Decoders reject short input, trailing
bytes and reserved types with the same errors as the source, in the same order.
-/

namespace Plaine.Consensus

open Plaine.Lib

/-- `CodecError`. -/
inductive CodecError where
  | truncated (need got : Nat)
  | trailingBytes (extra : Nat)
  | wrongTxType (got : UInt8)
  | reservedTxType (got : UInt8)
  | authorNoteVersion (got : UInt8)
  | authorNoteTooLong (len : Nat)
  | announcementLength (len : Nat)
  | bodyTxCount (got : Nat)
  | bodyTxLen (got : Nat)
  | bodyTooLarge (got : Nat)
deriving DecidableEq

/-- `require_exact`. -/
def requireExact (got need : Nat) : Except CodecError Unit :=
  if got < need then .error (.truncated need got)
  else if got > need then .error (.trailingBytes (got - need))
  else .ok ()

theorem requireExact_eq_ok {got need : Nat} {u : Unit} :
    requireExact got need = .ok u ↔ got = need := by
  unfold requireExact
  split
  · simp; omega
  · split
    · simp; omega
    · simp; omega

/-- The byte at offset `i`. -/
def byteAt (i : Nat) (l : Bytes) : UInt8 := l.getD i 0

/-! ## Header -/

/-- `Header`. -/
@[ext]
structure Header where
  version : UInt32
  height : UInt64
  prevHash : Hash32
  txRoot : Hash32
  /-- Reserved for a future commitment; consensus requires it to be all-zero. -/
  extRoot : Hash32
  time : UInt64
  bits : UInt32
  authorNoteLen : UInt32
  nonce : UInt64
deriving DecidableEq

namespace Header

/-- `Header::encode`, field after field. -/
def bytes (h : Header) : Bytes :=
  leBytes 4 h.version.toNat ++ (leBytes 8 h.height.toNat ++ (h.prevHash.bytes ++
    (h.txRoot.bytes ++ (h.extRoot.bytes ++ (leBytes 8 h.time.toNat ++
      (leBytes 4 h.bits.toNat ++ (leBytes 4 h.authorNoteLen.toNat ++
        leBytes 8 h.nonce.toNat)))))))

theorem length_bytes (h : Header) : h.bytes.length = 132 := by
  simp [bytes, Arr.length_eq]

/-- `Header::encode`. -/
def encode (h : Header) : RawHeader := ⟨h.bytes, h.length_bytes⟩

/-- The fields of 132 bytes. -/
def ofBytes (b : Bytes) : Header where
  version := UInt32.ofNat (leAt 4 0 b)
  height := UInt64.ofNat (leAt 8 4 b)
  prevHash := Arr.ofSlice 32 12 b
  txRoot := Arr.ofSlice 32 44 b
  extRoot := Arr.ofSlice 32 76 b
  time := UInt64.ofNat (leAt 8 108 b)
  bits := UInt32.ofNat (leAt 4 116 b)
  authorNoteLen := UInt32.ofNat (leAt 4 120 b)
  nonce := UInt64.ofNat (leAt 8 124 b)

/-- `Header::decode`. -/
def decode (b : Bytes) : Except CodecError Header := do
  requireExact b.length headerBytes
  return ofBytes b

/-- `Header::decode` on a whole header, which always succeeds. -/
def ofRaw (raw : RawHeader) : Header := ofBytes raw.bytes

theorem decode_raw (raw : RawHeader) : decode raw.bytes = .ok (ofRaw raw) := by
  have hlen : requireExact raw.bytes.length headerBytes = .ok () :=
    requireExact_eq_ok.mpr raw.length_eq
  rw [decode, hlen]
  rfl

variable [Crypto]

/-- `Header::hash`. -/
def hash (h : Header) : Hash32 := headerHash h.encode

end Header

/-! ## Transactions -/

/-- `TransferTx`. -/
structure TransferTx where
  fromPub : Arr 32
  toAddr : Address
  amount : U128
  fee : U128
  nonce : UInt64
  sig : Arr 64
deriving DecidableEq

namespace TransferTx

/-- `TransferTx::encode_unsigned`. -/
def encodeUnsigned (t : TransferTx) : Bytes :=
  txTypeTransfer :: (t.fromPub.bytes ++ t.toAddr.bytes ++ leBytes 16 t.amount.toNat ++
    leBytes 16 t.fee.toNat ++ leBytes 8 t.nonce.toNat)

/-- `TransferTx::encode`. -/
def encode (t : TransferTx) : Bytes := t.encodeUnsigned ++ t.sig.bytes

/-- `TransferTx::decode`. -/
def decode (b : Bytes) : Except CodecError TransferTx := do
  requireExact b.length txTransferBytes
  Except.require (byteAt 0 b = txTypeTransfer) (.wrongTxType (byteAt 0 b))
  return {
    fromPub := Arr.ofSlice 32 1 b
    toAddr := Arr.ofSlice 20 33 b
    amount := BitVec.ofNat 128 (leAt 16 53 b)
    fee := BitVec.ofNat 128 (leAt 16 69 b)
    nonce := UInt64.ofNat (leAt 8 85 b)
    sig := Arr.ofSlice 64 93 b }

/-- `TransferTx::txid`. -/
def txid [Crypto] (t : TransferTx) : Hash32 := txidOf t.encodeUnsigned

end TransferTx

/-- `AnnouncementTx`. -/
structure AnnouncementTx where
  fromPub : Arr 32
  fee : U128
  nonce : UInt64
  encoding : UInt8
  payload : Bytes
  sig : Arr 64
deriving DecidableEq

namespace AnnouncementTx

/-- `AnnouncementTx::check_payload_len`. -/
def checkPayloadLen (a : AnnouncementTx) : Except CodecError Nat :=
  if announcementMinPayloadBytes ≤ a.payload.length ∧
      a.payload.length ≤ announcementMaxPayloadBytes then .ok a.payload.length
  else .error (.announcementLength a.payload.length)

/-- `AnnouncementTx::encode_unsigned`. -/
def encodeUnsigned (a : AnnouncementTx) : Except CodecError Bytes := do
  let length ← a.checkPayloadLen
  return txTypeAnnouncement :: (a.fromPub.bytes ++ leBytes 16 a.fee.toNat ++
    leBytes 8 a.nonce.toNat ++ [a.encoding] ++ leBytes 2 length ++ a.payload)

/-- `AnnouncementTx::encode`. -/
def encode (a : AnnouncementTx) : Except CodecError Bytes := do
  return (← a.encodeUnsigned) ++ a.sig.bytes

/-- `AnnouncementTx::decode`. -/
def decode (b : Bytes) : Except CodecError AnnouncementTx := do
  let min := txAnnouncementOverheadBytes + announcementMinPayloadBytes
  Except.require (min ≤ b.length) (.truncated min b.length)
  Except.require (byteAt 0 b = txTypeAnnouncement) (.wrongTxType (byteAt 0 b))
  let length := leAt 2 58 b
  Except.require
    (announcementMinPayloadBytes ≤ length ∧ length ≤ announcementMaxPayloadBytes)
    (.announcementLength length)
  requireExact b.length (txAnnouncementOverheadBytes + length)
  return {
    fromPub := Arr.ofSlice 32 1 b
    fee := BitVec.ofNat 128 (leAt 16 33 b)
    nonce := UInt64.ofNat (leAt 8 49 b)
    encoding := byteAt 57 b
    payload := (b.drop 60).take length
    sig := Arr.ofSlice 64 (60 + length) b }

/-- `AnnouncementTx::txid`. -/
def txid [Crypto] (a : AnnouncementTx) : Except CodecError Hash32 := do
  return txidOf (← a.encodeUnsigned)

/-- A decoded announcement has a payload of legal length. -/
theorem checkPayloadLen_of_decode {b : Bytes} {a : AnnouncementTx} (h : decode b = .ok a) :
    a.checkPayloadLen = .ok a.payload.length := by
  simp only [decode, Except.bind_eq_ok, Except.require_eq_ok, requireExact_eq_ok] at h
  obtain ⟨_, -, _, -, _, hlen, _, hb, h⟩ := h
  cases h
  have hpay : ((b.drop 60).take (leAt 2 58 b)).length = leAt 2 58 b := by
    rw [List.length_take, List.length_drop, hb]
    simp only [txAnnouncementOverheadBytes, txAnnouncementPrefixBytes]
    omega
  simp [checkPayloadLen, hpay, hlen]

/-- A decoded announcement has a transaction id. -/
theorem txid_of_decode [Crypto] {b : Bytes} {a : AnnouncementTx} (h : decode b = .ok a) :
    ∃ id, a.txid = .ok id := by
  simp [txid, encodeUnsigned, checkPayloadLen_of_decode h]

end AnnouncementTx

/-- `AuthorNote`. -/
structure AuthorNote where
  encoding : UInt8
  payload : Bytes
deriving DecidableEq

namespace AuthorNote

/-- `AuthorNote::encode`. -/
def encode (n : AuthorNote) : Except CodecError Bytes := do
  Except.require (n.payload.length ≤ authorNoteMaxBytes) (.authorNoteTooLong n.payload.length)
  return authorNoteRecordVersion :: n.encoding :: (leBytes 2 n.payload.length ++ n.payload)

/-- `AuthorNote::decode`. -/
def decode (b : Bytes) : Except CodecError AuthorNote := do
  Except.require (authorNoteHeaderBytes ≤ b.length) (.truncated authorNoteHeaderBytes b.length)
  Except.require (byteAt 0 b = authorNoteRecordVersion) (.authorNoteVersion (byteAt 0 b))
  let len := leAt 2 2 b
  Except.require (len ≤ authorNoteMaxBytes) (.authorNoteTooLong len)
  requireExact b.length (authorNoteHeaderBytes + len)
  return { encoding := byteAt 1 b, payload := b.drop authorNoteHeaderBytes }

end AuthorNote

/-- `CoinbaseTx`. -/
structure CoinbaseTx where
  height : UInt64
  toAddr : Address
  reward : U128
  fees : U128
  note : AuthorNote
deriving DecidableEq

namespace CoinbaseTx

/-- `CoinbaseTx::encode`. -/
def encode (c : CoinbaseTx) : Except CodecError Bytes := do
  let note ← c.note.encode
  return txTypeCoinbase :: (leBytes 8 c.height.toNat ++ (c.toAddr.bytes ++
    (leBytes 16 c.reward.toNat ++ (leBytes 16 c.fees.toNat ++ note))))

/-- `CoinbaseTx::decode`. -/
def decode (b : Bytes) : Except CodecError CoinbaseTx := do
  let min := coinbasePrefixBytes + authorNoteHeaderBytes
  Except.require (min ≤ b.length) (.truncated min b.length)
  Except.require (byteAt 0 b = txTypeCoinbase) (.wrongTxType (byteAt 0 b))
  let note ← AuthorNote.decode (b.drop 61)
  return {
    height := UInt64.ofNat (leAt 8 1 b)
    toAddr := Arr.ofSlice 20 9 b
    reward := BitVec.ofNat 128 (leAt 16 29 b)
    fees := BitVec.ofNat 128 (leAt 16 45 b)
    note := note }

/-- `CoinbaseTx::txid`. -/
def txid [Crypto] (c : CoinbaseTx) : Except CodecError Hash32 := do
  return txidOf (← c.encode)

/-- A coinbase whose note is short enough has a transaction id. -/
theorem txid_of_note [Crypto] {c : CoinbaseTx} (h : c.note.payload.length ≤ authorNoteMaxBytes) :
    ∃ id, c.txid = .ok id := by
  simp [txid, encode, AuthorNote.encode, Except.require_of h]

end CoinbaseTx

/-- `Tx`. -/
inductive Tx where
  | coinbase (cb : CoinbaseTx)
  | transfer (t : TransferTx)
  | announcement (a : AnnouncementTx)
deriving DecidableEq

namespace Tx

/-- `Tx::fee`. -/
def fee : Tx → Nat
  | .coinbase _ => 0
  | .transfer t => t.fee.toNat
  | .announcement a => a.fee.toNat

/-- `Tx::type_byte`. -/
def typeByte : Tx → UInt8
  | .coinbase _ => txTypeCoinbase
  | .transfer _ => txTypeTransfer
  | .announcement _ => txTypeAnnouncement

end Tx

/-- `codec::decode_tx`. -/
def decodeTx (b : Bytes) : Except CodecError Tx :=
  match b with
  | [] => .error (.truncated 1 0)
  | first :: _ =>
    if first = txTypeCoinbase then Tx.coinbase <$> CoinbaseTx.decode b
    else if first = txTypeTransfer then Tx.transfer <$> TransferTx.decode b
    else if first = txTypeAnnouncement then Tx.announcement <$> AnnouncementTx.decode b
    else .error (.reservedTxType first)

/-- Only an announcement decodes to one. -/
theorem decodeTx_announcement {b : Bytes} {a : AnnouncementTx}
    (h : decodeTx b = .ok (.announcement a)) : AnnouncementTx.decode b = .ok a := by
  unfold decodeTx at h
  split at h
  · cases h
  · split at h
    · simp at h
    · split at h
      · simp at h
      · split at h
        · simpa using h
        · cases h

/-! ## Block body -/

/-- `BlockBody`: the encoded bytes and the records found in them, each as the bytes its
span delimits. -/
structure BlockBody where
  raw : Bytes
  records : List Bytes
deriving DecidableEq

namespace BlockBody

/-- The record loop of `BlockBody::parse`: `count` length-prefixed records, the first at
offset `off` of `raw`.  The remaining input is carried along with the offset it starts at. -/
def parseRecords (rawLen : Nat) : Nat → Nat → Bytes → Except CodecError (List Bytes × Nat)
  | 0, off, _ => .ok ([], off)
  | count + 1, off, rest => do
    let lenEnd := off + bodyTxlenBytes
    Except.require (lenEnd ≤ rawLen) (.truncated lenEnd rawLen)
    let txLen := leAt bodyTxlenBytes 0 rest
    Except.require (txLen ≠ 0 ∧ txLen ≤ maxTxBytes) (.bodyTxLen txLen)
    let txEnd := lenEnd + txLen
    Except.require (txEnd ≤ rawLen) (.truncated txEnd rawLen)
    let tail := rest.drop bodyTxlenBytes
    let (records, last) ← parseRecords rawLen count txEnd (tail.drop txLen)
    return (tail.take txLen :: records, last)

/-- `BlockBody::parse`. -/
def parse (raw : Bytes) : Except CodecError BlockBody := do
  Except.require (raw.length + headerBytes ≤ maxBlockBytes) (.bodyTooLarge raw.length)
  Except.require (bodyCountBytes ≤ raw.length) (.truncated bodyCountBytes raw.length)
  let count := leAt bodyCountBytes 0 raw
  Except.require (count ≠ 0 ∧ count ≤ maxTxsPerBlock) (.bodyTxCount count)
  -- Gate before reading any record: the smallest one is 5 bytes.
  let minTotal := bodyCountBytes + count * bodyMinRecordBytes
  Except.require (minTotal ≤ raw.length) (.truncated minTotal raw.length)
  let (records, last) ←
    parseRecords raw.length count bodyCountBytes (raw.drop bodyCountBytes)
  Except.require (last = raw.length) (.trailingBytes (raw.length - last))
  return { raw, records }

/-- The loop reads as many records as it was told to. -/
theorem parseRecords_length {rawLen count off last : Nat} {rest : Bytes} {records : List Bytes}
    (h : parseRecords rawLen count off rest = .ok (records, last)) : records.length = count := by
  induction count generalizing off rest records last with
  | zero => cases h; rfl
  | succ count ih =>
    simp only [parseRecords, Except.bind_eq_ok] at h
    obtain ⟨_, -, _, -, _, -, ⟨records', last'⟩, hrest, h⟩ := h
    cases h
    rw [List.length_cons, ih hrest]

/-- A body that parses has no more records than a block may have transactions. -/
theorem parse_length_le {raw : Bytes} {body : BlockBody} (h : parse raw = .ok body) :
    body.records.length ≤ maxTxsPerBlock := by
  simp only [parse, Except.bind_eq_ok, Except.require_eq_ok] at h
  obtain ⟨_, -, _, -, _, hcount, _, -, ⟨records, last⟩, hrecords, _, -, h⟩ := h
  cases h
  rw [parseRecords_length hrecords]
  exact hcount.2

/-- The record loop of `BlockBody::encode`. -/
def encodeRecords : List Bytes → Except CodecError Bytes
  | [] => .ok []
  | tx :: txs => do
    Except.require (tx ≠ [] ∧ tx.length ≤ maxTxBytes) (.bodyTxLen tx.length)
    let rest ← encodeRecords txs
    return leBytes bodyTxlenBytes tx.length ++ (tx ++ rest)

/-- `BlockBody::encode`. -/
def encode (txs : List Bytes) : Except CodecError Bytes := do
  Except.require (txs ≠ [] ∧ txs.length ≤ maxTxsPerBlock) (.bodyTxCount txs.length)
  let records ← encodeRecords txs
  let v := leBytes bodyCountBytes txs.length ++ records
  Except.require (v.length + headerBytes ≤ maxBlockBytes) (.bodyTooLarge v.length)
  return v

variable [Crypto]

/-- `BlockBody::tx_root`. -/
def txRoot (b : BlockBody) : Hash32 := txRootOf b.records

end BlockBody

end Plaine.Consensus

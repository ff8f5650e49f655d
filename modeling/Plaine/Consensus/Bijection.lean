import Plaine.Consensus.Codec
import Plaine.Lib.Slices

/-!
# Wire encoding is a bijection

Every decoder of `codec.rs` accepts what its encoder makes and nothing else.
-/

namespace Plaine.Consensus

open Plaine.Lib Plaine.Lib.Slices

variable {b raw : Bytes}

/-! ## Headers and transfers -/

/-- The fields of a header, and nothing behind them. -/
theorem Header.eq_bytes {h : Header} (hlen : b.length = headerBytes) :
    b = h.bytes ↔ ofBytes b = h := by
  have hlen : b.length = 132 := hlen
  have hfields : b.drop 0 = h.bytes ++ [] ↔ ofBytes b = h := by
    unfold Header.bytes
    simp (disch := omega) only [List.append_assoc, drop_eq_u32, drop_eq_u64, drop_eq_bytes,
      drop_eq_nil, Nat.reduceAdd, Nat.zero_add, and_true, Header.ext_iff]
    rfl
  rwa [List.drop_zero, List.append_nil] at hfields

theorem Header.decode_eq_ok {h : Header} : decode b = .ok h ↔ h.encode.bytes = b := by
  unfold decode encode
  rw [Except.bind_eq_ok]
  simp only [requireExact_eq_ok]
  constructor
  · rintro ⟨-, hlen, hb⟩
    exact ((Header.eq_bytes hlen).mpr (Except.ok.inj hb)).symm
  · rintro rfl
    exact ⟨(), h.length_bytes, congrArg _ ((Header.eq_bytes h.length_bytes).mp rfl)⟩

theorem TransferTx.length_encode (t : TransferTx) : t.encode.length = txTransferBytes := by
  simp [encode, encodeUnsigned, Arr.length_eq, txTransferBytes]

theorem TransferTx.decode_eq_ok {t : TransferTx} : decode b = .ok t ↔ t.encode = b := by
  have hfields (hlen : b.length = txTransferBytes) :
      byteAt 0 b = txTypeTransfer ∧ ⟨Arr.ofSlice 32 1 b, Arr.ofSlice 20 33 b,
        BitVec.ofNat 128 (leAt 16 53 b), BitVec.ofNat 128 (leAt 16 69 b),
        UInt64.ofNat (leAt 8 85 b), Arr.ofSlice 64 93 b⟩ = t ↔ b.drop 0 = t.encode ++ [] := by
    have hlen : b.length = 157 := hlen
    obtain ⟨fromPub, toAddr, amount, fee, nonce, sig⟩ := t
    unfold encode encodeUnsigned
    simp (disch := omega) only [List.append_assoc, List.cons_append, drop_eq_cons, drop_eq_u128,
      drop_eq_u64, drop_eq_bytes, drop_eq_nil, Nat.reduceAdd, Nat.zero_add, and_true,
      TransferTx.mk.injEq]
    rfl
  rw [List.drop_zero, List.append_nil] at hfields
  unfold decode
  simp only [Except.bind_eq_ok, requireExact_eq_ok, Except.require_eq_ok]
  constructor
  · rintro ⟨-, hlen, -, htype, hb⟩
    exact ((hfields hlen).mp ⟨htype, Except.ok.inj hb⟩).symm
  · rintro rfl
    obtain ⟨htype, hb⟩ := (hfields t.length_encode).mpr rfl
    exact ⟨(), t.length_encode, (), htype, congrArg _ hb⟩

/-! ## Announcements, notes and coinbases -/

/-- An announcement that is encoded has a payload of legal length. -/
theorem AnnouncementTx.encode_eq_ok {a : AnnouncementTx} : a.encode = .ok b ↔
    (announcementMinPayloadBytes ≤ a.payload.length ∧
      a.payload.length ≤ announcementMaxPayloadBytes) ∧
    txTypeAnnouncement :: (a.fromPub.bytes ++ leBytes 16 a.fee.toNat ++ leBytes 8 a.nonce.toNat ++
      [a.encoding] ++ leBytes 2 a.payload.length ++ a.payload) ++ a.sig.bytes = b := by
  unfold encode encodeUnsigned checkPayloadLen
  split
  case isTrue h =>
    rw [and_iff_right h]
    exact ⟨Except.ok.inj, congrArg _⟩
  case isFalse h => exact iff_of_false (fun hok ↦ by cases hok) fun hok ↦ h hok.1

theorem AnnouncementTx.decode_eq_ok {a : AnnouncementTx} : decode b = .ok a ↔ a.encode = .ok b := by
  have hfields (hlen : b.length = txAnnouncementOverheadBytes + a.payload.length)
      (hmax : a.payload.length ≤ announcementMaxPayloadBytes) :
      (byteAt 0 b = txTypeAnnouncement ∧ Arr.ofSlice 32 1 b = a.fromPub ∧
        BitVec.ofNat 128 (leAt 16 33 b) = a.fee ∧ UInt64.ofNat (leAt 8 49 b) = a.nonce ∧
        byteAt 57 b = a.encoding ∧ leAt 2 58 b = a.payload.length ∧
        (b.drop 60).take a.payload.length = a.payload ∧
        Arr.ofSlice 64 (60 + a.payload.length) b = a.sig) ↔
      b.drop 0 = txTypeAnnouncement :: (a.fromPub.bytes ++ leBytes 16 a.fee.toNat ++
        leBytes 8 a.nonce.toNat ++ [a.encoding] ++ leBytes 2 a.payload.length ++ a.payload) ++
        a.sig.bytes ++ [] := by
    have hlen : b.length = 124 + a.payload.length := hlen
    have hwidth : a.payload.length < 256 ^ 2 := hmax.trans_lt (by decide)
    have hend : b.length = 60 + a.payload.length + 64 := by omega
    simp (disch := omega) only [List.append_assoc, List.cons_append, List.nil_append, drop_eq_cons,
      drop_eq_u128, drop_eq_u64, drop_eq_bytes, Nat.reduceAdd, Nat.zero_add]
    rw [drop_eq_leBytes (by omega) hwidth, drop_eq_append, drop_eq_bytes hend.ge, drop_eq_nil hend, and_true]
    rfl
  rw [List.drop_zero, List.append_nil] at hfields
  rw [AnnouncementTx.encode_eq_ok]
  unfold decode
  simp only [Except.bind_eq_ok, requireExact_eq_ok, Except.require_eq_ok]
  constructor
  · rintro ⟨-, -, -, htype, -, hlimits, -, hlen, ha⟩
    cases ha
    have hpayload : ((b.drop 60).take (leAt 2 58 b)).length = leAt 2 58 b := by
      rw [List.length_take, List.length_drop, hlen]
      exact Nat.min_eq_left (Nat.le_sub_of_add_le' (Nat.add_le_add_right (by decide) _))
    dsimp only at hfields ⊢
    rw [hpayload] at hfields ⊢
    exact ⟨hlimits, ((hfields hlen hlimits.2).mp
      ⟨htype, rfl, rfl, rfl, rfl, rfl, rfl, rfl⟩).symm⟩
  · rintro ⟨hlimits, rfl⟩
    have hlen : (txTypeAnnouncement :: (a.fromPub.bytes ++ leBytes 16 a.fee.toNat ++
        leBytes 8 a.nonce.toNat ++ [a.encoding] ++ leBytes 2 a.payload.length ++ a.payload) ++
        a.sig.bytes).length = txAnnouncementOverheadBytes + a.payload.length := by
      simp only [List.length_append, List.length_cons, List.length_nil, Arr.length_eq,
        length_leBytes, txAnnouncementOverheadBytes, txAnnouncementPrefixBytes]
      omega
    obtain ⟨htype, hpub, hfee, hnonce, hencoding, hlength, hpayload, hsig⟩ :=
      (hfields hlen hlimits.2).mpr rfl
    refine ⟨(), ?_, (), htype, (), ?_, (), ?_, ?_⟩
    · rw [hlen]
      exact Nat.add_le_add_left hlimits.1 _
    · rwa [hlength]
    · rwa [hlength]
    · rw [hpub, hfee, hnonce, hencoding, hlength, hpayload, hsig]
      rfl

theorem AuthorNote.encode_eq_ok {n : AuthorNote} : n.encode = .ok b ↔
    n.payload.length ≤ authorNoteMaxBytes ∧
    authorNoteRecordVersion :: n.encoding :: (leBytes 2 n.payload.length ++ n.payload) = b := by
  unfold encode
  rw [Except.bind_eq_ok]
  simp only [Except.require_eq_ok, exists_const]
  exact and_congr_right fun _ ↦ ⟨Except.ok.inj, congrArg _⟩

theorem AuthorNote.decode_eq_ok {n : AuthorNote} : decode b = .ok n ↔ n.encode = .ok b := by
  have hfields (hlen : b.length = authorNoteHeaderBytes + n.payload.length)
      (hmax : n.payload.length ≤ authorNoteMaxBytes) :
      (byteAt 0 b = authorNoteRecordVersion ∧ byteAt 1 b = n.encoding ∧
        leAt 2 2 b = n.payload.length ∧ b.drop 4 = n.payload) ↔
      b.drop 0 = authorNoteRecordVersion :: n.encoding ::
        (leBytes 2 n.payload.length ++ n.payload) := by
    have hlen : b.length = 4 + n.payload.length := hlen
    have hwidth : n.payload.length < 256 ^ 2 := hmax.trans_lt (by decide)
    simp (disch := first | omega | exact hwidth) only [drop_eq_cons, drop_eq_leBytes,
      Nat.reduceAdd, Nat.zero_add]
    rfl
  rw [List.drop_zero] at hfields
  rw [AuthorNote.encode_eq_ok]
  unfold decode
  simp only [Except.bind_eq_ok, requireExact_eq_ok, Except.require_eq_ok]
  constructor
  · rintro ⟨-, -, -, hversion, -, hmax, -, hlen, hn⟩
    cases hn
    have hpayload : (b.drop authorNoteHeaderBytes).length = leAt 2 2 b := by
      rw [List.length_drop, hlen, Nat.add_sub_cancel_left]
    dsimp only at hfields ⊢
    rw [hpayload] at hfields ⊢
    exact ⟨hmax, ((hfields hlen hmax).mp ⟨hversion, rfl, rfl, rfl⟩).symm⟩
  · rintro ⟨hmax, rfl⟩
    have hlen : (authorNoteRecordVersion :: n.encoding :: (leBytes 2 n.payload.length ++
        n.payload)).length = authorNoteHeaderBytes + n.payload.length := by
      simp only [List.length_append, List.length_cons, length_leBytes, authorNoteHeaderBytes]
      omega
    obtain ⟨hversion, hencoding, hlength, hpayload⟩ := (hfields hlen hmax).mpr rfl
    refine ⟨(), ?_, (), hversion, (), ?_, (), ?_, ?_⟩
    · rw [hlen]
      exact Nat.le_add_right _ _
    · rwa [hlength]
    · rwa [hlength]
    · rw [hencoding]
      exact congrArg (fun payload ↦ Except.ok (AuthorNote.mk n.encoding payload)) hpayload

theorem CoinbaseTx.encode_eq_ok {c : CoinbaseTx} : c.encode = .ok b ↔
    ∃ note, c.note.encode = .ok note ∧
      txTypeCoinbase :: (leBytes 8 c.height.toNat ++ (c.toAddr.bytes ++
        (leBytes 16 c.reward.toNat ++ (leBytes 16 c.fees.toNat ++ note)))) = b := by
  unfold encode
  rw [Except.bind_eq_ok]
  exact exists_congr fun note ↦ and_congr_right fun _ ↦ ⟨Except.ok.inj, congrArg _⟩

theorem CoinbaseTx.decode_eq_ok {c : CoinbaseTx} : decode b = .ok c ↔ c.encode = .ok b := by
  have hfields (hlen : coinbasePrefixBytes ≤ b.length) (note : Bytes) :
      (byteAt 0 b = txTypeCoinbase ∧ UInt64.ofNat (leAt 8 1 b) = c.height ∧
        Arr.ofSlice 20 9 b = c.toAddr ∧ BitVec.ofNat 128 (leAt 16 29 b) = c.reward ∧
        BitVec.ofNat 128 (leAt 16 45 b) = c.fees ∧ b.drop 61 = note) ↔
      b.drop 0 = txTypeCoinbase :: (leBytes 8 c.height.toNat ++ (c.toAddr.bytes ++
        (leBytes 16 c.reward.toNat ++ (leBytes 16 c.fees.toNat ++ note)))) := by
    have hlen : 61 ≤ b.length := hlen
    simp (disch := omega) only [drop_eq_cons, drop_eq_u128, drop_eq_u64, drop_eq_bytes,
      Nat.reduceAdd, Nat.zero_add]
    rfl
  rw [List.drop_zero] at hfields
  rw [CoinbaseTx.encode_eq_ok]
  unfold decode
  simp only [Except.bind_eq_ok, Except.require_eq_ok]
  constructor
  · rintro ⟨-, hmin, -, htype, note, hnote, hc⟩
    cases hc
    refine ⟨b.drop 61, AuthorNote.decode_eq_ok.mp hnote, ?_⟩
    exact ((hfields ((Nat.le_add_right _ _).trans hmin) _).mp ⟨htype, rfl, rfl, rfl, rfl, rfl⟩).symm
  · rintro ⟨bytes, hnote, rfl⟩
    have hbytes : authorNoteHeaderBytes ≤ bytes.length := by
      obtain ⟨-, rfl⟩ := AuthorNote.encode_eq_ok.mp hnote
      simp only [List.length_append, List.length_cons, length_leBytes, authorNoteHeaderBytes]
      omega
    have hmin : coinbasePrefixBytes + authorNoteHeaderBytes ≤ (txTypeCoinbase ::
        (leBytes 8 c.height.toNat ++ (c.toAddr.bytes ++ (leBytes 16 c.reward.toNat ++
          (leBytes 16 c.fees.toNat ++ bytes))))).length := by
      simp only [List.length_append, List.length_cons, length_leBytes, Arr.length_eq,
        coinbasePrefixBytes]
      omega
    obtain ⟨htype, hheight, hto, hreward, hfees, hrest⟩ :=
      (hfields ((Nat.le_add_right _ _).trans hmin) bytes).mpr rfl
    refine ⟨(), hmin, (), htype, c.note, ?_, ?_⟩
    · rw [hrest]
      exact AuthorNote.decode_eq_ok.mpr hnote
    · rw [hheight, hto, hreward, hfees]
      rfl

/-! ## Transactions -/

/-- The encoder of the transaction it is. -/
def Tx.encode : Tx → Except CodecError Bytes
  | .coinbase c => c.encode
  | .transfer t => .ok t.encode
  | .announcement a => a.encode

/-- An encoding starts with its type. -/
theorem Tx.encode_head {tx : Tx} (h : tx.encode = .ok b) : b.head? = some tx.typeByte := by
  cases tx with
  | coinbase c =>
    obtain ⟨note, -, rfl⟩ := CoinbaseTx.encode_eq_ok.mp h
    rfl
  | transfer t =>
    cases h
    rfl
  | announcement a =>
    obtain ⟨-, rfl⟩ := AnnouncementTx.encode_eq_ok.mp h
    rfl

theorem decodeTx_eq_ok {tx : Tx} : decodeTx b = .ok tx ↔ tx.encode = .ok b := by
  have hhead : tx.encode = .ok b → b.head? = some tx.typeByte := Tx.encode_head
  have htypes : txTypeTransfer ≠ txTypeCoinbase ∧ txTypeAnnouncement ≠ txTypeCoinbase ∧
      txTypeAnnouncement ≠ txTypeTransfer := by decide
  unfold decodeTx
  cases b with
  | nil => exact iff_of_false (fun h ↦ by cases h) fun h ↦ by cases hhead h
  | cons first rest =>
    rw [List.head?_cons, Option.some_inj] at hhead
    dsimp only
    constructor
    · intro h
      split at h
      case isTrue =>
        obtain ⟨c, hc, rfl⟩ := Except.map_eq_ok.mp h
        exact CoinbaseTx.decode_eq_ok.mp hc
      split at h
      case isTrue =>
        obtain ⟨t, ht, rfl⟩ := Except.map_eq_ok.mp h
        exact congrArg _ (TransferTx.decode_eq_ok.mp ht)
      split at h
      case isTrue =>
        obtain ⟨a, ha, rfl⟩ := Except.map_eq_ok.mp h
        exact AnnouncementTx.decode_eq_ok.mp ha
      case isFalse => cases h
    · intro h
      obtain rfl := hhead h
      cases tx with
      | coinbase c =>
        rw [Tx.typeByte, if_pos rfl]
        exact Except.map_eq_ok.mpr ⟨c, CoinbaseTx.decode_eq_ok.mpr h, rfl⟩
      | transfer t =>
        rw [Tx.typeByte, if_neg htypes.1, if_pos rfl]
        exact Except.map_eq_ok.mpr ⟨t, TransferTx.decode_eq_ok.mpr (Except.ok.inj h), rfl⟩
      | announcement a =>
        rw [Tx.typeByte, if_neg htypes.2.1, if_neg htypes.2.2, if_pos rfl]
        exact Except.map_eq_ok.mpr ⟨a, AnnouncementTx.decode_eq_ok.mpr h, rfl⟩

/-! ## Bodies -/

/-- A record of a body. -/
def record (tx : Bytes) : Bytes := leBytes bodyTxlenBytes tx.length ++ tx

/-- A transaction that may be in a body. -/
def LegalRecord (tx : Bytes) : Prop := tx ≠ [] ∧ tx.length ≤ maxTxBytes

theorem length_record (tx : Bytes) : (record tx).length = bodyTxlenBytes + tx.length := by
  rw [record, List.length_append, length_leBytes]

namespace BlockBody

theorem encodeRecords_eq_ok {txs : List Bytes} : encodeRecords txs = .ok b ↔
    (∀ tx ∈ txs, LegalRecord tx) ∧ txs.flatMap record = b := by
  induction txs generalizing b with
  | nil =>
    rw [encodeRecords, List.flatMap_nil]
    constructor
    · intro h
      exact ⟨fun _ htx ↦ (by cases htx), Except.ok.inj h⟩
    · rintro ⟨-, rfl⟩
      rfl
  | cons tx txs ih =>
    rw [encodeRecords, List.forall_mem_cons, List.flatMap_cons]
    simp only [Except.bind_eq_ok, Except.require_eq_ok, ih]
    constructor
    · rintro ⟨-, htx, _, ⟨htxs, rfl⟩, hb⟩
      cases hb
      exact ⟨⟨htx, htxs⟩, List.append_assoc _ _ _⟩
    · rintro ⟨⟨htx, htxs⟩, rfl⟩
      exact ⟨(), htx, _, ⟨htxs, rfl⟩, congrArg _ (List.append_assoc _ _ _).symm⟩

/-- A string starts with a record if and only if it starts with its length. -/
theorem record_append {tx rest tail : Bytes} (hlen : bodyTxlenBytes ≤ rest.length)
    (htx : tx.length ≤ maxTxBytes) : record tx ++ tail = rest ↔
      leAt bodyTxlenBytes 0 rest = tx.length ∧ tx ++ tail = rest.drop bodyTxlenBytes := by
  have hfield := @drop_eq_leBytes rest (tx ++ tail) 0 bodyTxlenBytes tx.length
    ((Nat.zero_add _).trans_le hlen) (htx.trans_lt (by decide))
  rw [List.drop_zero, Nat.zero_add, ← List.append_assoc] at hfield
  rw [eq_comm, eq_comm (a := tx ++ tail)]
  exact hfield

/-- The loop reads records off the front. -/
theorem parseRecords_eq_ok {rawLen count off last : Nat} {rest : Bytes} {records : List Bytes}
    (hoff : off + rest.length = rawLen) : parseRecords rawLen count off rest = .ok (records, last) ↔
      records.length = count ∧ (∀ tx ∈ records, LegalRecord tx) ∧
        ∃ tail, records.flatMap record ++ tail = rest ∧ last + tail.length = rawLen := by
  induction count generalizing off rest records with
  | zero =>
    rw [parseRecords]
    constructor
    · intro h
      cases h
      exact ⟨rfl, fun _ htx ↦ (by cases htx), rest, rfl, hoff⟩
    · rintro ⟨hlen, -, tail, rfl, hlast⟩
      obtain rfl := List.eq_nil_of_length_eq_zero hlen
      rw [Nat.add_right_cancel (hlast.trans hoff.symm)]
  | succ count ih =>
    rw [parseRecords]
    simp only [Except.bind_eq_ok, Except.require_eq_ok]
    constructor
    · rintro ⟨-, hlenEnd, -, ⟨hne, hmax⟩, -, htxEnd, ⟨records', last'⟩, hrest, h⟩
      cases h
      have hlen : bodyTxlenBytes ≤ rest.length := by omega
      have htake : ((rest.drop bodyTxlenBytes).take (leAt bodyTxlenBytes 0 rest)).length =
          leAt bodyTxlenBytes 0 rest := by
        rw [List.length_take, List.length_drop]
        omega
      obtain ⟨hcount, hlegal, tail, htail, hlast⟩ := (ih (by
        rw [List.length_drop, List.length_drop]
        omega)).mp hrest
      refine ⟨congrArg _ hcount, List.forall_mem_cons.mpr ⟨⟨?_, ?_⟩, hlegal⟩, tail, ?_, hlast⟩
      · intro hnil
        rw [hnil] at htake
        exact hne htake.symm
      · rwa [htake]
      · rw [List.flatMap_cons, List.append_assoc, htail,
          record_append hlen (by rwa [htake]), htake]
        exact ⟨rfl, List.take_append_drop _ _⟩
    · rintro ⟨hcount, hlegal, tail, hrest, hlast⟩
      cases records with
      | nil => cases hcount
      | cons tx records =>
        obtain ⟨⟨hne, hmax⟩, hlegal⟩ := List.forall_mem_cons.mp hlegal
        rw [List.flatMap_cons, List.append_assoc] at hrest
        have hsize := congrArg List.length hrest
        rw [List.length_append, length_record] at hsize
        have hlen : bodyTxlenBytes ≤ rest.length := by omega
        obtain ⟨htxLen, hdrop⟩ := (record_append hlen hmax).mp hrest
        have hpos := List.length_pos_iff.mpr hne
        refine ⟨(), by omega, (), ⟨by omega, by omega⟩, (), by omega, (records, last), ?_, ?_⟩
        · refine (ih ?_).mpr ⟨Nat.succ.inj hcount, hlegal, tail, ?_, hlast⟩
          · rw [List.length_drop, List.length_drop, htxLen]
            omega
          · rw [htxLen, ← hdrop, List.drop_left]
        · rw [htxLen, ← hdrop, List.take_left]
          rfl

/-- A body within the limits of a block. -/
structure WithinLimits (txs : List Bytes) : Prop where
  count : txs ≠ [] ∧ txs.length ≤ maxTxsPerBlock
  records : ∀ tx ∈ txs, LegalRecord tx
  size : bodyCountBytes + (txs.flatMap record).length + headerBytes ≤ maxBlockBytes

theorem encode_eq_ok {txs : List Bytes} : encode txs = .ok b ↔
    WithinLimits txs ∧ leBytes bodyCountBytes txs.length ++ txs.flatMap record = b := by
  unfold encode
  simp only [Except.bind_eq_ok, Except.require_eq_ok, encodeRecords_eq_ok]
  have hlen : (leBytes bodyCountBytes txs.length ++ txs.flatMap record).length =
      bodyCountBytes + (txs.flatMap record).length := by rw [List.length_append, length_leBytes]
  constructor
  · rintro ⟨-, hcount, _, ⟨hlegal, rfl⟩, -, hsize, h⟩
    rw [hlen] at hsize
    exact ⟨⟨hcount, hlegal, hsize⟩, Except.ok.inj h⟩
  · rintro ⟨h, rfl⟩
    exact ⟨(), h.count, _, ⟨h.records, rfl⟩, (), hlen ▸ h.size, rfl⟩

/-- Every record has its length and a byte. -/
theorem WithinLimits.length_ge {txs : List Bytes} (h : WithinLimits txs) :
    txs.length * bodyMinRecordBytes ≤ (txs.flatMap record).length := by
  obtain ⟨-, hrecords, -⟩ := h
  induction txs with
  | nil => exact (Nat.zero_mul _).le
  | cons tx txs ih =>
    obtain ⟨⟨hne, -⟩, hrecords⟩ := List.forall_mem_cons.mp hrecords
    have hpos := List.length_pos_iff.mpr hne
    rw [List.flatMap_cons, List.length_append, length_record, List.length_cons, Nat.succ_mul,
      Nat.add_comm]
    exact Nat.add_le_add (Nat.add_le_add_left hpos _) (ih hrecords)

/-- The gate never rejects an encoding. -/
theorem gate_le {txs : List Bytes} (h : encode txs = .ok raw) :
    leAt bodyCountBytes 0 raw = txs.length ∧
      bodyCountBytes + leAt bodyCountBytes 0 raw * bodyMinRecordBytes ≤ raw.length := by
  obtain ⟨hlimits, rfl⟩ := encode_eq_ok.mp h
  have hcount : leAt bodyCountBytes 0
      (leBytes bodyCountBytes txs.length ++ txs.flatMap record) = txs.length :=
    leAt_append bodyCountBytes txs.length [] _ rfl (hlimits.count.2.trans_lt (by decide))
  rw [hcount, List.length_append, length_leBytes]
  exact ⟨rfl, Nat.add_le_add_left hlimits.length_ge _⟩

/-- What is parsed is an encoding of the records that are found. -/
theorem parse_eq_ok {body : BlockBody} :
    parse raw = .ok body ↔ body.raw = raw ∧ encode body.records = .ok raw := by
  unfold parse
  simp only [Except.bind_eq_ok, Except.require_eq_ok]
  have hoff (h : bodyCountBytes ≤ raw.length) :
      bodyCountBytes + (raw.drop bodyCountBytes).length = raw.length := by
    rw [List.length_drop, Nat.add_sub_cancel' h]
  have hfield (h : bodyCountBytes ≤ raw.length) (txs : List Bytes)
      (hcount : txs.length ≤ maxTxsPerBlock) (r : Bytes) :
      raw = leBytes bodyCountBytes txs.length ++ r ↔
        leAt bodyCountBytes 0 raw = txs.length ∧ raw.drop bodyCountBytes = r :=
    @drop_eq_leBytes raw r 0 bodyCountBytes txs.length ((Nat.zero_add _).trans_le h) (hcount.trans_lt (by decide))
  constructor
  · rintro ⟨-, hsize, -, hlen, -, ⟨hne, hmax⟩, -, -, ⟨records, last⟩, hrecords, -, rfl, h⟩
    cases h
    obtain ⟨hcount, hlegal, tail, htail, hlast⟩ := (parseRecords_eq_ok (hoff hlen)).mp hrecords
    obtain rfl := List.eq_nil_of_length_eq_zero (Nat.add_eq_left.mp hlast)
    rw [List.append_nil] at htail
    have hraw := (hfield hlen records (hcount ▸ hmax) _).mpr ⟨hcount.symm, htail.symm⟩
    refine ⟨rfl, encode_eq_ok.mpr ⟨⟨⟨?_, hcount ▸ hmax⟩, hlegal, ?_⟩, hraw.symm⟩⟩
    · rintro rfl
      exact hne hcount.symm
    · rwa [htail, hoff hlen]
  · rintro ⟨rfl, h⟩
    obtain ⟨hcount, hgate⟩ := gate_le h
    obtain ⟨hlimits, hraw⟩ := encode_eq_ok.mp h
    have hlen : bodyCountBytes ≤ body.raw.length := Nat.le_of_add_right_le hgate
    obtain ⟨-, hdrop⟩ := (hfield hlen body.records hlimits.count.2 _).mp hraw.symm
    have hsize := hlimits.size
    rw [← hdrop, hoff hlen] at hsize
    refine ⟨(), hsize, (), hlen, (), ⟨?_, hcount ▸ hlimits.count.2⟩, (), hgate,
      (body.records, body.raw.length), ?_, (), rfl, rfl⟩
    · rw [hcount, Ne, List.length_eq_zero_iff]
      exact hlimits.count.1
    · exact (parseRecords_eq_ok (hoff hlen)).mpr
        ⟨hcount.symm, hlimits.records, [], by rw [List.append_nil, hdrop], rfl⟩

end BlockBody

/-- The decoders accept the encodings and nothing else, and the encoders fail on nothing within the
limits. -/
theorem wire_bijection :
    (∀ h b, Header.decode b = .ok h ↔ h.encode.bytes = b) ∧
    (∀ t b, TransferTx.decode b = .ok t ↔ t.encode = b) ∧
    (∀ a b, AnnouncementTx.decode b = .ok a ↔ a.encode = .ok b) ∧
    (∀ n b, AuthorNote.decode b = .ok n ↔ n.encode = .ok b) ∧
    (∀ c b, CoinbaseTx.decode b = .ok c ↔ c.encode = .ok b) ∧
    (∀ tx b, decodeTx b = .ok tx ↔ tx.encode = .ok b) ∧
    (∀ body raw, BlockBody.parse raw = .ok body ↔
      body.raw = raw ∧ BlockBody.encode body.records = .ok raw) ∧
    (∀ txs raw, BlockBody.encode txs = .ok raw →
      bodyCountBytes + leAt bodyCountBytes 0 raw * bodyMinRecordBytes ≤ raw.length) ∧
    (∀ a, (∃ b, AnnouncementTx.encode a = .ok b) ↔
      announcementMinPayloadBytes ≤ a.payload.length ∧
        a.payload.length ≤ announcementMaxPayloadBytes) ∧
    (∀ n, (∃ b, AuthorNote.encode n = .ok b) ↔ n.payload.length ≤ authorNoteMaxBytes) ∧
    (∀ c, (∃ b, CoinbaseTx.encode c = .ok b) ↔ c.note.payload.length ≤ authorNoteMaxBytes) ∧
    ∀ txs, (∃ raw, BlockBody.encode txs = .ok raw) ↔ BlockBody.WithinLimits txs := by
  refine ⟨fun _ _ ↦ Header.decode_eq_ok, fun _ _ ↦ TransferTx.decode_eq_ok,
    fun _ _ ↦ AnnouncementTx.decode_eq_ok, fun _ _ ↦ AuthorNote.decode_eq_ok,
    fun _ _ ↦ CoinbaseTx.decode_eq_ok, fun _ _ ↦ decodeTx_eq_ok, fun _ _ ↦ BlockBody.parse_eq_ok,
    fun _ _ h ↦ (BlockBody.gate_le h).2, ?_, ?_, ?_, ?_⟩
  · intro a
    simp only [AnnouncementTx.encode_eq_ok, exists_and_left, exists_eq', and_true]
  · intro n
    simp only [AuthorNote.encode_eq_ok, exists_and_left, exists_eq', and_true]
  · intro c
    simp only [CoinbaseTx.encode_eq_ok, AuthorNote.encode_eq_ok]
    constructor
    · rintro ⟨_, _, ⟨h, -⟩, -⟩
      exact h
    · intro h
      exact ⟨_, _, ⟨h, rfl⟩, rfl⟩
  · intro txs
    simp only [BlockBody.encode_eq_ok, exists_and_left, exists_eq', and_true]

end Plaine.Consensus

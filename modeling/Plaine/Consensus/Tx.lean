import Plaine.Consensus.Codec
import Plaine.Lib.Checked
import Plaine.Lib.Ledger

/-!
# Transactions and emission

`tx.rs`, `emission.rs` and the signature checks of `crypto.rs`: the checks on a decoded
body that need no account, and the two that read the sender's account alone.
-/

namespace Plaine.Consensus

open Plaine.Lib

/-! ## Emission -/

/-- `emission::subsidy`. -/
def subsidy (height : Nat) : Nat := if height = 0 then 0 else blockSubsidy

/-- `emission::block_reward`. -/
def blockReward (height : Nat) : Nat := subsidy height

/-- `emission::issued_through`. -/
def issuedThrough (height : Nat) : Nat := height * blockSubsidy

@[simp] theorem issuedThrough_zero : issuedThrough 0 = 0 := Nat.zero_mul _

theorem issuedThrough_succ (height : Nat) :
    issuedThrough (height + 1) = issuedThrough height + blockReward (height + 1) := by
  simp [issuedThrough, blockReward, subsidy, Nat.succ_mul]

/-- The whole supply stays far inside `u128`, whatever the height. -/
theorem issuedThrough_lt {height : Nat} (h : height ≤ u64Max) :
    issuedThrough height < 2 ^ 82 := by
  simp only [issuedThrough, blockSubsidy, u64Max] at *
  omega

/-! ## Stateless checks -/

/-- `TxError`. -/
inductive TxError where
  | notAuthorKey
  | badSignature
  | announcementLength (len : Nat)
  | feeBelowFloor (fee : Nat)
  | badNonce (expected got : Nat)
  | insufficientBalance (need have' : Nat)
  | amountOverflow
  | feeSumOverflow
  | recordDoesNotDecode (index : Nat) (err : CodecError)
  | missingCoinbase
  | misplacedCoinbase (index : Nat)
  | coinbaseHeightMismatch (header coinbase : Nat)
  | coinbaseRewardMismatch (expected got : Nat)
  | coinbaseFeesMismatch (expected got : Nat)
  | authorNoteLenMismatch (header coinbase : Nat)
  | authorNoteTooLong (len : Nat)
deriving DecidableEq

section Signatures

variable [Crypto]

/-- `crypto::transfer_signing_message`. -/
def transferSigningMessage (network : Network) (t : TransferTx) : Hash32 :=
  signingMessage network t.fromPub t.toAddr t.amount t.fee t.nonce

/-- `crypto::verify_transfer_signature`. -/
def verifyTransferSignature (network : Network) (t : TransferTx) : Except SigError Unit :=
  verifySignature t.fromPub (transferSigningMessage network t).bytes t.sig

/-- `crypto::announcement_message_of`. -/
def announcementMessageOf (network : Network) (a : AnnouncementTx) :
    Except CodecError Hash32 := do
  let length ← a.checkPayloadLen
  return announcementSigningMessage network a.fromPub a.fee a.nonce a.encoding length a.payload

/-- `crypto::verify_announcement_signature`. -/
def verifyAnnouncementSignature (network : Network) (a : AnnouncementTx) :
    Except SigError Unit := do
  let msg ← (announcementMessageOf network a).mapError fun _ ↦ .invalidSignature
  verifySignature a.fromPub msg.bytes a.sig

/-- `tx::check_announcement_stateless`.  The announcement channel is the author's alone: a
valid signature under any other key is refused here. -/
def checkAnnouncementStateless (network : Network) (a : AnnouncementTx)
    (authorPubkey : Arr 32) : Except TxError Unit := do
  Except.require (a.fromPub = authorPubkey) .notAuthorKey
  let _ ← a.checkPayloadLen.mapError fun _ ↦ .announcementLength a.payload.length
  (verifyAnnouncementSignature network a).mapError fun _ ↦ .badSignature

end Signatures

/-! ## Checks on the sender's account

`AccountState` and the chain crate's `Account` are field for field the same; both are the
`Account` of `Lib/Ledger`. -/

/-- `tx::check_announcement_stateful`. -/
def checkAnnouncementStateful (a : AnnouncementTx) (acct : Account) (spendable : Nat) :
    Except TxError Unit := do
  Except.require (feeFloorMile ≤ a.fee.toNat) (.feeBelowFloor a.fee.toNat)
  Except.require (a.nonce.toNat = acct.nonce) (.badNonce acct.nonce a.nonce.toNat)
  Except.require (a.fee.toNat ≤ spendable) (.insufficientBalance a.fee.toNat spendable)

/-- `tx::apply_announcement`. -/
def applyAnnouncement (acct : Account) (a : AnnouncementTx) : Except TxError Account := do
  let balance ← Except.ofOption (.insufficientBalance a.fee.toNat acct.balance)
    (checkedSub acct.balance a.fee.toNat)
  let nonce ← Except.ofOption .amountOverflow (checkedAdd u64Max acct.nonce 1)
  return { balance, nonce }

/-! ## Checks on the body -/

/-- `tx::block_fee_total`. -/
def blockFeeTotal (txs : List Tx) : Except TxError Nat :=
  txs.foldlM (fun total tx ↦
    Except.ofOption .feeSumOverflow (checkedAdd u128Max total tx.fee)) 0

/-- The scan for a second coinbase in `tx::check_body_structure`, from index `i` on. -/
def checkNoCoinbase : Nat → List Tx → Except TxError Unit
  | _, [] => .ok ()
  | i, tx :: txs => do
    Except.require (tx.typeByte ≠ txTypeCoinbase) (.misplacedCoinbase i)
    checkNoCoinbase (i + 1) txs

/-- `tx::check_body_structure`: one coinbase, at index 0 only. -/
def checkBodyStructure : List Tx → Except TxError CoinbaseTx
  | .coinbase cb :: txs => do
    checkNoCoinbase 1 txs
    return cb
  | _ => .error .missingCoinbase

/-- The record loop of `tx::decode_body`, from index `i` on. -/
def decodeRecords : Nat → List Bytes → Except TxError (List Tx)
  | _, [] => .ok []
  | i, record :: records => do
    let tx ← (decodeTx record).mapError (.recordDoesNotDecode i)
    let txs ← decodeRecords (i + 1) records
    return tx :: txs

/-- `tx::decode_body`. -/
def decodeBody (body : BlockBody) : Except TxError (List Tx) := decodeRecords 0 body.records

/-- `tx::check_coinbase`.  The reward is matched exactly, so issuance stays a function of
the height. -/
def checkCoinbase (cb : CoinbaseTx) (headerHeight : Nat) (headerAuthorNoteLen : Nat)
    (feeTotal : Nat) : Except TxError Unit := do
  Except.require (cb.height.toNat = headerHeight)
    (.coinbaseHeightMismatch headerHeight cb.height.toNat)
  let expected := blockReward headerHeight
  Except.require (cb.reward.toNat = expected) (.coinbaseRewardMismatch expected cb.reward.toNat)
  Except.require (cb.fees.toNat = feeTotal) (.coinbaseFeesMismatch feeTotal cb.fees.toNat)
  let noteLen := cb.note.payload.length
  Except.require (noteLen ≤ authorNoteMaxBytes) (.authorNoteTooLong noteLen)
  Except.require (headerAuthorNoteLen = noteLen)
    (.authorNoteLenMismatch headerAuthorNoteLen noteLen)

/-- `tx::coinbase_credit`. -/
def coinbaseCredit (cb : CoinbaseTx) : Except TxError Nat :=
  Except.ofOption .amountOverflow (checkedAdd u128Max cb.reward.toNat cb.fees.toNat)

/-! ## What acceptance says -/

/-- The scan passes exactly the lists without a coinbase. -/
theorem checkNoCoinbase_eq_ok {i : Nat} {txs : List Tx} {u : Unit} :
    checkNoCoinbase i txs = .ok u ↔ ∀ tx ∈ txs, ∀ cb, tx ≠ .coinbase cb := by
  induction txs generalizing i with
  | nil => simp [checkNoCoinbase]
  | cons tx txs ih =>
    have htx : tx.typeByte ≠ txTypeCoinbase ↔ ∀ cb, tx ≠ .coinbase cb := by
      cases tx with
      | coinbase cb => simp [Tx.typeByte]
      | transfer t => simp [Tx.typeByte, txTypeTransfer, txTypeCoinbase]
      | announcement a => simp [Tx.typeByte, txTypeAnnouncement, txTypeCoinbase]
    simp only [checkNoCoinbase, Except.bind_eq_ok, Except.require_eq_ok, ih,
      List.forall_mem_cons, htx]
    tauto

/-- A body passes the structure check when it is a coinbase followed by no other. -/
theorem checkBodyStructure_eq_ok {txs : List Tx} {cb : CoinbaseTx} :
    checkBodyStructure txs = .ok cb ↔
      ∃ rest, txs = .coinbase cb :: rest ∧ ∀ tx ∈ rest, ∀ cb', tx ≠ .coinbase cb' := by
  cases txs with
  | nil => simp [checkBodyStructure]
  | cons tx rest =>
    cases tx with
    | coinbase cb' =>
      simp only [checkBodyStructure, Except.bind_eq_ok, checkNoCoinbase_eq_ok]
      constructor
      · rintro ⟨u, h, hcb⟩
        cases hcb
        exact ⟨rest, rfl, h⟩
      · rintro ⟨rest', heq, h⟩
        cases heq
        exact ⟨(), h, rfl⟩
    | transfer t => simp [checkBodyStructure]
    | announcement a => simp [checkBodyStructure]

/-- A decoded body has one transaction for each record. -/
theorem decodeRecords_length {i : Nat} {records : List Bytes} {txs : List Tx}
    (h : decodeRecords i records = .ok txs) : txs.length = records.length := by
  induction records generalizing i txs with
  | nil => cases h; rfl
  | cons record records ih =>
    simp only [decodeRecords, Except.bind_eq_ok] at h
    obtain ⟨tx, -, rest, hrest, h⟩ := h
    cases h
    simp [ih hrest]

/-- Every transaction of a decoded body is what some record decodes to. -/
theorem decodeRecords_mem {i : Nat} {records : List Bytes} {txs : List Tx}
    (h : decodeRecords i records = .ok txs) {tx : Tx} (htx : tx ∈ txs) :
    ∃ record ∈ records, decodeTx record = .ok tx := by
  induction records generalizing i txs with
  | nil => cases h; cases htx
  | cons record records ih =>
    simp only [decodeRecords, Except.bind_eq_ok, Except.mapError_eq_ok] at h
    obtain ⟨tx', htx', rest, hrest, h⟩ := h
    cases h
    rcases List.mem_cons.mp htx with rfl | htx
    · exact ⟨record, List.mem_cons_self, htx'⟩
    · obtain ⟨r, hr, hd⟩ := ih hrest htx
      exact ⟨r, List.mem_cons_of_mem _ hr, hd⟩

/-- The fee total is the exact sum, and refused only when that is out of range. -/
theorem blockFeeTotal_eq_ok {txs : List Tx} {total : Nat} :
    blockFeeTotal txs = .ok total ↔
      total = (txs.map Tx.fee).sum ∧ (txs.map Tx.fee).sum ≤ u128Max := by
  have key : ∀ (l : List Tx) (acc : Nat), acc ≤ u128Max →
      (l.foldlM (fun total tx ↦
        Except.ofOption TxError.feeSumOverflow (checkedAdd u128Max total tx.fee)) acc = .ok total ↔
        total = acc + (l.map Tx.fee).sum ∧ acc + (l.map Tx.fee).sum ≤ u128Max) := by
    intro l
    induction l with
    | nil =>
      intro acc hacc
      simp only [List.foldlM_nil, List.map_nil, List.sum_nil, Nat.add_zero, hacc, and_true]
      exact ⟨fun h ↦ (Except.ok.inj h).symm, fun h ↦ h ▸ rfl⟩
    | cons tx l ih =>
      intro acc hacc
      simp only [List.foldlM_cons_eq_ok, Except.ofOption_eq_ok, checkedAdd_eq_some,
        List.map_cons, List.sum_cons]
      constructor
      · rintro ⟨m, ⟨hle, rfl⟩, hl⟩
        have := (ih _ hle).mp hl
        omega
      · rintro ⟨rfl, hle⟩
        have hm : acc + tx.fee ≤ u128Max := by omega
        exact ⟨_, ⟨hm, rfl⟩, (ih _ hm).mpr (by omega)⟩
  simpa [blockFeeTotal] using key txs 0 (Nat.zero_le _)

/-- The coinbase check passes when every field is the expected one. -/
theorem checkCoinbase_eq_ok {cb : CoinbaseTx} {height noteLen fees : Nat} {u : Unit} :
    checkCoinbase cb height noteLen fees = .ok u ↔
      cb.height.toNat = height ∧ cb.reward.toNat = blockReward height ∧
      cb.fees.toNat = fees ∧ cb.note.payload.length ≤ authorNoteMaxBytes ∧
      noteLen = cb.note.payload.length := by
  simp [checkCoinbase, Except.bind_eq_ok]

theorem coinbaseCredit_eq_ok {cb : CoinbaseTx} {credit : Nat} :
    coinbaseCredit cb = .ok credit ↔
      cb.reward.toNat + cb.fees.toNat ≤ u128Max ∧ credit = cb.reward.toNat + cb.fees.toNat := by
  simp [coinbaseCredit, checkedAdd_eq_some]

/-- The announcement checks, taken together with the update they guard. -/
theorem checkAnnouncementStateful_eq_ok {a : AnnouncementTx} {acct : Account}
    {spendable : Nat} {u : Unit} :
    checkAnnouncementStateful a acct spendable = .ok u ↔
      feeFloorMile ≤ a.fee.toNat ∧ a.nonce.toNat = acct.nonce ∧ a.fee.toNat ≤ spendable := by
  simp [checkAnnouncementStateful, Except.bind_eq_ok]

theorem applyAnnouncement_eq_ok {acct next : Account} {a : AnnouncementTx} :
    applyAnnouncement acct a = .ok next ↔
      a.fee.toNat ≤ acct.balance ∧ acct.nonce + 1 ≤ u64Max ∧
      next = ⟨acct.balance - a.fee.toNat, acct.nonce + 1⟩ := by
  simp only [applyAnnouncement, Except.bind_eq_ok, Except.ofOption_eq_ok, checkedSub_eq_some,
    checkedAdd_eq_some]
  constructor
  · rintro ⟨b, ⟨hb, rfl⟩, n, ⟨hn, rfl⟩, h⟩
    exact ⟨hb, hn, (Except.ok.inj h).symm⟩
  · rintro ⟨hb, hn, rfl⟩
    exact ⟨_, ⟨hb, rfl⟩, _, ⟨hn, rfl⟩, rfl⟩

end Plaine.Consensus

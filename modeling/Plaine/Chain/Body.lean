import Plaine.Chain.State

/-!
# Body validation

`body.rs`.  `validate_block_body` is one long function; it is cut here where it first
touches the overlay.  `checkBody` is the part that reads the body, the header and the
parameters alone, `connectTxs` the loop over the transactions, and `validateBlockBody` the
whole.

What the loop does to the accounts is said once, in `connectTxs_posts`: it posts the body's
entries to the book, every one of them honoured next to the immature amounts.
-/

namespace Plaine.Chain

open Plaine.Lib Plaine.Lib.Ledger Plaine.Consensus

/-- `ValidatedBlock`. -/
structure ValidatedBlock where
  deltas : List StateDelta
  undo : List UndoRec
  issuedDelta : Nat
  coinbaseTo : Address
  coinbaseCredit : Nat
  txids : List Hash32
  spentNonces : List (Address × Nat)
  nonCoinbaseBytes : List Bytes
deriving DecidableEq

/-- What `validate_block_body` has read off a body by the time it touches the overlay. -/
structure CheckedBody where
  body : BlockBody
  txs : List Tx
  cb : CoinbaseTx
  credit : Nat
deriving DecidableEq

/-- The accumulators of the transaction loop. -/
structure Connect where
  overlay : Overlay
  txids : List Hash32
  spentNonces : List (Address × Nat)
  nonCoinbaseBytes : List Bytes

variable [Crypto]

/-! ## Checks that need no account -/

/-- The check of one transaction of an untrusted body. -/
def checkSignature (params : ChainParams) (i : Nat) : Tx → Except Reject Unit
  | .coinbase _ => .ok ()
  | .transfer t => (verifyTransferSignature params.network t).mapError
      fun _ ↦ .badTransferSignature i
  | .announcement a => (checkAnnouncementStateless params.network a params.authorPubkey).mapError
      fun err ↦ .tx i err

/-- The check of one transaction of a body from our own store, whose signatures were verified
when it was first accepted. -/
def checkAuthorKey (params : ChainParams) (i : Nat) : Tx → Except Reject Unit
  | .announcement a => Except.require (a.fromPub = params.authorPubkey) (.tx i .notAuthorKey)
  | _ => .ok ()

/-- Run a check over the transactions, from index `i` on. -/
def checkEach (check : Nat → Tx → Except Reject Unit) : Nat → List Tx → Except Reject Unit
  | _, [] => .ok ()
  | i, tx :: txs => do
    check i tx
    checkEach check (i + 1) txs

/-- The index `validate_block_body` reports a decoding error at. -/
def decodeErrorIndex : TxError → Nat
  | .recordDoesNotDecode index _ => index
  | _ => 0

/-- `validate_block_body` up to `overlay.begin_block()`. -/
def checkBody (header : Header) (rawBody : Bytes) (params : ChainParams) (trust : Trust) :
    Except Reject CheckedBody := do
  let body ← (BlockBody.parse rawBody).mapError fun _ ↦ .bodyStructure "body envelope"
  let txs ← (decodeBody body).mapError fun e ↦ .tx (decodeErrorIndex e) e
  let cb ← (checkBodyStructure txs).mapError fun e ↦ .tx 0 e
  Except.require (body.txRoot = header.txRoot) .txRootMismatch
  checkEach (match trust with
    | .untrusted => checkSignature params
    | .ourStore => checkAuthorKey params) 0 txs
  let feeTotal ← (blockFeeTotal txs).mapError fun e ↦ .tx 0 e
  (checkCoinbase cb header.height.toNat header.authorNoteLen.toNat feeTotal).mapError
    fun e ↦ .tx 0 e
  let credit ← (coinbaseCredit cb).mapError fun e ↦ .tx 0 e
  return { body, txs, cb, credit }

/-! ## The transaction loop -/

/-- `validate_block_body`'s arm for a transfer. -/
def connectTransfer (ledger : CoinbaseLedger) (height i : Nat) (raw : Bytes) (t : TransferTx)
    (c : Connect) : Except Reject Connect := do
  Except.require (feeFloorMile ≤ t.fee.toNat) (.feeBelowFloor i)
  let sender := addressPayload t.fromPub
  let (acct, overlay) := c.overlay.get sender
  Except.require (acct.nonce = t.nonce.toNat) (.badNonce i acct.nonce t.nonce.toNat)
  let outlay ← Except.ofOption .arithmeticOverflow
    (checkedAdd u128Max t.amount.toNat t.fee.toNat)
  let spendable := ledger.spendable sender acct.balance height
  Except.require (outlay ≤ spendable) (.insufficientBalance i outlay spendable)
  let balance ← Except.ofOption .arithmeticOverflow (checkedSub acct.balance outlay)
  let nonce ← Except.ofOption .arithmeticOverflow (checkedAdd u64Max acct.nonce 1)
  let overlay ← (overlay.set sender { balance, nonce }).credit t.toAddr t.amount.toNat
  return {
    overlay
    txids := c.txids ++ [t.txid]
    spentNonces := c.spentNonces ++ [(sender, t.nonce.toNat)]
    nonCoinbaseBytes := c.nonCoinbaseBytes ++ [raw] }

/-- `validate_block_body`'s arm for an announcement. -/
def connectAnnouncement (ledger : CoinbaseLedger) (height i : Nat) (raw : Bytes)
    (a : AnnouncementTx) (c : Connect) : Except Reject Connect := do
  let sender := addressPayload a.fromPub
  let (acct, overlay) := c.overlay.get sender
  let spendable := ledger.spendable sender acct.balance height
  (checkAnnouncementStateful a acct spendable).mapError fun err ↦ .tx i err
  let next ← (applyAnnouncement acct a).mapError fun err ↦ .tx i err
  let txid ← a.txid.mapError fun _ ↦ .bodyStructure "ann txid"
  return {
    overlay := overlay.set sender next
    txids := c.txids ++ [txid]
    spentNonces := c.spentNonces ++ [(sender, a.nonce.toNat)]
    nonCoinbaseBytes := c.nonCoinbaseBytes ++ [raw] }

/-- The body of `validate_block_body`'s loop. -/
def connectTx (ledger : CoinbaseLedger) (height i : Nat) (raw : Bytes) (tx : Tx) (c : Connect) :
    Except Reject Connect :=
  match tx with
  -- `unreachable!` in the source: the structure check refused a second coinbase.
  | .coinbase _ => .error (.tx i (.misplacedCoinbase i))
  | .transfer t => connectTransfer ledger height i raw t c
  | .announcement a => connectAnnouncement ledger height i raw a c

/-- The loop, from index `i` on, over transactions paired with their records. -/
def connectTxs (ledger : CoinbaseLedger) (height : Nat) :
    Nat → List (Tx × Bytes) → Connect → Except Reject Connect
  | _, [], c => .ok c
  | i, (tx, raw) :: txs, c => do
    let c ← connectTx ledger height i raw tx c
    connectTxs ledger height (i + 1) txs c

/-- The part of `validate_block_body` that works on the overlay. -/
def connectBody (overlay : Overlay) (ledger : CoinbaseLedger) (height : Nat) (c : CheckedBody) :
    Except Reject (ValidatedBlock × Overlay × CoinbaseLedger) := do
  let overlay ← overlay.beginBlock.credit c.cb.toAddr c.credit
  let ledger := ledger.push height c.cb.toAddr c.credit
  let cbTxid ← c.cb.txid.mapError fun _ ↦ .bodyStructure "coinbase txid"
  let done ← connectTxs ledger height 1 ((c.txs.zip c.body.records).drop 1)
    { overlay, txids := [cbTxid], spentNonces := [], nonCoinbaseBytes := [] }
  let (deltas, overlay) := done.overlay.deltas
  return ({
    deltas
    undo := done.overlay.undoRecords
    issuedDelta := c.cb.reward.toNat
    coinbaseTo := c.cb.toAddr
    coinbaseCredit := c.credit
    txids := done.txids
    spentNonces := done.spentNonces
    nonCoinbaseBytes := done.nonCoinbaseBytes }, overlay, ledger)

/-- `validate_block_body`. -/
def validateBlockBody (overlay : Overlay) (ledger : CoinbaseLedger) (header : Header)
    (rawBody : Bytes) (params : ChainParams) (trust : Trust) :
    Except Reject (ValidatedBlock × Overlay × CoinbaseLedger) := do
  let c ← checkBody header rawBody params trust
  connectBody overlay ledger header.height.toNat c

/-! ## What acceptance says -/

theorem validateBlockBody_eq_ok {overlay : Overlay} {ledger : CoinbaseLedger} {header : Header}
    {rawBody : Bytes} {params : ChainParams} {trust : Trust}
    {r : ValidatedBlock × Overlay × CoinbaseLedger} :
    validateBlockBody overlay ledger header rawBody params trust = .ok r ↔
      ∃ c, checkBody header rawBody params trust = .ok c ∧
        connectBody overlay ledger header.height.toNat c = .ok r := by
  rw [validateBlockBody, Except.bind_eq_ok]

omit [Crypto] in
/-- The check passes when it passes at every transaction. -/
theorem checkEach_eq_ok {check : Nat → Tx → Except Reject Unit} {i : Nat} {txs : List Tx}
    {u : Unit} :
    checkEach check i txs = .ok u ↔
      ∀ j (h : j < txs.length), check (i + j) txs[j] = .ok () := by
  induction txs generalizing i with
  | nil => simp [checkEach]
  | cons tx txs ih =>
    simp only [checkEach, Except.bind_eq_ok, ih, List.length_cons]
    constructor
    · rintro ⟨_, h0, h⟩ j hj
      cases j with
      | zero => exact h0
      | succ j =>
        have := h j (by omega)
        rwa [Nat.add_assoc, Nat.add_comm 1 j] at this
    · intro h
      refine ⟨(), h 0 (by omega), fun j hj ↦ ?_⟩
      have := h (j + 1) (by omega)
      rwa [Nat.add_assoc, Nat.add_comm 1 j]

/-- Everything `checkBody` establishes about what it returns. -/
theorem checkBody_eq_ok {header : Header} {rawBody : Bytes} {params : ChainParams}
    {trust : Trust} {c : CheckedBody} :
    checkBody header rawBody params trust = .ok c ↔
      BlockBody.parse rawBody = .ok c.body ∧ decodeBody c.body = .ok c.txs ∧
      checkBodyStructure c.txs = .ok c.cb ∧ c.body.txRoot = header.txRoot ∧
      checkEach (match trust with
        | .untrusted => checkSignature params
        | .ourStore => checkAuthorKey params) 0 c.txs = .ok () ∧
      (c.txs.map Tx.fee).sum ≤ u128Max ∧
      checkCoinbase c.cb header.height.toNat header.authorNoteLen.toNat
        (c.txs.map Tx.fee).sum = .ok () ∧
      coinbaseCredit c.cb = .ok c.credit := by
  simp only [checkBody, Except.bind_eq_ok, Except.mapError_eq_ok, Except.require_eq_ok,
    blockFeeTotal_eq_ok]
  constructor
  · rintro ⟨body, hb, txs, ht, cb, hs, _, hr, _, hc, fees, ⟨rfl, hf⟩, _, hcb, credit, hcr, h⟩
    cases h
    exact ⟨hb, ht, hs, hr, hc, hf, hcb, hcr⟩
  · rintro ⟨hb, ht, hs, hr, hc, hf, hcb, hcr⟩
    exact ⟨_, hb, _, ht, _, hs, (), hr, (), hc, _, ⟨rfl, hf⟩, (), hcb, _, hcr, rfl⟩

/-! ## The entries of a body -/

/-- What a transaction posts to the book: the sender's outlay, then what a transfer pays. -/
def txEntries : Tx → List (Entry Address)
  | .coinbase _ => []
  | .transfer t => [.debit (addressPayload t.fromPub) (t.amount.toNat + t.fee.toNat)
      t.nonce.toNat, .credit t.toAddr t.amount.toNat]
  | .announcement a => [.debit (addressPayload a.fromPub) a.fee.toNat a.nonce.toNat]

/-- What a body posts to the book: the coinbase first. -/
def CheckedBody.entries (c : CheckedBody) : List (Entry Address) :=
  .credit c.cb.toAddr c.credit :: (c.txs.drop 1).flatMap txEntries

/-- The arm for a transfer, with everything it demands. -/
theorem connectTransfer_eq_ok {ledger : CoinbaseLedger} {height i : Nat} {raw : Bytes}
    {t : TransferTx} {c c' : Connect} :
    connectTransfer ledger height i raw t c = .ok c' ↔
      feeFloorMile ≤ t.fee.toNat ∧
      (c.overlay.view (addressPayload t.fromPub)).nonce = t.nonce.toNat ∧
      t.amount.toNat + t.fee.toNat ≤ u128Max ∧
      t.amount.toNat + t.fee.toNat ≤ ledger.spendable (addressPayload t.fromPub)
        (c.overlay.view (addressPayload t.fromPub)).balance height ∧
      t.nonce.toNat + 1 ≤ u64Max ∧
      ∃ o, ((c.overlay.get (addressPayload t.fromPub)).2.set (addressPayload t.fromPub)
          ⟨(c.overlay.view (addressPayload t.fromPub)).balance -
            (t.amount.toNat + t.fee.toNat), t.nonce.toNat + 1⟩).credit t.toAddr
            t.amount.toNat = .ok o ∧
        c' = ⟨o, c.txids ++ [t.txid],
          c.spentNonces ++ [(addressPayload t.fromPub, t.nonce.toNat)],
          c.nonCoinbaseBytes ++ [raw]⟩ := by
  simp only [connectTransfer, Except.bind_eq_ok, Except.require_eq_ok, Except.ofOption_eq_ok,
    checkedAdd_eq_some, checkedSub_eq_some, Overlay.get_fst]
  constructor
  · rintro ⟨_, hf, _, hn, out, ⟨ho, rfl⟩, _, hs, b, ⟨_, rfl⟩, n, ⟨hn1, rfl⟩, o, hc, h⟩
    rw [hn] at hn1 hc
    exact ⟨hf, hn, ho, hs, hn1, o, hc, (Except.ok.inj h).symm⟩
  · rintro ⟨hf, hn, ho, hs, hn1, o, hc, rfl⟩
    have hb := hs.trans (ledger.spendable_eq _ _ _ ▸ Nat.sub_le _ _)
    refine ⟨(), hf, (), hn, _, ⟨ho, rfl⟩, (), hs, _, ⟨hb, rfl⟩, _, ⟨hn ▸ hn1, rfl⟩, o, ?_, rfl⟩
    rw [hn]
    exact hc

/-- The arm for an announcement, with everything it demands. -/
theorem connectAnnouncement_eq_ok {ledger : CoinbaseLedger} {height i : Nat} {raw : Bytes}
    {a : AnnouncementTx} {c c' : Connect} :
    connectAnnouncement ledger height i raw a c = .ok c' ↔
      feeFloorMile ≤ a.fee.toNat ∧
      (c.overlay.view (addressPayload a.fromPub)).nonce = a.nonce.toNat ∧
      a.fee.toNat ≤ ledger.spendable (addressPayload a.fromPub)
        (c.overlay.view (addressPayload a.fromPub)).balance height ∧
      a.nonce.toNat + 1 ≤ u64Max ∧
      ∃ txid, a.txid = .ok txid ∧
        c' = ⟨(c.overlay.get (addressPayload a.fromPub)).2.set (addressPayload a.fromPub)
          ⟨(c.overlay.view (addressPayload a.fromPub)).balance - a.fee.toNat,
            a.nonce.toNat + 1⟩, c.txids ++ [txid],
          c.spentNonces ++ [(addressPayload a.fromPub, a.nonce.toNat)],
          c.nonCoinbaseBytes ++ [raw]⟩ := by
  simp only [connectAnnouncement, Except.bind_eq_ok, Except.mapError_eq_ok,
    checkAnnouncementStateful_eq_ok, applyAnnouncement_eq_ok, Overlay.get_fst]
  constructor
  · rintro ⟨_, ⟨hf, hn, hs⟩, next, ⟨_, hn1, rfl⟩, txid, ht, h⟩
    rw [← hn] at hn1 h
    exact ⟨hf, hn.symm, hs, hn1, txid, ht, (Except.ok.inj h).symm⟩
  · rintro ⟨hf, hn, hs, hn1, txid, ht, rfl⟩
    have hb := hs.trans (ledger.spendable_eq _ _ _ ▸ Nat.sub_le _ _)
    refine ⟨(), ⟨hf, hn.symm, hs⟩, _, ⟨hb, hn ▸ hn1, rfl⟩, txid, ht, ?_⟩
    rw [hn]
    rfl

/-- A connected transaction posts its entries, each honoured next to the immature amounts. -/
theorem connectTx_posts {ledger : CoinbaseLedger} {height i : Nat} {raw : Bytes} {tx : Tx}
    {c c' : Connect} (h : connectTx ledger height i raw tx c = .ok c') :
    Posts (ledger.immatureAt · height) c.overlay.view (txEntries tx) c'.overlay.view := by
  cases tx with
  | coinbase cb => cases h
  | transfer t =>
    obtain ⟨-, hn, -, hs, -, o, hc, rfl⟩ := connectTransfer_eq_ok.mp h
    obtain ⟨-, rfl⟩ := Overlay.credit_eq_ok.mp hc
    rw [ledger.spendable_eq] at hs
    refine .cons ⟨hn, hs⟩ (.cons trivial ?_)
    simp only [Overlay.view_set, Overlay.get_snd_view, Entry.post, hn]
    exact .nil _
  | announcement a =>
    obtain ⟨-, hn, hs, -, txid, -, rfl⟩ := connectAnnouncement_eq_ok.mp h
    rw [ledger.spendable_eq] at hs
    refine .cons ⟨hn, hs⟩ ?_
    simp only [Overlay.view_set, Overlay.get_snd_view, Entry.post, hn]
    exact .nil _

/-- The loop posts the entries of its transactions in order. -/
theorem connectTxs_posts {ledger : CoinbaseLedger} {height i : Nat} {txs : List (Tx × Bytes)}
    {c c' : Connect} (h : connectTxs ledger height i txs c = .ok c') :
    Posts (ledger.immatureAt · height) c.overlay.view (txs.flatMap fun p ↦ txEntries p.1)
      c'.overlay.view := by
  induction txs generalizing i c with
  | nil => cases h; exact .nil _
  | cons p txs ih =>
    simp only [connectTxs, Except.bind_eq_ok] at h
    obtain ⟨m, hm, h⟩ := h
    exact (connectTx_posts hm).append (ih h)

/-- The records a checked body's transactions are paired with in the loop. -/
theorem checkBody_zip {header : Header} {rawBody : Bytes} {params : ChainParams} {trust : Trust}
    {c : CheckedBody} (h : checkBody header rawBody params trust = .ok c) :
    ((c.txs.zip c.body.records).drop 1).map Prod.fst = c.txs.drop 1 := by
  have hlen := decodeRecords_length (checkBody_eq_ok.mp h).2.1
  rw [List.map_drop, List.map_fst_zip hlen.le]

/-- What the overlay part returns, in terms of the loop it runs. -/
theorem connectBody_eq_ok {overlay o' : Overlay} {ledger l' : CoinbaseLedger} {height : Nat}
    {c : CheckedBody} {v : ValidatedBlock} :
    connectBody overlay ledger height c = .ok (v, o', l') ↔
      ∃ o txid done, overlay.beginBlock.credit c.cb.toAddr c.credit = .ok o ∧
        c.cb.txid = .ok txid ∧
        connectTxs (ledger.push height c.cb.toAddr c.credit) height 1
          ((c.txs.zip c.body.records).drop 1) ⟨o, [txid], [], []⟩ = .ok done ∧
        v = ⟨done.overlay.deltas.1, done.overlay.undoRecords, c.cb.reward.toNat, c.cb.toAddr,
          c.credit, done.txids, done.spentNonces, done.nonCoinbaseBytes⟩ ∧
        o' = done.overlay.deltas.2 ∧ l' = ledger.push height c.cb.toAddr c.credit := by
  simp only [connectBody, Except.bind_eq_ok, Except.mapError_eq_ok]
  constructor
  · rintro ⟨o, ho, txid, ht, done, hd, h⟩
    cases h
    exact ⟨o, txid, done, ho, ht, hd, rfl, rfl, rfl⟩
  · rintro ⟨o, txid, done, ho, ht, hd, rfl, rfl, rfl⟩
    exact ⟨o, ho, txid, ht, done, hd, rfl⟩

/-- An accepted body posts its entries to the book under the overlay, each honoured next to
the immature amounts, its own coinbase's included. -/
theorem validateBlockBody_posts {overlay o' : Overlay} {ledger l' : CoinbaseLedger}
    {header : Header} {rawBody : Bytes} {params : ChainParams} {trust : Trust}
    {v : ValidatedBlock}
    (h : validateBlockBody overlay ledger header rawBody params trust = .ok (v, o', l')) :
    ∃ c, checkBody header rawBody params trust = .ok c ∧
      l' = ledger.push header.height.toNat c.cb.toAddr c.credit ∧
      Posts (l'.immatureAt · header.height.toNat) overlay.view c.entries o'.view := by
  obtain ⟨c, hc, h⟩ := validateBlockBody_eq_ok.mp h
  obtain ⟨o, txid, done, ho, -, hd, -, rfl, rfl⟩ := connectBody_eq_ok.mp h
  obtain ⟨-, rfl⟩ := Overlay.credit_eq_ok.mp ho
  refine ⟨c, hc, rfl, .cons trivial ?_⟩
  have hp := connectTxs_posts hd
  have hmap : ((c.txs.zip c.body.records).drop 1).flatMap (fun p ↦ txEntries p.1) =
      (c.txs.drop 1).flatMap txEntries := by
    rw [← checkBody_zip hc, List.flatMap_map]
  rw [hmap] at hp
  simpa [Entry.post] using hp

end Plaine.Chain

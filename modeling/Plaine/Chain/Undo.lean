import Plaine.Chain.Reorg
import Plaine.Consensus.Blake3

/-!
# Undo is the inverse of connecting a block

Within a block an account may be written many times, as miner, sender and recipient; the
overlay's journal keeps what it was before the first of them.  `Overlay.Journals s o` says
so: `o` is an overlay in the middle of a block that started from the accounts `s`.  Every
overlay operation keeps it, so it holds of what a validated body leaves, and the journal
library turns it into the inverse law, for one block and for a branch.
-/

namespace Plaine.Chain

open Plaine.Lib Plaine.Lib.Ledger Plaine.Consensus

/-- The undo record of an account. -/
def undoRecOf (addr : Address) (acct : Account) : UndoRec :=
  { addr, prevBalance := acct.balance, prevNonce := acct.nonce, existed := !acct.isAbsent }

namespace Overlay

/-- The overlay is in the middle of a block that started from the accounts `s`. -/
structure Journals (s : Address → Account) (o : Overlay) : Prop where
  undo_eq : ∀ a, o.undo.lookup a = if a ∈ o.order then some (undoRecOf a (s a)) else none
  saves : Saves s o.view (o.order.map fun a ↦ (a, s a))

namespace Journals

variable {s : Address → Account} {o : Overlay}

theorem beginBlock (o : Overlay) : Journals o.view o.beginBlock where
  undo_eq := by simp
  saves := .refl _

theorem get (h : Journals s o) (addr : Address) : Journals s (o.get addr).2 where
  undo_eq := by simpa using h.undo_eq
  saves := by simpa using h.saves

theorem mem_saves {a : Address} : a ∈ (o.order.map fun a ↦ (a, s a)).map Prod.fst ↔ a ∈ o.order := by
  simp

theorem nodup (h : Journals s o) : o.order.Nodup := by
  have hs := h.saves.nodup
  simpa [Function.comp_def] using hs

/-- An account not journalled yet is still what it was. -/
theorem view_of_notMem (h : Journals s o) {a : Address} (ha : a ∉ o.order) : o.view a = s a :=
  h.saves.frame a fun hm ↦ ha (mem_saves.mp hm)

theorem order_capture (h : Journals s o) (addr : Address) :
    (o.capture addr).order = if addr ∈ o.order then o.order else o.order ++ [addr] := by
  have hu := h.undo_eq addr
  unfold capture
  by_cases ha : addr ∈ o.order
  · simp [hu, ha]
  · simp [hu, ha]

theorem undo_capture (h : Journals s o) (addr : Address) :
    (o.capture addr).undo =
      if addr ∈ o.order then o.undo else o.undo.insert addr (undoRecOf addr (s addr)) := by
  have hu := h.undo_eq addr
  unfold capture
  by_cases ha : addr ∈ o.order
  · simp [hu, ha]
  · simp [hu, ha, undoRecOf, h.view_of_notMem ha]

/-- A write journals the account unless it is journalled already. -/
theorem set (h : Journals s o) (addr : Address) (acct : Account) :
    Journals s (o.set addr acct) := by
  by_cases ha : addr ∈ o.order
  · refine ⟨fun a ↦ ?_, ?_⟩
    · rw [undo_set, order_set, h.undo_capture, h.order_capture, if_pos ha, if_pos ha]
      exact h.undo_eq a
    · rw [order_set, h.order_capture, if_pos ha, view_set]
      exact h.saves.write_old (mem_saves.mpr ha) acct
  · refine ⟨fun a ↦ ?_, ?_⟩
    · rw [undo_set, order_set, h.undo_capture, h.order_capture, if_neg ha, if_neg ha]
      by_cases heq : a = addr
      · subst heq
        simp [AList.lookup_insert]
      · rw [AList.lookup_insert_ne heq, h.undo_eq a]
        simp [heq]
    · rw [order_set, h.order_capture, if_neg ha, view_set, List.map_append]
      have hs := h.saves.write_new (mt mem_saves.mp ha) acct
      rwa [h.view_of_notMem ha] at hs

theorem mem_order_set (h : Journals s o) (addr : Address) (acct : Account) (a : Address) :
    a ∈ (o.set addr acct).order ↔ a ∈ o.order ∨ a = addr := by
  rw [order_set, h.order_capture]
  split
  · constructor
    · exact Or.inl
    · rintro (ha | rfl)
      · exact ha
      · assumption
  · simp

theorem credit (h : Journals s o) {addr : Address} {amount : Nat} {o' : Overlay}
    (hc : o.credit addr amount = .ok o') : Journals s o' := by
  obtain ⟨-, rfl⟩ := credit_eq_ok.mp hc
  exact (h.get addr).set addr _

theorem mem_order_credit (h : Journals s o) {addr : Address} {amount : Nat} {o' : Overlay}
    (hc : o.credit addr amount = .ok o') (a : Address) : a ∈ o'.order ↔ a ∈ o.order ∨ a = addr := by
  obtain ⟨-, rfl⟩ := credit_eq_ok.mp hc
  rw [(h.get addr).mem_order_set, get_snd_order]

/-- The undo records are those of the journalled accounts, in the order of first writes. -/
theorem undoRecords_eq (h : Journals s o) :
    o.undoRecords = o.order.map fun a ↦ undoRecOf a (s a) := by
  rw [undoRecords, ← List.filterMap_eq_map]
  refine List.filterMap_congr fun a ha ↦ ?_
  rw [h.undo_eq, if_pos ha]
  rfl

/-- Applying the undo records gives the accounts the block started from. -/
theorem applyUndo (h : Journals s o) {o' : Overlay} (ho : o'.view = o.view) :
    (o'.applyUndo o.undoRecords).view = s := by
  rw [view_applyUndo, ho, h.undoRecords_eq, List.map_map]
  exact h.saves.overwrite

end Journals

end Overlay

section

variable [Crypto]

/-! ## A validated body -/

/-- Connecting a transaction keeps the journal and adds the addresses its entries name. -/
theorem connectTx_journals {ledger : CoinbaseLedger} {height i : Nat} {raw : Bytes} {tx : Tx}
    {c c' : Connect} {s : Address → Account} (hj : c.overlay.Journals s)
    (h : connectTx ledger height i raw tx c = .ok c') :
    c'.overlay.Journals s ∧ ∀ a, a ∈ c'.overlay.order ↔
      a ∈ c.overlay.order ∨ ∃ e ∈ txEntries tx, e.Names a := by
  cases tx with
  | coinbase cb => cases h
  | transfer t =>
    obtain ⟨-, -, -, -, -, o, hc, rfl⟩ := connectTransfer_eq_ok.mp h
    have hg := hj.get (addressPayload t.fromPub)
    have hs := hg.set (addressPayload t.fromPub)
      ⟨(c.overlay.view (addressPayload t.fromPub)).balance - (t.amount.toNat + t.fee.toNat),
        t.nonce.toNat + 1⟩
    refine ⟨hs.credit hc, fun a ↦ ?_⟩
    rw [hs.mem_order_credit hc, hg.mem_order_set, Overlay.get_snd_order]
    simp only [txEntries, List.mem_cons, List.not_mem_nil, or_false, exists_eq_or_imp,
      exists_eq_left, Entry.Names, decide_eq_true_eq, eq_comm (a := a), or_assoc]
  | announcement t =>
    obtain ⟨-, -, -, -, txid, -, rfl⟩ := connectAnnouncement_eq_ok.mp h
    have hg := hj.get (addressPayload t.fromPub)
    refine ⟨hg.set _ _, fun a ↦ ?_⟩
    rw [hg.mem_order_set, Overlay.get_snd_order]
    simp only [txEntries, List.mem_cons, List.not_mem_nil, or_false, exists_eq_left,
      Entry.Names, decide_eq_true_eq, eq_comm (a := a)]

/-- The loop keeps the journal and adds the addresses its entries name. -/
theorem connectTxs_journals {ledger : CoinbaseLedger} {height i : Nat} {txs : List (Tx × Bytes)}
    {c c' : Connect} {s : Address → Account} (hj : c.overlay.Journals s)
    (h : connectTxs ledger height i txs c = .ok c') :
    c'.overlay.Journals s ∧ ∀ a, a ∈ c'.overlay.order ↔
      a ∈ c.overlay.order ∨ ∃ e ∈ txs.flatMap (fun p ↦ txEntries p.1), e.Names a := by
  induction txs generalizing i c with
  | nil => cases h; exact ⟨hj, by simp⟩
  | cons p txs ih =>
    simp only [connectTxs, Except.bind_eq_ok] at h
    obtain ⟨m, hm, h⟩ := h
    obtain ⟨hjm, hmem⟩ := connectTx_journals hj hm
    obtain ⟨hj', hmem'⟩ := ih hjm h
    refine ⟨hj', fun a ↦ ?_⟩
    rw [hmem', hmem, List.flatMap_cons]
    simp only [List.mem_append, or_and_right, exists_or, or_assoc]

/-- What a validated body leaves: a journal of the accounts it started from, over exactly
the addresses its entries name, whose records and current accounts are the undo list and the
deltas. -/
theorem validateBlockBody_journals {overlay o' : Overlay} {ledger l' : CoinbaseLedger}
    {header : Header} {rawBody : Bytes} {params : ChainParams} {trust : Trust}
    {v : ValidatedBlock}
    (h : validateBlockBody overlay ledger header rawBody params trust = .ok (v, o', l')) :
    ∃ c, ∃ o : Overlay, checkBody header rawBody params trust = .ok c ∧ o.Journals overlay.view ∧
      (∀ a, a ∈ o.order ↔ ∃ e ∈ c.entries, e.Names a) ∧ o'.view = o.view ∧
      v.undo = o.order.map (fun a ↦ undoRecOf a (overlay.view a)) ∧
      v.deltas = o.order.map fun a ↦ Overlay.deltaOf a (o'.view a) := by
  obtain ⟨c, hc, h⟩ := validateBlockBody_eq_ok.mp h
  obtain ⟨o, txid, done, ho, -, hd, rfl, rfl, rfl⟩ := connectBody_eq_ok.mp h
  have hb := Overlay.Journals.beginBlock overlay
  obtain ⟨hj, hmem⟩ := connectTxs_journals (hb.credit ho) hd
  refine ⟨c, done.overlay, hc, hj, fun a ↦ ?_, by simp, hj.undoRecords_eq, ?_⟩
  · have hmap : ((c.txs.zip c.body.records).drop 1).flatMap (fun p ↦ txEntries p.1) =
        (c.txs.drop 1).flatMap txEntries := by
      rw [← checkBody_zip hc, List.flatMap_map]
    rw [hmem, hb.mem_order_credit ho, hmap]
    simp [CheckedBody.entries, Entry.Names, eq_comm (a := a)]
  · rw [Overlay.deltas_fst]
    simp

/-- A body posts at most one entry for its coinbase and two for each other transaction. -/
theorem length_entries_le {header : Header} {rawBody : Bytes} {params : ChainParams}
    {trust : Trust} {c : CheckedBody} (h : checkBody header rawBody params trust = .ok c) :
    c.entries.length ≤ 2 * maxTxsPerBlock + 1 := by
  have hone : ∀ tx, (txEntries tx).length ≤ 2 := by
    intro tx
    cases tx with
    | coinbase _ => exact Nat.zero_le _
    | transfer _ => exact le_rfl
    | announcement _ => exact Nat.le_succ _
  have hall : ∀ txs : List Tx, (txs.flatMap txEntries).length ≤ 2 * txs.length := by
    intro txs
    induction txs with
    | nil => exact le_rfl
    | cons tx txs ih =>
      rw [List.flatMap_cons, List.length_append, List.length_cons]
      have := hone tx
      omega
  obtain ⟨hparse, hdecode, -⟩ := checkBody_eq_ok.mp h
  have hlen : c.txs.length ≤ maxTxsPerBlock :=
    (decodeRecords_length hdecode).le.trans (BlockBody.parse_length_le hparse)
  have hdrop := hall (c.txs.drop 1)
  rw [List.length_drop] at hdrop
  rw [CheckedBody.entries, List.length_cons]
  omega

/-- The undo list of a validated body is no longer than an undo row may be. -/
theorem validateBlockBody_undo_length_le {overlay o' : Overlay} {ledger l' : CoinbaseLedger}
    {header : Header} {rawBody : Bytes} {params : ChainParams} {trust : Trust}
    {v : ValidatedBlock}
    (h : validateBlockBody overlay ledger header rawBody params trust = .ok (v, o', l')) :
    v.undo.length ≤ 2 * maxTxsPerBlock + 1 := by
  obtain ⟨c, o, hc, hj, hmem, -, hu, -⟩ := validateBlockBody_journals h
  -- Each account is journalled once, and some entry names it.
  have hsub : o.order ⊆ c.entries.map Entry.account := by
    intro a ha
    obtain ⟨e, he, hname⟩ := (hmem a).mp ha
    rw [List.mem_map]
    exact ⟨e, he, Entry.account_of_names hname⟩
  have hle := (hj.nodup.subperm hsub).length_le
  rw [List.length_map] at hle
  rw [hu, List.length_map]
  exact hle.trans (length_entries_le hc)

/-- The deltas of a validated body are the accounts it leaves. -/
theorem validateBlockBody_deltas {overlay o' : Overlay} {ledger l' : CoinbaseLedger}
    {header : Header} {rawBody : Bytes} {params : ChainParams} {trust : Trust}
    {v : ValidatedBlock}
    (h : validateBlockBody overlay ledger header rawBody params trust = .ok (v, o', l')) :
    overwrite (v.deltas.map fun d ↦ (d.addr, d.acct)) overlay.view = o'.view := by
  obtain ⟨c, o, -, hj, -, ho, -, hd⟩ := validateBlockBody_journals h
  have hkeys : (v.deltas.map fun d ↦ (d.addr, d.acct)).map Prod.fst = o.order := by
    simp [hd, Overlay.deltaOf, Function.comp_def]
  refine overwrite_eq_of ?_ ?_ ?_
  · rw [hkeys]
    exact hj.nodup
  · simp [hd, Overlay.deltaOf, StateDelta.acct]
  · intro a ha
    rw [hkeys] at ha
    rw [ho, hj.view_of_notMem ha]

/-- The undo list of a validated body takes the accounts it leaves back. -/
theorem validateBlockBody_undo {overlay o' : Overlay} {ledger l' : CoinbaseLedger}
    {header : Header} {rawBody : Bytes} {params : ChainParams} {trust : Trust}
    {v : ValidatedBlock}
    (h : validateBlockBody overlay ledger header rawBody params trust = .ok (v, o', l')) :
    Saves overlay.view o'.view (v.undo.map Overlay.undoEntry) := by
  obtain ⟨c, o, -, hj, -, ho, hu, -⟩ := validateBlockBody_journals h
  have hs := hj.saves
  rw [← ho] at hs
  rw [hu, List.map_map]
  exact hs

/-! ## A validated branch -/

/-- The undo lists of a validated branch are a stack of journals. -/
theorem validateBranch_undo {params : ChainParams} {work : Nat → Work} {i : Nat}
    {branch : List (HeaderRec × Bytes)} {o o' : Overlay} {l l' : CoinbaseLedger}
    {out : List CommitBlock} {spent : List (Address × Nat)}
    (h : validateBranch params work i branch o l = .ok (out, spent, o', l')) :
    SavesAll o.view o'.view (out.map fun b ↦ b.undo.map Overlay.undoEntry) := by
  induction branch generalizing i o l out spent with
  | nil => cases h; exact .nil _
  | cons p branch ih =>
    obtain ⟨r, raw⟩ := p
    obtain ⟨v, om, lm, out', spent', hv, hb, rfl, -⟩ := validateBranch_cons_eq_ok.mp h
    exact .cons (validateBlockBody_undo hv) (ih hb)

/-- Undo is the exact inverse of connecting, for a block and for a branch.

The undo list of an accepted block names the addresses of its deltas, which are those its
entries name, each once; every record says whether its account existed; and applying the
list to the overlay the block left restores every account.  Applying the lists of an
accepted branch, the last block's first, restores every account there was before it. -/
theorem applyUndo_validated (params : ChainParams) :
    (∀ (overlay : Overlay) (ledger : CoinbaseLedger) (header : Header) (rawBody : Bytes)
      (trust : Trust) (v : ValidatedBlock) (o' : Overlay) (l' : CoinbaseLedger),
      validateBlockBody overlay ledger header rawBody params trust = .ok (v, o', l') →
      (v.undo.map (·.addr)).Nodup ∧ v.undo.map (·.addr) = v.deltas.map (·.addr) ∧
      (∀ c, checkBody header rawBody params trust = .ok c →
        ∀ a, a ∈ v.undo.map (·.addr) ↔ ∃ e ∈ c.entries, e.Names a) ∧
      (∀ d ∈ v.deltas, d.acct = (o'.get d.addr).1) ∧
      (∀ r ∈ v.undo, r.existed = !(overlay.get r.addr).1.isAbsent) ∧
      ∀ a, ((o'.applyUndo v.undo).get a).1 = (overlay.get a).1) ∧
    (∀ (work : Nat → Work) (branch : List (HeaderRec × Bytes)) (o o' : Overlay)
      (l l' : CoinbaseLedger) (out : List CommitBlock) (spent : List (Address × Nat)),
      validateBranch params work 0 branch o l = .ok (out, spent, o', l') →
      ∀ a, ((out.reverse.foldl (fun o b ↦ o.applyUndo b.undo) o').get a).1 = (o.get a).1) := by
  constructor
  · intro overlay ledger header rawBody trust v o' l' h
    obtain ⟨c, o, hc, hj, hmem, ho, hu, hd⟩ := validateBlockBody_journals h
    have haddr : v.undo.map (·.addr) = o.order := by simp [hu, undoRecOf, Function.comp_def]
    refine ⟨?_, ?_, ?_, ?_, ?_, ?_⟩
    · rw [haddr]
      exact hj.nodup
    · simp [hu, hd, undoRecOf, Overlay.deltaOf, Function.comp_def]
    · intro c' hc' a
      cases hc.symm.trans hc'
      rw [haddr]
      exact hmem a
    · simp [hd, Overlay.deltaOf, StateDelta.acct]
    · simp [hu, undoRecOf]
    · intro a
      rw [Overlay.get_fst, Overlay.get_fst, Overlay.view_applyUndo,
        (validateBlockBody_undo h).overwrite]
  · intro work branch o o' l l' out spent h a
    have hfold : ∀ (bs : List CommitBlock) (o : Overlay),
        (bs.foldl (fun o b ↦ o.applyUndo b.undo) o).view =
          (bs.map fun b ↦ b.undo.map Overlay.undoEntry).foldl (fun v l ↦ overwrite l v) o.view := by
      intro bs
      induction bs with
      | nil => exact fun _ ↦ rfl
      | cons b bs ih =>
        intro o
        rw [List.foldl_cons, ih, Overlay.view_applyUndo, List.map_cons, List.foldl_cons]
    rw [Overlay.get_fst, Overlay.get_fst, hfold, List.map_reverse]
    exact congrFun (validateBranch_undo h).overwrite a

end

/-! ### A block -/

namespace Sample

/-- The key of a funded account. -/
def pubkey : Arr 32 :=
  .ofNat 32 0x8a88e3dd7409f195fd52db2d3cba5d72ca6709bf1d94121bf3748801b40f6f5c

/-- A transfer of 10 at a fee of 2, the account's first. -/
def transfer : TransferTx where
  fromPub := pubkey
  toAddr := .ofNat 20 0x2222222222222222222222222222222222222222
  amount := 10
  fee := 2
  nonce := 0
  sig := .ofNat 64
    0x165ce9208117c92a2dcfba7fca0da8b0137e4e2a91e1debf6c4506a3a9dae1d216a3b758a527de21d27a46496713f82ff0764f6eab7c06240c198065fd76d40a

/-- The primitives, with the transfer's signature known to verify. -/
@[reducible]
def crypto : Crypto := .ofSignatures
  [(pubkey, (Arr.ofNat 32
    0xced5cc3c81eb72a656480771a6b8c1519079910a6aeda760b728227ee838cb78).bytes,
    transfer.sig)]

/-- The coinbase of the first block. -/
def coinbase : CoinbaseTx where
  height := 1
  toAddr := .ofNat 20 0x1111111111111111111111111111111111111111
  reward := 200000
  fees := 2
  note := ⟨0, []⟩

/-- `ChainParams::default`. -/
def params : ChainParams where
  profile := .real
  network := .main
  powLimit := 2 ^ 240 - 1
  asertAnchorInterval := asertAnchorInterval
  authorPubkey := .zero 32
  authorityKeys := []
  checkpointThreshold := 1
  maxReorgDepth := maxReorgDepth
  powBudgetMicros := 100000
  powBudgetWindowMs := 10000
  powBudgetBurstMicros := 300000
  maxDuplicatesPerBatch := 256
  duplicateWindowSecs := 60
  maxPeers := 128
  cpuPoolThreads := 2
  childPowFailuresPerSource := 1
  childQuotaWindowSecs := 120
  maxSources := 128
  maxSideHeaders := 16384
  maxStagedHeaders := 256
  negativeCacheEntries := 65536
  mempool := ⟨20000, 12582912, 256, 4096, 86400, 1, 100, 2000, 4096⟩

/-- The header of a block at height 1 holding the coinbase and the transfer. -/
def header : Header where
  version := 0x20000000
  height := 1
  prevHash := .zero 32
  txRoot := .ofNat 32 0x3b09202ecadda3894d723e64fa434f1c97f9df721cb3bcc303a3eedaad008353
  extRoot := .zero 32
  time := 1000060
  bits := 0x1f00ffff
  authorNoteLen := 0
  nonce := 0

/-- The body of that block. -/
def body : Bytes :=
  (BlockBody.encode [(coinbase.encode).toOption.getD [], transfer.encode]).toOption.getD []

/-- An overlay under which the sender has 1000. -/
def overlay : Overlay :=
  .new fun a ↦ if a = .ofNat 20 0x83561adb398fd87f8e7ed8331bff2fcb945733cc then ⟨1000, 0⟩ else default

/-- The block is accepted. -/
theorem accepted :
    letI := crypto
    (validateBlockBody overlay .new header body params .untrusted).isOk = true := by
  decide +kernel

end Sample

/-- The law at a block whose transfer writes three accounts. -/
theorem applyUndo_sample :
    letI := Sample.crypto
    ∃ v o' l', validateBlockBody Sample.overlay .new Sample.header Sample.body Sample.params
        .untrusted = .ok (v, o', l') ∧
      ∀ a, ((o'.applyUndo v.undo).get a).1 = (Sample.overlay.get a).1 := by
  let _ := Sample.crypto
  have hacc := Sample.accepted
  cases h : validateBlockBody Sample.overlay .new Sample.header Sample.body Sample.params
      .untrusted with
  | error e => rw [h] at hacc; cases hacc
  | ok r =>
    obtain ⟨v, o', l'⟩ := r
    exact ⟨v, o', l', rfl, ((applyUndo_validated Sample.params).1 _ _ _ _ _ _ _ _ h).2.2.2.2.2⟩

end Plaine.Chain

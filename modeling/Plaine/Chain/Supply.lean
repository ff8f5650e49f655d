import Plaine.Chain.Undo

/-!
# Conservation of supply

A body moves balances between accounts and mints the block reward; the fees it takes from
senders are what the coinbase pays out.  On the book this is `Posts.total`, so the whole
question is how much the entries of a body credit and debit (`debits_txEntries`).

Over a run of connected and undone blocks from the empty genesis state the supply is the
emission schedule's.  It then stays below `2 ^ 82`, and no check of the source against
leaving `u128` ever decides: a body is accepted exactly when it satisfies the other rules,
stated in `BodyRules` over unbounded numbers.
-/

namespace Plaine.Chain

open Plaine.Lib Plaine.Lib.Ledger Plaine.Consensus

section

variable [Crypto]

/-! ## One block -/

/-- Transactions debit what they credit and their fees. -/
theorem debits_txEntries (txs : List Tx) :
    debits (txs.flatMap txEntries) = credits (txs.flatMap txEntries) + (txs.map Tx.fee).sum := by
  induction txs with
  | nil => rfl
  | cons tx txs ih =>
    rw [List.flatMap_cons, debits_append, credits_append, ih, List.map_cons, List.sum_cons]
    cases tx with
    | coinbase cb => simp [txEntries, Tx.fee]
    | transfer t => simp [txEntries, Tx.fee]; omega
    | announcement a => simp [txEntries, Tx.fee]; omega

/-- What a checked body's coinbase pays: the reward and the fees of the other
transactions. -/
theorem checkBody_credit {header : Header} {rawBody : Bytes} {params : ChainParams}
    {trust : Trust} {c : CheckedBody} (h : checkBody header rawBody params trust = .ok c) :
    c.credit = blockReward header.height.toNat + ((c.txs.drop 1).map Tx.fee).sum := by
  obtain ⟨-, -, hs, -, -, -, hcb, hcr⟩ := checkBody_eq_ok.mp h
  obtain ⟨rest, htxs, -⟩ := checkBodyStructure_eq_ok.mp hs
  obtain ⟨-, hreward, hfees, -, -⟩ := checkCoinbase_eq_ok.mp hcb
  obtain ⟨-, hcredit⟩ := coinbaseCredit_eq_ok.mp hcr
  rw [hcredit, hreward, hfees, htxs]
  simp [Tx.fee]

/-- The accounts after the deltas of a block. -/
def applyDeltas (s : Address → Account) (deltas : List StateDelta) : Address → Account :=
  overwrite (deltas.map fun d ↦ (d.addr, d.acct)) s

/-- The accounts after the undo records of a block. -/
def applyUndoRecs (s : Address → Account) (undo : List UndoRec) : Address → Account :=
  overwrite (undo.map Overlay.undoEntry) s

/-- An accepted block adds the block reward to the supply and nothing else. -/
theorem total_validateBlockBody {overlay o' : Overlay} {ledger l' : CoinbaseLedger}
    {header : Header} {rawBody : Bytes} {params : ChainParams} {trust : Trust}
    {v : ValidatedBlock}
    (h : validateBlockBody overlay ledger header rawBody params trust = .ok (v, o', l')) :
    total (applyDeltas overlay.view v.deltas) =
      total overlay.view + blockReward header.height.toNat := by
  obtain ⟨c, hc, -, hp⟩ := validateBlockBody_posts h
  have htotal := hp.total
  have hcredit := checkBody_credit hc
  have hdebits := debits_txEntries (c.txs.drop 1)
  rw [applyDeltas, validateBlockBody_deltas h]
  simp only [CheckedBody.entries, credits_credit, debits_credit] at htotal
  omega

/-! ## Runs -/

/-- The accounts of a chain and the undo lists of its blocks, the last block's first. -/
structure Accounts where
  book : Address → Account
  undos : List (List UndoRec)

namespace Accounts

/-- The height of the tip. -/
def height (s : Accounts) : Nat := s.undos.length

/-- The empty genesis state. -/
def genesis : Accounts := ⟨fun _ ↦ default, []⟩

/-- Connecting an accepted block on the tip, over any overlay that shows the tip's accounts
and with any ledger, or undoing the tip's block. -/
inductive Step (params : ChainParams) : Accounts → Accounts → Prop
  | connect {s : Accounts} {overlay o' : Overlay} {ledger l' : CoinbaseLedger} {header : Header}
      {rawBody : Bytes} {trust : Trust} {v : ValidatedBlock} :
      overlay.view = s.book → header.height.toNat = s.height + 1 →
      validateBlockBody overlay ledger header rawBody params trust = .ok (v, o', l') →
      Step params s ⟨applyDeltas s.book v.deltas, v.undo :: s.undos⟩
  | undo {book : Address → Account} {u : List UndoRec} {us : List (List UndoRec)} :
      Step params ⟨book, u :: us⟩ ⟨applyUndoRecs book u, us⟩

/-- What is reached from genesis. -/
inductive Reached (params : ChainParams) : Accounts → Prop
  | genesis : Reached params genesis
  | step {s s' : Accounts} : Reached params s → Step params s s' → Reached params s'

/-- A stack of journals from the empty state, each of a block that mints its reward. -/
inductive Minted : Accounts → Prop
  | genesis : Minted genesis
  | block {s : Accounts} {book : Address → Account} {u : List UndoRec} :
      Minted s → Saves s.book book (u.map Overlay.undoEntry) →
      total book = total s.book + blockReward (s.height + 1) → s.height + 1 ≤ u64Max →
      Minted ⟨book, u :: s.undos⟩

/-- Both steps keep the stack: connecting pushes a journal, undoing writes the last back. -/
theorem Minted.step {params : ChainParams} {s s' : Accounts} (hs : Minted s)
    (h : Step params s s') : Minted s' := by
  cases h with
  | @connect _ overlay _ _ _ header _ _ v hview hheight hv =>
    have htotal := total_validateBlockBody hv
    have hundo := validateBlockBody_undo hv
    rw [← validateBlockBody_deltas hv] at hundo
    rw [hview] at htotal hundo
    rw [hheight] at htotal
    exact .block hs hundo htotal (hheight ▸ toNat_le_u64Max header.height)
  | undo =>
    cases hs with
    | @block s book u hs hu htotal hle =>
      rw [applyUndoRecs, hu.overwrite]
      exact hs

theorem Reached.minted {params : ChainParams} {s : Accounts} (h : Reached params s) :
    Minted s := by
  induction h with
  | genesis => exact .genesis
  | step _ hstep ih => exact ih.step hstep

omit [Crypto] in
/-- The supply of a stack is the emission schedule's at its height. -/
theorem Minted.total_eq {s : Accounts} (h : Minted s) :
    total s.book = issuedThrough s.height := by
  induction h with
  | genesis => simp [Accounts.genesis, height, total, default]
  | block _ _ htotal _ ih =>
    rw [htotal, ih, ← issuedThrough_succ]
    rfl

omit [Crypto] in
theorem Minted.height_le {s : Accounts} (h : Minted s) : s.height ≤ u64Max := by
  cases h with
  | genesis => exact Nat.zero_le _
  | block _ _ _ hle => exact hle

end Accounts

/-! ## No overflow decides -/

/-- The nonce a transaction carries, when it has a sender. -/
def Tx.nonce? : Tx → Option Nat
  | .coinbase _ => none
  | .transfer t => some t.nonce.toNat
  | .announcement a => some a.nonce.toNat

/-- The rules for a body over unbounded numbers: everything `validate_block_body` demands
but for a credit, an outlay or the sum of the fees being in range. -/
structure BodyRules (params : ChainParams) (trust : Trust) (header : Header) (rawBody : Bytes)
    (s : Address → Account) (ledger : CoinbaseLedger) (c : CheckedBody) : Prop where
  parse : BlockBody.parse rawBody = .ok c.body
  decode : decodeBody c.body = .ok c.txs
  shape : checkBodyStructure c.txs = .ok c.cb
  root : c.body.txRoot = header.txRoot
  signed : checkEach (match trust with
    | .untrusted => checkSignature params
    | .ourStore => checkAuthorKey params) 0 c.txs = .ok ()
  coinbase : checkCoinbase c.cb header.height.toNat header.authorNoteLen.toNat
    (c.txs.map Tx.fee).sum = .ok ()
  credit : c.credit = c.cb.reward.toNat + c.cb.fees.toNat
  floor : ∀ tx ∈ c.txs.drop 1, feeFloorMile ≤ tx.fee
  nonces : ∀ tx ∈ c.txs.drop 1, ∀ n, Tx.nonce? tx = some n → n + 1 ≤ u64Max
  funded : ∃ s', Posts
    ((ledger.push header.height.toNat c.cb.toAddr c.credit).immature · header.height.toNat)
    s c.entries s'

/-- A transaction whose entries are honoured next to the exact immature amounts connects, as
long as the whole supply is in range. -/
theorem connectTx_of_posts (i : Nat) (raw : Bytes) {ledger : CoinbaseLedger} {height : Nat}
    {tx : Tx} {c : Connect} {s' : Address → Account}
    (hp : Posts (ledger.immature · height) c.overlay.view (txEntries tx) s')
    (htotal : total c.overlay.view ≤ u128Max) (hfloor : feeFloorMile ≤ tx.fee)
    (hnonce : ∀ n, Tx.nonce? tx = some n → n + 1 ≤ u64Max) (hcb : ∀ cb, tx ≠ .coinbase cb)
    (hid : ∀ a, tx = .announcement a → ∃ id, a.txid = .ok id) :
    ∃ c', connectTx ledger height i raw tx c = .ok c' := by
  have hbal : ∀ a, (c.overlay.view a).balance ≤ u128Max :=
    fun a ↦ (balance_le_total _ a).trans htotal
  cases tx with
  | coinbase cb => exact absurd rfl (hcb cb)
  | transfer t =>
    cases hp with
    | cons hdebit hrest =>
      -- The total only falls, so the payee's balance after the credit is in range.
      have hafter : total s' ≤ u128Max := by
        have h := (Posts.cons hdebit hrest).total
        simp only [debits_debit, debits_credit, debits_nil, credits_debit,
          credits_credit, credits_nil] at h
        omega
      cases hrest with
      | cons hcredit hnil =>
        cases hnil
        have hs : t.amount.toNat + t.fee.toNat ≤ ledger.spendable (addressPayload t.fromPub)
            (c.overlay.view (addressPayload t.fromPub)).balance height := by
          rw [ledger.spendable_eq_exact _ _ (hbal _)]
          exact hdebit.2
        have hout : t.amount.toNat + t.fee.toNat ≤ u128Max :=
          (hs.trans (Nat.sub_le _ _)).trans (hbal _)
        have hpayee := (balance_le_total _ t.toAddr).trans hafter
        simp only [Entry.post, Function.update_self] at hpayee
        refine ⟨_, connectTransfer_eq_ok.mpr ⟨hfloor, hdebit.1, hout, hs, hnonce _ rfl, _,
          Overlay.credit_eq_ok.mpr ⟨?_, rfl⟩, rfl⟩⟩
        rw [Overlay.view_set, Overlay.get_snd_view, ← hdebit.1]
        exact hpayee
  | announcement a =>
    cases hp with
    | cons hdebit _ =>
      obtain ⟨id, hid⟩ := hid a rfl
      have hs : a.fee.toNat ≤ ledger.spendable (addressPayload a.fromPub)
          (c.overlay.view (addressPayload a.fromPub)).balance height := by
        rw [ledger.spendable_eq_exact _ _ (hbal _)]
        exact hdebit.2
      exact ⟨_, connectAnnouncement_eq_ok.mpr ⟨hfloor, hdebit.1, hs, hnonce _ rfl, id, hid, rfl⟩⟩

/-- The same for the loop. -/
theorem connectTxs_of_posts {ledger : CoinbaseLedger} {height i : Nat}
    {txs : List (Tx × Bytes)} {c : Connect} {s' : Address → Account}
    (hp : Posts (ledger.immature · height) c.overlay.view (txs.flatMap fun p ↦ txEntries p.1) s')
    (htotal : total c.overlay.view ≤ u128Max)
    (hfloor : ∀ tx ∈ txs.map Prod.fst, feeFloorMile ≤ tx.fee)
    (hnonce : ∀ tx ∈ txs.map Prod.fst, ∀ n, Tx.nonce? tx = some n → n + 1 ≤ u64Max)
    (hcb : ∀ tx ∈ txs.map Prod.fst, ∀ cb, tx ≠ .coinbase cb)
    (hid : ∀ tx ∈ txs.map Prod.fst, ∀ a, tx = .announcement a → ∃ id, a.txid = .ok id) :
    ∃ c', connectTxs ledger height i txs c = .ok c' := by
  induction txs generalizing i c with
  | nil => exact ⟨c, rfl⟩
  | cons p txs ih =>
    simp only [List.map_cons, List.forall_mem_cons] at hfloor hnonce hcb hid
    rw [List.flatMap_cons] at hp
    obtain ⟨m, hm, hrest⟩ := hp.append_inv
    obtain ⟨c₁, hc₁⟩ := connectTx_of_posts i p.2 hm htotal hfloor.1 hnonce.1
      hcb.1 hid.1
    have hview := hm.eq (connectTx_posts hc₁)
    have hmono : total c₁.overlay.view ≤ total c.overlay.view := by
      have h := (connectTx_posts hc₁).total
      have hd := debits_txEntries [p.1]
      simp only [List.flatMap_cons, List.flatMap_nil, List.append_nil] at hd
      omega
    obtain ⟨c', hc'⟩ := ih (i := i + 1) (hview ▸ hrest) (hmono.trans htotal) hfloor.2 hnonce.2
      hcb.2 hid.2
    refine ⟨c', ?_⟩
    simp only [connectTxs, hc₁, Except.ok_bind]
    exact hc'

/-- A connected transaction pays the floor, and its nonce has a successor. -/
theorem connectTx_floor {ledger : CoinbaseLedger} {height i : Nat} {raw : Bytes} {tx : Tx}
    {c c' : Connect} (h : connectTx ledger height i raw tx c = .ok c') :
    feeFloorMile ≤ tx.fee ∧ ∀ n, Tx.nonce? tx = some n → n + 1 ≤ u64Max := by
  cases tx with
  | coinbase cb => cases h
  | transfer t =>
    obtain ⟨hf, -, -, -, hn, -⟩ := connectTransfer_eq_ok.mp h
    exact ⟨hf, fun n hn' ↦ Option.some.inj hn' ▸ hn⟩
  | announcement a =>
    obtain ⟨hf, -, -, hn, -⟩ := connectAnnouncement_eq_ok.mp h
    exact ⟨hf, fun n hn' ↦ Option.some.inj hn' ▸ hn⟩

theorem connectTxs_floor {ledger : CoinbaseLedger} {height i : Nat} {txs : List (Tx × Bytes)}
    {c c' : Connect} (h : connectTxs ledger height i txs c = .ok c') :
    ∀ tx ∈ txs.map Prod.fst,
      feeFloorMile ≤ tx.fee ∧ ∀ n, Tx.nonce? tx = some n → n + 1 ≤ u64Max := by
  induction txs generalizing i c with
  | nil => simp
  | cons p txs ih =>
    simp only [connectTxs, Except.bind_eq_ok] at h
    obtain ⟨m, hm, h⟩ := h
    rw [List.map_cons, List.forall_mem_cons]
    exact ⟨connectTx_floor hm, ih h⟩

/-- At no point of a list of transactions has more been credited than debited. -/
theorem credits_le_debits {txs : List Tx} {l l' : List (Entry Address)}
    (h : txs.flatMap txEntries = l ++ l') : credits l ≤ debits l := by
  induction txs generalizing l with
  | nil =>
    rw [List.flatMap_nil, eq_comm, List.append_eq_nil_iff] at h
    simp [h.1]
  | cons tx txs ih =>
    rw [List.flatMap_cons] at h
    cases tx with
    | coinbase cb => exact ih h
    | transfer t =>
      rcases l with _ | ⟨e, _ | ⟨e', l⟩⟩
      · simp
      · simp only [txEntries, List.cons_append, List.nil_append, List.cons.injEq] at h
        simp [← h.1]
      · simp only [txEntries, List.cons_append, List.nil_append, List.cons.injEq] at h
        have := ih h.2.2
        simp only [← h.1, ← h.2.1, credits_debit, credits_credit, debits_debit, debits_credit]
        omega
    | announcement a =>
      rcases l with _ | ⟨e, l⟩
      · simp
      · simp only [txEntries, List.cons_append, List.nil_append, List.cons.injEq] at h
        have := ih h.2
        simp only [← h.1, credits_debit, debits_debit]
        omega

/-- When the coinbase's credit is locked, the fees of a body are outlays out of what was there
before it. -/
theorem fees_le_total {s s' : Address → Account} {payee : Address} {credit : Nat}
    {txs : List Tx} {locked : Address → Nat} (hlocked : credit ≤ locked payee)
    (hp : Posts locked (Entry.post s (.credit payee credit)) (txs.flatMap txEntries) s') :
    (txs.map Tx.fee).sum ≤ total s := by
  have hpush : available locked (Entry.post s (.credit payee credit)) ≤ total s := by
    refine Finset.sum_le_sum fun a _ ↦ ?_
    by_cases ha : a = payee
    · subst ha
      simp only [Entry.post, Function.update_self]
      omega
    · simp [Entry.post, Function.update_of_ne ha]
  have havail := hp.available
  have hdebits := debits_txEntries txs
  omega

omit [Crypto] in
theorem blockReward_le (height : Nat) : blockReward height ≤ blockSubsidy := by
  unfold blockReward subsidy
  split <;> simp

/-- An accepted body satisfies the rules: with the supply far inside `u128`, what was
honoured next to the saturated immature amounts is next to the exact ones. -/
theorem bodyRules_of_validated {overlay o' : Overlay} {ledger l' : CoinbaseLedger}
    {header : Header} {rawBody : Bytes} {params : ChainParams} {trust : Trust}
    {v : ValidatedBlock} (htotal : total overlay.view < 2 ^ 82)
    (h : validateBlockBody overlay ledger header rawBody params trust = .ok (v, o', l')) :
    ∃ c, BodyRules params trust header rawBody overlay.view ledger c := by
  have hreward := blockReward_le header.height.toNat
  simp only [blockSubsidy] at hreward
  obtain ⟨c, hc, rfl, hp⟩ := validateBlockBody_posts h
  obtain ⟨c', hc', hconn⟩ := validateBlockBody_eq_ok.mp h
  cases hc.symm.trans hc'
  obtain ⟨o, txid, done, -, -, hd, -⟩ := connectBody_eq_ok.mp hconn
  have hfloor := connectTxs_floor hd
  rw [checkBody_zip hc] at hfloor
  obtain ⟨hparse, hdecode, hshape, hroot, hsigned, hsum, hcb, hcredit⟩ := checkBody_eq_ok.mp hc
  obtain ⟨hcle, hceq⟩ := coinbaseCredit_eq_ok.mp hcredit
  have hpaid := checkBody_credit hc
  have hfees : ((c.txs.drop 1).map Tx.fee).sum ≤ total overlay.view := by
    cases hp with
    | cons _ hp =>
      refine fees_le_total ?_ hp
      rw [CoinbaseLedger.immatureAt_eq, CoinbaseLedger.immature_push_self, if_pos rfl]
      omega
  refine ⟨c, hparse, hdecode, hshape, hroot, hsigned, hcb, hceq, fun tx htx ↦ (hfloor tx htx).1,
    fun tx htx ↦ (hfloor tx htx).2, o'.view, hp.congr_locked (B := u128Max) ?_ ?_⟩
  · intro a n hn
    rw [CoinbaseLedger.immatureAt_eq, sub_min_eq hn]
  · intro m l₁ l₂ hl hm a
    have hbal := balance_le_total m a
    have hmt := hm.total
    have hcd : credits l₁ ≤ debits l₁ + c.credit := by
      cases l₁ with
      | nil => simp
      | cons e l₁ =>
        simp only [CheckedBody.entries, List.cons_append, List.cons.injEq] at hl
        have := credits_le_debits hl.2
        simp only [← hl.1, credits_credit, debits_credit]
        omega
    simp only [u128Max]
    omega

/-- A body that satisfies the rules is accepted: no sum it makes leaves `u128`. -/
theorem validated_of_bodyRules {overlay : Overlay} {ledger : CoinbaseLedger} {header : Header}
    {rawBody : Bytes} {params : ChainParams} {trust : Trust} {c : CheckedBody}
    (htotal : total overlay.view < 2 ^ 82)
    (hr : BodyRules params trust header rawBody overlay.view ledger c) :
    ∃ r, validateBlockBody overlay ledger header rawBody params trust = .ok r := by
  have hreward := blockReward_le header.height.toNat
  simp only [blockSubsidy] at hreward
  obtain ⟨s', hp⟩ := hr.funded
  obtain ⟨rest, htxs, hrest⟩ := checkBodyStructure_eq_ok.mp hr.shape
  obtain ⟨-, hrew, hcbfees, hnote, -⟩ := checkCoinbase_eq_ok.mp hr.coinbase
  have hdrop : c.txs.drop 1 = rest := by rw [htxs]; rfl
  have hsum : (c.txs.map Tx.fee).sum = (rest.map Tx.fee).sum := by simp [htxs, Tx.fee]
  rw [CheckedBody.entries, hdrop] at hp
  cases hp with
  | cons _ hp =>
    have hfees : (rest.map Tx.fee).sum ≤ total overlay.view := by
      refine fees_le_total ?_ hp
      rw [CoinbaseLedger.immature_push_self, if_pos rfl]
      omega
    have hcredit : c.credit ≤ total overlay.view + 200000 := by
      have := hr.credit
      omega
    have hc : checkBody header rawBody params trust = .ok c := by
      refine checkBody_eq_ok.mpr ⟨hr.parse, hr.decode, hr.shape, hr.root, hr.signed, ?_,
        hr.coinbase, coinbaseCredit_eq_ok.mpr ⟨?_, hr.credit⟩⟩
      · simp only [u128Max]
        omega
      · simp only [u128Max]
        have := hr.credit
        omega
    have hbal := balance_le_total overlay.view c.cb.toAddr
    obtain ⟨o, ho⟩ : ∃ o, overlay.beginBlock.credit c.cb.toAddr c.credit = .ok o := by
      refine ⟨_, Overlay.credit_eq_ok.mpr ⟨?_, rfl⟩⟩
      rw [Overlay.view_beginBlock]
      simp only [u128Max]
      omega
    obtain ⟨txid, htxid⟩ := CoinbaseTx.txid_of_note hnote
    have hview : o.view = Entry.post overlay.view (.credit c.cb.toAddr c.credit) := by
      obtain ⟨-, rfl⟩ := Overlay.credit_eq_ok.mp ho
      simp [Entry.post]
    have hafter : total o.view ≤ u128Max := by
      have hsingle : Posts (fun _ ↦ 0) overlay.view [.credit c.cb.toAddr c.credit] _ :=
        .single trivial
      have h := hsingle.total
      simp only [debits_credit, debits_nil, credits_credit, credits_nil, ← hview] at h
      simp only [u128Max]
      omega
    have hzip := checkBody_zip hc
    have hentries : ((c.txs.zip c.body.records).drop 1).flatMap (fun p ↦ txEntries p.1) =
        rest.flatMap txEntries := by
      rw [← hdrop, ← hzip, List.flatMap_map]
    obtain ⟨done, hd⟩ : ∃ done, connectTxs (ledger.push header.height.toNat c.cb.toAddr c.credit)
        header.height.toNat 1 ((c.txs.zip c.body.records).drop 1) ⟨o, [txid], [], []⟩ =
          .ok done := by
      rw [← hentries, ← hview] at hp
      refine connectTxs_of_posts hp hafter ?_ ?_ ?_ ?_
      · rw [hzip]
        exact hr.floor
      · rw [hzip]
        exact hr.nonces
      · rw [hzip, hdrop]
        exact hrest
      · rw [hzip]
        intro tx htx a ha
        obtain ⟨record, -, hrec⟩ := decodeRecords_mem hr.decode (List.mem_of_mem_drop htx)
        exact AnnouncementTx.txid_of_decode (decodeTx_announcement (ha ▸ hrec))
    exact ⟨_, validateBlockBody_eq_ok.mpr ⟨c, hc, connectBody_eq_ok.mpr
      ⟨o, txid, done, ho, htxid, hd, rfl, rfl, rfl⟩⟩⟩

/-- Supply is conserved.

An accepted block, whatever the overlay, the ledger and the body, adds exactly the block
reward to the sum of all balances.  Over any run of connected and undone blocks from the
empty genesis state the sum is what the schedule has issued.  On top of such a run a body is
accepted exactly when it satisfies the rules over unbounded numbers: none is refused because
a credit, an outlay or the sum of the fees overflows. -/
theorem supply_conserved (params : ChainParams) :
    (∀ (overlay : Overlay) (ledger : CoinbaseLedger) (header : Header) (rawBody : Bytes)
      (trust : Trust) (v : ValidatedBlock) (o' : Overlay) (l' : CoinbaseLedger),
      validateBlockBody overlay ledger header rawBody params trust = .ok (v, o', l') →
      total (applyDeltas overlay.view v.deltas) =
        total overlay.view + blockReward header.height.toNat) ∧
    ∀ s, Accounts.Reached params s →
      total s.book = issuedThrough s.height ∧
      ∀ (overlay : Overlay) (ledger : CoinbaseLedger) (header : Header) (rawBody : Bytes)
        (trust : Trust), overlay.view = s.book →
        ((∃ r, validateBlockBody overlay ledger header rawBody params trust = .ok r) ↔
          ∃ c, BodyRules params trust header rawBody s.book ledger c) := by
  refine ⟨fun _ _ _ _ _ _ _ _ h ↦ total_validateBlockBody h, fun s hs ↦ ?_⟩
  have htotal := hs.minted.total_eq
  refine ⟨htotal, fun overlay ledger header rawBody trust hview ↦ ?_⟩
  have hsmall : total overlay.view < 2 ^ 82 := by
    rw [hview, htotal]
    exact issuedThrough_lt hs.minted.height_le
  rw [← hview]
  constructor
  · rintro ⟨⟨v, o', l'⟩, h⟩
    exact bodyRules_of_validated hsmall h
  · rintro ⟨c, hr⟩
    exact validated_of_bodyRules hsmall hr

end

/-! ### The first block of a chain -/

namespace Sample

/-- A coinbase that pays the first reward and no fees. -/
def firstCoinbase : CoinbaseTx := { coinbase with fees := 0 }

/-- The header of a block at height 1 holding that coinbase alone. -/
def firstHeader : Header :=
  { header with txRoot := .ofNat 32 0xeb5fd604ac81c729b5444e02565b527bf42c04036eb05bebc4dd38bfa5653256 }

/-- The body of that block. -/
def firstBody : Bytes := (BlockBody.encode [firstCoinbase.encode.toOption.getD []]).toOption.getD []

/-- The block is accepted on the empty genesis state. -/
theorem first_accepted :
    letI := crypto
    (validateBlockBody (.new Accounts.genesis.book) .new firstHeader firstBody params
      .untrusted).isOk = true := by
  decide +kernel

end Sample

/-- The law at a block that moves balances, and at a run of one block, on which the rules over
unbounded numbers decide alone. -/
theorem supply_conserved_sample :
    letI := Sample.crypto
    (∃ v o' l', validateBlockBody Sample.overlay .new Sample.header Sample.body Sample.params
        .untrusted = .ok (v, o', l') ∧
      total (applyDeltas Sample.overlay.view v.deltas) =
        total Sample.overlay.view + blockReward Sample.header.height.toNat) ∧
    ∃ s, Accounts.Reached Sample.params s ∧ s.height = 1 ∧ total s.book = issuedThrough 1 := by
  let _ := Sample.crypto
  constructor
  · have hacc := Sample.accepted
    cases h : validateBlockBody Sample.overlay .new Sample.header Sample.body Sample.params
        .untrusted with
    | error e => rw [h] at hacc; cases hacc
    | ok r =>
      obtain ⟨v, o', l'⟩ := r
      exact ⟨v, o', l', rfl, (supply_conserved Sample.params).1 _ _ _ _ _ _ _ _ h⟩
  · have hacc := Sample.first_accepted
    cases h : validateBlockBody (.new Accounts.genesis.book) .new Sample.firstHeader
        Sample.firstBody Sample.params .untrusted with
    | error e => rw [h] at hacc; cases hacc
    | ok r =>
      obtain ⟨v, o', l'⟩ := r
      have hheight : Sample.firstHeader.height.toNat = Accounts.genesis.height + 1 := by decide
      have hs := Accounts.Reached.step .genesis (.connect (Overlay.view_new _) hheight h)
      exact ⟨_, hs, rfl, ((supply_conserved Sample.params).2 _ hs).1⟩

end Plaine.Chain

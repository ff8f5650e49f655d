import Plaine.Chain.Supply

/-!
# Chains of accepted blocks

`AcceptedChain params bs book` says that `bs` is a chain from a genesis block that pays nothing,
each further block accepted by `validate_block_body` on the accounts the blocks before it
left, with the coinbase ledger `build_ledger` makes of those blocks; `book` is what the
accounts are at its end.

The ledger and the overlay of a validation differ from node to node and from one reorg to
the next.  What is accepted does not: `validateBlockBody_congr` says that validation depends
on the overlay through `view` alone and on the ledger through the immature amounts at the
block's height, and `ledgerFrom_immature` that the window `build_ledger` reads has every
coinbase that can still be immature.
-/

namespace Plaine.Chain

open Plaine.Lib Plaine.Lib.Ledger Plaine.Consensus

/-! ## What validation depends on -/

namespace Overlay

theorem undo_capture_eq (o : Overlay) (addr : Address) :
    (o.capture addr).undo = if (o.undo.lookup addr).isSome then o.undo
      else o.undo.insert addr (undoRecOf addr (o.view addr)) := by
  unfold capture
  split <;> simp [undoRecOf]

theorem order_capture_eq (o : Overlay) (addr : Address) :
    (o.capture addr).order = if (o.undo.lookup addr).isSome then o.order
      else o.order ++ [addr] := by
  unfold capture
  split <;> simp

/-- Overlays that show the same accounts in the middle of the same block. -/
structure Same (o o' : Overlay) : Prop where
  view : o.view = o'.view
  undo : o.undo = o'.undo
  order : o.order = o'.order

namespace Same

variable {o o' : Overlay}

theorem beginBlock (h : o.view = o'.view) : Same o.beginBlock o'.beginBlock :=
  ⟨h, rfl, rfl⟩

theorem get (h : Same o o') (addr : Address) : Same (o.get addr).2 (o'.get addr).2 :=
  ⟨by simpa using h.view, by simpa using h.undo, by simpa using h.order⟩

theorem set (h : Same o o') (addr : Address) (acct : Account) :
    Same (o.set addr acct) (o'.set addr acct) where
  view := by rw [view_set, view_set, h.view]
  undo := by rw [undo_set, undo_set, undo_capture_eq, undo_capture_eq, h.undo, h.view]
  order := by rw [order_set, order_set, order_capture_eq, order_capture_eq, h.undo, h.order]

theorem credit (h : Same o o') {addr : Address} {amount : Nat} {p : Overlay}
    (hp : o.credit addr amount = .ok p) : ∃ p', o'.credit addr amount = .ok p' ∧ Same p p' := by
  obtain ⟨hle, rfl⟩ := credit_eq_ok.mp hp
  rw [h.view] at hle ⊢
  exact ⟨_, credit_eq_ok.mpr ⟨hle, rfl⟩, (h.get addr).set addr _⟩

theorem undoRecords (h : Same o o') : o.undoRecords = o'.undoRecords := by
  rw [Overlay.undoRecords, Overlay.undoRecords, h.undo, h.order]

theorem deltas (h : Same o o') : o.deltas.1 = o'.deltas.1 := by
  rw [deltas_fst, deltas_fst, h.view, h.order]

end Same

end Overlay

variable [Crypto]

/-- Accumulators that differ in nothing the loop reads or returns. -/
structure Connect.Same (c c' : Connect) : Prop where
  overlay : c.overlay.Same c'.overlay
  txids : c.txids = c'.txids
  spentNonces : c.spentNonces = c'.spentNonces
  nonCoinbaseBytes : c.nonCoinbaseBytes = c'.nonCoinbaseBytes

section

variable {ledger ledger' : CoinbaseLedger} {height : Nat}
  (hl : ∀ a, ledger.immatureAt a height = ledger'.immatureAt a height)

include hl

theorem connectTx_congr {i : Nat} {raw : Bytes} {tx : Tx} {c c' d : Connect} (hc : c.Same c')
    (h : connectTx ledger height i raw tx c = .ok d) :
    ∃ d', connectTx ledger' height i raw tx c' = .ok d' ∧ d.Same d' := by
  have hspend : ∀ a n, ledger.spendable a n height = ledger'.spendable a n height := by
    intro a n
    rw [ledger.spendable_eq, ledger'.spendable_eq, hl]
  cases tx with
  | coinbase cb => cases h
  | transfer t =>
    obtain ⟨hf, hn, ho, hs, hn1, o, hcr, rfl⟩ := connectTransfer_eq_ok.mp h
    rw [hspend] at hs
    rw [hc.overlay.view] at hn hs hcr
    obtain ⟨o', hcr', hsame⟩ := ((hc.overlay.get _).set _ _).credit hcr
    refine ⟨_, connectTransfer_eq_ok.mpr ⟨hf, hn, ho, hs, hn1, o', hcr', rfl⟩, hsame, ?_, ?_, ?_⟩
    · rw [hc.txids]
    · rw [hc.spentNonces]
    · rw [hc.nonCoinbaseBytes]
  | announcement a =>
    obtain ⟨hf, hn, hs, hn1, id, hid, rfl⟩ := connectAnnouncement_eq_ok.mp h
    rw [hspend] at hs
    rw [hc.overlay.view] at hn hs ⊢
    refine ⟨_, connectAnnouncement_eq_ok.mpr ⟨hf, hn, hs, hn1, id, hid, rfl⟩,
      (hc.overlay.get _).set _ _, ?_, ?_, ?_⟩
    · rw [hc.txids]
    · rw [hc.spentNonces]
    · rw [hc.nonCoinbaseBytes]

theorem connectTxs_congr {i : Nat} {txs : List (Tx × Bytes)} {c c' d : Connect}
    (hc : c.Same c') (h : connectTxs ledger height i txs c = .ok d) :
    ∃ d', connectTxs ledger' height i txs c' = .ok d' ∧ d.Same d' := by
  induction txs generalizing i c c' with
  | nil => cases h; exact ⟨c', rfl, hc⟩
  | cons p txs ih =>
    simp only [connectTxs, Except.bind_eq_ok] at h ⊢
    obtain ⟨m, hm, h⟩ := h
    obtain ⟨m', hm', hsame⟩ := connectTx_congr hl hc hm
    obtain ⟨d', hd', hd⟩ := ih hsame h
    exact ⟨d', ⟨m', hm', hd'⟩, hd⟩

omit [Crypto] in
/-- Pushing the same coinbase keeps agreement on the immature amounts. -/
theorem immatureAt_push_congr (payee : Address) (credit : Nat) (a : Address) :
    (ledger.push height payee credit).immatureAt a height =
      (ledger'.push height payee credit).immatureAt a height := by
  have ha := hl a
  simp only [CoinbaseLedger.immatureAt_eq, CoinbaseLedger.immature_push_self] at ha ⊢
  omega

/-- Validation depends on the accounts the overlay shows and on the immature amounts at the
block's height. -/
theorem validateBlockBody_congr {overlay overlay' o : Overlay} {l : CoinbaseLedger}
    {header : Header} {rawBody : Bytes} {params : ChainParams} {trust : Trust}
    {v : ValidatedBlock} (hview : overlay.view = overlay'.view)
    (hheight : header.height.toNat = height)
    (h : validateBlockBody overlay ledger header rawBody params trust = .ok (v, o, l)) :
    ∃ o' l', validateBlockBody overlay' ledger' header rawBody params trust = .ok (v, o', l') ∧
      o'.view = o.view := by
  subst hheight
  obtain ⟨c, hc, h⟩ := validateBlockBody_eq_ok.mp h
  obtain ⟨p, txid, done, hp, ht, hd, rfl, rfl, rfl⟩ := connectBody_eq_ok.mp h
  obtain ⟨p', hp', hsame⟩ := (Overlay.Same.beginBlock hview).credit hp
  have hstart : Connect.Same ⟨p, [txid], [], []⟩ ⟨p', [txid], [], []⟩ := ⟨hsame, rfl, rfl, rfl⟩
  obtain ⟨done', hd', hds⟩ :=
    connectTxs_congr (immatureAt_push_congr hl c.cb.toAddr c.credit) hstart hd
  refine ⟨_, _, validateBlockBody_eq_ok.mpr ⟨c, hc, connectBody_eq_ok.mpr
    ⟨p', txid, done', hp', ht, hd', ?_, rfl, rfl⟩⟩, ?_⟩
  · rw [hds.overlay.deltas, hds.overlay.undoRecords, hds.txids, hds.spentNonces,
      hds.nonCoinbaseBytes]
  · rw [Overlay.view_deltas, Overlay.view_deltas, hds.overlay.view]

end

/-- A body accepted with every signature checked passes the checks for our own store. -/
theorem checkBody_ourStore {header : Header} {rawBody : Bytes} {params : ChainParams}
    {trust : Trust} {c : CheckedBody} (h : checkBody header rawBody params trust = .ok c) :
    checkBody header rawBody params .ourStore = .ok c := by
  cases trust with
  | ourStore => exact h
  | untrusted =>
    obtain ⟨hp, hd, hs, hr, hsig, hf, hcb, hcr⟩ := checkBody_eq_ok.mp h
    refine checkBody_eq_ok.mpr ⟨hp, hd, hs, hr, checkEach_eq_ok.mpr fun j hj ↦ ?_, hf, hcb, hcr⟩
    have hj' := checkEach_eq_ok.mp hsig j hj
    cases htx : c.txs[j] with
    | coinbase cb => rfl
    | transfer t => rfl
    | announcement a =>
      rw [htx] at hj'
      simp only [checkSignature, Except.mapError_eq_ok, checkAnnouncementStateless,
        Except.bind_eq_ok, Except.require_eq_ok] at hj'
      obtain ⟨_, hkey, -⟩ := hj'
      exact Except.require_of hkey _

theorem validateBlockBody_ourStore {overlay o : Overlay} {ledger l : CoinbaseLedger}
    {header : Header} {rawBody : Bytes} {params : ChainParams} {trust : Trust}
    {v : ValidatedBlock}
    (h : validateBlockBody overlay ledger header rawBody params trust = .ok (v, o, l)) :
    validateBlockBody overlay ledger header rawBody params .ourStore = .ok (v, o, l) := by
  obtain ⟨c, hc, h⟩ := validateBlockBody_eq_ok.mp h
  exact validateBlockBody_eq_ok.mpr ⟨c, checkBody_ourStore hc, h⟩

/-! ## The coinbases of a chain -/

/-- A block: its header and its body. -/
abbrev Block := HeaderRec × Bytes

/-- The body of a chain's block at a height. -/
def bodyOf (bs : List Block) (h : Nat) : Option Bytes := bs[h]?.map (·.2)

/-- The coinbase credit of the block at a height: the address and the amount. -/
def creditOf (bodyAt : Nat → Option Bytes) (h : Nat) : Option (Address × Nat) :=
  ((bodyAt h).bind coinbaseOf).map fun cb ↦ (cb.toAddr, cb.reward.toNat + cb.fees.toNat)

/-- What the block at height `h` has credited to an address, if it is locked at height `n`. -/
def lockedAt (bodyAt : Nat → Option Bytes) (addr : Address) (n h : Nat) : Nat :=
  match creditOf bodyAt h with
  | some (a, credit) => if a = addr ∧ n < h + coinbaseMaturity then credit else 0
  | none => 0

/-- What a chain's blocks have credited to an address and is still locked at height `n`: the
sum of its coinbase credits at the heights `h` with `n < h + COINBASE_MATURITY`. -/
def lockedSum (bs : List Block) (addr : Address) (n : Nat) : Nat :=
  ((List.range bs.length).map (lockedAt (bodyOf bs) addr n)).sum

omit [Crypto] in
/-- The exact immature amount of a ledger that `build_ledger`'s loop makes. -/
theorem immature_pushCoinbase {bodyAt : Nat → Option Bytes} {hs : List Nat}
    {l l' : CoinbaseLedger} (h : hs.foldlM (pushCoinbase bodyAt) l = .ok l') (addr : Address)
    (n : Nat) : l'.immature addr n = l.immature addr n + (hs.map (lockedAt bodyAt addr n)).sum := by
  induction hs generalizing l with
  | nil => cases h; rfl
  | cons k hs ih =>
    obtain ⟨m, hm, h⟩ := List.foldlM_cons_eq_ok.mp h
    rw [ih h, List.map_cons, List.sum_cons]
    suffices hk : m.immature addr n = l.immature addr n + lockedAt bodyAt addr n k by omega
    unfold pushCoinbase at hm
    cases hcb : (bodyAt k).bind coinbaseOf with
    | none =>
      rw [hcb] at hm
      cases hm
      simp [lockedAt, creditOf, hcb]
    | some cb =>
      simp only [hcb, Except.bind_eq_ok, Except.mapError_eq_ok, coinbaseCredit_eq_ok] at hm
      obtain ⟨_, ⟨-, rfl⟩, hm⟩ := hm
      cases hm
      rw [CoinbaseLedger.immature_push]
      simp [lockedAt, creditOf, hcb]

section

variable {bs : List Block} {b : Block}

omit [Crypto] in
theorem lockedAt_congr {bodyAt bodyAt' : Nat → Option Bytes} {h : Nat}
    (hb : bodyAt h = bodyAt' h) (addr : Address) (n : Nat) :
    lockedAt bodyAt addr n h = lockedAt bodyAt' addr n h := by
  rw [lockedAt, lockedAt, creditOf, creditOf, hb]

omit [Crypto] in
/-- What is locked at a height was locked at every height before. -/
theorem lockedAt_anti {bodyAt : Nat → Option Bytes} {addr : Address} {n m h : Nat} (hnm : n ≤ m) :
    lockedAt bodyAt addr m h ≤ lockedAt bodyAt addr n h := by
  unfold lockedAt
  split
  · by_cases hm : m < h + coinbaseMaturity
    · simp [hm, hnm.trans_lt hm]
    · simp [hm]
  · exact Nat.zero_le _

theorem lockedSum_anti {addr : Address} {n m : Nat} (hnm : n ≤ m) :
    lockedSum bs addr m ≤ lockedSum bs addr n :=
  List.sum_le_sum fun _ _ ↦ lockedAt_anti hnm

theorem bodyOf_append_left {h : Nat} (hh : h < bs.length) (bs' : List Block) :
    bodyOf (bs ++ bs') h = bodyOf bs h := by
  rw [bodyOf, bodyOf, List.getElem?_append_left hh]

theorem bodyOf_append_length : bodyOf (bs ++ [b]) bs.length = some b.2 := by
  simp [bodyOf]

/-- A block adds its own coinbase. -/
theorem lockedSum_append (addr : Address) (n : Nat) :
    lockedSum (bs ++ [b]) addr n =
      lockedSum bs addr n + lockedAt (bodyOf (bs ++ [b])) addr n bs.length := by
  rw [lockedSum, List.length_append, List.length_singleton, List.range_succ, List.map_append,
    List.sum_append, lockedSum]
  congr 1
  · refine congrArg List.sum (List.map_congr_left fun h hh ↦ ?_)
    exact lockedAt_congr (bodyOf_append_left (List.mem_range.mp hh) _) addr n

/-- The window `build_ledger` reads has every coinbase that can still be locked: at any height
above the chain's, its immature amounts are those of the whole chain. -/
theorem ledgerFrom_immature {bodyAt : Nat → Option Bytes} {height : Nat} {l : CoinbaseLedger}
    (hlen : bs.length = height + 1) (hread : ∀ h ∈ ledgerWindow height, bodyAt h = bodyOf bs h)
    (h : ledgerFrom bodyAt height = .ok l) (addr : Address) {n : Nat} (hn : height < n) :
    l.immature addr n = lockedSum bs addr n := by
  rw [immature_pushCoinbase h]
  have hzero : CoinbaseLedger.new.immature addr n = 0 := rfl
  rw [hzero, Nat.zero_add, List.map_congr_left fun k hk ↦ lockedAt_congr (hread k hk) addr n]
  have hstart : height - (coinbaseMaturity - 1) + (height + 1 - (height - (coinbaseMaturity - 1)))
      = height + 1 := by omega
  -- Below the window everything has matured.
  have hbelow : ((List.range (height - (coinbaseMaturity - 1))).map
      (lockedAt (bodyOf bs) addr n)).sum = 0 := by
    refine List.sum_eq_zero fun x hx ↦ ?_
    obtain ⟨k, hk, rfl⟩ := List.mem_map.mp hx
    have hk := List.mem_range.mp hk
    unfold lockedAt
    split
    · rw [if_neg]
      simp only [coinbaseMaturity] at hk ⊢
      omega
    · rfl
  rw [lockedSum, hlen, ← hstart, List.range_add, List.map_append, List.sum_append, hbelow,
    Nat.zero_add]
  simp [ledgerWindow, List.range'_eq_map_range]

end

/-! ## AcceptedChain chains -/

/-- A coinbase that pays nothing, as genesis must: there is no premine. -/
def PaysNothing (raw : Bytes) : Prop :=
  ∀ cb, coinbaseOf raw = some cb → cb.reward.toNat = 0 ∧ cb.fees.toNat = 0

/-- A chain of accepted blocks and the accounts it leaves. -/
inductive AcceptedChain (params : ChainParams) : List Block → (Address → Account) → Prop
  | genesis {g : Block} : g.1.height = 0 → PaysNothing g.2 → AcceptedChain params [g] fun _ ↦ default
  | extend {bs : List Block} {book : Address → Account} {r last : HeaderRec} {raw : Bytes}
      {overlay o : Overlay} {l l' : CoinbaseLedger} {v : ValidatedBlock} :
      AcceptedChain params bs book → bs.getLast?.map Prod.fst = some last →
      r.height = bs.length → r.prevHash = last.hash →
      ledgerFrom (bodyOf bs) (bs.length - 1) = .ok l → overlay.view = book →
      validateBlockBody overlay l r.header raw params .untrusted = .ok (v, o, l') →
      AcceptedChain params (bs ++ [(r, raw)]) o.view

/-- The coinbase `build_ledger` finds in an accepted body is the one that was checked. -/
theorem coinbaseOf_of_checkBody {header : Header} {rawBody : Bytes} {params : ChainParams}
    {trust : Trust} {c : CheckedBody} (h : checkBody header rawBody params trust = .ok c) :
    coinbaseOf rawBody = some c.cb := by
  obtain ⟨hp, hd, hs, -⟩ := checkBody_eq_ok.mp h
  obtain ⟨rest, htxs, -⟩ := checkBodyStructure_eq_ok.mp hs
  rw [htxs] at hd
  unfold decodeBody at hd
  cases hrec : c.body.records with
  | nil => rw [hrec] at hd; cases hd
  | cons record records =>
    rw [hrec] at hd
    simp only [decodeRecords, Except.bind_eq_ok, Except.mapError_eq_ok] at hd
    obtain ⟨tx, htx, _, -, heq⟩ := hd
    cases heq
    simp [coinbaseOf, hp, hrec, htx]

/-- A ledger whose immature amounts are a chain's at every height to come. -/
def LedgerOf (bs : List Block) (l : CoinbaseLedger) : Prop :=
  ∀ addr n, bs.length ≤ n → l.immature addr n = lockedSum bs addr n

/-- `build_ledger` makes the ledger of a chain whose last bodies can be read. -/
theorem ledgerOf_ledgerFrom {bs : List Block} {bodyAt : Nat → Option Bytes} {height : Nat}
    {l : CoinbaseLedger} (hlen : bs.length = height + 1)
    (hread : ∀ h ∈ ledgerWindow height, bodyAt h = bodyOf bs h)
    (h : ledgerFrom bodyAt height = .ok l) : LedgerOf bs l :=
  fun addr n hn ↦ ledgerFrom_immature hlen hread h addr (by omega)

/-- Pushing an accepted block's coinbase makes the ledger of the longer chain. -/
theorem LedgerOf.push {bs : List Block} {l : CoinbaseLedger} (hl : LedgerOf bs l) {r : HeaderRec}
    {raw : Bytes} {params : ChainParams} {trust : Trust} {c : CheckedBody}
    (hc : checkBody r.header raw params trust = .ok c) :
    LedgerOf (bs ++ [(r, raw)]) (l.push bs.length c.cb.toAddr c.credit) := by
  intro addr n hn
  have hlen : bs.length ≤ n := by
    rw [List.length_append] at hn
    omega
  obtain ⟨-, hcredit⟩ := coinbaseCredit_eq_ok.mp (checkBody_eq_ok.mp hc).2.2.2.2.2.2.2
  rw [CoinbaseLedger.immature_push, lockedSum_append, hl addr n hlen]
  simp [lockedAt, creditOf, bodyOf_append_length, coinbaseOf_of_checkBody hc, hcredit]

namespace AcceptedChain

variable {params : ChainParams} {bs : List Block} {book : Address → Account}

theorem length_pos (h : AcceptedChain params bs book) : 0 < bs.length := by
  cases h <;> simp

/-- The supply of an accepted chain is the schedule's at its height. -/
theorem total_eq (h : AcceptedChain params bs book) :
    total book = issuedThrough (bs.length - 1) ∧ bs.length - 1 ≤ u64Max := by
  induction h with
  | genesis => simp [total, default]
  | @extend bs book r last raw overlay o l l' v hbs _ hheight _ _ hview hv ih =>
    have hlen := hbs.length_pos
    have htotal := total_validateBlockBody hv
    rw [applyDeltas, validateBlockBody_deltas hv, hview, ih.1] at htotal
    have hh : r.header.height.toNat = bs.length - 1 + 1 := by
      have : r.header.height.toNat = bs.length := hheight
      omega
    rw [hh, ← issuedThrough_succ] at htotal
    rw [List.length_append, List.length_singleton]
    have hlt := toNat_le_u64Max r.header.height
    have htip : bs.length + 1 - 1 = bs.length - 1 + 1 := by omega
    exact ⟨by rw [htip, htotal], by omega⟩

theorem total_lt (h : AcceptedChain params bs book) : total book < 2 ^ 82 := by
  rw [h.total_eq.1]
  exact issuedThrough_lt h.total_eq.2

/-- What an accepted block posts, next to the locked amounts of the chain it completes. -/
theorem posts_extend (hlocked : ∀ addr, lockedSum bs addr bs.length ≤ (book addr).balance)
    {r : HeaderRec} {raw : Bytes} {overlay o : Overlay} {l l' : CoinbaseLedger}
    {v : ValidatedBlock} {trust : Trust} (hl : LedgerOf bs l) (hview : overlay.view = book)
    (hheight : r.height = bs.length) (htotal : total book < 2 ^ 82)
    (hv : validateBlockBody overlay l r.header raw params trust = .ok (v, o, l')) :
    ∃ c, checkBody r.header raw params trust = .ok c ∧
      l' = l.push bs.length c.cb.toAddr c.credit ∧
      Posts (lockedSum (bs ++ [(r, raw)]) · bs.length) book c.entries o.view ∧
      ∀ addr, lockedSum (bs ++ [(r, raw)]) addr bs.length ≤
        (Entry.post book (.credit c.cb.toAddr c.credit) addr).balance := by
  obtain ⟨c, hc, hl', hp⟩ := validateBlockBody_posts hv
  have hh : r.header.height.toNat = bs.length := hheight
  rw [hh] at hl' hp
  obtain ⟨hcle, hcredit⟩ := coinbaseCredit_eq_ok.mp (checkBody_eq_ok.mp hc).2.2.2.2.2.2.2
  have hsum : ∀ addr, lockedSum (bs ++ [(r, raw)]) addr bs.length =
      lockedSum bs addr bs.length + if c.cb.toAddr = addr then c.credit else 0 := by
    intro addr
    rw [lockedSum_append]
    simp [lockedAt, creditOf, bodyOf_append_length, coinbaseOf_of_checkBody hc, hcredit,
      coinbaseMaturity]
  have hbound : ∀ addr, lockedSum (bs ++ [(r, raw)]) addr bs.length ≤
      (Entry.post book (.credit c.cb.toAddr c.credit) addr).balance := by
    intro addr
    have := hlocked addr
    rw [hsum]
    by_cases ha : addr = c.cb.toAddr
    · subst ha
      simpa [Entry.post] using this
    · simpa [Entry.post, Function.update_of_ne ha, Ne.symm ha] using this
  -- The sums are balances the overlay holds, so none of them saturates.
  have hrange : ∀ addr, lockedSum (bs ++ [(r, raw)]) addr bs.length ≤ u128Max := by
    intro addr
    refine (hbound addr).trans ?_
    by_cases ha : addr = c.cb.toAddr
    · obtain ⟨c', hc', hconn⟩ := validateBlockBody_eq_ok.mp hv
      cases hc.symm.trans hc'
      obtain ⟨p, _, _, hp, -⟩ := connectBody_eq_ok.mp hconn
      have hle := (Overlay.credit_eq_ok.mp hp).1
      rw [Overlay.view_beginBlock, hview] at hle
      simpa [Entry.post, ha] using hle
    · have hle := balance_le_total book addr
      simp only [Entry.post, Function.update_of_ne ha, u128Max]
      omega
  have himm : ∀ addr, l'.immatureAt addr bs.length =
      lockedSum (bs ++ [(r, raw)]) addr bs.length := by
    intro addr
    rw [CoinbaseLedger.immatureAt_eq, hl', CoinbaseLedger.immature_push_self, hl addr _ le_rfl,
      ← hsum, Nat.min_eq_left (hrange addr)]
  rw [hview] at hp
  simp only [himm] at hp
  exact ⟨c, hc, hl', hp, hbound⟩

/-- Locked funds are there: no account has less than its chain's immature coinbases. -/
theorem lockedSum_le (h : AcceptedChain params bs book) (addr : Address) {n : Nat}
    (hn : bs.length ≤ n) : lockedSum bs addr n ≤ (book addr).balance := by
  induction h generalizing addr n with
  | @genesis g _ hg =>
    refine le_of_eq_of_le ?_ (Nat.zero_le _)
    cases hcb : coinbaseOf g.2 with
    | none => simp [lockedSum, lockedAt, creditOf, bodyOf, hcb]
    | some cb =>
      obtain ⟨hr, hf⟩ := hg cb hcb
      simp [lockedSum, lockedAt, creditOf, bodyOf, hcb, hr, hf]
  | @extend bs book r last raw overlay o l l' v hbs _ hheight _ hl hview hv ih =>
    have hpos := hbs.length_pos
    have hlo := ledgerOf_ledgerFrom (by omega) (fun _ _ ↦ rfl) hl
    obtain ⟨c, hc, -, hp, hb⟩ := posts_extend (fun a ↦ ih a le_rfl) hlo hview hheight
      hbs.total_lt hv
    rw [List.length_append] at hn
    cases hp with
    | cons _ hp =>
      exact (lockedSum_anti (by omega)).trans (hp.locked_le hb addr)

/-- The blocks of an accepted chain leave one book only. -/
theorem book_unique {book' : Address → Account} (h : AcceptedChain params bs book)
    (h' : AcceptedChain params bs book') : book = book' := by
  induction h generalizing book' with
  | @genesis g _ _ =>
    generalize hbs : [g] = bs' at h'
    cases h' with
    | genesis => rfl
    | @extend bs _ r _ raw _ _ _ _ _ hacc =>
      have hlen := congrArg List.length hbs
      have hpos := hacc.length_pos
      simp only [List.length_append, List.length_singleton] at hlen
      omega
  | @extend bs book r last raw overlay o l l' v hacc _ _ _ _ hview hv ih =>
    generalize hbs : bs ++ [(r, raw)] = bs' at h'
    cases h' with
    | genesis =>
      have hlen := congrArg List.length hbs
      have hpos := hacc.length_pos
      simp only [List.length_append, List.length_singleton] at hlen
      omega
    | @extend bs₁ book₁ r₁ _ raw₁ overlay₁ o₁ _ _ _ hacc₁ _ _ _ _ hview₁ hv₁ =>
      obtain ⟨rfl, heq⟩ := List.append_inj' hbs rfl
      obtain ⟨rfl, rfl⟩ := Prod.mk.inj (List.singleton_inj.mp heq)
      obtain ⟨c, hc, -, hp⟩ := validateBlockBody_posts hv
      obtain ⟨c₁, hc₁, -, hp₁⟩ := validateBlockBody_posts hv₁
      cases hc.symm.trans hc₁
      rw [hview, ih hacc₁, ← hview₁] at hp
      exact hp.eq hp₁

/-- Every first part of an accepted chain is one. -/
theorem take (h : AcceptedChain params bs book) {k : Nat} (hk : 0 < k) (hle : k ≤ bs.length) :
    ∃ book', AcceptedChain params (bs.take k) book' := by
  induction h with
  | @genesis g hg hp =>
    rw [List.take_of_length_le (by rw [List.length_singleton]; omega)]
    exact ⟨_, .genesis hg hp⟩
  | @extend bs book r last raw overlay o l l' v hacc hlast hheight hprev hl hview hv ih =>
    by_cases hlt : k ≤ bs.length
    · rw [List.take_append_of_le_length hlt]
      exact ih hlt
    · rw [List.take_of_length_le (by rw [List.length_append, List.length_singleton]; omega)]
      exact ⟨_, .extend hacc hlast hheight hprev hl hview hv⟩

/-- The coinbases of an accepted chain pay amounts in range. -/
theorem credit_le (h : AcceptedChain params bs book) {k : Nat} {cb : CoinbaseTx}
    (hcb : (bodyOf bs k).bind coinbaseOf = some cb) :
    cb.reward.toNat + cb.fees.toNat ≤ u128Max := by
  induction h with
  | @genesis g _ hp =>
    cases k with
    | zero =>
      obtain ⟨hr, hf⟩ := hp cb hcb
      omega
    | succ k => cases hcb
  | @extend bs book r last raw overlay o l l' v hacc _ _ _ _ _ hv ih =>
    rcases Nat.lt_trichotomy k bs.length with hk | hk | hk
    · rw [bodyOf_append_left hk] at hcb
      exact ih hcb
    · subst hk
      obtain ⟨c, hc, -⟩ := validateBlockBody_posts hv
      rw [bodyOf_append_length, Option.bind_some, coinbaseOf_of_checkBody hc] at hcb
      cases hcb
      exact (coinbaseCredit_eq_ok.mp (checkBody_eq_ok.mp hc).2.2.2.2.2.2.2).1
    · rw [bodyOf, List.getElem?_eq_none (by rw [List.length_append, List.length_singleton]; omega)]
        at hcb
      cases hcb

/-- `build_ledger` never refuses where the last bodies of an accepted chain can be read. -/
theorem ledgerFrom_ok (h : AcceptedChain params bs book) {bodyAt : Nat → Option Bytes} {height : Nat}
    (hread : ∀ h ∈ ledgerWindow height, bodyAt h = bodyOf bs h) :
    ∃ l, ledgerFrom bodyAt height = .ok l := by
  refine List.foldlM_ok (fun l k hk ↦ ?_) _
  rw [pushCoinbase, hread k hk]
  cases hcb : (bodyOf bs k).bind coinbaseOf with
  | none => exact ⟨l, rfl⟩
  | some cb =>
    have hcredit := coinbaseCredit_eq_ok.mpr ⟨h.credit_le hcb, rfl⟩
    exact ⟨_, by simp only [hcredit]; rfl⟩

/-- A debit of an accepted block leaves the locked funds of its account alone. -/
theorem debit_le (h : AcceptedChain params bs book) {r : HeaderRec} {raw : Bytes}
    {overlay o : Overlay} {l l' : CoinbaseLedger} {v : ValidatedBlock} {trust : Trust}
    (hl : LedgerOf bs l) (hview : overlay.view = book) (hheight : r.height = bs.length)
    (hv : validateBlockBody overlay l r.header raw params trust = .ok (v, o, l'))
    {c : CheckedBody} (hc : checkBody r.header raw params trust = .ok c)
    {l₁ l₂ : List (Entry Address)} {payer : Address} {amount nonce : Nat}
    (hsplit : c.entries = l₁ ++ .debit payer amount nonce :: l₂) :
    ∃ m, Posts (lockedSum (bs ++ [(r, raw)]) · bs.length) book l₁ m ∧
      amount + lockedSum (bs ++ [(r, raw)]) payer bs.length ≤ (m payer).balance := by
  obtain ⟨c', hc', -, hp, hbound⟩ := posts_extend (fun a ↦ h.lockedSum_le a le_rfl) hl hview
    hheight h.total_lt hv
  cases hc.symm.trans hc'
  rw [hsplit] at hp
  obtain ⟨m, hm, hrest⟩ := hp.append_inv
  refine ⟨m, hm, ?_⟩
  have hlocked : lockedSum (bs ++ [(r, raw)]) payer bs.length ≤ (m payer).balance := by
    cases hm with
    | nil =>
      rw [CheckedBody.entries, List.nil_append] at hsplit
      cases hsplit
    | cons _ hm =>
      rw [CheckedBody.entries, List.cons_append] at hsplit
      rw [← (List.cons.inj hsplit).1] at hm
      exact hm.locked_le hbound payer
  cases hrest with
  | cons hdebit _ =>
    have hle : amount ≤ (m payer).balance - lockedSum (bs ++ [(r, raw)]) payer bs.length :=
      hdebit.2
    omega

end AcceptedChain

/-! ## Branches -/

/-- Blocks that continue, from a height on, a chain whose last block has the given hash. -/
def Extends : Nat → Hash32 → List Block → Prop
  | _, _, [] => True
  | height, tip, (r, _) :: branch =>
    r.height = height ∧ r.prevHash = tip ∧ Extends (height + 1) r.hash branch

/-- A validated branch keeps the ledger that of the chain it completes, whatever the
overlay. -/
theorem validateBranch_ledgerOf {params : ChainParams} {work : Nat → Work} {i : Nat}
    {tip : Hash32} {bs branch : List Block} {o o' : Overlay} {l l' : CoinbaseLedger}
    {out : List CommitBlock} {spent : List (Address × Nat)} (hl : LedgerOf bs l)
    (hext : Extends bs.length tip branch)
    (h : validateBranch params work i branch o l = .ok (out, spent, o', l')) :
    LedgerOf (bs ++ branch) l' := by
  induction branch generalizing i tip bs o l out spent with
  | nil =>
    cases h
    rwa [List.append_nil]
  | cons b branch ih =>
    obtain ⟨r, raw⟩ := b
    obtain ⟨hheight, -, hext⟩ := hext
    obtain ⟨v, om, lm, out', spent', hv, hb, -, -⟩ := validateBranch_cons_eq_ok.mp h
    obtain ⟨c, hc, rfl, -⟩ := validateBlockBody_posts hv
    have hh : r.header.height.toNat = bs.length := hheight
    rw [hh] at hb
    have hnext := ih (hl.push hc) (by simpa using hext) hb
    rwa [List.append_assoc, List.singleton_append] at hnext

/-- A branch validated on the accounts and with the ledger of an accepted chain completes an
accepted chain. -/
theorem validateBranch_accepted {params : ChainParams} {work : Nat → Work} {i : Nat}
    {last : HeaderRec} {bs branch : List Block} {book : Address → Account} {o o' : Overlay}
    {l l' : CoinbaseLedger} {out : List CommitBlock} {spent : List (Address × Nat)}
    (hbs : AcceptedChain params bs book) (hlast : bs.getLast?.map Prod.fst = some last)
    (hl : LedgerOf bs l) (hview : o.view = book) (hext : Extends bs.length last.hash branch)
    (h : validateBranch params work i branch o l = .ok (out, spent, o', l')) :
    AcceptedChain params (bs ++ branch) o'.view := by
  induction branch generalizing i last bs book o l out spent with
  | nil =>
    cases h
    rw [List.append_nil, hview]
    exact hbs
  | cons b branch ih =>
    obtain ⟨r, raw⟩ := b
    obtain ⟨hheight, hprev, hext⟩ := hext
    obtain ⟨v, om, lm, out', spent', hv, hb, -, -⟩ := validateBranch_cons_eq_ok.mp h
    have hpos := hbs.length_pos
    obtain ⟨l₀, hl₀⟩ : ∃ l, ledgerFrom (bodyOf bs) (bs.length - 1) = .ok l :=
      hbs.ledgerFrom_ok fun _ _ ↦ rfl
    have hledger := ledgerOf_ledgerFrom (by omega) (fun _ _ ↦ rfl) hl₀
    have himm : ∀ a, l.immatureAt a bs.length = l₀.immatureAt a bs.length := by
      intro a
      rw [CoinbaseLedger.immatureAt_eq, CoinbaseLedger.immatureAt_eq, hl a _ le_rfl,
        hledger a _ le_rfl]
    obtain ⟨o₀, l₀', hv₀, hsame⟩ := validateBlockBody_congr himm rfl hheight hv
    have hnext := AcceptedChain.extend hbs hlast hheight hprev hl₀ hview hv₀
    rw [hsame] at hnext
    obtain ⟨c, hc, rfl, -⟩ := validateBlockBody_posts hv
    have hh : r.header.height.toNat = bs.length := hheight
    rw [hh] at hb
    have hlast : (bs ++ [(r, raw)]).getLast?.map Prod.fst = some r := by simp
    have hdone := ih hnext hlast (hl.push hc) rfl (by simpa using hext) hb
    rwa [List.append_assoc, List.singleton_append] at hdone

end Plaine.Chain

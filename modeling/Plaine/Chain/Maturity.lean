import Plaine.Chain.Rewind
import Plaine.Consensus.Bijection

/-!
# Coinbase maturity

A node knows which coins are immature from a ledger of the last coinbases, rebuilt by
`build_ledger` at a fork and pushed to by every block it validates.  Over accepted chains
that ledger is exact at every height to come, the immature coins of an account are part of
its balance, and so no debit ever reaches into them.

A block with nothing in it but the coinbase its height is due is accepted on every chain, whoever it
pays.  So there are accepted chains of every height, with the rewards at any addresses.
-/

namespace Plaine.Chain

open Plaine.Lib Plaine.Lib.Ledger Plaine.Consensus

section

variable [Crypto]

/-- The store returns the bodies of the last coinbases up to a height.  A node prunes bodies
only far below the maturity window. -/
def ReadsWindow {σ : Type} [Store σ] (s : σ) (bs : List Block) (height : Nat) : Prop :=
  ∀ h ∈ ledgerWindow height, Store.bodyAt s h = bodyOf bs h

variable {params : ChainParams} {bs : List Block} {book : Address → Account}

/-- A ledger of an accepted chain never saturates. -/
theorem AcceptedChain.immatureAt_eq (h : AcceptedChain params bs book) {l : CoinbaseLedger}
    (hl : LedgerOf bs l) {addr : Address} {n : Nat} (hn : bs.length ≤ n) :
    l.immatureAt addr n = lockedSum bs addr n := by
  have hlocked := h.lockedSum_le addr hn
  have hbalance := balance_le_total book addr
  have htotal := h.total_lt
  rw [CoinbaseLedger.immatureAt_eq, hl addr n hn, Nat.min_eq_left]
  simp only [u128Max]
  omega

/-- What `spendable` leaves aside is exactly what is locked. -/
theorem AcceptedChain.spendable_add (h : AcceptedChain params bs book) {l : CoinbaseLedger}
    (hl : LedgerOf bs l) {addr : Address} {n : Nat} (hn : bs.length ≤ n) :
    l.spendable addr (book addr).balance n + lockedSum bs addr n = (book addr).balance := by
  have hlocked := h.lockedSum_le addr hn
  rw [CoinbaseLedger.spendable_eq, h.immatureAt_eq hl hn]
  omega

/-- The ledger a rewind rebuilds is that of the blocks up to the fork. -/
theorem ledgerOf_rewindToFork {σ : Type} [Store σ] {s : σ}
    {overlay o : Overlay} {tip fork : Nat} {work : Nat → Work} {base : Base}
    {l : CoinbaseLedger} {replayed : List CommitBlock} (hlt : fork < bs.length)
    (hread : ReadsWindow s bs fork)
    (hr : rewindToFork s overlay tip fork params work = .ok (base, o, l, replayed)) :
    LedgerOf (bs.take (fork + 1)) l := by
  have hledger : buildLedger s fork = .ok l := by
    unfold rewindToFork at hr
    split at hr
    · simp only [Except.bind_eq_ok] at hr
      obtain ⟨l', hl, hr⟩ := hr
      cases hr
      exact hl
    · simp only [Except.bind_eq_ok, Prod.exists] at hr
      obtain ⟨_, _, _, -, l', hl, hr⟩ := hr
      cases hr
      exact hl
  refine ledgerOf_ledgerFrom (List.length_take_of_le (by omega)) (fun k hk ↦ ?_) hledger
  have hle : k < fork + 1 := by
    simp only [ledgerWindow, List.mem_range'_1] at hk
    omega
  rw [hread k hk, bodyOf, bodyOf, List.getElem?_take_of_lt hle]

/-- Coinbase maturity.

On every accepted chain: the ledger built from the last `COINBASE_MATURITY` bodies gives at
every height to come the sum of the coinbase credits of the whole chain that are locked
there; that sum is part of the balance, so `spendable` leaves exactly it aside; and no debit
of a next accepted block reaches into it, the block's own coinbase included.  At any fork the
rebuilt ledger is that of the blocks up to the fork and stays so along a branch, and a branch
validated on the fork's accounts completes an accepted chain. -/
theorem coinbase_maturity (params : ChainParams) (bs : List Block) (book : Address → Account)
    (h : AcceptedChain params bs book) :
    (∀ (σ : Type) [Store σ] (s : σ), ReadsWindow s bs (bs.length - 1) →
      ∃ l, buildLedger s (bs.length - 1) = .ok l ∧ LedgerOf bs l) ∧
    (∀ l, LedgerOf bs l → ∀ addr n, bs.length ≤ n →
      l.immatureAt addr n = lockedSum bs addr n ∧
      lockedSum bs addr n ≤ (book addr).balance ∧
      l.spendable addr (book addr).balance n + lockedSum bs addr n = (book addr).balance) ∧
    (∀ (r : HeaderRec) (raw : Bytes) (overlay o : Overlay) (l l' : CoinbaseLedger)
      (v : ValidatedBlock) (trust : Trust) (c : CheckedBody), LedgerOf bs l →
      overlay.view = book → r.height = bs.length →
      validateBlockBody overlay l r.header raw params trust = .ok (v, o, l') →
      checkBody r.header raw params trust = .ok c →
      ∀ l₁ l₂ payer amount nonce, c.entries = l₁ ++ .debit payer amount nonce :: l₂ →
      ∃ m, Posts (lockedSum (bs ++ [(r, raw)]) · bs.length) book l₁ m ∧
        amount + lockedSum (bs ++ [(r, raw)]) payer bs.length ≤ (m payer).balance) ∧
    ∀ (σ : Type) [Store σ] (s : σ) (overlay o : Overlay) (tip fork : Nat) (work : Nat → Work)
      (base : Base) (l : CoinbaseLedger) (replayed : List CommitBlock), fork < bs.length →
      ReadsWindow s bs fork →
      rewindToFork s overlay tip fork params work = .ok (base, o, l, replayed) →
      LedgerOf (bs.take (fork + 1)) l ∧
      ∃ forkBook, AcceptedChain params (bs.take (fork + 1)) forkBook ∧
      ∀ (last : HeaderRec) (branch : List Block) (i : Nat) (out : List CommitBlock)
        (spent : List (Address × Nat)) (o' : Overlay) (l' : CoinbaseLedger),
        bs[fork]?.map Prod.fst = some last → Extends (fork + 1) last.hash branch →
        validateBranch params work i branch o l = .ok (out, spent, o', l') →
        LedgerOf (bs.take (fork + 1) ++ branch) l' ∧
        (o.view = forkBook → AcceptedChain params (bs.take (fork + 1) ++ branch) o'.view) := by
  have hpos := h.length_pos
  refine ⟨fun σ _ s hread ↦ ?_, fun l hl addr n hn ↦ ?_, ?_, ?_⟩
  · obtain ⟨l, hl⟩ := h.ledgerFrom_ok hread
    exact ⟨l, hl, ledgerOf_ledgerFrom (by omega) hread hl⟩
  · exact ⟨h.immatureAt_eq hl hn, h.lockedSum_le addr hn, h.spendable_add hl hn⟩
  · intro r raw overlay o l l' v trust c hl hview hheight hv hc l₁ l₂ payer amount nonce hsplit
    exact h.debit_le hl hview hheight hv hc hsplit
  · intro σ _ s overlay o tip fork work base l replayed hlt hread hr
    have hl := ledgerOf_rewindToFork hlt hread hr
    obtain ⟨forkBook, hfork⟩ := h.take (Nat.succ_pos fork) hlt
    refine ⟨hl, forkBook, hfork, ?_⟩
    intro last branch i out spent o' l' hlast hext hb
    have hlen : (bs.take (fork + 1)).length = fork + 1 := List.length_take_of_le hlt
    have hend : (bs.take (fork + 1)).getLast?.map Prod.fst = some last := by
      rw [List.getLast?_eq_getElem?, hlen, Nat.add_sub_cancel,
        List.getElem?_take_of_lt (Nat.lt_succ_self fork), hlast]
    rw [← hlen] at hext
    exact ⟨validateBranch_ledgerOf hl hext hb,
      fun hview ↦ validateBranch_accepted hfork hend hl hview hext hb⟩

end

/-- The store of the sample chain has both bodies. -/
theorem Sample.store_bodies :
    letI := Sample.crypto
    (Sample.store 256).all (fun s ↦ (ledgerWindow 1).all fun h ↦ (Store.bodyAt s h).isSome) =
      true := by
  decide +kernel

/-- The law on a chain of two blocks: the ledger its store rebuilds is the chain's. -/
theorem coinbase_maturity_sample :
    letI := Sample.crypto
    ∃ book, AcceptedChain Sample.params Sample.chain book ∧
      ∃ s, Sample.store 256 = some s ∧
        ∃ l, buildLedger s 1 = .ok l ∧ LedgerOf Sample.chain l := by
  let _ := Sample.crypto
  obtain ⟨s, _, _, _, _, hs, -⟩ := Sample.rewound_eq Sample.rewound_all
  obtain ⟨book, hacc, hkeeps⟩ := Sample.store_keeps hs
  have hbodies := Sample.store_bodies
  rw [hs, Option.all_some, List.all_eq_true] at hbodies
  have hread : ReadsWindow s Sample.chain 1 := by
    intro h hh
    obtain ⟨raw, hraw⟩ := Option.isSome_iff_exists.mp (hbodies h hh)
    rw [hraw, hkeeps.holds.body hraw]
  exact ⟨book, hacc, s, hs, (coinbase_maturity _ _ _ hacc).1 _ s hread⟩

/-! ## Blocks that hold a coinbase alone -/

variable [Crypto]

/-- The coinbase of a height that pays the reward to an address. -/
def rewardTo (height : Nat) (a : Address) : CoinbaseTx where
  height := .ofNat height
  toAddr := a
  reward := .ofNat 128 (blockReward height)
  fees := 0
  note := ⟨0, []⟩

variable {params : ChainParams} {bs : List Block} {book : Address → Account} {height : Nat}
  {a : Address} {record raw : Bytes}

omit [Crypto] in
theorem blockReward_lt : blockReward height < 2 ^ 82 := by
  unfold blockReward subsidy
  split
  · exact Nat.two_pow_pos 82
  · decide

omit [Crypto] in
theorem reward_toNat : (rewardTo height a).reward.toNat = blockReward height := by
  refine (BitVec.toNat_ofNat ..).trans (Nat.mod_eq_of_lt (blockReward_lt.trans ?_))
  exact Nat.pow_lt_pow_right (by decide) (by decide)

omit [Crypto] in
/-- The coinbase has an encoding, and so has the body that holds it. -/
theorem exists_rewardBody (height : Nat) (a : Address) : ∃ record raw,
    (rewardTo height a).encode = .ok record ∧ BlockBody.encode [record] = .ok raw := by
  obtain ⟨record, hrecord⟩ : ∃ record, (rewardTo height a).encode = .ok record := ⟨_, rfl⟩
  have hlen : record.length = 65 := by
    cases hrecord
    simp [length_leBytes, Arr.length_eq, rewardTo]
  have hrecords : LegalRecord record := by
    refine ⟨?_, ?_⟩
    · rintro rfl
      cases hlen
    · rw [hlen]
      decide
  have hcount : 1 ≤ maxTxsPerBlock := by decide
  refine ⟨record, _, hrecord, BlockBody.encode_eq_ok.mpr ⟨⟨⟨List.cons_ne_nil _ _, hcount⟩, ?_, ?_⟩,
    rfl⟩⟩
  · rintro tx htx
    rwa [List.mem_singleton.mp htx]
  · rw [List.flatMap_cons, List.flatMap_nil, List.append_nil, length_record, hlen]
    decide

/-- The checks that need no account pass. -/
theorem checkBody_reward {header : Header} (hrecord : (rewardTo height a).encode = .ok record)
    (hraw : BlockBody.encode [record] = .ok raw) (hheight : height < UInt64.size)
    (hat : header.height = .ofNat height) (hroot : header.txRoot = txRootOf [record])
    (hnote : header.authorNoteLen = 0) :
    checkBody header raw params .untrusted =
      .ok ⟨⟨raw, [record]⟩, [.coinbase (rewardTo height a)], rewardTo height a,
        blockReward height⟩ := by
  have htx : decodeTx record = .ok (.coinbase (rewardTo height a)) := decodeTx_eq_ok.mpr hrecord
  refine checkBody_eq_ok.mpr ⟨BlockBody.parse_eq_ok.mpr ⟨rfl, hraw⟩, ?_, ?_, hroot.symm, ?_, ?_, ?_, ?_⟩
  · simp only [decodeBody, decodeRecords, htx]
    rfl
  · exact checkBodyStructure_eq_ok.mpr ⟨[], rfl, fun _ h ↦ by cases h⟩
  · rfl
  · exact Nat.zero_le _
  · refine checkCoinbase_eq_ok.mpr ⟨?_, ?_, rfl, Nat.zero_le _, ?_⟩
    · rw [hat]
      rfl
    · rw [reward_toNat, hat, UInt64.toNat_ofNat_of_lt' hheight]
    · rw [hnote]
      rfl
  · refine coinbaseCredit_eq_ok.mpr ⟨?_, ?_⟩
    · rw [reward_toNat]
      have hlt : blockReward height < 2 ^ 82 := blockReward_lt
      change blockReward height + 0 ≤ _
      unfold u128Max
      omega
    · rw [reward_toNat]
      rfl

/-- Any accepted chain goes on with a block that pays any address. -/
theorem AcceptedChain.exists_extend (h : AcceptedChain params bs book)
    (hlen : bs.length < UInt64.size) (a : Address) :
    ∃ b book', AcceptedChain params (bs ++ [b]) book' ∧
      creditOf (bodyOf (bs ++ [b])) bs.length = some (a, blockReward bs.length) ∧
      ∀ x, (book' x).nonce = (book x).nonce := by
  obtain ⟨record, raw, hrecord, hraw⟩ := exists_rewardBody bs.length a
  obtain ⟨l, hl⟩ : ∃ l, ledgerFrom (bodyOf bs) (bs.length - 1) = .ok l :=
    h.ledgerFrom_ok fun _ _ ↦ rfl
  obtain ⟨last, hlast⟩ : ∃ last, bs.getLast?.map Prod.fst = some last := by
    have hne := List.ne_nil_of_length_pos h.length_pos
    exact ⟨_, by rw [List.getLast?_eq_some_getLast hne]; rfl⟩
  let header : Header := {
    version := 0x20000000
    height := .ofNat bs.length
    prevHash := last.hash
    txRoot := txRootOf [record]
    extRoot := .zero 32
    time := 0
    bits := 0
    authorNoteLen := 0
    nonce := 0 }
  have hheader : (HeaderRec.fromRaw header.encode).header = header :=
    Except.ok.inj ((Header.decode_raw _).symm.trans (Header.decode_eq_ok.mpr rfl))
  have hheight : header.height.toNat = bs.length := UInt64.toNat_ofNat_of_lt' hlen
  have hc : checkBody header raw params .untrusted = .ok _ :=
    checkBody_reward hrecord hraw hlen rfl rfl rfl
  obtain ⟨v, o, l', hv, hnonce⟩ : ∃ v o l',
      validateBlockBody (.new book) l header raw params .untrusted = .ok (v, o, l') ∧
        ∀ x, (o.view x).nonce = (book x).nonce := by
    have hbalance := balance_le_total book a
    have htotal := h.total_lt
    have hreward : blockReward bs.length < 2 ^ 82 := blockReward_lt
    obtain ⟨txid, htxid⟩ := CoinbaseTx.txid_of_note (c := rewardTo bs.length a) (Nat.zero_le _)
    refine ⟨_, _, _, validateBlockBody_eq_ok.mpr ⟨_, hc, connectBody_eq_ok.mpr
      ⟨_, txid, _, Overlay.credit_eq_ok.mpr ⟨?_, rfl⟩, htxid, rfl, rfl, rfl, rfl⟩⟩, fun x ↦ ?_⟩
    · rw [Overlay.view_beginBlock, Overlay.view_new]
      change (book a).balance + blockReward bs.length ≤ u128Max
      unfold u128Max
      omega
    · rw [Overlay.view_deltas, Overlay.view_set, Overlay.get_snd_view, Overlay.view_beginBlock,
        Overlay.view_new]
      change (Function.update book a _ x).nonce = _
      rcases eq_or_ne x a with rfl | hne
      · rw [Function.update_self]
        rfl
      · rw [Function.update_of_ne hne]
  refine ⟨(HeaderRec.fromRaw header.encode, raw), o.view,
    .extend h hlast ?_ ?_ hl (Overlay.view_new _) (hheader ▸ hv), ?_, hnonce⟩
  · rw [HeaderRec.height, hheader, hheight]
  · rw [HeaderRec.prevHash, hheader]
  · rw [creditOf, bodyOf_append_length, Option.bind_some, coinbaseOf_of_checkBody hc,
      Option.map_some, reward_toNat]
    rfl

/-- There are accepted chains of every length whose rewards all go to one address. -/
theorem exists_accepted {g : Block} (hg : g.1.height = 0) (hpays : PaysNothing g.2) (a : Address)
    {n : Nat} (hn : n < UInt64.size) : ∃ bs book, AcceptedChain params bs book ∧
      bs.length = n + 1 ∧ (∀ x, (book x).nonce = 0) ∧
      ∀ h, 0 < h → h ≤ n → creditOf (bodyOf bs) h = some (a, blockReward h) := by
  induction n with
  | zero =>
    refine ⟨[g], _, .genesis hg hpays, rfl, fun _ ↦ rfl, fun h hpos hle ↦ ?_⟩
    exact absurd hle (Nat.not_le_of_lt hpos)
  | succ n ih =>
    obtain ⟨bs, book, hbs, hlen, hnonce, hpaid⟩ := ih (Nat.lt_of_succ_lt hn)
    obtain ⟨b, book', hnext, hcredit, hsame⟩ := hbs.exists_extend (hlen ▸ hn) a
    refine ⟨bs ++ [b], book', hnext, ?_, fun x ↦ (hsame x).trans (hnonce x), fun h hpos hle ↦ ?_⟩
    · rw [List.length_append, hlen, List.length_singleton]
    · rcases Nat.lt_or_eq_of_le hle with hlt | rfl
      · rw [creditOf, bodyOf_append_left (by omega), ← creditOf]
        exact hpaid h hpos (Nat.le_of_lt_succ hlt)
      · rwa [hlen] at hcredit

end Plaine.Chain

import Plaine.Chain.Maturity
import Plaine.Chain.Mempool

/-!
# Bodies that cannot be read

`build_ledger` goes on where the store has no body for a height, or one that does not parse.  The
coinbase of that height is then missing from the ledger, and what it paid is taken for spendable
before it has matured.
-/

namespace Plaine.Chain

open Plaine.Lib Plaine.Lib.Ledger Plaine.Consensus

section

/-! ## Reading past damage -/

/-- Two ledgers have the same immature amounts from a height on. -/
def CoinbaseLedger.AlikeFrom (height : Nat) (l l' : CoinbaseLedger) : Prop :=
  ∀ addr n, height ≤ n → l.immature addr n = l'.immature addr n

variable [Crypto]

/-- A body of the window is read as it is, or has no coinbase that can be read. -/
def Damaged (bodyAt : Nat → Option Bytes) (bs : List Block) : Prop :=
  ∀ k ∈ ledgerWindow (bs.length - 1), bodyAt k = bodyOf bs k ∨ (bodyAt k).bind coinbaseOf = none

/-- What cannot be read has matured at the next height, or its coinbase pays nothing. -/
def Harmless (bodyAt : Nat → Option Bytes) (bs : List Block) : Prop :=
  ∀ k < bs.length, bs.length < k + coinbaseMaturity → bodyAt k = bodyOf bs k ∨
    ∀ a credit, creditOf (bodyOf bs) k = some (a, credit) → credit = 0

variable {bodyAt : Nat → Option Bytes} {bs : List Block} {addr : Address} {n k : Nat}

omit [Crypto] in
theorem lockedAt_of_none (h : (bodyAt k).bind coinbaseOf = none) : lockedAt bodyAt addr n k = 0 := by
  rw [lockedAt, creditOf, h]
  rfl

/-- Damage takes away from what is locked. -/
theorem Damaged.lockedAt_le (h : Damaged bodyAt bs) (hk : k ∈ ledgerWindow (bs.length - 1)) :
    lockedAt bodyAt addr n k ≤ lockedAt (bodyOf bs) addr n k := by
  rcases h k hk with heq | hnone
  · exact (lockedAt_congr heq addr n).le
  · rw [lockedAt_of_none hnone]
    exact Nat.zero_le _

theorem mem_ledgerWindow (hk : k < bs.length) (hlocked : bs.length < k + coinbaseMaturity) :
    k ∈ ledgerWindow (bs.length - 1) := by
  rw [ledgerWindow, List.mem_range'_1]
  omega

/-- Harmless damage takes nothing away. -/
theorem Harmless.lockedAt_eq (h : Harmless bodyAt bs) (hd : Damaged bodyAt bs) (hn : bs.length ≤ n)
    (hpos : 0 < bs.length) (hk : k ∈ ledgerWindow (bs.length - 1)) :
    lockedAt bodyAt addr n k = lockedAt (bodyOf bs) addr n k := by
  rcases hd k hk with heq | hnone
  · exact lockedAt_congr heq addr n
  · have hlt : k < bs.length := by
      rw [ledgerWindow, List.mem_range'_1] at hk
      omega
    rw [lockedAt_of_none hnone, lockedAt]
    split
    case h_2 => rfl
    case h_1 a credit hcredit =>
      split
      case isFalse => rfl
      case isTrue hlocked =>
        rcases h k hlt (by omega) with heq | hzero
        · rw [creditOf, ← heq, hnone] at hcredit
          cases hcredit
        · exact (hzero a credit hcredit).symm

/-- What the damage has done to the ledgers. -/
theorem immature_le_iff {l t : CoinbaseLedger} (hpos : 0 < bs.length) (hd : Damaged bodyAt bs)
    (hl : ledgerFrom bodyAt (bs.length - 1) = .ok l)
    (ht : ledgerFrom (bodyOf bs) (bs.length - 1) = .ok t) :
    (Harmless bodyAt bs → l.AlikeFrom bs.length t) ∧
      (¬Harmless bodyAt bs → ∃ addr, l.immature addr bs.length < t.immature addr bs.length) := by
  have hzero (addr : Address) (n : Nat) : CoinbaseLedger.new.immature addr n = 0 := rfl
  constructor
  · intro h addr n hn
    rw [immature_pushCoinbase hl, immature_pushCoinbase ht, hzero, Nat.zero_add, Nat.zero_add,
      List.map_congr_left fun k hk ↦ h.lockedAt_eq hd hn hpos hk]
  · intro h
    simp only [Harmless, not_forall, not_or, Nat.pos_iff_ne_zero.symm] at h
    obtain ⟨k, hk, hlocked, hne, a, credit, hcredit, hpays⟩ := h
    have hmem := mem_ledgerWindow hk hlocked
    refine ⟨a, ?_⟩
    rw [immature_pushCoinbase hl, immature_pushCoinbase ht, hzero, Nat.zero_add, Nat.zero_add]
    refine List.sum_lt_sum _ _ (fun _ ↦ hd.lockedAt_le) ⟨k, hmem, ?_⟩
    rw [lockedAt_of_none ((hd k hmem).resolve_left hne), lockedAt, hcredit]
    change 0 < if _ then credit else 0
    rw [if_pos ⟨rfl, hlocked⟩]
    exact hpays

end

/-! ## What is accepted -/

namespace CoinbaseLedger.AlikeFrom

variable {height n : Nat} {l l' : CoinbaseLedger}

theorem immatureAt_eq (h : l.AlikeFrom height l') (hn : height ≤ n) (addr : Address) :
    l.immatureAt addr n = l'.immatureAt addr n := by
  rw [CoinbaseLedger.immatureAt_eq, CoinbaseLedger.immatureAt_eq, h addr n hn]

theorem spendable_eq (h : l.AlikeFrom height l') (hn : height ≤ n) (addr : Address) (balance : Nat) :
    l.spendable addr balance n = l'.spendable addr balance n := by
  rw [spendable, spendable, h.immatureAt_eq hn]

theorem push (h : l.AlikeFrom height l') (k : Nat) (a : Address) (credit : Nat) :
    (l.push k a credit).AlikeFrom height (l'.push k a credit) := by
  intro addr n hn
  rw [immature_push, immature_push, h addr n hn]

end CoinbaseLedger.AlikeFrom

section

variable [Crypto] {height n : Nat} {l l' m : CoinbaseLedger}

/-- A transaction is connected the same under ledgers that are alike. -/
theorem connectTx_alike (h : l.AlikeFrom height l') (hn : height ≤ n) (i : Nat) (raw : Bytes)
    (tx : Tx) (c : Connect) : connectTx l n i raw tx c = connectTx l' n i raw tx c := by
  cases tx with
  | coinbase => rfl
  | transfer t =>
    simp only [connectTx, connectTransfer, h.spendable_eq hn]
  | announcement a =>
    simp only [connectTx, connectAnnouncement, h.spendable_eq hn]

theorem connectTxs_alike (h : l.AlikeFrom height l') (hn : height ≤ n) (i : Nat)
    (txs : List (Tx × Bytes)) (c : Connect) : connectTxs l n i txs c = connectTxs l' n i txs c := by
  induction txs generalizing i c with
  | nil => rfl
  | cons tx txs ih =>
    simp only [connectTxs, connectTx_alike h hn, ih]

/-- So is a block. -/
theorem validateBlockBody_alike (h : l.AlikeFrom height l') {overlay o : Overlay} {header : Header}
    (hn : height ≤ header.height.toNat) {raw : Bytes} {params : ChainParams} {trust : Trust}
    {v : ValidatedBlock} (hv : validateBlockBody overlay l header raw params trust = .ok (v, o, m)) :
    ∃ m', m.AlikeFrom height m' ∧
      validateBlockBody overlay l' header raw params trust = .ok (v, o, m') := by
  obtain ⟨c, hc, hconnect⟩ := validateBlockBody_eq_ok.mp hv
  simp only [connectBody, Except.bind_eq_ok] at hconnect
  obtain ⟨o₁, ho₁, txid, htxid, done, hdone, heq⟩ := hconnect
  cases heq
  refine ⟨_, h.push _ _ _, validateBlockBody_eq_ok.mpr ⟨c, hc, ?_⟩⟩
  rw [connectTxs_alike (h.push _ _ _) hn] at hdone
  simp only [connectBody, Except.bind_eq_ok]
  exact ⟨o₁, ho₁, txid, htxid, done, hdone, rfl⟩

/-- And a branch. -/
theorem validateBranch_alike (h : l.AlikeFrom height l') {params : ChainParams} {work : Nat → Work}
    {i : Nat} {branch : List Block} (hn : ∀ b ∈ branch, height ≤ b.1.header.height.toNat)
    {overlay o : Overlay} {out : List CommitBlock} {spent : List (Address × Nat)}
    (hv : validateBranch params work i branch overlay l = .ok (out, spent, o, m)) :
    ∃ m', m.AlikeFrom height m' ∧
      validateBranch params work i branch overlay l' = .ok (out, spent, o, m') := by
  induction branch generalizing i overlay l l' out spent with
  | nil =>
    cases hv
    exact ⟨l', h, rfl⟩
  | cons b branch ih =>
    obtain ⟨r, raw⟩ := b
    obtain ⟨hr, hbranch⟩ := List.forall_mem_cons.mp hn
    obtain ⟨v, o₁, l₁, out', spent', hv₁, hrest, hout, hspent⟩ := validateBranch_cons_eq_ok.mp hv
    obtain ⟨l₁', h₁, hv₁'⟩ := validateBlockBody_alike h hr hv₁
    obtain ⟨m', hm, hrest'⟩ := ih h₁ hbranch hrest
    exact ⟨m', hm, validateBranch_cons_eq_ok.mpr
      ⟨v, o₁, l₁', out', spent', hv₁', hrest', hout, hspent⟩⟩

end

/-! ## The law -/

section

variable [Crypto] {params : ChainParams} {bs : List Block} {book : Address → Account}

/-- The loop of `build_ledger` goes through however many bodies cannot be read. -/
theorem AcceptedChain.ledgerFrom_damaged (h : AcceptedChain params bs book)
    {bodyAt : Nat → Option Bytes} (hd : Damaged bodyAt bs) :
    ∃ l, ledgerFrom bodyAt (bs.length - 1) = .ok l := by
  refine List.foldlM_ok (fun l k hk ↦ ?_) _
  rw [pushCoinbase]
  cases hcb : (bodyAt k).bind coinbaseOf with
  | none => exact ⟨l, rfl⟩
  | some cb =>
    have heq : bodyAt k = bodyOf bs k := (hd k hk).resolve_right (by rw [hcb]; rintro ⟨⟩)
    have hcredit := coinbaseCredit_eq_ok.mpr ⟨h.credit_le (heq ▸ hcb), rfl⟩
    exact ⟨_, by simp only [hcredit]; rfl⟩

/-- `build_ledger` over a store that has lost bodies of an accepted chain's window returns a ledger.
It lets no account spend more than the ledger of the true bodies does exactly when the coinbase of
every lost body has matured at the next height or pays nothing; and then every branch and every
submission that is accepted with the one is accepted with the other. -/
theorem damaged_ledger (h : AcceptedChain params bs book) {σ : Type} [Store σ] (s : σ)
    (hd : Damaged (Store.bodyAt s) bs) :
    ∃ l t, buildLedger s (bs.length - 1) = .ok l ∧ ledgerFrom (bodyOf bs) (bs.length - 1) = .ok t ∧
      ((∀ addr n outlay, bs.length ≤ n → outlay ≤ l.spendable addr (book addr).balance n →
          outlay ≤ t.spendable addr (book addr).balance n) ↔ Harmless (Store.bodyAt s) bs) ∧
      (Harmless (Store.bodyAt s) bs →
        (∀ (work : Nat → Work) (i : Nat) (branch : List Block) (overlay o : Overlay)
          (out : List CommitBlock) (spent : List (Address × Nat)) (l' : CoinbaseLedger),
          (∀ b ∈ branch, bs.length ≤ b.1.header.height.toNat) →
          validateBranch params work i branch overlay l = .ok (out, spent, o, l') →
          ∃ t', validateBranch params work i branch overlay t = .ok (out, spent, o, t')) ∧
        ∀ (p : Mempool) (network : Network) (raw : Bytes) (account : Address → Account)
          (now n : Nat) (authorPubkey : Arr 32), bs.length ≤ n →
          p.submitVerified network raw
              (fun a ↦ (account a, l.spendable a (account a).balance n)) now authorPubkey =
            p.submitVerified network raw
              (fun a ↦ (account a, t.spendable a (account a).balance n)) now authorPubkey) := by
  have hpos := h.length_pos
  obtain ⟨l, hl⟩ := h.ledgerFrom_damaged hd
  obtain ⟨t, ht⟩ : ∃ t, ledgerFrom (bodyOf bs) (bs.length - 1) = .ok t :=
    h.ledgerFrom_ok fun _ _ ↦ rfl
  obtain ⟨halike, hloses⟩ := immature_le_iff hpos hd hl ht
  have hledger : LedgerOf bs t := ledgerOf_ledgerFrom (by omega) (fun _ _ ↦ rfl) ht
  refine ⟨l, t, hl, ht, ⟨fun hspend ↦ ?_, fun hh addr n outlay hn hle ↦ ?_⟩, fun hh ↦ ⟨?_, ?_⟩⟩
  · by_contra hh
    obtain ⟨addr, hlt⟩ := hloses hh
    have hspendable := hspend addr bs.length _ le_rfl le_rfl
    have hlocked := h.lockedSum_le addr (le_refl bs.length)
    rw [← hledger addr _ le_rfl] at hlocked
    have hbalance : (book addr).balance ≤ u128Max := by
      have hle := balance_le_total book addr
      have htotal := h.total_lt
      unfold u128Max
      omega
    rw [CoinbaseLedger.spendable_eq_exact _ _ _ hbalance,
      CoinbaseLedger.spendable_eq_exact _ _ _ hbalance] at hspendable
    omega
  · rwa [← (halike hh).spendable_eq hn]
  · intro work i branch overlay o out spent l' hn hv
    obtain ⟨t', -, ht'⟩ := validateBranch_alike (halike hh) hn hv
    exact ⟨t', ht'⟩
  · intro p network raw account now n authorPubkey hn
    simp only [(halike hh).spendable_eq hn]

end

/-! ## A lost body -/

namespace Sample

/-- The coinbase of a first block of the account with a transfer to make. -/
def ownCoinbase : CoinbaseTx :=
  { firstCoinbase with toAddr := .ofNat 20 0x83561adb398fd87f8e7ed8331bff2fcb945733cc }

def ownBody : Bytes := (BlockBody.encode [ownCoinbase.encode.toOption.getD []]).toOption.getD []

def ownHeader : Header :=
  { header with
    prevHash := @headerHash crypto genesisHeader.encode
    txRoot := .ofNat 32 0x10d60534488395b7cc5af7ff0b5b35bb262ae4194f492d5b4b6f58bbbe6eddaa }

def own : @HeaderRec crypto := @HeaderRec.fromRaw crypto ownHeader.encode

def ownChain : List (@Block crypto) := [(genesis, genesisBody), (own, ownBody)]

/-- The body of the next block, with the transfer in it. -/
def spendBody : Bytes :=
  (BlockBody.encode [CoinbaseTx.encode { coinbase with height := 2 } |>.toOption.getD [],
    transfer.encode]).toOption.getD []

def spendHeader : Header :=
  { header with
    height := 2
    prevHash := @headerHash crypto ownHeader.encode
    txRoot := .ofNat 32 0x18dc349ca536085c03dfbdbbbaaf02d7d5b741bec0bee2fc0ec5fde3975851e2 }

/-- A store of that chain which has lost the body of its tip. -/
def lossy : @MemStore crypto :=
  letI := crypto
  { canonical := [genesis, own]
    chainwork := [0, 0]
    bodies := AList.insert genesis.hash genesisBody ∅
    side := ∅
    accounts := ∅
    undo := ∅
    snapshots := ∅
    invalid := []
    anchorRecord := none
    undoWindow := 256
    replayFloor := 0
    snapshotInterval := 0 }

/-- What the first block is validated to. -/
def ownValidated : Except Reject (ValidatedBlock × Overlay × CoinbaseLedger) :=
  letI := crypto
  do
    let l ← ledgerFrom (bodyOf (ownChain.take 1)) 0
    validateBlockBody (.new fun _ ↦ default) l own.header ownBody params .untrusted

/-- Whether the next block is accepted with the ledger of some bodies. -/
def spends (bodyAt : Nat → Option Bytes) : Option Bool :=
  letI := crypto
  do
    let (_, o, _) ← ownValidated.toOption
    let l ← (ledgerFrom bodyAt 1).toOption
    return (validateBlockBody (.new o.view) l spendHeader spendBody params .untrusted).isOk

theorem spends_lossy : letI := crypto; spends (Store.bodyAt lossy) = some true := by
  decide +kernel

theorem spends_bodyOf : letI := crypto; spends (bodyOf ownChain) = some false := by decide +kernel

theorem own_height : letI := crypto; own.height = 1 := by decide +kernel

theorem own_prevHash : letI := crypto; own.prevHash = genesis.hash := by decide +kernel

theorem lossy_genesis : letI := crypto; Store.bodyAt lossy 0 = some genesisBody := by
  decide +kernel

theorem lossy_own : letI := crypto; Store.bodyAt lossy 1 = none := by decide +kernel

/-- The two blocks are an accepted chain. -/
theorem own_accepted {v : ValidatedBlock} {o : Overlay} {l' : CoinbaseLedger}
    (h : ownValidated = .ok (v, o, l')) :
    letI := crypto
    AcceptedChain params ownChain o.view := by
  let _ := crypto
  obtain ⟨l, hl, hv⟩ := Except.bind_eq_ok.mp h
  have hgenesis : AcceptedChain params [(genesis, genesisBody)] fun _ ↦ default :=
    .genesis rfl genesisBody_paysNothing
  exact .extend hgenesis rfl own_height own_prevHash hl (Overlay.view_new _) hv

theorem spends_eq {bodyAt : Nat → Option Bytes} {b : Bool} (h : spends bodyAt = some b) :
    letI := crypto
    ∃ v o l' l, ownValidated = .ok (v, o, l') ∧ ledgerFrom bodyAt 1 = .ok l ∧
      (validateBlockBody (.new o.view) l spendHeader spendBody params .untrusted).isOk = b := by
  let _ := crypto
  simp only [spends, Option.bind_eq_bind, Option.bind_eq_some_iff] at h
  obtain ⟨⟨v, o, l'⟩, hv, l, hl, h⟩ := h
  refine ⟨v, o, l', l, ?_, ?_, Option.some.inj h⟩
  · cases hval : ownValidated with
    | error e => rw [hval] at hv; cases hv
    | ok r => rw [hval] at hv; exact congrArg _ (Option.some.inj hv)
  · cases hledger : ledgerFrom bodyAt 1 with
    | error e => rw [hledger] at hl; cases hl
    | ok r => rw [hledger] at hl; exact congrArg _ (Option.some.inj hl)

theorem lossy_damaged : letI := crypto; Damaged (Store.bodyAt lossy) ownChain := by
  let _ := crypto
  intro k hk
  have hlt : k < 2 := by
    simp only [ledgerWindow, List.mem_range'_1] at hk
    exact hk.2.trans_eq (by rfl)
  rcases Nat.le_one_iff_eq_zero_or_eq_one.mp (Nat.le_of_lt_succ hlt) with rfl | rfl
  · exact .inl lossy_genesis
  · exact .inr (by rw [lossy_own]; rfl)

end Sample

/-- A node that has lost the body of its tip accepts a block that spends the coinbase of that tip,
and with the true bodies it refuses it. -/
theorem lossy_spends_immature :
    letI := Sample.crypto
    ¬∀ (params : ChainParams) (bs : List Block) (book : Address → Account) (s : MemStore)
      (l t : CoinbaseLedger) (header : Header) (raw : Bytes), AcceptedChain params bs book →
      Damaged (Store.bodyAt s) bs → buildLedger s (bs.length - 1) = .ok l →
      ledgerFrom (bodyOf bs) (bs.length - 1) = .ok t → header.height.toNat = bs.length →
      (validateBlockBody (.new book) l header raw params .untrusted).isOk →
      (validateBlockBody (.new book) t header raw params .untrusted).isOk := by
  let _ := Sample.crypto
  intro h
  obtain ⟨v, o, l', l, hv, hl, hspends⟩ := Sample.spends_eq Sample.spends_lossy
  obtain ⟨v₁, o₁, l₁, t, hv₁, ht, hrefused⟩ := Sample.spends_eq Sample.spends_bodyOf
  cases hv.symm.trans hv₁
  have haccepted := h _ _ _ _ _ _ _ _ (Sample.own_accepted hv) Sample.lossy_damaged hl ht rfl hspends
  rw [hrefused] at haccepted
  cases haccepted

/-- The law over that store: what it lets an account spend is not what the true bodies do. -/
theorem damaged_ledger_sample :
    letI := Sample.crypto
    ∃ book l t, AcceptedChain Sample.params Sample.ownChain book ∧
      buildLedger Sample.lossy 1 = .ok l ∧ ledgerFrom (bodyOf Sample.ownChain) 1 = .ok t ∧
      ((∀ addr n outlay, 2 ≤ n → outlay ≤ l.spendable addr (book addr).balance n →
          outlay ≤ t.spendable addr (book addr).balance n) ↔
        Harmless (Store.bodyAt Sample.lossy) Sample.ownChain) := by
  let _ := Sample.crypto
  obtain ⟨v, o, l', -, hv, -, -⟩ := Sample.spends_eq Sample.spends_lossy
  have hacc := Sample.own_accepted hv
  obtain ⟨l, t, hl, ht, hiff, -⟩ := damaged_ledger hacc Sample.lossy Sample.lossy_damaged
  exact ⟨_, l, t, hacc, hl, ht, hiff⟩

end Plaine.Chain

import Plaine.Chain.Maturity
import Plaine.Chain.Mock
import Plaine.Chain.Executable

/-!
# The account view

`RpcChain::account` of `node/src/wire/rpcview.rs`, from which a wallet learns what an address may
spend and which nonce its next transaction takes.  The immature amount is summed from the bodies of
the last `COINBASE_MATURITY` heights; the pending nonce is the account's and the number of
transactions the mempool answers with.
-/

namespace Plaine.Node

open Plaine.Lib Plaine.Lib.Ledger Plaine.Consensus Plaine.Chain

/-! ## The view -/

/-- `AccountRecord`. -/
structure AccountRecord where
  balance : Nat
  nonce : Nat
  pendingNonce : Nat
  immature : Nat
deriving DecidableEq

section

variable [Crypto]

/-- A round of the loop of `account`. -/
def addImmature (bodyAt : Nat → Option Bytes) (addr : Address) (immature h : Nat) : Nat :=
  match (bodyAt h).bind coinbaseOf with
  | none => immature
  | some cb =>
    if cb.toAddr = addr then
      match coinbaseCredit cb with
      | .ok c => saturatingAdd u128Max immature c
      | .error _ => immature
    else immature

/-- The loop of `account`. -/
def immatureBelow (bodyAt : Nat → Option Bytes) (tip : Nat) (addr : Address) : Nat :=
  let lo := tip - (coinbaseMaturity - 1)
  (List.range' lo (tip + 1 - lo)).foldl (addImmature bodyAt addr) 0

/-- `Query::BySender`. -/
def bySender (p : Mempool) (addr : Address) : List Bytes := (p.senderTxs addr).map (·.bytes)

/-- `RpcChain::account` over what the store returns, with the answer of the mempool unless it comes
too late.  The sum of the nonces panics when it leaves its type. -/
def account (accountOf : Address → Account) (bodyAt : Nat → Option Bytes) (tip : Nat)
    (answer : Option (List Bytes)) (addr : Address) : Option AccountRecord := do
  let a := accountOf addr
  let pending := (answer.map List.length).getD 0
  let pendingNonce ← checkedAdd u64Max a.nonce pending
  return {
    balance := a.balance
    nonce := a.nonce
    pendingNonce
    immature := immatureBelow bodyAt tip addr }

/-! ## Immature amounts -/

variable {bodyAt : Nat → Option Bytes} {addr : Address} {tip : Nat} {l : CoinbaseLedger}
  {params : ChainParams} {bs : List Block} {book : Address → Account}

omit [Crypto] in
/-- A round of the loop counts a coinbase that is immature at the tip. -/
theorem addImmature_eq {h : Nat} {l' : CoinbaseLedger} (hlocked : tip < h + coinbaseMaturity)
    (hpush : pushCoinbase bodyAt l h = .ok l') :
    addImmature bodyAt addr (min (l.immature addr tip) u128Max) h =
      min (l'.immature addr tip) u128Max := by
  unfold pushCoinbase at hpush
  unfold addImmature
  cases hcb : (bodyAt h).bind coinbaseOf with
  | none =>
    rw [hcb] at hpush
    cases hpush
    rfl
  | some cb =>
    simp only [hcb, Except.bind_eq_ok, Except.mapError_eq_ok] at hpush
    obtain ⟨credit, hcredit, hpush⟩ := hpush
    cases hpush
    dsimp only
    rw [CoinbaseLedger.immature_push, hcredit]
    by_cases hto : cb.toAddr = addr
    · rw [if_pos hto, if_pos ⟨hto, hlocked⟩]
      change min (_ + credit) _ = _
      omega
    · rw [if_neg hto, if_neg fun h ↦ hto h.1, Nat.add_zero]

omit [Crypto] in
/-- The loop sums what the ledger of the same bodies has for the tip, and not for the next
height. -/
theorem immatureBelow_eq (hl : ledgerFrom bodyAt tip = .ok l) :
    immatureBelow bodyAt tip addr = l.immatureAt addr tip := by
  have hloop : ∀ hs : List Nat, (∀ h ∈ hs, tip < h + coinbaseMaturity) →
      ∀ l₀, hs.foldlM (pushCoinbase bodyAt) l₀ = .ok l →
        hs.foldl (addImmature bodyAt addr) (min (l₀.immature addr tip) u128Max) =
          min (l.immature addr tip) u128Max := by
    intro hs
    induction hs with
    | nil =>
      rintro - l₀ hl
      cases hl
      rfl
    | cons h hs ih =>
      intro hlocked l₀ hl
      obtain ⟨hh, hlocked⟩ := List.forall_mem_cons.mp hlocked
      obtain ⟨l₁, hpush, hl⟩ := List.foldlM_cons_eq_ok.mp hl
      rw [List.foldl_cons, addImmature_eq hh hpush]
      exact ih hlocked l₁ hl
  rw [CoinbaseLedger.immatureAt_eq]
  refine hloop _ (fun h hh ↦ ?_) .new hl
  have hlow := (List.mem_range'_1.mp hh).1
  unfold coinbaseMaturity at hlow ⊢
  omega

omit [Crypto] in
/-- A coinbase is locked at a height and not at the next if it matures there. -/
theorem lockedAt_succ {h n : Nat} :
    lockedAt bodyAt addr (n + 1) h = lockedAt bodyAt addr n h ↔
      (h + coinbaseMaturity = n + 1 → ∀ credit, creditOf bodyAt h = some (addr, credit) →
        credit = 0) := by
  unfold lockedAt
  split
  case h_2 hnone =>
    refine iff_of_true rfl fun _ credit hcredit ↦ ?_
    rw [hnone] at hcredit
    cases hcredit
  case h_1 a c hc =>
    rw [hc]
    constructor
    · rintro heq hmatures credit hcredit
      cases hcredit
      rw [if_neg (by omega), if_pos ⟨rfl, by omega⟩] at heq
      exact heq.symm
    · intro hzero
      by_cases hmatures : h + coinbaseMaturity = n + 1
      · by_cases ha : a = addr
        · subst ha
          rw [hzero hmatures c rfl, ite_self, ite_self]
        · rw [if_neg fun h ↦ ha h.1, if_neg fun h ↦ ha h.1]
      · have hiff : n + 1 < h + coinbaseMaturity ↔ n < h + coinbaseMaturity := by omega
        simp only [hiff]

/-- The coinbase that matures at the next height does not pay an address. -/
def MaturesNothing (bs : List Block) (addr : Address) : Prop :=
  ∀ h credit, h + coinbaseMaturity = bs.length →
    creditOf (bodyOf bs) h = some (addr, credit) → credit = 0

/-- What the ledger has for the tip, and what it has for the next height. -/
theorem immature_tip (hpos : 0 < bs.length)
    (hread : ∀ k ∈ ledgerWindow (bs.length - 1), bodyAt k = bodyOf bs k)
    (hl : ledgerFrom bodyAt (bs.length - 1) = .ok l) :
    (MaturesNothing bs addr → l.immature addr bs.length = l.immature addr (bs.length - 1)) ∧
      (¬MaturesNothing bs addr →
        l.immature addr bs.length < l.immature addr (bs.length - 1)) := by
  have hsucc : bs.length - 1 + 1 = bs.length := Nat.sub_add_cancel hpos
  have hlocked (h : Nat) : lockedAt (bodyOf bs) addr bs.length h =
      lockedAt (bodyOf bs) addr (bs.length - 1) h ↔ (h + coinbaseMaturity = bs.length →
        ∀ credit, creditOf (bodyOf bs) h = some (addr, credit) → credit = 0) := by
    have hiff := @lockedAt_succ (bodyOf bs) addr h (bs.length - 1)
    rwa [hsucc] at hiff
  have himmature (n : Nat) : l.immature addr n =
      ((ledgerWindow (bs.length - 1)).map (lockedAt (bodyOf bs) addr n)).sum := by
    have hzero : CoinbaseLedger.new.immature addr n = 0 := rfl
    rw [immature_pushCoinbase hl, hzero, Nat.zero_add,
      List.map_congr_left fun k hk ↦ lockedAt_congr (hread k hk) addr n]
  rw [himmature, himmature]
  constructor
  · intro hnothing
    refine congrArg List.sum (List.map_congr_left fun h _ ↦ ?_)
    exact (hlocked h).mpr fun hmatures credit ↦ hnothing h credit hmatures
  · intro hpays
    simp only [MaturesNothing, not_forall] at hpays
    obtain ⟨h, credit, hmatures, hcredit, hne⟩ := hpays
    refine List.sum_lt_sum _ _ (fun k _ ↦ lockedAt_anti (Nat.sub_le _ _)) ?_
    refine ⟨h, ?_, (lockedAt_anti (Nat.sub_le _ _)).lt_of_ne fun heq ↦ ?_⟩
    · rw [ledgerWindow, List.mem_range'_1]
      unfold coinbaseMaturity at hmatures ⊢
      omega
    · exact hne ((hlocked h).mp heq hmatures credit hcredit)

/-- The immature amount that is reported is the ledger's for the tip, and the ledger's for the next
height exactly when the coinbase that matures there does not pay the address. -/
theorem reported_immature (h : AcceptedChain params bs book)
    (hread : ∀ k ∈ ledgerWindow (bs.length - 1), bodyAt k = bodyOf bs k) (addr : Address) :
    ∃ l, ledgerFrom bodyAt (bs.length - 1) = .ok l ∧
      immatureBelow bodyAt (bs.length - 1) addr = l.immatureAt addr (bs.length - 1) ∧
      (immatureBelow bodyAt (bs.length - 1) addr = l.immatureAt addr bs.length ↔
        MaturesNothing bs addr) := by
  have hpos := h.length_pos
  obtain ⟨l, hl⟩ := h.ledgerFrom_ok hread
  have htip : immatureBelow bodyAt (bs.length - 1) addr = l.immatureAt addr (bs.length - 1) :=
    immatureBelow_eq hl
  obtain ⟨hsame, hless⟩ : (MaturesNothing bs addr → _) ∧ (¬MaturesNothing bs addr → _) :=
    immature_tip hpos hread hl
  have hledger : LedgerOf bs l := ledgerOf_ledgerFrom (by omega) hread hl
  have hbound : l.immature addr bs.length < u128Max := by
    have hlocked := h.lockedSum_le addr (le_refl bs.length)
    have hbalance := balance_le_total book addr
    have htotal := h.total_lt
    rw [hledger addr _ le_rfl]
    unfold u128Max
    omega
  refine ⟨l, hl, htip, ?_⟩
  rw [htip, CoinbaseLedger.immatureAt_eq, CoinbaseLedger.immatureAt_eq]
  by_cases hnothing : MaturesNothing bs addr
  · exact iff_of_true (by rw [hsame hnothing]) hnothing
  · have hlt := hless hnothing
    exact iff_of_false (by omega) hnothing

/-- The immature amount that is reported is the ledger's for the tip.  It is the ledger's for the
next height, which is what the mempool and the next block go by, exactly when the coinbase that
matures there does not pay the address; and then the rest of the balance is what they let it
spend. -/
theorem account_immature (h : AcceptedChain params bs book) (accountOf : Address → Account)
    (hread : ∀ k ∈ ledgerWindow (bs.length - 1), bodyAt k = bodyOf bs k)
    (answer : Option (List Bytes)) {r : AccountRecord}
    (hr : account accountOf bodyAt (bs.length - 1) answer addr = some r) :
    ∃ l, ledgerFrom bodyAt (bs.length - 1) = .ok l ∧
      r.immature = l.immatureAt addr (bs.length - 1) ∧
      (r.immature = l.immatureAt addr bs.length ↔ MaturesNothing bs addr) ∧
      (MaturesNothing bs addr →
        r.balance - r.immature = l.spendable addr r.balance bs.length) := by
  obtain ⟨l, hl, htip, hiff⟩ := reported_immature h hread addr
  obtain ⟨nonce, -, heq⟩ := Option.bind_eq_some_iff.mp hr
  cases heq
  refine ⟨l, hl, htip, hiff, fun hnothing ↦ ?_⟩
  rw [CoinbaseLedger.spendable_eq, ← hiff.mpr hnothing]

/-! ## Pending nonces -/

omit [Crypto] in
/-- The nonces in the pool are those of the sender's slots. -/
theorem pools_slots {p : Mempool} (hp : Mempool.Indexed p) (s : Address) :
    p.Pools s = (· ∈ (p.slotsOf s).map (·.1)) := by
  ext n
  rw [Mempool.pools_iff hp, List.mem_map]
  constructor
  · rintro ⟨id, hid⟩
    exact ⟨(n, id), hid, rfl⟩
  · rintro ⟨⟨m, id⟩, hid, rfl⟩
    exact ⟨id, hid⟩

omit [Crypto] in
/-- The mempool answers with a transaction for each slot of the sender. -/
theorem length_bySender {p : Mempool} (hp : Mempool.Indexed p) (s : Address) :
    (bySender p s).length = ((p.slotsOf s).map (·.1)).length := by
  have hfound : ∀ x ∈ p.slotsOf s, (p.txs.lookup x.2).isSome := by
    rintro ⟨n, id⟩ hx
    obtain ⟨t, ht, -⟩ := (hp.slot s n id).mp hx
    exact Option.isSome_of_mem ht
  unfold bySender Mempool.senderTxs
  rw [List.length_map, List.length_map]
  generalize p.slotsOf s = l at hfound
  induction l with
  | nil => rfl
  | cons x l ih =>
    obtain ⟨hx, hfound⟩ := List.forall_mem_cons.mp hfound
    obtain ⟨t, ht⟩ := Option.isSome_iff_exists.mp hx
    rw [List.filterMap_cons, ht]
    exact congrArg (· + 1) (ih hfound)

omit [Crypto] in
/-- An account that has sent nothing can be viewed. -/
theorem exists_account {accountOf : Address → Account} (bodyAt : Nat → Option Bytes) (tip : Nat)
    (hnonce : (accountOf addr).nonce = 0) :
    ∃ r, account accountOf bodyAt tip none addr = some r := by
  refine ⟨_, Option.bind_eq_some_iff.mpr ⟨0, checkedAdd_eq_some.mpr ⟨?_, ?_⟩, rfl⟩⟩
  · rw [hnonce]
    exact Nat.zero_le _
  · rw [hnonce]
    rfl

end

/-- A chain of 61 blocks whose rewards all go to one address. -/
theorem exists_rewarded :
    letI := Sample.crypto
    ∃ bs book, AcceptedChain Sample.params bs book ∧ bs.length = 61 ∧
      (∀ x, (book x).nonce = 0) ∧
      ∀ h, 0 < h → h ≤ 60 → creditOf (bodyOf bs) h = some (.zero 20, blockReward h) := by
  let _ := Sample.crypto
  have hheight : (Sample.genesis, Sample.genesisBody).1.height = 0 := rfl
  exact exists_accepted hheight Sample.genesisBody_paysNothing _ (by decide)

/-- On a chain of 61 blocks whose rewards all go to one address, the reward of the first has matured
for the next block and is still reported. -/
theorem account_off_by_one :
    letI := Sample.crypto
    ¬∀ (params : ChainParams) (bs : List Block) (book : Address → Account) (addr : Address)
      (r : AccountRecord) (l : CoinbaseLedger), AcceptedChain params bs book →
      account book (bodyOf bs) (bs.length - 1) none addr = some r →
      ledgerFrom (bodyOf bs) (bs.length - 1) = .ok l →
      r.immature = l.immatureAt addr bs.length := by
  let _ := Sample.crypto
  intro hclaim
  obtain ⟨bs, book, h, hlen, hnonce, hpaid⟩ := exists_rewarded
  obtain ⟨l, hl⟩ : ∃ l, ledgerFrom (bodyOf bs) (bs.length - 1) = .ok l := h.ledgerFrom_ok fun _ _ ↦ rfl
  obtain ⟨r, hr⟩ := exists_account (bodyOf bs) (bs.length - 1) (hnonce (.zero 20))
  have himmature := hclaim _ _ _ _ _ _ h hr hl
  obtain ⟨l', hl', -, hiff⟩ := reported_immature h (fun _ _ ↦ rfl) (.zero 20)
  cases hl.symm.trans hl'
  obtain ⟨nonce, -, heq⟩ := Option.bind_eq_some_iff.mp hr
  cases heq
  have hcredit := hpaid 1 Nat.one_pos (by decide)
  exact absurd (hiff.mp himmature 1 _ (by rw [hlen]; rfl) hcredit) (by decide)

/-- The law on that chain, for an address that is paid nothing. -/
theorem account_immature_sample :
    letI := Sample.crypto
    ∃ bs book r l, AcceptedChain Sample.params bs book ∧ bs.length = 61 ∧
      account book (bodyOf bs) (bs.length - 1) none (.ofNat 20 1) = some r ∧
      ledgerFrom (bodyOf bs) (bs.length - 1) = .ok l ∧
      (r.immature = l.immatureAt (.ofNat 20 1) bs.length ↔ MaturesNothing bs (.ofNat 20 1)) := by
  let _ := Sample.crypto
  obtain ⟨bs, book, h, hlen, hnonce, -⟩ := exists_rewarded
  obtain ⟨r, hr⟩ := exists_account (bodyOf bs) (bs.length - 1) (hnonce (.ofNat 20 1))
  obtain ⟨l, hl, -, hiff, -⟩ := account_immature h book (fun _ _ ↦ rfl) none hr
  exact ⟨bs, book, _, l, h, hlen, hr, hl, hiff⟩

section

open PoolSample

/-- A transfer beyond a gap is pooled. -/
def gapped [Crypto] : List Mempool.MempoolOp := [.submit (transfer 1).encode ⟨100, 0⟩ 100 0]

end

end Plaine.Node

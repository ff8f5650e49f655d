import Plaine.Chain.MockRun
import Plaine.Lib.Bucket

/-!
# What a peer may relay

`Ingress` of `mempool.rs`, behind `ValidatorSink::submit_tx` of `node/src/wire/net.rs`.  In any
interval a source is admitted no more than its burst and its rate allow, whatever rows come and go.
The sink does not tell the ingress who a transaction is from, so all peers are one source.
-/

namespace Plaine.Chain

open Plaine.Lib Plaine.Consensus

/-! ## The allowance of a source -/

/-- The terms of a source's own bucket. -/
def MempoolParams.ingressTerms (mp : MempoolParams) : Bucket.Terms :=
  ⟨mp.ingressSourceRateMilli, 1000, mp.ingressSourceBurstMilli, u64Max⟩

theorem MempoolParams.ingressTerms_sane (mp : MempoolParams) : mp.ingressTerms.Sane :=
  ⟨show 0 < 1000 by decide, show 1000 ≤ u64Max by decide⟩

namespace IngressSource

/-- The source's own bucket. -/
def ownBucket (s : IngressSource) : Bucket := ⟨s.own, s.ownLastMs⟩

variable {s : IngressSource} {params : ChainParams} {now : Nat}

theorem primed_refill : (s.refill params now).primed = true := by
  unfold refill
  split
  · rfl
  · dsimp only
    split_ifs <;> simp_all

theorem ownBucket_refill (h : s.primed = true) :
    (s.refill params now).ownBucket = s.ownBucket.refill params.mempool.ingressTerms now := by
  unfold refill Bucket.refill ownBucket MempoolParams.ingressTerms Bucket.Terms.gain
  rw [if_neg (not_not_intro h)]
  dsimp only [saturatingMul]
  split_ifs <;> rfl

end IngressSource

namespace Ingress

variable {g : Ingress} {params : ChainParams} {now : Nat} {id who : SourceId} {s : IngressSource}

theorem source_of_lookup (h : g.sources.lookup id = some s) : g.source id = s := by
  rw [source, h, Option.getD_some]

theorem sources_refillShared : (g.refillShared params now).sources = g.sources := by
  unfold refillShared
  split
  · rfl
  · dsimp only
    split_ifs <;> rfl

/-- No bucket is over its burst. -/
structure Solvent (params : ChainParams) (g : Ingress) : Prop where
  primed : ∀ {id s}, g.sources.lookup id = some s → s.primed = true
  own : ∀ {id s}, g.sources.lookup id = some s →
    s.ownBucket.tokens ≤ params.mempool.ingressTerms.burst

theorem solvent_new : Solvent params new where
  primed h := by cases h
  own h := by cases h

/-- What a source can be admitted for, in parts of a thousandth of a transaction; one that has no
row starts with its burst. -/
def credit (params : ChainParams) (who : SourceId) (g : Ingress) (now : Nat) : Nat :=
  (g.sources.lookup who).elim
    (params.mempool.ingressTerms.burst * params.mempool.ingressTerms.window)
    fun s ↦ s.ownBucket.credit params.mempool.ingressTerms now

/-- A source refilled at a time is settled, and has no more credit than before. -/
theorem Solvent.refill (h : Solvent params g) (id : SourceId) (now : Nat) :
    ((g.source id).refill params now).ownBucket.Settled params.mempool.ingressTerms now ∧
      ((g.source id).refill params now).ownBucket.credit params.mempool.ingressTerms now ≤
        g.credit params id now := by
  cases hrow : g.sources.lookup id with
  | none =>
    have hfresh : ((g.source id).refill params now).ownBucket =
        ⟨params.mempool.ingressTerms.burst, now⟩ := by
      rw [source, hrow]
      rfl
    rw [hfresh, credit, hrow, Option.elim_none]
    exact ⟨Bucket.settled_full, Bucket.credit_full.le⟩
  | some s =>
    rw [source_of_lookup hrow, IngressSource.ownBucket_refill (h.primed hrow), credit, hrow,
      Option.elim_some]
    exact ⟨Bucket.settled_refill (h.own hrow), Bucket.credit_refill_le⟩

/-- A row put in that is within its burst. -/
theorem Solvent.put (h : Solvent params g) {g' : Ingress}
    (hsources : g'.sources = g.sources.insert id s) (hprimed : s.primed = true)
    (hown : s.ownBucket.tokens ≤ params.mempool.ingressTerms.burst) : Solvent params g' := by
  have hrow {j : SourceId} {s' : IngressSource} (hj : g'.sources.lookup j = some s') :
      s' = s ∨ g.sources.lookup j = some s' := by
    rw [hsources] at hj
    rcases eq_or_ne j id with rfl | hne
    · rw [AList.lookup_insert] at hj
      exact .inl (Option.some.inj hj).symm
    · rw [AList.lookup_insert_ne hne] at hj
      exact .inr hj
  constructor
  case primed =>
    intro j s' hj
    rcases hrow hj with rfl | hj
    · exact hprimed
    · exact h.primed hj
  case own =>
    intro j s' hj
    rcases hrow hj with rfl | hj
    · exact hown
    · exact h.own hj

/-- The credit of the other sources does not change with a row. -/
theorem credit_put {g' : Ingress} (hsources : g'.sources = g.sources.insert id s) (who : SourceId) :
    g'.credit params who now = if who = id then s.ownBucket.credit params.mempool.ingressTerms now
      else g.credit params who now := by
  rw [credit, hsources]
  split
  case isTrue heq => rw [heq, AList.lookup_insert, Option.elim_some]
  case isFalse hne => rw [AList.lookup_insert_ne hne, credit]

/-! ### Admission -/

/-- What a source is charged for an answer. -/
def fee (answer : Except Reject Unit) : Nat := if answer.isOk then txCostMilli else 0

/-- A charge leaves the source's row, less what was paid. -/
theorem charge_spec (g : Ingress) (id : SourceId) (params : ChainParams) (now : Nat) :
    ∃ s, (g.charge id params now).2.sources = g.sources.insert id s ∧ s.primed = true ∧
      fee (g.charge id params now).1 ≤ ((g.source id).refill params now).ownBucket.tokens ∧
      s.ownBucket = ((g.source id).refill params now).ownBucket.spend
        (fee (g.charge id params now).1) := by
  have hprimed : ((g.source id).refill params now).primed = true := IngressSource.primed_refill
  unfold charge
  dsimp only
  split
  case isTrue => exact ⟨_, rfl, hprimed, Nat.zero_le _, rfl⟩
  case isFalse hown =>
    have hpaid := Nat.le_of_not_lt hown
    split
    case isTrue => exact ⟨_, rfl, hprimed, hpaid, rfl⟩
    case isFalse =>
      split
      case isTrue => exact ⟨_, rfl, hprimed, hpaid, rfl⟩
      case isFalse => exact ⟨_, rfl, hprimed, Nat.zero_le _, rfl⟩

/-- A charge is paid for by the credit of its source. -/
theorem Solvent.charge (h : Solvent params g) (id who : SourceId) (now : Nat) :
    Solvent params (g.charge id params now).2 ∧
      (g.charge id params now).2.credit params who now +
        (if id = who then fee (g.charge id params now).1 else 0) *
          params.mempool.ingressTerms.window ≤ g.credit params who now := by
  obtain ⟨s, hsources, hprimed, hle, hown⟩ := charge_spec g id params now
  obtain ⟨hsettled, hcredit⟩ := h.refill id now
  have hspent := hsettled.credit_spend params.mempool.ingressTerms_sane hle
  constructor
  · refine h.put hsources hprimed ?_
    rw [hown, Bucket.spend_tokens]
    exact (Nat.sub_le _ _).trans hsettled.tokens
  · rw [credit_put hsources]
    by_cases heq : id = who
    · rw [if_pos heq.symm, if_pos heq, hown, hspent, ← heq]
      exact hcredit
    · rw [if_neg (Ne.symm heq), if_neg heq, Nat.zero_mul, Nat.add_zero]

theorem lookup_refillAll (g : Ingress) (params : ChainParams) (now : Nat) (id : SourceId) :
    (g.refillAll params now).sources.lookup id =
      (g.sources.lookup id).map fun s ↦ s.refill params now := by
  unfold refillAll
  rw [AList.lookup_foldl_insert (fun id ↦ id)]
  cases hrow : g.sources.lookup id with
  | none =>
    have hnone : g.sources.keys.filter (fun a ↦ decide (a = id)) = [] := by
      rw [List.filter_eq_nil_iff]
      rintro a ha heq
      have hsome := AList.lookup_isSome.mpr ha
      rw [of_decide_eq_true heq, hrow] at hsome
      cases hsome
    rw [hnone]
    rfl
  | some s =>
    obtain ⟨a, ha⟩ : ∃ a, (g.sources.keys.filter fun a ↦ decide (a = id)).getLast? = some a := by
      refine Option.ne_none_iff_exists'.mp (mt List.getLast?_eq_none_iff.mp ?_)
      have hmem : id ∈ g.sources.keys := AList.lookup_isSome.mp (by rw [hrow]; rfl)
      exact List.ne_nil_of_mem (List.mem_filter.mpr ⟨hmem, decide_eq_true rfl⟩)
    obtain rfl : a = id := of_decide_eq_true (List.mem_filter.mp (List.mem_of_getLast? ha)).2
    rw [ha, Option.map_some, source_of_lookup hrow]
    rfl

/-- The scan that looks for a row to evict. -/
theorem Solvent.refillAll (h : Solvent params g) (who : SourceId) (now : Nat) :
    Solvent params (g.refillAll params now) ∧
      (g.refillAll params now).credit params who now ≤ g.credit params who now := by
  have hrow {id : SourceId} {s : IngressSource}
      (hs : (g.refillAll params now).sources.lookup id = some s) :
      ∃ s₀, g.sources.lookup id = some s₀ ∧ s = s₀.refill params now := by
    rw [lookup_refillAll] at hs
    obtain ⟨s₀, h₀, rfl⟩ := Option.map_eq_some_iff.mp hs
    exact ⟨s₀, h₀, rfl⟩
  refine ⟨⟨?_, ?_⟩, ?_⟩
  · intro id s hs
    obtain ⟨s₀, -, rfl⟩ := hrow hs
    exact IngressSource.primed_refill
  · intro id s hs
    obtain ⟨s₀, h₀, rfl⟩ := hrow hs
    rw [IngressSource.ownBucket_refill (h.primed h₀)]
    exact Bucket.tokens_refill_le (h.own h₀)
  · rw [credit, lookup_refillAll, credit]
    cases h₀ : g.sources.lookup who with
    | none => exact le_rfl
    | some s₀ =>
      rw [Option.map_some, Option.elim_some, Option.elim_some,
        IngressSource.ownBucket_refill (h.primed h₀)]
      exact Bucket.credit_refill_le

/-- A row that may be evicted is full, so that its source has as much credit without it. -/
theorem Solvent.forget (h : Solvent params g) {v : SourceId} (hv : g.victim params = some v)
    (who : SourceId) (now : Nat) :
    Solvent params (g.forget v) ∧ (g.forget v).credit params who now ≤ g.credit params who now := by
  have hfull := List.find?_some hv
  have hmem := List.mem_of_find?_eq_some hv
  rw [decide_eq_true_eq] at hfull
  have hrow {id : SourceId} {s : IngressSource} (hs : (g.forget v).sources.lookup id = some s) :
      g.sources.lookup id = some s := by
    rw [Ingress.forget] at hs
    rcases eq_or_ne id v with rfl | hne
    · rw [AList.lookup_erase] at hs
      cases hs
    · rwa [AList.lookup_erase_ne hne] at hs
  refine ⟨⟨fun hs ↦ h.primed (hrow hs), fun hs ↦ h.own (hrow hs)⟩, ?_⟩
  rw [credit, credit, Ingress.forget]
  rcases eq_or_ne who v with rfl | hne
  · obtain ⟨s, hs⟩ := Option.isSome_iff_exists.mp (AList.lookup_isSome.mpr hmem)
    rw [source_of_lookup hs] at hfull
    rw [AList.lookup_erase, hs, Option.elim_none, Option.elim_some]
    exact Bucket.le_credit_of_full hfull.1
  · rw [AList.lookup_erase_ne hne]

/-- What is admitted is paid for by the credit of its source. -/
theorem Solvent.admitted (h : Solvent params g) (id who : SourceId) (now : Nat) :
    Solvent params (g.admitSource id params now).2 ∧
      (g.admitSource id params now).2.credit params who now +
        (if id = who then fee (g.admitSource id params now).1 else 0) *
          params.mempool.ingressTerms.window ≤ g.credit params who now := by
  have hshared : Solvent params (g.refillShared params now) ∧
      (g.refillShared params now).credit params who now = g.credit params who now := by
    have hsources : (g.refillShared params now).sources = g.sources := sources_refillShared
    refine ⟨⟨fun hs ↦ h.primed (hsources ▸ hs), fun hs ↦ h.own (hsources ▸ hs)⟩, ?_⟩
    rw [credit, credit, hsources]
  unfold admitSource
  dsimp only
  rw [← hshared.2]
  generalize g.refillShared params now = g₁ at hshared
  obtain ⟨h₁, -⟩ := hshared
  split
  · obtain ⟨h₂, hscan⟩ := h₁.refillAll who now
    split
    · rename_i v hv
      obtain ⟨h₃, hforget⟩ := h₂.forget hv who now
      obtain ⟨h₄, hcharge⟩ := h₃.charge id who now
      exact ⟨h₄, hcharge.trans (hforget.trans hscan)⟩
    · refine ⟨h₂, ?_⟩
      rw [show fee (.error (.tooManySources id params.maxSources)) = 0 from rfl, ite_self,
        Nat.zero_mul, Nat.add_zero]
      exact hscan
  · exact h₁.charge id who now

/-! ### Runs -/

/-- Admissions at times as a metered machine, charged for one source. -/
def metered (params : ChainParams) (who : SourceId) : Metered Ingress (SourceId × Nat) where
  step g call := (g.admitSource call.1 params call.2).2
  clock call := call.2
  charge g call := if call.1 = who then fee (g.admitSource call.1 params call.2).1 else 0

theorem metered_funds (params : ChainParams) (who : SourceId) :
    (metered params who).Funds params.mempool.ingressTerms.window params.mempool.ingressTerms.rate
      params.mempool.ingressTerms.limit (Solvent params) (fun _ ↦ True)
      fun g now ↦ g.credit params who now where
  keeps h _ := (h.admitted _ who _).1
  pays h _ := (h.admitted _ who _).2
  advance {g now now'} _ hle := by
    simp only [credit]
    cases g.sources.lookup who with
    | none => exact Nat.le_add_right _ _
    | some s => exact Bucket.credit_advance hle
  le {g now} _ := by
    simp only [credit]
    cases g.sources.lookup who with
    | none => exact Nat.le_add_right _ _
    | some s => exact Bucket.credit_le

/-- In any interval a source is admitted for its burst and its rate at most. -/
theorem charged_le (params : ChainParams) (who : SourceId) {calls : List (SourceId × Nat)}
    (hord : (metered params who).Ordered calls) {a b : Nat} (hab : a ≤ b) :
    (metered params who).charged a b new calls * 1000 ≤
      params.mempool.ingressSourceBurstMilli * 1000 +
        (b - a) * params.mempool.ingressSourceRateMilli := by
  have hle := (metered_funds params who).charged_le solvent_new (fun _ _ ↦ trivial) hord hab
  by_cases hrate : params.mempool.ingressTerms.window ≤ params.mempool.ingressTerms.rate
  · rw [Bucket.Terms.limit_of_le hrate] at hle
    exact hle
  · -- The rate is a multiple of the window, so a source without a rate has no burst either.
    have hzero : params.mempool.ingressSourceRateMilli = 0 := by
      have hmax : 1000 ≤ u64Max := by decide
      have hlt : min (params.mempool.ingressPerSource * 1000) u64Max < 1000 := Nat.lt_of_not_le hrate
      show min (params.mempool.ingressPerSource * 1000) u64Max = 0
      omega
    rw [Bucket.Terms.limit, Bucket.Terms.lag, if_neg hrate] at hle
    dsimp only [MempoolParams.ingressTerms, MempoolParams.ingressSourceBurstMilli] at hle ⊢
    rw [hzero] at hle ⊢
    omega

/-- A source that keeps sending at one time is refused at last. -/
theorem exists_refused (params : ChainParams) (id : SourceId) (now : Nat) :
    ∃ n, (((metered params id).after new (List.replicate n (id, now))).admitSource id params
      now).1.isOk = false := by
  by_contra! hnone
  have hall (n : Nat) := Bool.eq_true_of_not_eq_false (hnone n)
  have hcharged (n : Nat) : ∀ g, (∀ k, (((metered params id).after g
      (List.replicate k (id, now))).admitSource id params now).1.isOk = true) →
      (metered params id).charged now now g (List.replicate n (id, now)) = n * txCostMilli := by
    induction n with
    | zero => exact fun g _ ↦ (Nat.zero_mul _).symm
    | succ n ih =>
      intro g hg
      have hfirst : (metered params id).charge g (id, now) = txCostMilli := by
        have hok : (g.admitSource id params now).1.isOk = true := hg 0
        show (if id = id then fee _ else 0) = _
        rw [if_pos rfl, fee]
        exact if_pos hok
      rw [List.replicate_succ, Metered.charged, if_pos ⟨le_rfl, le_rfl⟩, hfirst,
        ih _ fun k ↦ hg (k + 1), Nat.succ_mul, Nat.add_comm]
  have hord : (metered params id).Ordered
      (List.replicate (params.mempool.ingressSourceBurstMilli + 1) (id, now)) := by
    refine List.pairwise_of_forall_mem_list fun c hc d hd ↦ ?_
    rw [List.eq_of_mem_replicate hc, List.eq_of_mem_replicate hd]
  have hle := charged_le params id hord (le_refl now)
  rw [hcharged _ _ hall, txCostMilli, Nat.sub_self, Nat.zero_mul] at hle
  omega

/-- The first transaction is admitted if a burst has room for one. -/
theorem admits_first (id : SourceId) (now : Nat)
    (hburst : txCostMilli ≤ params.mempool.ingressSourceBurstMilli) (hroom : 0 < params.maxSources) :
    (new.admitSource id params now).1.isOk = true := by
  have hown : ¬params.mempool.ingressSourceBurstMilli < txCostMilli := Nat.not_lt.mpr hburst
  have hrow : ((new.refillShared params now).source id).refill params now =
      ⟨params.mempool.ingressSourceBurstMilli, now, params.mempool.ingressReserveBurstMilli, now,
        true⟩ := by
    rw [source, sources_refillShared]
    rfl
  unfold admitSource
  dsimp only
  rw [if_neg fun hfull ↦ absurd hfull.2 (Nat.not_le.mpr hroom)]
  unfold charge
  rw [hrow]
  dsimp only
  rw [if_neg hown]
  split <;> rfl

/-- Nothing is admitted where a burst has no room for a transaction. -/
theorem Solvent.refuses (h : Solvent params g) (id : SourceId) (now : Nat)
    (hburst : params.mempool.ingressSourceBurstMilli < txCostMilli) :
    (g.admitSource id params now).1.isOk = false := by
  have hcharge {g : Ingress} (h : Solvent params g) : (g.charge id params now).1.isOk = false := by
    obtain ⟨s, -, -, hle, -⟩ := charge_spec g id params now
    have htokens := (h.refill id now).1.tokens
    cases hok : (g.charge id params now).1.isOk with
    | false => rfl
    | true =>
      rw [fee, if_pos hok] at hle
      exact absurd (hle.trans htokens) (Nat.not_le.mpr hburst)
  have hsources : (g.refillShared params now).sources = g.sources := sources_refillShared
  have hshared : Solvent params (g.refillShared params now) :=
    ⟨fun hs ↦ h.primed (hsources ▸ hs), fun hs ↦ h.own (hsources ▸ hs)⟩
  unfold admitSource
  dsimp only
  split
  · have hscan := (hshared.refillAll id now).1
    split
    · rename_i v hv
      exact hcharge (hscan.forget hv id now).1
    · rfl
  · exact hcharge hshared

end Ingress

end Plaine.Chain

namespace Plaine.Node

open Plaine.Lib Plaine.Consensus Plaine.Chain

section

variable [Crypto] {σ : Type} [Store σ]

/-! ## The sink -/

/-- A transaction that a peer relays, and the clocks when the validator takes it off its queue. -/
structure Relayed where
  peer : UInt64
  bytes : Bytes
  now : Nat
  monoMs : Nat

namespace Relayed

/-- The source in `ValidatorSink::submit_tx`, which is not told who the peer is. -/
def source (_ : Relayed) : SourceId := 0

/-- The command that `ValidatorSink::submit_tx` queues, carried out. -/
def submit (t : Relayed) (w : World σ) : Except Reject Admitted × World σ :=
  w.submitTx t.now t.monoMs (.peer t.source) t.bytes

/-- The transaction is refused for budget. -/
def overBudget (t : Relayed) (w : World σ) : Bool :=
  w.chain.halted.isNone &&
    !(w.chain.txIngress.admitSource t.source w.chain.params t.monoMs).1.isOk

end Relayed

/-- A running manager answers what its ingress does where that refuses. -/
theorem submit_spec {w : World σ} (hrun : w.chain.halted = none) (t : Relayed) :
    (t.submit w).2.chain.halted = none ∧ (t.submit w).2.chain.params = w.chain.params ∧
      (t.submit w).2.chain.txIngress =
        (w.chain.txIngress.admitSource 0 w.chain.params t.monoMs).2 ∧
      ∀ e, (w.chain.txIngress.admitSource 0 w.chain.params t.monoMs).1 = .error e →
        (t.submit w).1 = .error e := by
  unfold Relayed.submit World.submitTx
  dsimp only
  rw [hrun]
  dsimp only [Relayed.source]
  generalize w.chain.txIngress.admitSource 0 w.chain.params t.monoMs = out
  obtain ⟨answer, g⟩ := out
  cases answer with
  | error e =>
    refine ⟨rfl, rfl, rfl, fun e' h ↦ ?_⟩
    cases h
    rfl
  | ok u =>
    refine ⟨rfl, rfl, rfl, fun e' h ↦ ?_⟩
    cases h

/-! ## Runs -/

/-- A world after transactions. -/
def relay (w : World σ) (ts : List Relayed) : World σ := ts.foldl (fun w t ↦ (t.submit w).2) w

/-- Whose transactions are relayed, and whether they are refused for budget. -/
def answers : World σ → List Relayed → List (UInt64 × Bool)
  | _, [] => []
  | w, t :: ts => (t.peer, t.overBudget w) :: answers (t.submit w).2 ts

/-- The answers to the transactions of one peer. -/
def refusals (w : World σ) (ts : List Relayed) (p : UInt64) : List Bool :=
  ((answers w ts).filter (·.1 = p)).map (·.2)

/-- How many transactions of a peer are admitted from the time `a` to the time `b`. -/
def admitted (p : UInt64) (a b : Nat) : World σ → List Relayed → Nat
  | _, [] => 0
  | w, t :: ts =>
    (if t.peer = p ∧ (a ≤ t.monoMs ∧ t.monoMs ≤ b) ∧ t.overBudget w = false then 1 else 0) +
      admitted p a b (t.submit w).2 ts

/-- The clock does not go back. -/
def Clocked (ts : List Relayed) : Prop := ts.Pairwise fun t u ↦ t.monoMs ≤ u.monoMs

/-- Transactions that stay within the reserve's burst and rate. -/
def WithinReserve (params : ChainParams) (ts : List Relayed) : Prop :=
  ∀ a b, a ≤ b → (ts.filter fun t ↦ a ≤ t.monoMs ∧ t.monoMs ≤ b).length * txCostMilli * 1000 ≤
    params.mempool.ingressReserveBurstMilli * 1000 +
      (b - a) * params.mempool.ingressReserveRateMilli params.maxPeers

/-- What a peer of the set is answered does not depend on the others, as long as it stays within its
reserve. -/
def Isolated (w : World σ) (peers : Finset UInt64) : Prop :=
  ∀ p ∈ peers, ∀ ts us : List Relayed, Clocked ts → Clocked us → (∀ t ∈ ts, t.peer ∈ peers) →
    (∀ t ∈ us, t.peer ∈ peers) → ts.filter (·.peer = p) = us.filter (·.peer = p) →
    WithinReserve w.chain.params (ts.filter (·.peer = p)) → refusals w ts p = refusals w us p

/-- A peer is admitted no more in an interval than a source's burst and rate allow. -/
def Bounded (w : World σ) : Prop :=
  ∀ p, ∀ ts : List Relayed, Clocked ts → ∀ a b, a ≤ b →
    admitted p a b w ts * txCostMilli * 1000 ≤
      w.chain.params.mempool.ingressSourceBurstMilli * 1000 +
        (b - a) * w.chain.params.mempool.ingressSourceRateMilli

/-! ### What all peers spend -/

/-- The calls of the ingress that transactions come to. -/
def calls (ts : List Relayed) : List (SourceId × Nat) := ts.map fun t ↦ (t.source, t.monoMs)

variable {w : World σ}

omit [Store σ] in
theorem overBudget_eq (hrun : w.chain.halted = none) (t : Relayed) : t.overBudget w =
    !(w.chain.txIngress.admitSource 0 w.chain.params t.monoMs).1.isOk := by
  rw [Relayed.overBudget, hrun]
  rfl

/-- The ingress in a run, which goes on. -/
theorem relay_spec (hrun : w.chain.halted = none) (ts : List Relayed) :
    (relay w ts).chain.halted = none ∧ (relay w ts).chain.params = w.chain.params ∧
      (relay w ts).chain.txIngress =
        (Ingress.metered w.chain.params 0).after w.chain.txIngress (calls ts) := by
  induction ts generalizing w with
  | nil => exact ⟨hrun, rfl, rfl⟩
  | cons t ts ih =>
    obtain ⟨hrun', hparams, hingress, -⟩ := submit_spec hrun t
    obtain ⟨hlast, hparams', hingress'⟩ := ih hrun'
    refine ⟨hlast, hparams'.trans hparams, hingress'.trans ?_⟩
    rw [hparams, hingress]
    rfl

/-- What one peer is admitted for is part of what source 0 is charged. -/
theorem admitted_le (hrun : w.chain.halted = none) (p : UInt64) (a b : Nat) (ts : List Relayed) :
    admitted p a b w ts * txCostMilli ≤
      (Ingress.metered w.chain.params 0).charged a b w.chain.txIngress (calls ts) := by
  induction ts generalizing w with
  | nil => exact (Nat.zero_mul _).le
  | cons t ts ih =>
    obtain ⟨hrun', hparams, hingress, -⟩ := submit_spec hrun t
    have hrest := ih hrun'
    rw [hparams, hingress] at hrest
    rw [admitted, calls, List.map_cons, Metered.charged, Nat.add_mul]
    refine Nat.add_le_add ?_ hrest
    split
    case isTrue hin =>
      obtain ⟨-, hclock, hok⟩ := hin
      rw [overBudget_eq hrun, Bool.not_eq_false'] at hok
      have hfee : (Ingress.metered w.chain.params 0).charge w.chain.txIngress (0, t.monoMs) =
          txCostMilli := by
        show (if (0 : SourceId) = 0 then Ingress.fee _ else 0) = _
        rw [if_pos rfl, Ingress.fee]
        exact if_pos hok
      rw [Nat.one_mul]
      exact (hfee.symm.trans (if_pos hclock).symm).le
    case isFalse =>
      rw [Nat.zero_mul]
      exact Nat.zero_le _

omit [Crypto] in
theorem ordered_calls {params : ChainParams} {ts : List Relayed} (h : Clocked ts) :
    (Ingress.metered params 0).Ordered (calls ts) := List.pairwise_map.mpr h

/-- The bound holds for every peer, since it holds for all of them together. -/
theorem bounded (hrun : w.chain.halted = none) (hnew : w.chain.txIngress = .new) : Bounded w := by
  intro p ts hclock a b hab
  refine (Nat.mul_le_mul_right 1000 (admitted_le hrun p a b ts)).trans ?_
  rw [hnew]
  exact Ingress.charged_le _ 0 (ordered_calls hclock) hab

/-! ### What peers take from each other -/

theorem answers_append (w : World σ) (ts us : List Relayed) :
    answers w (ts ++ us) = answers w ts ++ answers (relay w ts) us := by
  induction ts generalizing w with
  | nil => rfl
  | cons t ts ih => exact congrArg _ (ih _)

theorem map_fst_answers (w : World σ) (ts : List Relayed) :
    (answers w ts).map Prod.fst = ts.map Relayed.peer := by
  induction ts generalizing w with
  | nil => rfl
  | cons t ts ih => exact congrArg _ (ih _)

/-- What others relay has no answers for a peer. -/
theorem refusals_append_of_ne {p : UInt64} {ts : List Relayed} (h : ∀ t ∈ ts, t.peer ≠ p)
    (w : World σ) (us : List Relayed) : refusals w (ts ++ us) p = refusals (relay w ts) us p := by
  have hnone : (answers w ts).filter (fun x ↦ decide (x.1 = p)) = [] := by
    rw [List.filter_eq_nil_iff]
    intro x hx hp
    have hpeer : x.1 ∈ ts.map Relayed.peer := map_fst_answers w ts ▸ List.mem_map_of_mem hx
    obtain ⟨t, ht, heq⟩ := List.mem_map.mp hpeer
    exact h t ht (heq.trans (of_decide_eq_true hp))
  rw [refusals, answers_append, List.filter_append, hnone, List.nil_append, refusals]

theorem refusals_singleton (hrun : w.chain.halted = none) (t : Relayed) :
    refusals w [t] t.peer =
      [!(w.chain.txIngress.admitSource 0 w.chain.params t.monoMs).1.isOk] := by
  simp [refusals, answers, overBudget_eq hrun]

/-- Where a burst has no room for a transaction everything is refused. -/
theorem refusals_of_small (hrun : w.chain.halted = none)
    (hs : w.chain.txIngress.Solvent w.chain.params)
    (hburst : w.chain.params.mempool.ingressSourceBurstMilli < txCostMilli) (ts : List Relayed)
    (p : UInt64) : refusals w ts p = (ts.filter (·.peer = p)).map fun _ ↦ true := by
  induction ts generalizing w with
  | nil => rfl
  | cons t ts ih =>
    obtain ⟨hrun', hparams, hingress, -⟩ := submit_spec hrun t
    have hs' : (t.submit w).2.chain.txIngress.Solvent (t.submit w).2.chain.params := by
      rw [hparams, hingress]
      exact (hs.admitted 0 0 t.monoMs).1
    have hrest := ih hrun' hs' (by rw [hparams]; exact hburst)
    have hover : t.overBudget w = true := by
      rw [overBudget_eq hrun, hs.refuses 0 t.monoMs hburst]
      rfl
    rw [refusals] at hrest ⊢
    rw [answers]
    by_cases hp : t.peer = p
    · rw [List.filter_cons_of_pos (by simpa using hp), List.filter_cons_of_pos (by simpa using hp),
        List.map_cons, List.map_cons, hrest, hover]
    · rw [List.filter_cons_of_neg (by simpa using hp), List.filter_cons_of_neg (by simpa using hp),
        hrest]

omit [Crypto] in
/-- One transaction is within the reserve. -/
theorem withinReserve_singleton (params : ChainParams) (t : Relayed) : WithinReserve params [t] := by
  intro a b _
  have hlen : ([t].filter fun t ↦ decide (a ≤ t.monoMs ∧ t.monoMs ≤ b)).length ≤ 1 :=
    List.length_filter_le _ _
  have hburst : params.mempool.ingressReserveBurstMilli = 2 * 1000 := rfl
  rw [hburst, txCostMilli]
  omega

/-- Another peer can use up what a peer is allowed. -/
theorem not_isolated (hrun : w.chain.halted = none) (hnew : w.chain.txIngress = .new)
    {peers : Finset UInt64} {p q : UInt64} (hp : p ∈ peers) (hq : q ∈ peers) (hne : q ≠ p)
    (hburst : txCostMilli ≤ w.chain.params.mempool.ingressSourceBurstMilli)
    (hroom : 0 < w.chain.params.maxSources) : ¬Isolated w peers := by
  obtain ⟨n, hn⟩ := Ingress.exists_refused w.chain.params 0 0
  let flood : List Relayed := List.replicate n ⟨q, [], 0, 0⟩
  let last : Relayed := ⟨p, [], 0, 0⟩
  have hflood : ∀ t ∈ flood, t = ⟨q, [], 0, 0⟩ := fun t ht ↦ List.eq_of_mem_replicate ht
  have hothers : ∀ t ∈ flood, t.peer ≠ p := by
    intro t ht
    rw [hflood t ht]
    exact hne
  have hnone : flood.filter (fun t ↦ decide (t.peer = p)) = [] := by
    rw [List.filter_eq_nil_iff]
    exact fun t ht hpeer ↦ hothers t ht (of_decide_eq_true hpeer)
  have hlast : [last].filter (fun t ↦ decide (t.peer = p)) = [last] := by simp [last]
  have hown : (flood ++ [last]).filter (fun t ↦ decide (t.peer = p)) = [last] := by
    rw [List.filter_append, hnone, List.nil_append, hlast]
  intro hisolated
  have hsame := hisolated p hp (flood ++ [last]) [last] ?_ (List.pairwise_singleton _ _) ?_ ?_ ?_ ?_
  · -- After the flood the transaction is refused, and without it it is not.
    obtain ⟨hrun', hparams, hingress⟩ := relay_spec hrun flood
    have halone := refusals_singleton hrun last
    have hafter := refusals_singleton hrun' last
    rw [hparams, hingress, hnew] at hafter
    rw [hnew, Ingress.admits_first 0 0 hburst hroom] at halone
    rw [refusals_append_of_ne hothers, hafter, halone] at hsame
    have hcalls : calls flood = List.replicate n (0, 0) := List.map_replicate
    rw [hcalls, hn] at hsame
    cases hsame
  · refine List.pairwise_append.mpr ⟨?_, List.pairwise_singleton _ _, ?_⟩
    · refine List.pairwise_of_forall_mem_list fun t ht u hu ↦ ?_
      rw [hflood t ht, hflood u hu]
    · intro t ht u hu
      rw [hflood t ht, List.mem_singleton.mp hu]
  · intro t ht
    rcases List.mem_append.mp ht with ht | ht
    · rw [hflood t ht]
      exact hq
    · rw [List.mem_singleton.mp ht]
      exact hp
  · intro t ht
    rw [List.mem_singleton.mp ht]
    exact hp
  · rw [hown, hlast]
  · rw [hown]
    exact withinReserve_singleton _ _

/-- A manager that has just been made. -/
theorem chain_new [PowVerifier] {s : σ} {params : ChainParams} {m : Manager}
    (h : Manager.new s params = .ok m) : m.halted = none ∧ m.txIngress = .new ∧ m.params = params := by
  simp only [Manager.new, Except.bind_eq_ok, Prod.exists] at h
  obtain ⟨-, -, time, index, ledger, -, heq⟩ := h
  cases heq
  exact ⟨rfl, rfl, rfl⟩

/-- Peers are isolated from each other only if there is one of them, or if nothing is admitted at
all.  The bound holds always. -/
theorem relay_isolates [PowVerifier] {s : σ} {params : ChainParams} {m : Manager}
    (hnew : Manager.new s params = .ok m) (peers : Finset UInt64)
    (hpeers : peers.card ≤ params.maxSources) :
    (Isolated ⟨m, s⟩ peers ↔ peers.card ≤ 1 ∨ params.mempool.ingressPerSource = 0) ∧
      Bounded ⟨m, s⟩ := by
  obtain ⟨hrun, hingress, hparams⟩ := chain_new hnew
  refine ⟨⟨fun hisolated ↦ ?_, ?_⟩, bounded (w := ⟨m, s⟩) hrun hingress⟩
  · by_contra! hboth
    obtain ⟨q, hq, p, hp, hne⟩ := Finset.one_lt_card.mp hboth.1
    have hburst : txCostMilli ≤ params.mempool.ingressSourceBurstMilli := by
      have hmax : 1000 ≤ u64Max := by decide
      have hpos := Nat.pos_of_ne_zero hboth.2
      exact le_min (Nat.le_mul_of_pos_left 1000 hpos) hmax
    refine not_isolated (w := ⟨m, s⟩) hrun hingress hp hq hne ?_ ?_ hisolated
    · rw [hparams]
      exact hburst
    · rw [hparams]
      exact (Nat.zero_lt_of_lt hboth.1).trans_le hpeers
  · rintro (hone | hzero)
    · intro p hp ts us _ _ hts hus hsame _
      have hall (l : List Relayed) (hl : ∀ t ∈ l, t.peer ∈ peers) :
          l.filter (·.peer = p) = l := by
        rw [List.filter_eq_self]
        exact fun t ht ↦ decide_eq_true (Finset.card_le_one.mp hone _ (hl t ht) _ hp)
      rw [hall ts hts, hall us hus] at hsame
      rw [hsame]
    · intro p _ ts us _ _ _ _ hsame _
      have hsmall : m.params.mempool.ingressSourceBurstMilli < txCostMilli := by
        rw [hparams, MempoolParams.ingressSourceBurstMilli, MempoolParams.ingressSourceRateMilli,
          hzero, saturatingMul, Nat.zero_mul, Nat.zero_min]
        exact Nat.zero_lt_of_lt (show 0 < 1000 by decide)
      have hs : m.txIngress.Solvent m.params := by
        rw [hingress]
        exact Ingress.solvent_new
      rw [refusals_of_small (w := ⟨m, s⟩) hrun hs hsmall, hsame,
        refusals_of_small (w := ⟨m, s⟩) hrun hs hsmall]

end

/-- A manager on the genesis block. -/
theorem exists_boot : letI := Scene.crypto
    letI := Scene.pow
    ∃ w : World MemStore, Manager.new w.store Scene.params = .ok w.chain := by
  let _ := Scene.crypto
  let _ := Scene.pow
  have hsome : (Scene.boot Scene.params).isSome = true := by decide +kernel
  obtain ⟨w, hw⟩ := Option.isSome_iff_exists.mp hsome
  exact ⟨w, (Scene.boots (D := Scene.headers.free) rfl rfl hw).2⟩

/-- Of two peers the one can use up what the other is allowed. -/
theorem relay_shared : letI := Scene.crypto
    letI := Scene.pow
    ∃ w : World MemStore, Manager.new w.store Scene.params = .ok w.chain ∧ ¬Isolated w {1, 2} := by
  let _ := Scene.crypto
  let _ := Scene.pow
  obtain ⟨w, hnew⟩ := exists_boot
  obtain ⟨hrun, hingress, hparams⟩ := chain_new hnew
  refine ⟨w, hnew, not_isolated hrun hingress (p := 1) (q := 2) (by simp) (by simp) (by decide) ?_ ?_⟩
  all_goals
    rw [hparams]
    decide

/-- A single peer is isolated. -/
theorem relay_isolates_sample : letI := Scene.crypto
    letI := Scene.pow
    ∃ w : World MemStore, Isolated w {1} ∧ Bounded w := by
  let _ := Scene.crypto
  let _ := Scene.pow
  obtain ⟨w, hnew⟩ := exists_boot
  obtain ⟨hiff, hbounded⟩ := relay_isolates hnew {1} (by decide)
  exact ⟨w, hiff.mpr (.inl (by decide)), hbounded⟩

end Plaine.Node

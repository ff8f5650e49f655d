import Plaine.Chain.Budget
import Plaine.Chain.MockRun

/-!
# What interpreter time is charged

The headers a call of `submit_headers` runs the interpreter on, and what a source pays for them.
In any interval a source pays no more than its burst and its rate allow, and all sources together
no more than the shared bucket and the reserves allow, to less than a microsecond a bucket;
exactly that where every bucket gains a microsecond each millisecond.
-/

namespace Plaine.Chain

open Plaine.Lib Plaine.Consensus

section

variable [Crypto]

namespace Ingest

variable {ing ing' ing'' : Ingest} {params : ChainParams} {cost now m n : Nat}
  {id : SourceId} {st st' : SourceState}

/-! ## Payments -/

/-- A source pays from its own bucket, and as much from the shared one and its reserve. -/
structure Pays (id : SourceId) (m : Nat) (ing ing' : Ingest) : Prop where
  others : ∀ j, j ≠ id → ing'.sources.lookup j = ing.sources.lookup j
  sharedPrimed : ing'.sharedPrimed = ing.sharedPrimed
  row : ∃ st st' a b, ing.sources.lookup id = some st ∧ ing'.sources.lookup id = some st' ∧
    st'.primed = st.primed ∧ a + b = m ∧
    m ≤ st.own.tokens ∧ st'.own = st.own.spend m ∧
    a ≤ ing.shared.tokens ∧ ing'.shared = ing.shared.spend a ∧
    b ≤ st.reserve.tokens ∧ st'.reserve = st.reserve.spend b

/-- A source whose buckets are left alone pays nothing. -/
theorem Pays.of_setSource (h : ing.sources.lookup id = some st) (hprimed : st'.primed = st.primed)
    (hown : st'.own = st.own) (hreserve : st'.reserve = st.reserve) :
    Pays id 0 ing (ing.setSource id st') where
  others _ hj := AList.lookup_insert_ne hj
  sharedPrimed := rfl
  row := ⟨st, st', 0, 0, h, AList.lookup_insert _, hprimed, rfl, Nat.zero_le _, hown, Nat.zero_le _,
    rfl, Nat.zero_le _, hreserve⟩

theorem Pays.refl (h : ing.sources.lookup id = some st) : Pays id 0 ing ing where
  others _ _ := rfl
  sharedPrimed := rfl
  row := ⟨st, st, 0, 0, h, h, rfl, rfl, Nat.zero_le _, rfl, Nat.zero_le _, rfl, Nat.zero_le _, rfl⟩

theorem Pays.trans (h : Pays id m ing ing') (h' : Pays id n ing' ing'') :
    Pays id (m + n) ing ing'' := by
  obtain ⟨st, st₁, a, b, hst, hst₁, hprimed, hab, hm, hown, ha, hshared, hb, hreserve⟩ := h.row
  obtain ⟨st₁', st₂, a', b', hst₁', hst₂, hprimed', hab', hn, hown', ha', hshared', hb', hreserve'⟩ :=
    h'.row
  obtain rfl : st₁ = st₁' := Option.some.inj (hst₁.symm.trans hst₁')
  rw [hown, Bucket.spend_tokens] at hn
  rw [hshared, Bucket.spend_tokens] at ha'
  rw [hreserve, Bucket.spend_tokens] at hb'
  refine ⟨fun j hj ↦ (h'.others j hj).trans (h.others j hj), h'.sharedPrimed.trans h.sharedPrimed,
    st, st₂, a + a', b + b', hst, hst₂, hprimed'.trans hprimed, by omega, by omega, ?_, by omega, ?_,
    by omega, ?_⟩
  · rw [hown', hown, Bucket.spend_spend]
  · rw [hshared', hshared, Bucket.spend_spend]
  · rw [hreserve', hreserve, Bucket.spend_spend]

/-- The negative cache is no budget. -/
theorem Pays.neg (h : Pays id m ing ing') (neg : NegativeCache) :
    Pays id m ing { ing' with neg } := ⟨h.others, h.sharedPrimed, h.row⟩

theorem Pays.lookup (h : Pays id m ing ing') : ∃ st, ing'.sources.lookup id = some st := by
  obtain ⟨-, st, -, -, -, hst, -⟩ := h.row
  exact ⟨st, hst⟩

/-- One interpreter call is paid for. -/
theorem pays_spendClassBudget (hst : ing.sources.lookup id = some st)
    (h : ing.spendClassBudget id cost = some ing') : Pays id cost ing ing' := by
  unfold spendClassBudget at h
  dsimp only at h
  rw [source_of_lookup hst] at h
  split at h
  · cases h
  case isFalse htokens =>
    have htokens := Nat.le_of_not_lt htokens
    split at h
    case isTrue hshared =>
      cases h
      exact ⟨fun _ hj ↦ AList.lookup_insert_ne hj, rfl, st, _, cost, 0, hst, AList.lookup_insert _,
        rfl, rfl, htokens, rfl, hshared, rfl, Nat.zero_le _, rfl⟩
    case isFalse =>
      split at h
      case isTrue hreserve =>
        cases h
        exact ⟨fun _ hj ↦ AList.lookup_insert_ne hj, rfl, st, _, 0, cost, hst,
          AList.lookup_insert _, rfl, Nat.zero_add _, htokens, rfl, Nat.zero_le _, rfl, hreserve, rfl⟩
      case isFalse => cases h

end Ingest

/-! ## Interpreted headers -/

variable [PowVerifier]

/-- What `promote` charges for a call of the interpreter. -/
def IngestCtx.callCharge (ctx : IngestCtx) : Nat :=
  if ctx.solicitation.chargesBudget then PowVerifier.costMicros else 0

/-- The headers `promote` runs the interpreter on: the loop goes down the staged headers and calls
the interpreter once for each it consumes. -/
def Batch.interpreted (b : Batch) (ctx : IngestCtx) (id : SourceId) : List Staged :=
  (b.ing.stagedOf id).take (Chain.promote b.ing b.index ctx id b.connectedOut b.out.firstRejection
    b.out.firstHeld).1.consumed

variable {σ : Type} [Store σ]

/-- The promotions within the loop of `submit_headers`, each by the accumulators it starts from. -/
def promotionsWithin (store : σ) (ctx : IngestCtx) (id : SourceId) :
    List RawHeader → Batch → List Batch
  | [], _ => []
  | raw :: raws, b =>
    if b.knows store id (headerHash raw) then
      let b := b.duplicate id (headerHash raw)
      if ctx.params.maxDuplicatesPerBatch < b.batchDups then []
      else promotionsWithin store ctx id raws b
    else
      (if ctx.params.maxStagedHeaders ≤ (b.ing.stagedOf id).length then [b] else []) ++
        promotionsWithin store ctx id raws (b.stage ctx id raw)

/-- The promotions of a call of `submit_headers`. -/
def promotions (store : σ) (ing : Ingest) (index : HeaderIndex) (ctx : IngestCtx) (id : SourceId)
    (raws : List RawHeader) : List Batch :=
  match (ing.refillShared ctx.params ctx.monoMs).touch id ctx.params PowVerifier.costMicros
      ctx.monoMs with
  | (.error _, _) => []
  | (.ok (), ing) =>
    let ing := ing.setSource id
      ((ing.source id).rollQuotaEpoch ctx.tipEpoch ctx.params ctx.monoMs)
    let start : Batch := ⟨ing, index, [], ⟨0, 0, 0, 0, index.tipHeight, none, none⟩, 0, none⟩
    promotionsWithin store ctx id raws start ++ [submitLoop store ctx id raws start]

/-- The headers a call of `submit_headers` runs the interpreter on. -/
def interpreted (store : σ) (ing : Ingest) (index : HeaderIndex) (ctx : IngestCtx) (id : SourceId)
    (raws : List RawHeader) : List Staged :=
  (promotions store ing index ctx id raws).flatMap fun b ↦ b.interpreted ctx id

/-- A call of `submit_headers`. -/
structure Submission (σ : Type) where
  store : σ
  index : HeaderIndex
  ctx : IngestCtx
  source : SourceId
  raws : List RawHeader

namespace Submission

/-- The intake after a call. -/
def run (s : Submission σ) (ing : Ingest) : Ingest :=
  (submitHeaders s.store ing s.index s.ctx s.source s.raws).2.1

/-- The interpreter time a call charges its source. -/
def charged (s : Submission σ) (ing : Ingest) : Nat :=
  (interpreted s.store ing s.index s.ctx s.source s.raws).length * s.ctx.callCharge

/-- The calls of `submit_headers` as a metered machine, charged for where `who` says so. -/
def metered (who : SourceId → Bool) : Metered Ingest (Submission σ) where
  step ing s := s.run ing
  clock s := s.ctx.monoMs
  charge ing s := if who s.source then s.charged ing else 0

end Submission

/-! ## What a call pays -/

section

variable {ing : Ingest} {ctx : IngestCtx} {id : SourceId}

omit [Store σ]

variable (ctx) in
/-- The loop of `promote` pays for each header it consumes. -/
theorem pays_promoteLoop (staged : List Staged) (p : Promotion)
    (hrow : ∃ st, p.ing.sources.lookup id = some st) :
    ∃ n ≤ staged.length, (promoteLoop ctx id staged p).consumed = p.consumed + n ∧
      Ingest.Pays id (n * ctx.callCharge) p.ing (promoteLoop ctx id staged p).ing := by
  induction staged generalizing p with
  | nil =>
    obtain ⟨st, hst⟩ := hrow
    refine ⟨0, le_rfl, rfl, ?_⟩
    rw [Nat.zero_mul]
    exact .refl hst
  | cons s staged ih =>
    have hstop : ∃ n ≤ (s :: staged).length, p.consumed = p.consumed + n ∧
        Ingest.Pays id (n * ctx.callCharge) p.ing p.ing := by
      obtain ⟨st, hst⟩ := hrow
      refine ⟨0, Nat.zero_le _, rfl, ?_⟩
      rw [Nat.zero_mul]
      exact .refl hst
    rw [promoteLoop]
    split
    case isTrue => exact hstop
    case isFalse =>
    dsimp only
    split
    case h_1 => exact hstop
    case h_2 ing hpaid =>
      -- The call that is paid for.
      have hpays : Ingest.Pays id ctx.callCharge p.ing ing := by
        obtain ⟨st, hst⟩ := hrow
        unfold IngestCtx.callCharge
        split at hpaid
        case isTrue hcharges =>
          rw [if_pos hcharges]
          exact Ingest.pays_spendClassBudget hst hpaid
        case isFalse hfree =>
          rw [if_neg hfree]
          cases hpaid
          exact .refl hst
      have hnext : ∀ p' : Promotion, p'.ing = ing → p'.consumed = p.consumed + 1 →
          ∃ n ≤ (s :: staged).length, (promoteLoop ctx id staged p').consumed = p.consumed + n ∧
            Ingest.Pays id (n * ctx.callCharge) p.ing (promoteLoop ctx id staged p').ing := by
        rintro p' rfl hconsumed
        obtain ⟨n, hn, hcount, hrest⟩ := ih p' hpays.lookup
        refine ⟨n + 1, Nat.succ_le_succ hn, by omega, ?_⟩
        rw [Nat.succ_mul, Nat.add_comm]
        exact hpays.trans hrest
      split
      case isTrue =>
        split
        · exact hnext _ rfl rfl
        · exact hnext _ rfl rfl
      case isFalse =>
        obtain ⟨st, hst⟩ := hpays.lookup
        refine ⟨1, Nat.succ_le_succ (Nat.zero_le _), rfl, ?_⟩
        rw [Nat.one_mul]
        have hfail : Ingest.Pays id 0 ing (ing.setSource id { ing.source id with
            powFailures := saturatingAdd (2 ^ 32 - 1) (ing.source id).powFailures 1 }) := .of_setSource hst
          (by rw [Ingest.source_of_lookup hst]) (by rw [Ingest.source_of_lookup hst]; rfl)
          (by rw [Ingest.source_of_lookup hst]; rfl)
        exact (hpays.trans hfail).neg _

/-- A promotion pays for the headers it runs the interpreter on. -/
theorem Batch.pays_promote (b : Batch) (ctx : IngestCtx) (hrow : ∃ st, b.ing.sources.lookup id = some st) :
    Ingest.Pays id ((b.interpreted ctx id).length * ctx.callCharge) b.ing (b.promote ctx id).ing := by
  have hidle : ∀ {q : Promotion}, q.consumed = 0 → q.ing = b.ing →
      Ingest.Pays id (((b.ing.stagedOf id).take q.consumed).length * ctx.callCharge) b.ing q.ing := by
    intro q hq hing
    obtain ⟨st, hst⟩ := hrow
    rw [hing, hq, List.take_zero, List.length_nil, Nat.zero_mul]
    exact .refl hst
  unfold Batch.interpreted
  show Ingest.Pays id _ b.ing (Chain.promote b.ing b.index ctx id b.connectedOut
    b.out.firstRejection b.out.firstHeld).1.ing
  unfold Chain.promote
  dsimp only
  split
  · exact hidle rfl rfl
  split
  · exact hidle rfl rfl
  split
  · exact hidle rfl rfl
  · obtain ⟨n, hn, hcount, hpays⟩ := pays_promoteLoop ctx (b.ing.stagedOf id)
      ⟨b.ing, b.index, b.connectedOut, 0, 0, false, b.out.firstRejection⟩ hrow
    generalize promoteLoop ctx id (b.ing.stagedOf id) _ = p at hcount hpays
    dsimp only at hcount hpays
    rw [Nat.zero_add] at hcount
    obtain ⟨st, hst⟩ := hpays.lookup
    show Ingest.Pays id (((b.ing.stagedOf id).take p.consumed).length * _) _ (p.drain id).ing
    rw [hcount, List.length_take, Nat.min_eq_left hn]
    refine hpays.trans (n := 0) (.of_setSource hst ?_ ?_ ?_)
    · rw [Ingest.source_of_lookup hst]
    · rw [Ingest.source_of_lookup hst]
      rfl
    · rw [Ingest.source_of_lookup hst]
      rfl

/-- Staging a header costs nothing beyond the promotion that may make room for it. -/
theorem Batch.pays_stage (b : Batch) (ctx : IngestCtx) (raw : RawHeader)
    (hrow : ∃ st, b.ing.sources.lookup id = some st) :
    Ingest.Pays id (((if ctx.params.maxStagedHeaders ≤ (b.ing.stagedOf id).length then [b]
      else []).flatMap fun b ↦ b.interpreted ctx id).length * ctx.callCharge) b.ing
      (b.stage ctx id raw).ing := by
  have hroom : Ingest.Pays id (((if ctx.params.maxStagedHeaders ≤ (b.ing.stagedOf id).length then [b]
      else []).flatMap fun b ↦ b.interpreted ctx id).length * ctx.callCharge) b.ing
      (if ctx.params.maxStagedHeaders ≤ (b.ing.stagedOf id).length then b.promote ctx id
        else b).ing := by
    split
    · rw [List.flatMap_singleton]
      exact b.pays_promote ctx hrow
    · obtain ⟨st, hst⟩ := hrow
      rw [List.flatMap_nil, List.length_nil, Nat.zero_mul]
      exact .refl hst
  unfold Batch.stage
  dsimp only
  generalize (if ctx.params.maxStagedHeaders ≤ (b.ing.stagedOf id).length then b.promote ctx id
    else b) = b' at hroom
  cases hstage : stageOne b'.ing b'.index ctx id raw with
  | error => exact hroom.neg _
  | ok ing =>
    unfold stageOne at hstage
    simp only [Except.bind_eq_ok] at hstage
    obtain ⟨s, -, -, -, hstage⟩ := hstage
    cases hstage
    obtain ⟨st, hst⟩ := hroom.lookup
    refine hroom.trans (n := 0) (.of_setSource hst ?_ ?_ ?_)
    · rw [Ingest.source_of_lookup hst]
    · rw [Ingest.source_of_lookup hst]
      rfl
    · rw [Ingest.source_of_lookup hst]
      rfl

variable [Store σ] {store : σ}

variable (store ctx id) in
/-- The loop of `submit_headers` pays for its promotions. -/
theorem pays_submitLoop (raws : List RawHeader) (b : Batch)
    (hrow : ∃ st, b.ing.sources.lookup id = some st) :
    Ingest.Pays id (((promotionsWithin store ctx id raws b).flatMap fun b ↦
      b.interpreted ctx id).length * ctx.callCharge) b.ing (submitLoop store ctx id raws b).ing := by
  induction raws generalizing b with
  | nil =>
    obtain ⟨st, hst⟩ := hrow
    rw [promotionsWithin, List.flatMap_nil, List.length_nil, Nat.zero_mul]
    exact .refl hst
  | cons raw raws ih =>
    rw [promotionsWithin, submitLoop]
    dsimp only
    split
    · split
      · obtain ⟨st, hst⟩ := hrow
        rw [List.flatMap_nil, List.length_nil, Nat.zero_mul]
        exact .refl hst
      · exact ih _ hrow
    · have hstage := b.pays_stage ctx raw hrow
      rw [List.flatMap_append, List.length_append, Nat.add_mul]
      exact hstage.trans (ih _ hstage.lookup)

/-- What a call of `submit_headers` does to the buckets: it tops up, and its source, if it is let
in, pays for the headers the interpreter is run on. -/
theorem Submission.effect (s : Submission σ) (hs : ing.Solvent s.ctx.params PowVerifier.costMicros) :
    ∃ mid, ing.TopsUp s.ctx.params PowVerifier.costMicros s.ctx.monoMs mid ∧
      mid.sharedPrimed = true ∧ mid.shared.Settled s.ctx.params.sharedTerms s.ctx.monoMs ∧
      (s.run ing = mid ∧ s.charged ing = 0 ∨
        ∃ st, mid.sources.lookup s.source = some st ∧
          Ingest.RowSettled s.ctx.params PowVerifier.costMicros s.ctx.monoMs st ∧
          Ingest.Pays s.source (s.charged ing) mid (s.run ing)) := by
  have hshared : (ing.refillShared s.ctx.params s.ctx.monoMs).shared.Settled s.ctx.params.sharedTerms
      s.ctx.monoMs := by
    cases hprimed : ing.sharedPrimed with
    | true =>
      rw [Ingest.shared_refillShared hprimed]
      exact Bucket.settled_refill (hs.shared hprimed)
    | false =>
      rw [Ingest.shared_refillShared_first hprimed]
      exact Bucket.settled_full
  have htop : ing.TopsUp s.ctx.params PowVerifier.costMicros s.ctx.monoMs
      (ing.refillShared s.ctx.params s.ctx.monoMs) := .shared .refl
  have htouch := htop.touch hs s.source
  have hsame := (ing.refillShared s.ctx.params s.ctx.monoMs).shared_touch s.ctx.params
    PowVerifier.costMicros s.ctx.monoMs s.source
  refine ⟨_, htouch.1, hsame.2.trans Ingest.sharedPrimed_refillShared, hsame.1 ▸ hshared, ?_⟩
  unfold Submission.run Submission.charged interpreted promotions submitHeaders
  dsimp only
  cases hout : (ing.refillShared s.ctx.params s.ctx.monoMs).touch s.source s.ctx.params
      PowVerifier.costMicros s.ctx.monoMs with
  | mk verdict mid =>
    rw [hout] at htouch
    cases verdict with
    | error e => exact .inl ⟨rfl, by simp⟩
    | ok u =>
      obtain ⟨st, hst, hsettled⟩ := htouch.2 rfl
      refine .inr ⟨st, hst, hsettled, ?_⟩
      dsimp only at hst ⊢
      have hroll : Ingest.Pays s.source 0 mid (mid.setSource s.source
          ((mid.source s.source).rollQuotaEpoch s.ctx.tipEpoch s.ctx.params s.ctx.monoMs)) := by
        rw [Ingest.source_of_lookup hst]
        unfold SourceState.rollQuotaEpoch
        split
        · exact .of_setSource hst rfl rfl rfl
        · exact .of_setSource hst rfl rfl rfl
      generalize mid.setSource s.source _ = ing₀ at hroll
      have hloop := pays_submitLoop s.ctx s.source s.store s.raws
        ⟨ing₀, s.index, [], ⟨0, 0, 0, 0, s.index.tipHeight, none, none⟩, 0, none⟩ hroll.lookup
      have hlast := (submitLoop s.store s.ctx s.source s.raws
        ⟨ing₀, s.index, [], ⟨0, 0, 0, 0, s.index.tipHeight, none, none⟩, 0, none⟩).pays_promote
        s.ctx hloop.lookup
      have hall := (hroll.trans hloop).trans hlast
      rw [Nat.zero_add, ← Nat.add_mul] at hall
      rw [List.flatMap_append, List.flatMap_singleton, List.length_append]
      exact hall

end

/-! ## Credit -/

namespace Ingest

omit [PowVerifier]

variable {ing ing' : Ingest} {params : ChainParams} {cost now now' m : Nat} {id j : SourceId}
  {st st' : SourceState}

/-- A source that pays stays within its bursts. -/
theorem Pays.solvent (h : Pays id m ing ing') (hs : Solvent params cost ing) :
    Solvent params cost ing' := by
  obtain ⟨st, st', a, b, hst, hst', hprimed, -, -, hown, -, hshared, -, hreserve⟩ := h.row
  have hrow : ∀ {j st₁}, ing'.sources.lookup j = some st₁ →
      j = id ∧ st₁ = st' ∨ ing.sources.lookup j = some st₁ := by
    intro j st₁ hj
    by_cases heq : j = id
    · subst heq
      exact .inl ⟨rfl, Option.some.inj (hj.symm.trans hst')⟩
    · exact .inr ((h.others j heq).symm.trans hj)
  have hlen : ing'.sources.keys.length = ing.sources.keys.length := by
    rw [AList.length_keys, AList.length_keys]
    exact Nat.add_right_cancel (AList.sum_of_lookup hst hst' h.others)
  refine ⟨fun hj ↦ ?_, fun hj ↦ ?_, fun hj ↦ ?_, fun hp ↦ ?_, hlen.trans_le hs.length_le⟩
  · obtain ⟨rfl, rfl⟩ | hj := hrow hj
    · exact hprimed.trans (hs.primed hst)
    · exact hs.primed hj
  · obtain ⟨rfl, rfl⟩ | hj := hrow hj
    · rw [hown]
      exact (Nat.sub_le _ _).trans (hs.own hst)
    · exact hs.own hj
  · obtain ⟨rfl, rfl⟩ | hj := hrow hj
    · rw [hreserve]
      exact (Nat.sub_le _ _).trans (hs.reserve hst)
    · exact hs.reserve hj
  · rw [hshared]
    exact (Nat.sub_le _ _).trans (hs.shared (h.sharedPrimed.symm.trans hp))

/-- What a source pays comes off the credit of its own bucket. -/
theorem Pays.ownCredit (h : Pays id m ing ing') (hst : ing.sources.lookup id = some st)
    (hsettled : RowSettled params cost now st) (hsane : params.ownTerms.Sane) :
    ing'.ownCredit params id now + m * params.ownTerms.window = ing.ownCredit params id now := by
  obtain ⟨st₁, st', a, b, hst₁, hst', -, -, hm, hown, -⟩ := h.row
  obtain rfl : st = st₁ := Option.some.inj (hst.symm.trans hst₁)
  rw [Ingest.ownCredit, Ingest.ownCredit, rowCredit_of_lookup hst, rowCredit_of_lookup hst', hown]
  exact hsettled.own.credit_spend hsane hm

theorem Pays.ownCredit_of_ne (h : Pays id m ing ing') (hj : j ≠ id) :
    ing'.ownCredit params j now = ing.ownCredit params j now := by
  unfold Ingest.ownCredit rowCredit
  rw [h.others j hj]

/-- What a source pays comes off the credit of the shared bucket and the reserves. -/
theorem Pays.poolCredit (h : Pays id m ing ing') (hst : ing.sources.lookup id = some st)
    (hsettled : RowSettled params cost now st) (hprimed : ing.sharedPrimed = true)
    (hshared : ing.shared.Settled params.sharedTerms now) :
    ing'.sharedCredit params now + ing'.reserveCredit params cost now + m * 1000 =
      ing.sharedCredit params now + ing.reserveCredit params cost now := by
  obtain ⟨st₁, st', a, b, hst₁, hst', -, hab, -, -, ha, hspent, hb, hreserve⟩ := h.row
  obtain rfl : st = st₁ := Option.some.inj (hst.symm.trans hst₁)
  have hlen : ing'.sources.keys.length = ing.sources.keys.length := by
    rw [AList.length_keys, AList.length_keys]
    exact Nat.add_right_cancel (AList.sum_of_lookup hst hst' h.others)
  have hsum := AList.sum_of_lookup
    (g := fun st : SourceState ↦ st.reserve.credit (params.reserveTerms cost) now) hst hst' h.others
  have hrow := hsettled.reserve.credit_spend ChainParams.reserveTerms_sane hb
  have hpool := hshared.credit_spend ChainParams.sharedTerms_sane ha
  rw [← hreserve] at hrow
  rw [← hspent] at hpool
  have hunits : a * params.sharedTerms.window + b * (params.reserveTerms cost).window = m * 1000 := by
    rw [← hab]
    exact (Nat.add_mul a b 1000).symm
  unfold Ingest.sharedCredit Ingest.reserveCredit rowsCredit
  rw [h.sharedPrimed, if_pos hprimed, if_pos hprimed, hlen]
  omega

theorem ownCredit_le : ing.ownCredit params id now ≤ params.ownTerms.limit := by
  unfold Ingest.ownCredit rowCredit
  cases ing.sources.lookup id with
  | none => exact Nat.le_add_right _ _
  | some st => exact Bucket.credit_le

theorem ownCredit_advance (h : now ≤ now') : ing.ownCredit params id now' ≤
    ing.ownCredit params id now + (now' - now) * params.ownTerms.rate := by
  unfold Ingest.ownCredit rowCredit
  cases ing.sources.lookup id with
  | none => exact Nat.le_add_right _ _
  | some st => exact Bucket.credit_advance h

theorem sharedCredit_le : ing.sharedCredit params now ≤ params.sharedTerms.limit := by
  unfold sharedCredit
  split
  · exact Bucket.credit_le
  · exact Nat.le_add_right _ _

theorem sharedCredit_advance (ing : Ingest) (params : ChainParams) (h : now ≤ now') :
    ing.sharedCredit params now' ≤
    ing.sharedCredit params now + (now' - now) * params.sharedTerms.rate := by
  unfold sharedCredit
  split
  · exact Bucket.credit_advance h
  · exact Nat.le_add_right _ _

theorem reserveCredit_le (hs : Solvent params cost ing) : ing.reserveCredit params cost now ≤
    params.maxSources * (params.reserveTerms cost).limit := by
  have hsum := ing.sources.sum_le
    (g := fun st : SourceState ↦ st.reserve.credit (params.reserveTerms cost) now)
    fun _ ↦ Bucket.credit_le
  have hroom : (params.maxSources - ing.sources.keys.length) *
      ((params.reserveTerms cost).burst * (params.reserveTerms cost).window) ≤
      (params.maxSources - ing.sources.keys.length) * (params.reserveTerms cost).limit :=
    Nat.mul_le_mul_left _ (Nat.le_add_right _ _)
  have hall : ing.sources.keys.length * (params.reserveTerms cost).limit +
      (params.maxSources - ing.sources.keys.length) * (params.reserveTerms cost).limit =
      params.maxSources * (params.reserveTerms cost).limit := by
    rw [← Nat.add_mul, Nat.add_sub_cancel' hs.length_le]
  unfold reserveCredit rowsCredit
  omega

theorem reserveCredit_advance (hs : Solvent params cost ing) (h : now ≤ now') :
    ing.reserveCredit params cost now' ≤ ing.reserveCredit params cost now +
      (now' - now) * (params.maxSources * (params.reserveTerms cost).rate) := by
  have hsum : ing.sources.sum (fun st ↦ st.reserve.credit (params.reserveTerms cost) now') ≤
      ing.sources.sum (fun st ↦ st.reserve.credit (params.reserveTerms cost) now) + _ :=
    ing.sources.sum_le_add fun _ ↦ Bucket.credit_advance h
  have hrate : ing.sources.keys.length * ((now' - now) * (params.reserveTerms cost).rate) ≤
      (now' - now) * (params.maxSources * (params.reserveTerms cost).rate) := by
    rw [Nat.mul_left_comm]
    exact Nat.mul_le_mul_left _ (Nat.mul_le_mul_right _ hs.length_le)
  unfold reserveCredit rowsCredit
  omega

end Ingest

/-! ## The bounds -/

variable {params : ChainParams}

/-- The calls keep the buckets within their bursts. -/
theorem Submission.solvent_run {s : Submission σ} {ing : Ingest} (hparams : s.ctx.params = params)
    (hs : ing.Solvent params PowVerifier.costMicros) :
    (s.run ing).Solvent params PowVerifier.costMicros := by
  subst hparams
  obtain ⟨mid, htop, -, -, ⟨hrun, -⟩ | ⟨st, -, -, hpays⟩⟩ := s.effect hs
  · exact hrun ▸ htop.solvent hs
  · exact hpays.solvent (htop.solvent hs)

/-- A source's own bucket pays for what it is charged. -/
theorem funds_own (hsane : params.ownTerms.Sane) (id : SourceId) :
    (Submission.metered (σ := σ) (· = id)).Funds params.ownTerms.window params.ownTerms.rate
      params.ownTerms.limit (Ingest.Solvent params PowVerifier.costMicros)
      (fun s ↦ s.ctx.params = params) fun ing now ↦ ing.ownCredit params id now where
  keeps hs hp := Submission.solvent_run hp hs
  advance _ h := Ingest.ownCredit_advance h
  le _ := Ingest.ownCredit_le
  pays := by
    rintro ing s hs rfl
    show (s.run ing).ownCredit s.ctx.params id s.ctx.monoMs + (if decide (s.source = id) = true then
      s.charged ing else 0) * _ ≤ ing.ownCredit s.ctx.params id s.ctx.monoMs
    obtain ⟨mid, htop, -, -, hcall⟩ := s.effect hs
    have hle : mid.ownCredit s.ctx.params id s.ctx.monoMs ≤ ing.ownCredit s.ctx.params id s.ctx.monoMs :=
      (htop.credit_le hs Ingest.rowCredit_own id).1
    refine le_trans ?_ hle
    obtain ⟨hrun, hnone⟩ | ⟨st, hst, hsettled, hpays⟩ := hcall
    · rw [hrun, hnone, ite_self, Nat.zero_mul, Nat.add_zero]
    · split
      case isTrue heq =>
        have heq : s.source = id := of_decide_eq_true heq
        subst heq
        exact (hpays.ownCredit hst hsettled hsane).le
      case isFalse hne =>
        have hne : id ≠ s.source := fun heq ↦ hne (decide_eq_true heq.symm)
        rw [Nat.zero_mul, Nat.add_zero, hpays.ownCredit_of_ne hne]

/-- The shared bucket and the reserves pay for what all sources are charged. -/
theorem funds_pool :
    (Submission.metered (σ := σ) fun _ ↦ true).Funds 1000
      (params.sharedTerms.rate + params.maxSources * (params.reserveTerms PowVerifier.costMicros).rate)
      (params.sharedTerms.limit +
        params.maxSources * (params.reserveTerms PowVerifier.costMicros).limit)
      (Ingest.Solvent params PowVerifier.costMicros) (fun s ↦ s.ctx.params = params)
      fun ing now ↦ ing.sharedCredit params now +
        ing.reserveCredit params PowVerifier.costMicros now where
  keeps hs hp := Submission.solvent_run hp hs
  advance hs h := by
    have hshared := Ingest.sharedCredit_advance ‹Ingest› params h
    have hreserve := Ingest.reserveCredit_advance hs h
    rw [Nat.mul_add]
    omega
  le hs := Nat.add_le_add Ingest.sharedCredit_le (Ingest.reserveCredit_le hs)
  pays := by
    rintro ing s hs rfl
    show (s.run ing).sharedCredit s.ctx.params s.ctx.monoMs + (s.run ing).reserveCredit s.ctx.params
      PowVerifier.costMicros s.ctx.monoMs + s.charged ing * 1000 ≤ _
    obtain ⟨mid, htop, hprimed, hshared, hcall⟩ := s.effect hs
    refine le_trans ?_ (Nat.add_le_add htop.sharedCredit_le
      (htop.credit_le hs Ingest.rowCredit_reserve s.source).2)
    obtain ⟨hrun, hnone⟩ | ⟨st, hst, hsettled, hpays⟩ := hcall
    · rw [hrun, hnone, Nat.zero_mul, Nat.add_zero]
      exact le_rfl
    · exact (hpays.poolCredit hst hsettled hprimed hshared).le

omit [Crypto] [PowVerifier] in
/-- The rates of the shared bucket and the reserves together are the aggregate rate, where
`ChainManager::new` takes the parameters. -/
theorem aggregate_rate (h : params.maxSources ≤ params.maxPeers) :
    params.classAggregateRateMicrosPerSec = params.classSharedRateMicrosPerSec +
      params.maxSources * params.classReserveRateMicrosPerSec := by
  have hclass : params.classRateMicrosPerSec ≤ u64Max := Nat.min_le_right _ _
  have hreserve : params.classReserveRateMicrosPerSec * params.maxSources ≤
      params.classSharedRateMicrosPerSec :=
    (Nat.mul_le_mul_left _ (h.trans (Nat.le_max_left _ 1))).trans (Nat.div_mul_le_self _ _)
  have hshared : params.classSharedRateMicrosPerSec = params.classRateMicrosPerSec / 2 := rfl
  unfold ChainParams.classAggregateRateMicrosPerSec saturatingMul
  rw [Nat.min_eq_left (by omega), saturatingAdd_of_le (by omega), Nat.mul_comm]

variable (params) in
/-- What is charged in an interval.  A source is charged less than a microsecond more than its
burst and its rate allow, and all sources together less than a microsecond a bucket more than the
shared bucket and the reserves do; no more at all where a bucket gains a microsecond each
millisecond. -/
theorem interpreter_charges_bounded (hwindow : params.powBudgetWindowMs ≤ u64Max)
    {run : List (Submission σ)} (hparams : ∀ s ∈ run, s.ctx.params = params)
    (hclock : run.Pairwise fun s s' ↦ s.ctx.monoMs ≤ s'.ctx.monoMs) {a b : Nat} (hab : a ≤ b) :
    (∀ id : SourceId,
      let window := max params.powBudgetWindowMs 1
      let charged := (Submission.metered (· = id)).charged a b (.new params) run
      let bound := params.powBudgetBurstMicros * window + (b - a) * params.powBudgetMicros
      charged * window < bound + window ∧
        (window ≤ params.powBudgetMicros → charged * window ≤ bound)) ∧
    (let charged := (Submission.metered fun _ ↦ true).charged a b (.new params) run
      let bound := (params.classSharedBurstMicros +
          params.maxSources * params.classReserveBurstMicros PowVerifier.costMicros) * 1000 +
        (b - a) * (params.classSharedRateMicrosPerSec +
          params.maxSources * params.classReserveRateMicrosPerSec)
      charged * 1000 < bound + (1 + params.maxSources) * 1000 ∧
        (1000 ≤ params.classReserveRateMicrosPerSec → charged * 1000 ≤ bound)) ∧
    (params.maxSources ≤ params.maxPeers → params.classAggregateRateMicrosPerSec =
      params.classSharedRateMicrosPerSec +
        params.maxSources * params.classReserveRateMicrosPerSec) := by
  have hsane := ChainParams.ownTerms_sane hwindow
  refine ⟨fun id ↦ ?_, ?_, aggregate_rate⟩
  · have hcharged := (funds_own hsane id).charged_le Ingest.solvent_new hparams hclock hab
    refine ⟨?_, fun hrate ↦ ?_⟩
    · have hlimit := Bucket.Terms.limit_lt hsane.pos
      refine hcharged.trans_lt ((Nat.add_lt_add_right hlimit _).trans_eq ?_)
      exact Nat.add_right_comm _ _ _
    · rwa [Bucket.Terms.limit_of_le (t := params.ownTerms) hrate] at hcharged
  · have hcharged := funds_pool.charged_le Ingest.solvent_new hparams hclock hab
    have hshared := Bucket.Terms.limit_lt (ChainParams.sharedTerms_sane : params.sharedTerms.Sane).pos
    have hreserve := Bucket.Terms.limit_lt (ChainParams.reserveTerms_sane :
      (params.reserveTerms PowVerifier.costMicros).Sane).pos
    refine ⟨?_, fun hrate ↦ ?_⟩
    · have hreserves := Nat.mul_le_mul_left params.maxSources hreserve.le
      rw [Nat.mul_add, ← Nat.mul_assoc] at hreserves
      change _ < params.classSharedBurstMicros * 1000 + 1000 at hshared
      change _ ≤ params.maxSources * params.classReserveBurstMicros PowVerifier.costMicros * 1000 +
        params.maxSources * 1000 at hreserves
      rw [Nat.add_mul, Nat.add_mul 1, Nat.one_mul]
      change _ ≤ _ + (b - a) * (params.classSharedRateMicrosPerSec +
        params.maxSources * params.classReserveRateMicrosPerSec) at hcharged
      omega
    · have hrate' : 1000 ≤ params.classSharedRateMicrosPerSec :=
        hrate.trans (Nat.div_le_self _ _)
      rw [Bucket.Terms.limit_of_le (t := params.sharedTerms) hrate',
        Bucket.Terms.limit_of_le (t := params.reserveTerms _) hrate, ← Nat.mul_assoc] at hcharged
      rw [Nat.add_mul]
      exact hcharged

end

/-! ## A slow bucket -/

namespace Scene

/-- A source gains a microsecond in ten milliseconds, and its bucket holds one. -/
def slowParams : ChainParams :=
  { params with powBudgetMicros := 1, powBudgetWindowMs := 10, powBudgetBurstMicros := 1 }

/-- Every proof good, at a microsecond each. -/
@[reducible]
def cheapPow : PowVerifier := @countingPow crypto [] 1

/-- A call on a node with the genesis block and the arena given. -/
def slowCall (index : HeaderIndex) (monoMs : Nat) (raws : List RawHeader) :
    Submission (@MemStore crypto) :=
  letI := crypto
  { store := ⟨[.fromRaw genesis], [], ∅, ∅, ∅, ∅, ∅, [], none, 0, 0, 0⟩
    index
    ctx := {
      checkpoints := []
      anchor := none
      params := slowParams
      now := 1000200
      monoMs
      tip := ⟨0, genesisHash, 1000000, (index.node 0).cumWork⟩
      genesisTime := 1000000
      solicitation := .unsolicited
      tipEpoch := 0
      sideCapacity := slowParams.maxSideHeaders }
    source := 1
    raws }

/-- The arena of the genesis block. -/
def slowStart : HeaderIndex :=
  letI := crypto
  .insertGenesis (HeaderRec.fromRaw genesis) ((workOf (HeaderRec.fromRaw genesis).bits params.powLimit).getD 0)

/-- The arena after a source that was let in at time 0 delivers the first header at time 9. -/
def slowNext : HeaderIndex :=
  letI := crypto
  letI := cheapPow
  let s := slowCall slowStart 9 [first]
  (submitHeaders s.store ((slowCall slowStart 0 []).run (.new slowParams)) s.index s.ctx s.source
    s.raws).2.2.1

/-- A source that delivers a header at time 9 and another one at time 10. -/
def slowRun : List (Submission (@MemStore crypto)) :=
  [slowCall slowStart 0 [], slowCall slowStart 9 [first], slowCall slowNext 10 [rival]]

theorem slowRun_params : letI := crypto
    ∀ s ∈ slowRun, s.ctx.params = slowParams := by
  let _ := crypto
  intro s hs
  simp only [slowRun, List.mem_cons, List.not_mem_nil, or_false] at hs
  obtain rfl | rfl | rfl := hs
  all_goals rfl

theorem slowRun_clock : letI := crypto
    slowRun.Pairwise fun s s' ↦ s.ctx.monoMs ≤ s'.ctx.monoMs := by
  let _ := crypto
  simp [slowRun, slowCall]

theorem slowRun_charged : letI := crypto
    letI := cheapPow
    (Submission.metered (· = 1)).charged 9 10 (.new slowParams) slowRun = 2 := by decide +kernel

end Scene

/-- Two microseconds are charged within a millisecond of a source that has a burst of one and
gains a tenth of one: what was due at time 9 is gained at time 10. -/
theorem interpreter_charges_exceed :
    letI := Scene.crypto
    letI := Scene.cheapPow
    checkParams Scene.slowParams = .ok () ∧
      (∀ s ∈ Scene.slowRun, s.ctx.params = Scene.slowParams) ∧
      (Scene.slowRun.Pairwise fun s s' ↦ s.ctx.monoMs ≤ s'.ctx.monoMs) ∧
      ¬∀ id : SourceId,
        (Submission.metered (· = id)).charged 9 10 (.new Scene.slowParams) Scene.slowRun *
            max Scene.slowParams.powBudgetWindowMs 1 ≤
          Scene.slowParams.powBudgetBurstMicros * max Scene.slowParams.powBudgetWindowMs 1 +
            (10 - 9) * Scene.slowParams.powBudgetMicros := by
  let _ := Scene.crypto
  let _ := Scene.cheapPow
  refine ⟨by decide +kernel, Scene.slowRun_params, Scene.slowRun_clock, fun h ↦ ?_⟩
  have h := h 1
  rw [Scene.slowRun_charged] at h
  exact absurd h (by decide)

/-- The slow bucket, charged two microseconds where it is allowed less than two and a tenth. -/
theorem interpreter_charges_slow :
    letI := Scene.crypto
    letI := Scene.cheapPow
    (Submission.metered (· = 1)).charged 9 10 (.new Scene.slowParams) Scene.slowRun * 10 <
      1 * 10 + (10 - 9) * 1 + 10 := by
  let _ := Scene.crypto
  let _ := Scene.cheapPow
  have h := interpreter_charges_bounded Scene.slowParams (by decide)
    Scene.slowRun_params Scene.slowRun_clock (Nat.le_succ 9)
  exact (h.1 1).1

end Plaine.Chain

import Plaine.Chain.Header
import Plaine.Lib.Bucket
import Plaine.Lib.Digest

/-!
# The interpreter budget

A source has a bucket of its own and a reserve, and all sources share a third bucket.  A call of
`submit_headers` tops up some of the buckets, evicts a source whose buckets are full where it
needs the room, and then pays for each header it runs the interpreter on: from the source's own
bucket, and from the shared one or the reserve.
-/

namespace Plaine.Chain

open Plaine.Lib Plaine.Consensus

/-! ## The buckets -/

namespace ChainParams

variable (params : ChainParams)

/-- The terms of a source's own bucket. -/
def ownTerms : Bucket.Terms :=
  ⟨params.powBudgetMicros, max params.powBudgetWindowMs 1, params.powBudgetBurstMicros, u64Max⟩

/-- The terms of a source's reserve. -/
def reserveTerms (cost : Nat) : Bucket.Terms :=
  ⟨params.classReserveRateMicrosPerSec, 1000, params.classReserveBurstMicros cost, u64Max⟩

/-- The terms of the shared bucket. -/
def sharedTerms : Bucket.Terms :=
  ⟨params.classSharedRateMicrosPerSec, 1000, params.classSharedBurstMicros, u64Max⟩

variable {params}

theorem ownTerms_sane (h : params.powBudgetWindowMs ≤ u64Max) : params.ownTerms.Sane :=
  ⟨lt_of_lt_of_le Nat.one_pos (Nat.le_max_right _ _), max_le h (show 1 ≤ u64Max by decide)⟩

theorem reserveTerms_sane {cost : Nat} : (params.reserveTerms cost).Sane :=
  ⟨show 0 < 1000 by decide, show 1000 ≤ u64Max by decide⟩

theorem sharedTerms_sane : params.sharedTerms.Sane :=
  ⟨show 0 < 1000 by decide, show 1000 ≤ u64Max by decide⟩

end ChainParams

section

variable [Crypto]

namespace SourceState

/-- The source's own bucket. -/
def own (st : SourceState) : Bucket := ⟨st.tokens, st.lastMs⟩

/-- The source's reserve. -/
def reserve (st : SourceState) : Bucket := ⟨st.reserveTokens, st.reserveLastMs⟩

variable {st : SourceState} {params : ChainParams} {cost now : Nat}

theorem primed_refill : (st.refill params cost now).primed = true := by
  unfold refill
  split
  · rfl
  · dsimp only
    split_ifs <;> simp_all

theorem own_refill (h : st.primed = true) :
    (st.refill params cost now).own = st.own.refill params.ownTerms now := by
  unfold refill Bucket.refill own ChainParams.ownTerms Bucket.Terms.gain saturatingMul
  rw [if_neg (not_not_intro h)]
  dsimp only
  split_ifs <;> rfl

theorem reserve_refill (h : st.primed = true) :
    (st.refill params cost now).reserve = st.reserve.refill (params.reserveTerms cost) now := by
  unfold refill Bucket.refill reserve ChainParams.reserveTerms Bucket.Terms.gain saturatingMul
  rw [if_neg (not_not_intro h)]
  dsimp only
  split_ifs <;> rfl

theorem own_refill_empty :
    (empty.refill params cost now).own = ⟨params.ownTerms.burst, now⟩ := rfl

theorem reserve_refill_empty :
    (empty.refill params cost now).reserve = ⟨(params.reserveTerms cost).burst, now⟩ := rfl

end SourceState

namespace Ingest

/-- The shared bucket. -/
def shared (ing : Ingest) : Bucket := ⟨ing.sharedTokens, ing.sharedLastMs⟩

variable {ing ing' ing'' : Ingest} {params : ChainParams} {cost now m n : Nat}
  {id v : SourceId} {st st' : SourceState}

theorem shared_refillShared (h : ing.sharedPrimed = true) :
    (ing.refillShared params now).shared = ing.shared.refill params.sharedTerms now := by
  unfold refillShared Bucket.refill shared ChainParams.sharedTerms Bucket.Terms.gain saturatingMul
  rw [if_neg (not_not_intro h)]
  dsimp only
  split_ifs <;> rfl

theorem shared_refillShared_first (h : ing.sharedPrimed = false) :
    (ing.refillShared params now).shared = ⟨params.sharedTerms.burst, now⟩ := by
  unfold refillShared
  rw [if_pos (by rw [h]; exact Bool.false_ne_true)]
  rfl

theorem sharedPrimed_refillShared : (ing.refillShared params now).sharedPrimed = true := by
  unfold refillShared
  split
  · rfl
  · dsimp only
    split_ifs <;> simp_all

theorem sources_refillShared : (ing.refillShared params now).sources = ing.sources := by
  unfold refillShared
  split
  · rfl
  · dsimp only
    split_ifs <;> rfl

theorem source_of_lookup (h : ing.sources.lookup id = some st) : ing.source id = st := by
  rw [source, h, Option.getD_some]

/-! ## Topping up -/

/-- The steps that top up the buckets at a time, and make room for a source. -/
inductive TopsUp (params : ChainParams) (cost now : Nat) (ing : Ingest) : Ingest → Prop
  | refl : TopsUp params cost now ing ing
  | shared {ing' : Ingest} : TopsUp params cost now ing ing' →
      TopsUp params cost now ing (ing'.refillShared params now)
  | refill {ing' : Ingest} {id : SourceId} {st : SourceState} : TopsUp params cost now ing ing' →
      ing'.sources.lookup id = some st →
      TopsUp params cost now ing (ing'.setSource id (st.refill params cost now))
  | evict {ing' : Ingest} {id : SourceId} {st : SourceState} : TopsUp params cost now ing ing' →
      ing'.sources.lookup id = some st → st.budgetsFull params cost = true →
      TopsUp params cost now ing (ing'.forget id)
  | fresh {ing' : Ingest} {id : SourceId} : TopsUp params cost now ing ing' →
      ing'.sources.lookup id = none → ing'.sources.keys.length < params.maxSources →
      TopsUp params cost now ing (ing'.setSource id (SourceState.empty.refill params cost now))

theorem length_setSource (h : ing.sources.lookup id = some st) (st' : SourceState) :
    (ing.setSource id st').sources.keys.length = ing.sources.keys.length := by
  have hsum := AList.sum_insert_of_lookup (g := fun _ ↦ 1) h st'
  rw [AList.length_keys, AList.length_keys]
  exact Nat.add_right_cancel hsum

theorem length_setSource_of_none (h : ing.sources.lookup id = none) (st : SourceState) :
    (ing.setSource id st).sources.keys.length = ing.sources.keys.length + 1 := by
  rw [AList.length_keys, AList.length_keys]
  exact AList.sum_insert_of_none h st

theorem length_forget (h : ing.sources.lookup id = some st) :
    (ing.forget id).sources.keys.length + 1 = ing.sources.keys.length := by
  rw [AList.length_keys, AList.length_keys]
  exact AList.sum_erase h

/-- Topping up keeps the table within its bound. -/
theorem TopsUp.length_le (h : TopsUp params cost now ing ing')
    (hle : ing.sources.keys.length ≤ params.maxSources) :
    ing'.sources.keys.length ≤ params.maxSources := by
  induction h with
  | refl => exact hle
  | shared _ ih =>
    rw [sources_refillShared]
    exact ih
  | refill _ hst ih =>
    rw [length_setSource hst]
    exact ih
  | evict _ hst _ ih =>
    have := length_forget hst
    omega
  | @fresh ing' id _ hnone hroom _ =>
    rw [length_setSource_of_none hnone]
    exact hroom

theorem lookup_setSource_eq_none (h : ing.sources.lookup id = some st) (st' : SourceState) (j : SourceId) :
    (ing.setSource id st').sources.lookup j = none ↔ ing.sources.lookup j = none := by
  unfold setSource
  by_cases hj : j = id
  · subst hj
    rw [AList.lookup_insert, h]
    simp
  · rw [AList.lookup_insert_ne hj]

theorem TopsUp.refillAll (h : TopsUp params cost now ing ing') :
    TopsUp params cost now ing (ing'.refillAll params cost now) := by
  unfold Ingest.refillAll
  have hkeys : ∀ j ∈ ing'.sources.keys, ing'.sources.lookup j ≠ none := fun j hj ↦
    Option.isSome_iff_ne_none.mp (AList.lookup_isSome.mpr hj)
  generalize ing'.sources.keys = l at hkeys
  induction l generalizing ing' with
  | nil => exact h
  | cons j l ih =>
    rw [List.forall_mem_cons] at hkeys
    obtain ⟨st, hst⟩ := Option.ne_none_iff_exists'.mp hkeys.1
    rw [List.foldl_cons, source_of_lookup hst]
    exact ih (h.refill hst) fun k hk ↦ mt (lookup_setSource_eq_none hst _ k).mp (hkeys.2 k hk)

/-- The victim is a source whose buckets are full. -/
theorem victim_full (h : ing.victim params cost = some v) :
    v ∈ ing.sources.keys ∧ (ing.source v).budgetsFull params cost = true := by
  unfold victim at h
  dsimp only at h
  rcases Option.or_eq_some_iff.mp h with h | ⟨-, h⟩
  · have hmem := List.mem_filter.mp (List.min?_mem h)
    have howes := hmem.2
    simp only [SourceState.owesNothing, decide_eq_true_eq] at howes
    exact ⟨hmem.1, howes.2⟩
  · have hmem := List.mem_filter.mp (List.mem_of_mem_filter (List.min?_mem h))
    have hfull := hmem.2
    simp only [decide_eq_true_eq] at hfull
    exact ⟨hmem.1, hfull.2⟩

/-! ## Solvency -/

/-- No bucket is over its burst, and there is room for the rows. -/
structure Solvent (params : ChainParams) (cost : Nat) (ing : Ingest) : Prop where
  primed : ∀ {id st}, ing.sources.lookup id = some st → st.primed = true
  own : ∀ {id st}, ing.sources.lookup id = some st → st.own.tokens ≤ params.ownTerms.burst
  reserve : ∀ {id st}, ing.sources.lookup id = some st →
    st.reserve.tokens ≤ (params.reserveTerms cost).burst
  shared : ing.sharedPrimed = true → ing.shared.tokens ≤ params.sharedTerms.burst
  length_le : ing.sources.keys.length ≤ params.maxSources

theorem solvent_new : Solvent params cost (.new params) where
  primed h := by cases h
  own h := by cases h
  reserve h := by cases h
  shared h := by cases h
  length_le := Nat.zero_le _

/-- A row that is put in has to be within its bursts. -/
theorem Solvent.setSource (h : Solvent params cost ing)
    (hlen : (ing.setSource id st).sources.keys.length ≤ params.maxSources)
    (hprimed : st.primed = true) (hown : st.own.tokens ≤ params.ownTerms.burst)
    (hreserve : st.reserve.tokens ≤ (params.reserveTerms cost).burst) :
    Solvent params cost (ing.setSource id st) := by
  have hrow : ∀ {j st'}, (ing.setSource id st).sources.lookup j = some st' →
      st' = st ∨ ing.sources.lookup j = some st' := by
    intro j st' hj
    unfold Ingest.setSource at hj
    by_cases heq : j = id
    · subst heq
      rw [AList.lookup_insert] at hj
      exact .inl (Option.some.inj hj).symm
    · rw [AList.lookup_insert_ne heq] at hj
      exact .inr hj
  refine ⟨fun hj ↦ ?_, fun hj ↦ ?_, fun hj ↦ ?_, h.shared, hlen⟩
  · obtain rfl | hj := hrow hj
    · exact hprimed
    · exact h.primed hj
  · obtain rfl | hj := hrow hj
    · exact hown
    · exact h.own hj
  · obtain rfl | hj := hrow hj
    · exact hreserve
    · exact h.reserve hj

theorem Solvent.refillShared (h : Solvent params cost ing) :
    Solvent params cost (ing.refillShared params now) := by
  have hsrc : (ing.refillShared params now).sources = ing.sources := sources_refillShared
  refine ⟨fun hj ↦ h.primed (hsrc ▸ hj), fun hj ↦ h.own (hsrc ▸ hj),
    fun hj ↦ h.reserve (hsrc ▸ hj), fun _ ↦ ?_, hsrc ▸ h.length_le⟩
  cases hprimed : ing.sharedPrimed with
  | true =>
    rw [shared_refillShared hprimed]
    exact Bucket.tokens_refill_le (h.shared hprimed)
  | false =>
    rw [shared_refillShared_first hprimed]

/-- Topping up keeps every bucket within its burst. -/
theorem TopsUp.solvent (h : TopsUp params cost now ing ing') (hs : Solvent params cost ing) :
    Solvent params cost ing' := by
  induction h with
  | refl => exact hs
  | shared _ ih => exact ih.refillShared
  | @refill ing' id st htop hst ih =>
    have hprimed := ih.primed hst
    refine ih.setSource ((length_setSource hst _).trans_le ih.length_le)
      SourceState.primed_refill ?_ ?_
    · rw [SourceState.own_refill hprimed]
      exact Bucket.tokens_refill_le (ih.own hst)
    · rw [SourceState.reserve_refill hprimed]
      exact Bucket.tokens_refill_le (ih.reserve hst)
  | @evict ing' id st _ hst _ ih =>
    have hrow : ∀ {j st'}, (ing'.forget id).sources.lookup j = some st' →
        ing'.sources.lookup j = some st' := by
      intro j st' hj
      unfold Ingest.forget at hj
      by_cases heq : j = id
      · subst heq
        rw [AList.lookup_erase] at hj
        cases hj
      · rwa [AList.lookup_erase_ne heq] at hj
    have hlen := length_forget hst
    have hle := ih.length_le
    exact ⟨fun hj ↦ ih.primed (hrow hj), fun hj ↦ ih.own (hrow hj),
      fun hj ↦ ih.reserve (hrow hj), ih.shared, by omega⟩
  | fresh _ hnone hroom ih =>
    refine ih.setSource ?_ SourceState.primed_refill le_rfl le_rfl
    rw [length_setSource_of_none hnone]
    exact hroom

/-- What is refilled at a time is settled. -/
structure RowSettled (params : ChainParams) (cost now : Nat) (st : SourceState) : Prop where
  own : st.own.Settled params.ownTerms now
  reserve : st.reserve.Settled (params.reserveTerms cost) now

/-- Touching a source tops up, and a source that is let in has just been refilled. -/
theorem TopsUp.touch (h : TopsUp params cost now ing ing') (hs : Solvent params cost ing)
    (id : SourceId) :
    TopsUp params cost now ing (ing'.touch id params cost now).2 ∧
      ((ing'.touch id params cost now).1 = .ok () →
        ∃ st, (ing'.touch id params cost now).2.sources.lookup id = some st ∧
          RowSettled params cost now st) := by
  have henter : ∀ {ing₁ : Ingest}, TopsUp params cost now ing ing₁ →
      (ing₁.sources.lookup id = none → ing₁.sources.keys.length < params.maxSources) →
      TopsUp params cost now ing (ing₁.setSource id ((ing₁.source id).refill params cost now)) ∧
        RowSettled params cost now ((ing₁.source id).refill params cost now) := by
    intro ing₁ h₁ hroom
    have hs₁ := h₁.solvent hs
    cases hst : ing₁.sources.lookup id with
    | some st =>
      rw [source_of_lookup hst]
      refine ⟨h₁.refill hst, ?_, ?_⟩
      · rw [SourceState.own_refill (hs₁.primed hst)]
        exact Bucket.settled_refill (hs₁.own hst)
      · rw [SourceState.reserve_refill (hs₁.primed hst)]
        exact Bucket.settled_refill (hs₁.reserve hst)
    | none =>
      rw [source, hst, Option.getD_none]
      exact ⟨h₁.fresh hst (hroom hst), Bucket.settled_full, Bucket.settled_full⟩
  unfold Ingest.touch
  dsimp only
  split
  case isFalse hroom =>
    obtain ⟨htop, hsettled⟩ := henter h fun hnone ↦ by
      by_contra hfull
      exact hroom ⟨by rw [hnone]; rfl, Nat.le_of_not_lt hfull⟩
    exact ⟨htop, fun _ ↦ ⟨_, AList.lookup_insert _, hsettled⟩⟩
  case isTrue hfull =>
    have hall := h.refillAll
    split
    case h_2 => exact ⟨hall, fun hok ↦ by cases hok⟩
    case h_1 v hv =>
      obtain ⟨hmem, hbudget⟩ := victim_full hv
      obtain ⟨st, hst⟩ := Option.isSome_iff_exists.mp (AList.lookup_isSome.mpr hmem)
      rw [source_of_lookup hst] at hbudget
      have hlen := hall.length_le hs.length_le
      have hroom := length_forget hst
      obtain ⟨htop, hsettled⟩ := henter (hall.evict hst hbudget) fun _ ↦ by omega
      exact ⟨htop, fun _ ↦ ⟨_, AList.lookup_insert _, hsettled⟩⟩

theorem shared_refillAll : (ing.refillAll params cost now).shared = ing.shared ∧
    (ing.refillAll params cost now).sharedPrimed = ing.sharedPrimed := by
  unfold Ingest.refillAll
  generalize ing.sources.keys = l
  induction l generalizing ing with
  | nil => exact ⟨rfl, rfl⟩
  | cons j l ih =>
    rw [List.foldl_cons]
    exact ih

/-- Touching a source leaves the shared bucket alone. -/
theorem shared_touch (ing : Ingest) (params : ChainParams) (cost now : Nat) (id : SourceId) :
    (ing.touch id params cost now).2.shared = ing.shared ∧
    (ing.touch id params cost now).2.sharedPrimed = ing.sharedPrimed := by
  unfold Ingest.touch
  dsimp only
  split
  · split
    · exact shared_refillAll
    · exact shared_refillAll
  · exact ⟨rfl, rfl⟩

/-! ## Credit -/

/-- A credit of rows that topping up does not raise, with what an evicted row counts for. -/
structure RowCredit (params : ChainParams) (cost now : Nat) (φ : SourceState → Nat)
    (full : Nat) : Prop where
  refill : ∀ {st : SourceState}, st.primed = true → φ (st.refill params cost now) ≤ φ st
  evict : ∀ {st : SourceState}, st.budgetsFull params cost = true → full ≤ φ st
  fresh : φ (SourceState.empty.refill params cost now) ≤ full

/-- The credit of a row, and of none. -/
def rowCredit (ing : Ingest) (φ : SourceState → Nat) (full : Nat) (id : SourceId) : Nat :=
  ((ing.sources.lookup id).map φ).getD full

/-- The credit of all rows, and of the room for more. -/
def rowsCredit (ing : Ingest) (params : ChainParams) (φ : SourceState → Nat) (full : Nat) : Nat :=
  ing.sources.sum φ + (params.maxSources - ing.sources.keys.length) * full

variable {φ : SourceState → Nat} {full : Nat}

theorem rowCredit_setSource (st : SourceState) (j : SourceId) :
    (ing.setSource id st).rowCredit φ full j = if j = id then φ st else ing.rowCredit φ full j := by
  unfold rowCredit setSource
  split
  case isTrue heq => rw [heq, AList.lookup_insert, Option.map_some, Option.getD_some]
  case isFalse hne => rw [AList.lookup_insert_ne hne]

theorem rowCredit_of_lookup (h : ing.sources.lookup id = some st) :
    ing.rowCredit φ full id = φ st := by
  rw [rowCredit, h, Option.map_some, Option.getD_some]

theorem rowCredit_of_none (h : ing.sources.lookup id = none) :
    ing.rowCredit φ full id = full := by
  rw [rowCredit, h, Option.map_none, Option.getD_none]

theorem rowsCredit_setSource (params : ChainParams) (φ : SourceState → Nat) (full : Nat)
    (h : ing.sources.lookup id = some st) (st' : SourceState) :
    (ing.setSource id st').rowsCredit params φ full + φ st =
      ing.rowsCredit params φ full + φ st' := by
  have hsum := AList.sum_insert_of_lookup (g := φ) h st'
  have hlen := length_setSource h st'
  unfold rowsCredit
  rw [hlen]
  change (AList.insert id st' ing.sources).sum φ + _ + _ = _
  omega

/-- Topping up raises the credit of no row, and not that of all. -/
theorem TopsUp.credit_le (h : TopsUp params cost now ing ing') (hs : Solvent params cost ing)
    (hφ : RowCredit params cost now φ full) (j : SourceId) :
    ing'.rowCredit φ full j ≤ ing.rowCredit φ full j ∧
      ing'.rowsCredit params φ full ≤ ing.rowsCredit params φ full := by
  induction h with
  | refl => exact ⟨le_rfl, le_rfl⟩
  | shared _ ih =>
    unfold rowCredit rowsCredit at ih ⊢
    rwa [sources_refillShared]
  | @refill ing' id st htop hst ih =>
    have hle := hφ.refill ((htop.solvent hs).primed hst)
    refine ⟨le_trans ?_ ih.1, le_trans ?_ ih.2⟩
    · rw [rowCredit_setSource]
      split
      case isTrue heq =>
        rw [heq, rowCredit_of_lookup hst]
        exact hle
      case isFalse => exact le_rfl
    · have := rowsCredit_setSource params φ full hst (st.refill params cost now)
      omega
  | @evict ing' id st htop hst hfull ih =>
    have hle := hφ.evict hfull
    refine ⟨le_trans ?_ ih.1, le_trans ?_ ih.2⟩
    · by_cases heq : j = id
      · subst heq
        rw [rowCredit_of_lookup hst, rowCredit_of_none (AList.lookup_erase _ _)]
        exact hle
      · unfold rowCredit Ingest.forget
        rw [AList.lookup_erase_ne heq]
    · have hsum := AList.sum_erase (g := φ) hst
      have hlen := length_forget hst
      have hroom := (htop.solvent hs).length_le
      have hslots : params.maxSources - (ing'.forget id).sources.keys.length =
          params.maxSources - ing'.sources.keys.length + 1 := by omega
      unfold rowsCredit
      rw [hslots, Nat.succ_mul]
      change (AList.erase id ing'.sources).sum φ + _ ≤ _
      omega
  | @fresh ing' id _ hnone hroom ih =>
    have hle := hφ.fresh
    refine ⟨le_trans ?_ ih.1, le_trans ?_ ih.2⟩
    · rw [rowCredit_setSource]
      split
      case isTrue heq =>
        rw [heq, rowCredit_of_none hnone]
        exact hle
      case isFalse => exact le_rfl
    · have hsum := AList.sum_insert_of_none (g := φ) hnone
        (SourceState.empty.refill params cost now)
      have hslots : params.maxSources - ing'.sources.keys.length =
          params.maxSources - (ing'.sources.keys.length + 1) + 1 := by omega
      unfold rowsCredit
      rw [length_setSource_of_none hnone, hslots, Nat.succ_mul]
      change (AList.insert id _ ing'.sources).sum φ + _ ≤ _
      omega

/-- The credit of the shared bucket, which counts as full until its first use. -/
def sharedCredit (ing : Ingest) (params : ChainParams) (now : Nat) : Nat :=
  if ing.sharedPrimed then ing.shared.credit params.sharedTerms now
  else params.sharedTerms.burst * params.sharedTerms.window

/-- Topping up does not raise the shared credit. -/
theorem TopsUp.sharedCredit_le (h : TopsUp params cost now ing ing') :
    ing'.sharedCredit params now ≤ ing.sharedCredit params now := by
  induction h with
  | refl => exact le_rfl
  | @shared ing' _ ih =>
    refine le_trans ?_ ih
    unfold sharedCredit
    rw [if_pos sharedPrimed_refillShared]
    cases hprimed : ing'.sharedPrimed with
    | true =>
      rw [shared_refillShared hprimed, if_pos rfl]
      exact Bucket.credit_refill_le
    | false =>
      rw [shared_refillShared_first hprimed, if_neg Bool.false_ne_true]
      exact Bucket.credit_full.le
  | refill _ _ ih => exact ih
  | evict _ _ _ ih => exact ih
  | fresh _ _ _ ih => exact ih

/-! ### The credit of the buckets -/

/-- The credit of a source's own bucket. -/
def ownCredit (ing : Ingest) (params : ChainParams) (id : SourceId) (now : Nat) : Nat :=
  ing.rowCredit (fun st ↦ st.own.credit params.ownTerms now)
    (params.ownTerms.burst * params.ownTerms.window) id

/-- The credit of the reserves. -/
def reserveCredit (ing : Ingest) (params : ChainParams) (cost now : Nat) : Nat :=
  ing.rowsCredit params (fun st ↦ st.reserve.credit (params.reserveTerms cost) now)
    ((params.reserveTerms cost).burst * (params.reserveTerms cost).window)

theorem rowCredit_own : RowCredit params cost now (fun st ↦ st.own.credit params.ownTerms now)
    (params.ownTerms.burst * params.ownTerms.window) where
  refill hprimed := by
    rw [SourceState.own_refill hprimed]
    exact Bucket.credit_refill_le
  evict hfull := by
    unfold SourceState.budgetsFull at hfull
    exact Bucket.le_credit_of_full (of_decide_eq_true hfull).2.1
  fresh := by
    rw [SourceState.own_refill_empty]
    exact Bucket.credit_full.le

theorem rowCredit_reserve : RowCredit params cost now
    (fun st ↦ st.reserve.credit (params.reserveTerms cost) now)
    ((params.reserveTerms cost).burst * (params.reserveTerms cost).window) where
  refill hprimed := by
    rw [SourceState.reserve_refill hprimed]
    exact Bucket.credit_refill_le
  evict hfull := by
    unfold SourceState.budgetsFull at hfull
    exact Bucket.le_credit_of_full (of_decide_eq_true hfull).2.2
  fresh := by
    rw [SourceState.reserve_refill_empty]
    exact Bucket.credit_full.le

end Ingest

end

end Plaine.Chain

import Mathlib.Data.List.Infix
import Plaine.Chain.Charge

/-!
# How the buckets refill

A refill that gains tokens drops the part of a token beyond them, so what a bucket gains over an
interval depends on when it is touched: two ways of touching it credit the same, to one token, if
and only if they leave the same behind, to one token.  Where the window divides the rate no
refill drops anything, and then a source that spends nothing for thirty seconds has a call of the
interpreter in its reserve, whatever else happens.
-/

namespace Plaine.Chain

open Plaine.Lib Plaine.Consensus

section

variable [Crypto]

/-! ## Touching a bucket again and again -/

/-- A source refilled at one time after the other. -/
def SourceState.touched (st : SourceState) (params : ChainParams) (cost : Nat) (ts : List Nat) :
    SourceState := ts.foldl (fun st now ↦ st.refill params cost now) st

/-- The shared bucket refilled at one time after the other. -/
def Ingest.touchedShared (ing : Ingest) (params : ChainParams) (ts : List Nat) : Ingest :=
  ts.foldl (fun ing now ↦ ing.refillShared params now) ing

variable {params : ChainParams} {cost now now' a b : Nat} {ts : List Nat}

theorem SourceState.touched_buckets {st : SourceState} (h : st.primed = true) :
    (st.touched params cost ts).own = st.own.touches params.ownTerms ts ∧
      (st.touched params cost ts).reserve = st.reserve.touches (params.reserveTerms cost) ts := by
  induction ts generalizing st with
  | nil => exact ⟨rfl, rfl⟩
  | cons now ts ih =>
    have hrest := ih (primed_refill : (st.refill params cost now).primed = true)
    rw [own_refill h, reserve_refill h] at hrest
    exact hrest

theorem Ingest.shared_touchedShared {ing : Ingest} (h : ing.sharedPrimed = true) :
    (ing.touchedShared params ts).shared = ing.shared.touches params.sharedTerms ts := by
  induction ts generalizing ing with
  | nil => rfl
  | cons now ts ih =>
    have hrest := ih (sharedPrimed_refillShared : (ing.refillShared params now).sharedPrimed = true)
    rw [shared_refillShared h] at hrest
    exact hrest

/-! ## Savings in the reserve -/

namespace Ingest

variable {ing ing' : Ingest} {id j : SourceId} {st : SourceState} {m : Nat}

/-- No reserve was refilled after the time. -/
def RefilledBy (ing : Ingest) (now : Nat) : Prop :=
  ∀ id st, ing.sources.lookup id = some st → st.reserve.last ≤ now

/-- What a source has saved in its reserve towards one call; a source without a row has it all. -/
def savedCall (ing : Ingest) (params : ChainParams) (cost : Nat) (id : SourceId) (now : Nat) : Nat :=
  ing.rowCredit (fun st ↦ st.reserve.saved (params.reserveTerms cost) cost now) (cost * 1000) id

theorem last_refill_le (h : st.primed = true) (hle : st.reserve.last ≤ now') (hnow : now ≤ now') :
    (st.refill params cost now).reserve.last ≤ now' := by
  rw [SourceState.reserve_refill h]
  unfold Bucket.refill
  split
  · exact hnow
  · exact hle

theorem RefilledBy.setSource (h : ing.RefilledBy now) (hst : st.reserve.last ≤ now) :
    (ing.setSource id st).RefilledBy now := by
  intro j st' hj
  unfold Ingest.setSource at hj
  by_cases heq : j = id
  · subst heq
    rw [AList.lookup_insert] at hj
    obtain rfl := Option.some.inj hj
    exact hst
  · rw [AList.lookup_insert_ne heq] at hj
    exact h j st' hj

theorem TopsUp.refilledBy (h : TopsUp params cost now ing ing') (hs : Solvent params cost ing)
    (hnow : now ≤ now') (hby : ing.RefilledBy now') : ing'.RefilledBy now' := by
  induction h with
  | refl => exact hby
  | shared _ ih =>
    intro j st hj
    rw [sources_refillShared] at hj
    exact ih j st hj
  | refill htop hst ih =>
    exact ih.setSource (last_refill_le ((htop.solvent hs).primed hst) (ih _ _ hst) hnow)
  | @evict ing' id st _ _ _ ih =>
    intro j st' hj
    unfold Ingest.forget at hj
    by_cases heq : j = id
    · subst heq
      rw [AList.lookup_erase] at hj
      cases hj
    · rw [AList.lookup_erase_ne heq] at hj
      exact ih j st' hj
  | fresh _ _ _ ih =>
    refine ih.setSource ?_
    rw [SourceState.reserve_refill_empty]
    exact hnow

omit [Crypto] in
theorem reaches_cost (params : ChainParams) (h : cost * 1000 ≤ u64Max) : (params.reserveTerms cost).Reaches cost := by
  refine ⟨h, ?_⟩
  show cost ≤ min (cost * 2) u64Max
  omega

/-- Topping up takes nothing from the savings of a source, also when it is evicted or let in. -/
theorem TopsUp.savedCall_le (h : TopsUp params cost now ing ing') (hs : Solvent params cost ing)
    (hdvd : 1000 ∣ params.classReserveRateMicrosPerSec) (hcost : cost * 1000 ≤ u64Max)
    (id : SourceId) : ing.savedCall params cost id now ≤ ing'.savedCall params cost id now := by
  have hgoal := reaches_cost params hcost
  induction h with
  | refl => exact le_rfl
  | shared _ ih =>
    unfold savedCall rowCredit at ih ⊢
    rwa [sources_refillShared]
  | @refill ing' j st htop hst ih =>
    refine ih.trans ?_
    unfold savedCall
    rw [rowCredit_setSource]
    split
    case isTrue heq =>
      rw [heq, rowCredit_of_lookup hst, SourceState.reserve_refill ((htop.solvent hs).primed hst)]
      exact Bucket.saved_le_refill hdvd (show 0 < 1000 by decide) hgoal
    case isFalse => exact le_rfl
  | @evict ing' j st _ hst _ ih =>
    refine ih.trans ?_
    unfold savedCall
    by_cases heq : id = j
    · subst heq
      rw [rowCredit_of_lookup hst, rowCredit_of_none (AList.lookup_erase _ _)]
      exact Nat.min_le_right _ _
    · unfold rowCredit Ingest.forget
      rw [AList.lookup_erase_ne heq]
  | @fresh ing' j _ hnone _ ih =>
    refine ih.trans ?_
    unfold savedCall
    rw [rowCredit_setSource]
    split
    case isTrue heq =>
      rw [heq, rowCredit_of_none hnone, SourceState.reserve_refill_empty]
      exact Nat.le_min.mpr ⟨(Nat.mul_le_mul_right 1000 hgoal.burst).trans (Nat.le_add_right _ _),
        le_rfl⟩
    case isFalse => exact le_rfl

theorem savedCall_advance (hby : ing.RefilledBy now) (h : now ≤ now') :
    min (ing.savedCall params cost id now + (now' - now) * (params.reserveTerms cost).rate)
      (cost * 1000) ≤ ing.savedCall params cost id now' := by
  unfold savedCall
  cases hst : ing.sources.lookup id with
  | none =>
    rw [rowCredit_of_none hst, rowCredit_of_none hst]
    exact Nat.min_le_right _ _
  | some st =>
    rw [rowCredit_of_lookup hst, rowCredit_of_lookup hst]
    exact Bucket.saved_advance (hby id st hst) h

end Ingest

variable [PowVerifier] {σ : Type} [Store σ]

/-- While a source is charged nothing its reserve saves up for a call. -/
theorem saves_call (hdvd : 1000 ∣ params.classReserveRateMicrosPerSec)
    (hcost : PowVerifier.costMicros * 1000 ≤ u64Max) (id : SourceId) :
    (Submission.metered (σ := σ) (· = id)).Saves (params.reserveTerms PowVerifier.costMicros).rate
      (PowVerifier.costMicros * 1000)
      (fun ing now ↦ ing.Solvent params PowVerifier.costMicros ∧ ing.RefilledBy now)
      (fun s ↦ s.ctx.params = params)
      fun ing now ↦ ing.savedCall params PowVerifier.costMicros id now where
  later hs h := ⟨hs.1, fun id st hst ↦ (hs.2 id st hst).trans h⟩
  advance hs h := Ingest.savedCall_advance hs.2 h
  keeps := by
    rintro ing s now ⟨hs, hby⟩ rfl hle
    refine ⟨Submission.solvent_run rfl hs, ?_⟩
    obtain ⟨mid, htop, -, -, ⟨hrun, -⟩ | ⟨st, -, -, hpays⟩⟩ := s.effect hs
    · show (s.run ing).RefilledBy now
      rw [hrun]
      exact htop.refilledBy hs hle hby
    · intro j st' hj
      have hmid := htop.refilledBy hs hle hby
      obtain ⟨st₁, st₂, _, _, hst₁, hst₂, -, -, -, -, -, -, -, hreserve⟩ := hpays.row
      by_cases heq : j = s.source
      · subst heq
        obtain rfl : st' = st₂ := Option.some.inj (hj.symm.trans hst₂)
        rw [hreserve]
        exact hmid _ _ hst₁
      · exact hmid _ _ ((hpays.others j heq).symm.trans hj)
  frees := by
    rintro ing s ⟨hs, -⟩ rfl hfree
    change (if decide (s.source = id) = true then s.charged ing else 0) = 0 at hfree
    show ing.savedCall s.ctx.params _ id s.ctx.monoMs ≤ (s.run ing).savedCall s.ctx.params _ id s.ctx.monoMs
    obtain ⟨mid, htop, -, -, ⟨hrun, -⟩ | ⟨st, -, -, hpays⟩⟩ := s.effect hs
    · rw [hrun]
      exact htop.savedCall_le hs hdvd hcost id
    · refine (htop.savedCall_le hs hdvd hcost id).trans_eq ?_
      unfold Ingest.savedCall
      by_cases heq : s.source = id
      · subst heq
        rw [if_pos (decide_eq_true rfl)] at hfree
        rw [hfree] at hpays
        obtain ⟨st₁, st₂, c, d, hst₁, hst₂, -, hsum, -, -, -, -, -, hreserve⟩ := hpays.row
        obtain rfl : d = 0 := (Nat.add_eq_zero_iff.mp hsum).2
        rw [Ingest.rowCredit_of_lookup hst₁, Ingest.rowCredit_of_lookup hst₂, hreserve]
        rfl
      · unfold Ingest.rowCredit
        rw [hpays.others id (Ne.symm heq)]

/-- Where the reserves gain whole tokens, a source that is charged nothing for thirty seconds has
a call in its reserve. -/
theorem reserve_survives {run : List (Submission σ)} {id : SourceId}
    (hdvd : 1000 ∣ params.classReserveRateMicrosPerSec)
    (hcost : PowVerifier.costMicros * 1000 ≤ u64Max)
    (hsurvivable : params.classReserveIsSurvivable PowVerifier.costMicros = true)
    (hparams : ∀ s ∈ run, s.ctx.params = params)
    (hclock : run.Pairwise fun s s' ↦ s.ctx.monoMs ≤ s'.ctx.monoMs)
    (hnow : ∀ s ∈ run, s.ctx.monoMs ≤ now) (hidle : a + 30000 ≤ now)
    (hnone : (Submission.metered (· = id)).charged (a + 1) now (.new params) run = 0) :
    PowVerifier.costMicros ≤ ((((Submission.metered (· = id)).after (.new params) run).source id).refill
      params PowVerifier.costMicros now).reserveTokens := by
  have hstart : (Ingest.new params).Solvent params PowVerifier.costMicros ∧
      (Ingest.new params).RefilledBy a := ⟨Ingest.solvent_new, fun _ _ hst ↦ by cases hst⟩
  have hsaves := saves_call (σ := σ) hdvd hcost id
  have hsaved := hsaves.le_saved hstart hparams hclock hnow (by omega) hnone
  have hworth : PowVerifier.costMicros * 1000 ≤
      (now - a) * (params.reserveTerms PowVerifier.costMicros).rate := by
    have hrate := (of_decide_eq_true hsurvivable).trans (Nat.min_le_left _ _)
    have hlong : 30000 ≤ now - a := by omega
    calc PowVerifier.costMicros * 1000
        ≤ params.classReserveRateMicrosPerSec * 30 * 1000 := Nat.mul_le_mul_right _ hrate
      _ = 30000 * params.classReserveRateMicrosPerSec := by ring
      _ ≤ (now - a) * params.classReserveRateMicrosPerSec := Nat.mul_le_mul_right _ hlong
  rw [Nat.min_eq_right hworth] at hsaved
  obtain ⟨hsolvent, -⟩ := hsaves.holds_after (hsaves.later hstart (by omega)) hparams hnow
  generalize (Submission.metered (· = id)).after (.new params) run = ing at hsaved hsolvent ⊢
  have hgoal := Ingest.reaches_cost params hcost
  cases hst : ing.sources.lookup id with
  | none =>
    rw [Ingest.source, hst, Option.getD_none]
    exact hgoal.burst
  | some st =>
    rw [Ingest.source_of_lookup hst]
    rw [Ingest.savedCall, Ingest.rowCredit_of_lookup hst] at hsaved
    show _ ≤ (st.refill params PowVerifier.costMicros now).reserve.tokens
    rw [SourceState.reserve_refill (hsolvent.primed hst)]
    refine (Bucket.settled_refill (hsolvent.reserve hst)).le_tokens ChainParams.reserveTerms_sane hdvd
      (hsaved.trans ?_)
    exact Bucket.saved_le_refill hdvd (show 0 < 1000 by decide) hgoal

end

/-! ## A starved reserve -/

namespace Scene

/-- A source that has just spent its reserve. -/
def spent : @SourceState crypto := letI := crypto; { SourceState.empty with primed := true }

/-- The two ways of touching its reserve: each millisecond, and once. -/
theorem spent_spans : letI := crypto
    spent.reserve.Spans (params.reserveTerms 2000) (List.range 10) 10 ∧
      spent.reserve.Spans (params.reserveTerms 2000) [] 10 := by
  let _ := crypto
  refine ⟨⟨by decide, by decide, fun ts h ↦ ?_⟩, ⟨by decide, by decide, fun ts h ↦ ?_⟩⟩
  · have hall : ∀ ts ∈ (List.range 10 ++ [10]).inits,
        (spent.reserve.touches (params.reserveTerms 2000) ts).tokens <
          min (params.reserveTerms 2000).burst (params.reserveTerms 2000).cap := by decide +kernel
    exact hall ts ((List.mem_inits _ _).mpr h)
  · have hall : ∀ ts ∈ ([] ++ [10] : List Nat).inits,
        (spent.reserve.touches (params.reserveTerms 2000) ts).tokens <
          min (params.reserveTerms 2000).burst (params.reserveTerms 2000).cap := by decide +kernel
    exact hall ts ((List.mem_inits _ _).mpr h)

/-- The reserves gain two tokens each millisecond. -/
def evenParams : ChainParams := { params with maxPeers := 125, maxSources := 125 }

/-- A source that is let in and returns after thirty seconds. -/
def evenRun : List (Submission (@MemStore crypto)) :=
  [0, 30000].map fun monoMs ↦ { slowCall slowStart monoMs [] with
    ctx := { (slowCall slowStart monoMs []).ctx with params := evenParams } }

end Scene

end Plaine.Chain

import Plaine.Consensus.Rules
import Plaine.Lib.BigEndian
import Plaine.Lib.WordBits

/-!
# Work in limbs

`Work` of `rules.rs` as the source keeps it, eight words with the least significant first, and its
exactness: each operation has the number that `Rules` computes with.
-/

namespace Plaine.Consensus.Limbs

open Plaine.Lib

/-- `Work`. -/
abbrev Work := Words 8

/-- `Work::ZERO`. -/
def Work.zero : Work := Words.zero 8

/-- `Work::ONE`. -/
def Work.one : Work := Words.ofWord 7 1

/-- `Work::two_pow_256`. -/
def Work.twoPow256 : Work := ⟨Work.zero.limbs.set 4 1, by rw [List.length_set, Words.length_eq]⟩

/-- `Work::from_be256`. -/
def Work.fromBe256 (bytes : Hash32) : Work :=
  ⟨beLimbs 4 bytes.bytes ++ List.replicate 4 0, by
    rw [List.length_append, length_beLimbs, List.length_replicate]⟩

/-- `work_from_target`. -/
def workFromTarget (target : Hash32) : Option Work := do
  let denom ← (Work.fromBe256 target).checkedAdd Work.one
  Work.twoPow256.divFloor denom

/-- The work of a chain, header by header. -/
def sumWork (targets : List Hash32) : Option Work :=
  targets.foldlM (fun sum target ↦ do sum.checkedAdd (← workFromTarget target)) Work.zero

/-- The number of a target's bytes. -/
def targetNumber (target : Hash32) : Nat := ofBe target.bytes

theorem targetNumber_lt (target : Hash32) : targetNumber target < 2 ^ 256 := by
  have h := ofBe_lt target.bytes
  rwa [target.length_eq] at h

@[simp] theorem value_fromBe256 (target : Hash32) :
    (Work.fromBe256 target).value = targetNumber target := by
  unfold Work.fromBe256 Words.value
  dsimp only
  rw [Words.valueOf_append, valueOf_beLimbs target.length_eq, Words.valueOf_replicate,
    Nat.mul_zero, Nat.add_zero, targetNumber]

@[simp] theorem value_twoPow256 : Work.twoPow256.value = 2 ^ 256 := rfl

@[simp] theorem value_one : Work.one.value = 1 := rfl

/-! ## The range -/

theorem workMax_succ : workMax + 1 = 2 ^ (64 * 8) := by decide +kernel

/-- The works of as many headers as there are heights have room. -/
theorem works_le_workMax : 2 ^ 256 * 2 ^ 64 ≤ workMax := by decide +kernel

theorem two_pow_257_le_workMax : 2 * 2 ^ 256 ≤ workMax := by decide +kernel

theorem le_workMax_iff {m : Nat} : m ≤ workMax ↔ m < 2 ^ (64 * 8) := by
  rw [← workMax_succ, Nat.lt_succ_iff]

theorem exists_work {m : Nat} (h : m ≤ workMax) : ∃ w : Work, w.value = m :=
  Words.exists_value (le_workMax_iff.mp h)

theorem value_le_workMax (w : Work) : w.value ≤ workMax := le_workMax_iff.mpr w.value_lt

/-! ## Exactness -/

/-- The work of a target is the number `Rules` gives it. -/
theorem workFromTarget_eq (target : Hash32) : ∃ w, workFromTarget target = some w ∧
    w.value = Consensus.workFromTarget (targetNumber target) := by
  have hlt := targetNumber_lt target
  have hmax := two_pow_257_le_workMax
  obtain ⟨denom, hdenom⟩ := exists_work (show targetNumber target + 1 ≤ workMax by omega)
  have hsum : (Work.fromBe256 target).checkedAdd Work.one = some denom := by
    rw [Words.checkedAdd_eq_some, value_fromBe256, value_one, hdenom]
  have hpos : 0 < denom.value := hdenom ▸ Nat.succ_pos _
  have hdouble : 2 * denom.value ≤ workMax := by omega
  obtain ⟨w, hdiv, hw⟩ := Words.divFloor_eq Work.twoPow256 hpos
    (le_workMax_iff.mp hdouble).le
  refine ⟨w, ?_, ?_⟩
  · rw [workFromTarget, hsum]
    exact hdiv
  · rw [hw, value_twoPow256, hdenom]
    rfl

theorem workFromTarget_le (target : Nat) : Consensus.workFromTarget target ≤ 2 ^ 256 :=
  Nat.div_le_self _ _

/-- A higher target stands for no more work. -/
theorem workFromTarget_antitone : Antitone Consensus.workFromTarget := fun _ _ h ↦
  Nat.div_le_div_left (Nat.add_le_add_right h 1) (Nat.succ_pos _)

/-- The sum of works is exact as long as it has room. -/
theorem foldlM_sumWork {targets : List Hash32} {start : Work}
    (hroom : start.value + 2 ^ 256 * targets.length ≤ workMax) :
    ∃ w, targets.foldlM (fun (sum : Work) target ↦ do
        sum.checkedAdd (← workFromTarget target)) start = some w ∧
      w.value = start.value +
        (targets.map fun target ↦ Consensus.workFromTarget (targetNumber target)).sum := by
  induction targets generalizing start with
  | nil => exact ⟨start, rfl, rfl⟩
  | cons target targets ih =>
    obtain ⟨w, hwork, hw⟩ := workFromTarget_eq target
    have hle : w.value ≤ 2 ^ 256 := hw.trans_le (workFromTarget_le _)
    have hfit : start.value + w.value + 2 ^ 256 * targets.length ≤ workMax := by
      rw [List.length_cons] at hroom
      omega
    obtain ⟨next, hnext⟩ := exists_work ((Nat.le_add_right _ _).trans hfit)
    obtain ⟨total, hfold, htotal⟩ := ih (hnext ▸ hfit)
    refine ⟨total, ?_, ?_⟩
    · rw [List.foldlM_cons, hwork]
      change (start.checkedAdd w >>= _) = _
      rw [Words.checkedAdd_eq_some.mpr hnext]
      exact hfold
    · rw [htotal, hnext, hw, List.map_cons, List.sum_cons, Nat.add_assoc]

/-- No chain has more headers than heights, and the works of that many headers have room. -/
theorem sumWork_eq {targets : List Hash32} (hlength : targets.length ≤ 2 ^ 64) :
    ∃ w, sumWork targets = some w ∧
      w.value = (targets.map fun target ↦ Consensus.workFromTarget (targetNumber target)).sum := by
  have hzero : Work.zero.value = 0 := Words.value_zero 8
  have hroom : Work.zero.value + 2 ^ 256 * targets.length ≤ workMax := by
    rw [hzero, Nat.zero_add]
    exact (Nat.mul_le_mul_left _ hlength).trans works_le_workMax
  obtain ⟨w, hsum, hw⟩ := foldlM_sumWork hroom
  exact ⟨w, hsum, by rw [hw, hzero, Nat.zero_add]⟩

/-- A checked sum fails exactly when the exact one is out of range. -/
theorem checkedAdd_eq_none {a b : Work} : a.checkedAdd b = none ↔ workMax < a.value + b.value := by
  constructor
  · intro h
    by_contra hle
    obtain ⟨c, hc⟩ := exists_work (Nat.le_of_not_lt hle)
    exact Option.some_ne_none c ((Words.checkedAdd_eq_some.mpr hc).symm.trans h)
  · intro h
    by_contra hne
    obtain ⟨c, hc⟩ := Option.ne_none_iff_exists'.mp hne
    exact ((value_le_workMax c).trans_lt h).ne (Words.checkedAdd_eq_some.mp hc)

/-- A checked difference fails exactly when the exact one is below zero. -/
theorem checkedSub_eq_none {a b : Work} : a.checkedSub b = none ↔ a.value < b.value := by
  constructor
  · intro h
    by_contra hle
    obtain ⟨c, hc⟩ := exists_work ((Nat.sub_le a.value b.value).trans (value_le_workMax a))
    have hsum : c.value + b.value = a.value := by
      rw [hc, Nat.sub_add_cancel (Nat.le_of_not_lt hle)]
    exact Option.some_ne_none c ((Words.checkedSub_eq_some.mpr hsum).symm.trans h)
  · intro h
    by_contra hne
    obtain ⟨c, hc⟩ := Option.ne_none_iff_exists'.mp hne
    have hsum := Words.checkedSub_eq_some.mp hc
    omega

/-! ## The operations of `Rules` -/

theorem map_value_checkedAdd (a b : Work) :
    (a.checkedAdd b).map Words.value = Consensus.Work.add a.value b.value := by
  rw [Consensus.Work.add]
  cases hsum : a.checkedAdd b with
  | none => exact (if_neg (Nat.not_le.mpr (checkedAdd_eq_none.mp hsum))).symm
  | some c =>
    have hc := Words.checkedAdd_eq_some.mp hsum
    rw [checkedAdd_of_le (hc ▸ value_le_workMax c), Option.map_some, hc]

theorem map_value_checkedSub (a b : Work) :
    (a.checkedSub b).map Words.value = checkedSub a.value b.value := by
  cases hdiff : a.checkedSub b with
  | none => exact (if_neg (Nat.not_le.mpr (checkedSub_eq_none.mp hdiff))).symm
  | some c =>
    have hc := Words.checkedSub_eq_some.mp hdiff
    rw [checkedSub_of_le (hc ▸ Nat.le_add_left _ _), Option.map_some, ← hc, Nat.add_sub_cancel]

/-- The loop over a chain's headers goes as the one over numbers does. -/
theorem map_value_sumWork (targets : List Hash32) :
    (sumWork targets).map Words.value = Consensus.sumWork (targets.map targetNumber) := by
  have hfold : ∀ start : Work, (targets.foldlM (fun (sum : Work) target ↦ do
      sum.checkedAdd (← workFromTarget target)) start).map Words.value =
      (targets.map targetNumber).foldlM (fun sum target ↦
        Consensus.Work.add sum (Consensus.workFromTarget target)) start.value := by
    induction targets with
    | nil => exact fun start ↦ rfl
    | cons target targets ih =>
      intro start
      obtain ⟨w, hwork, hw⟩ := workFromTarget_eq target
      rw [List.foldlM_cons, List.map_cons, List.foldlM_cons, hwork, ← hw, ← map_value_checkedAdd]
      change ((start.checkedAdd w).bind _).map _ = _
      cases start.checkedAdd w with
      | none => rfl
      | some next => exact ih next
  exact (hfold Work.zero).trans (by rw [Work.zero, Words.value_zero]; rfl)

/-- Work is exact: of a target, in sum, difference, order and quotient, and of a whole chain. -/
theorem work_exact :
    (∀ t, ∃ w, workFromTarget t = some w ∧ w.value = 2 ^ 256 / (targetNumber t + 1) ∧
      1 ≤ w.value) ∧
    (∀ t u v w, targetNumber t ≤ targetNumber u → workFromTarget t = some v →
      workFromTarget u = some w → w ≤ v) ∧
    (∀ a b : Work, (∀ c, a.checkedAdd b = some c ↔ c.value = a.value + b.value) ∧
      (a.checkedAdd b = none ↔ workMax < a.value + b.value)) ∧
    (∀ a b : Work, (∀ c, a.checkedSub b = some c ↔ c.value + b.value = a.value) ∧
      (a.checkedSub b = none ↔ a.value < b.value)) ∧
    (∀ a b : Work, a.cmp b = compare a.value b.value) ∧
    (∀ a den : Work, 0 < den.value → 2 * den.value ≤ workMax →
      ∃ q, a.divFloor den = some q ∧ q.value = a.value / den.value) ∧
    (∀ targets : List Hash32, targets.length ≤ 2 ^ 64 → ∃ w, sumWork targets = some w ∧
      w.value = (targets.map fun t ↦ 2 ^ 256 / (targetNumber t + 1)).sum) := by
  refine ⟨fun t ↦ ?_, fun t u v w h hv hw ↦ ?_, fun a b ↦ ?_, fun a b ↦ ?_, Words.cmp_eq, ?_, ?_⟩
  · obtain ⟨w, hwork, hw⟩ := workFromTarget_eq t
    exact ⟨w, hwork, hw, hw ▸ workFromTarget_pos (targetNumber_lt t)⟩
  · obtain ⟨v', hv', hvalue⟩ := workFromTarget_eq t
    obtain ⟨w', hw', hwvalue⟩ := workFromTarget_eq u
    cases hv.symm.trans hv'
    cases hw.symm.trans hw'
    rw [Words.le_iff, hvalue, hwvalue]
    exact workFromTarget_antitone h
  · exact ⟨fun c ↦ Words.checkedAdd_eq_some, checkedAdd_eq_none⟩
  · exact ⟨fun c ↦ Words.checkedSub_eq_some, checkedSub_eq_none⟩
  · intro a den hden hroom
    exact Words.divFloor_eq a hden (le_workMax_iff.mp hroom).le
  · exact fun targets hlength ↦ sumWork_eq hlength

theorem work_exact_sample :
    (∃ w, sumWork [Arr.zero 32, Arr.zero 32] = some w ∧ w.value = 2 ^ 256 + 2 ^ 256) ∧
    (∃ q, Work.twoPow256.divFloor Work.one = some q ∧ q.value = 2 ^ 256) := by
  obtain ⟨_, _, _, _, _, hdiv, hsum⟩ := work_exact
  refine ⟨?_, ?_⟩
  · obtain ⟨w, h, hw⟩ := hsum [Arr.zero 32, Arr.zero 32] (by decide)
    exact ⟨w, h, hw.trans (by decide +kernel)⟩
  · obtain ⟨q, h, hq⟩ := hdiv Work.twoPow256 Work.one (by decide) (by decide +kernel)
    exact ⟨q, h, hq.trans (Nat.div_one _)⟩

end Plaine.Consensus.Limbs

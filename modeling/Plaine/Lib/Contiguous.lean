import Mathlib.Data.List.Perm.Subperm
import Mathlib.Data.List.Sort

/-!
# Contiguous runs

The maximal run of consecutive numbers of a set from a first one on: a number is in the run when
everything from the first up to it is in the set.
-/

namespace Plaine.Lib

/-- `n` is in the run of `S` from `a` on. -/
def RunFrom (S : Nat → Prop) (a n : Nat) : Prop := a ≤ n ∧ ∀ k, a ≤ k → k ≤ n → S k

namespace RunFrom

variable {S S' : Nat → Prop} {a n m : Nat}

theorem mem (h : RunFrom S a n) : S n := h.2 n h.1 le_rfl

theorem of_le (h : RunFrom S a n) (ham : a ≤ m) (hmn : m ≤ n) : RunFrom S a m :=
  ⟨ham, fun k hak hkm ↦ h.2 k hak (hkm.trans hmn)⟩

theorem mono (h : RunFrom S a n) (hS : ∀ k, a ≤ k → k ≤ n → S k → S' k) : RunFrom S' a n :=
  ⟨h.1, fun k hak hkn ↦ hS k hak hkn (h.2 k hak hkn)⟩

/-- A run is its first number and the run from the next one on. -/
theorem iff_succ : RunFrom S a n ↔ S a ∧ (n = a ∨ RunFrom S (a + 1) n) := by
  constructor
  · rintro ⟨han, hall⟩
    refine ⟨hall a le_rfl han, ?_⟩
    rcases han.eq_or_lt with rfl | hlt
    · exact .inl rfl
    · exact .inr ⟨hlt, fun k hak hkn ↦ hall k (Nat.le_of_succ_le hak) hkn⟩
  · rintro ⟨ha, rfl | ⟨han, hall⟩⟩
    · refine ⟨le_rfl, fun k hak hka ↦ ?_⟩
      rwa [le_antisymm hka hak]
    · refine ⟨Nat.le_of_succ_le han, fun k hak hkn ↦ ?_⟩
      rcases hak.eq_or_lt with rfl | hlt
      · exact ha
      · exact hall k hlt hkn

/-- A number that is not in the run may be taken out of the set. -/
theorem erase_iff (hm : ¬RunFrom S a m) :
    RunFrom (fun k ↦ S k ∧ k ≠ m) a n ↔ RunFrom S a n := by
  constructor
  · exact fun h ↦ h.mono fun k _ _ hk ↦ hk.1
  · refine fun h ↦ h.mono fun k hak hkn hk ↦ ⟨hk, ?_⟩
    rintro rfl
    exact hm (h.of_le hak hkn)

/-- So may one that is above. -/
theorem erase_iff_of_lt (hm : n < m) :
    RunFrom (fun k ↦ S k ∧ k ≠ m) a n ↔ RunFrom S a n := by
  constructor
  · exact fun h ↦ h.mono fun k _ _ hk ↦ hk.1
  · exact fun h ↦ h.mono fun k _ hkn hk ↦ ⟨hk, (hkn.trans_lt hm).ne⟩

/-- Ascending numbers that are all in their own run count up from the first. -/
theorem eq_range' {l : List Nat} (hl : l.Pairwise (· < ·))
    (hrun : ∀ n ∈ l, RunFrom (· ∈ l) a n) : l = List.range' a l.length := by
  induction l generalizing a with
  | nil => rfl
  | cons x l ih =>
    obtain ⟨hx, hl⟩ := List.pairwise_cons.mp hl
    have hax := hrun x List.mem_cons_self
    have hxa : x = a := by
      refine le_antisymm ?_ hax.1
      rcases List.mem_cons.mp (hax.2 a le_rfl hax.1) with rfl | ha
      · exact le_rfl
      · exact (hx a ha).le
    subst hxa
    have htail : l = List.range' (x + 1) l.length := by
      refine ih hl fun n hn ↦ ?_
      refine ⟨hx n hn, fun k hxk hkn ↦ ?_⟩
      have hk := (hrun n (List.mem_cons_of_mem _ hn)).2 k (Nat.le_of_succ_le hxk) hkn
      exact (List.mem_cons.mp hk).resolve_left (Nat.ne_of_gt hxk)
    rw [List.length_cons, List.range'_succ]
    exact congrArg (x :: ·) htail

end RunFrom

/-! ## The first number that is free -/

/-- `n` is the first number from `a` on that is not in `S`. -/
def FirstFree (S : Nat → Prop) (a n : Nat) : Prop := a ≤ n ∧ ¬S n ∧ ∀ k, a ≤ k → k < n → S k

/-- The numbers of `S` are one run from `a` on. -/
def Gapless (S : Nat → Prop) (a : Nat) : Prop := ∀ n, S n → RunFrom S a n

/-- Counting finds the first free number exactly when there is no gap. -/
theorem firstFree_length_iff {l : List Nat} {a : Nat} (hl : l.Pairwise (· < ·)) :
    FirstFree (· ∈ l) a (a + l.length) ↔ Gapless (· ∈ l) a := by
  constructor
  · rintro ⟨-, -, hall⟩
    have hsub : List.range' a l.length ⊆ l := by
      intro k hk
      obtain ⟨hak, hlt⟩ := List.mem_range'_1.mp hk
      exact hall k hak hlt
    have hperm : (List.range' a l.length).Perm l :=
      (List.Nodup.subperm List.nodup_range' hsub).perm_of_length_le List.length_range'.ge
    intro n hn
    obtain ⟨han, hlt⟩ := List.mem_range'_1.mp (hperm.mem_iff.mpr hn)
    exact ⟨han, fun k hak hkn ↦ hall k hak (hkn.trans_lt hlt)⟩
  · intro hgap
    have hmem (k : Nat) : k ∈ l ↔ a ≤ k ∧ k < a + l.length := by
      conv_lhs => rw [RunFrom.eq_range' hl hgap]
      exact List.mem_range'_1
    refine ⟨Nat.le_add_right _ _, fun h ↦ ?_, fun k hak hlt ↦ (hmem k).mpr ⟨hak, hlt⟩⟩
    exact lt_irrefl _ ((hmem _).mp h).2

end Plaine.Lib

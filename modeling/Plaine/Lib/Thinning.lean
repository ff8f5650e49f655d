import Mathlib.Algebra.Group.Nat.Defs
import Mathlib.Data.Nat.Find
import Mathlib.Order.Monotone.Basic
import Mathlib.Order.WellFounded

/-!
# Thinning out

Samples of a line that are dense at one end and thin out with their distance from it: after the
first ones every step is twice the one before.  To every distance there is a sample that is at least
as far away and at most twice as far.
-/

namespace Plaine.Lib

/-- How far from the end the samples are, of which those up to the `d`-th are one apart. -/
def thinned (d : Nat) : Nat → Nat
  | 0 => 0
  | i + 1 => thinned d i + 2 ^ (i + 1 - d)

variable {d i n tip f : Nat}

theorem strictMono_thinned (d : Nat) : StrictMono (thinned d) :=
  strictMono_nat_of_lt_succ fun _ ↦ Nat.lt_add_of_pos_right (Nat.two_pow_pos _)

/-- A step is as long as the way so far, but for two. -/
theorem step_le_thinned (d i : Nat) : 2 ^ (i + 1 - d) ≤ thinned d i + 2 := by
  induction i with
  | zero =>
    cases d with
    | zero => exact le_rfl
    | succ d =>
      rw [show 0 + 1 - (d + 1) = 0 by omega]
      exact Nat.le_add_left _ _
  | succ i ih =>
    rw [thinned]
    rcases Nat.lt_or_ge (i + 1) d with hlt | hge
    · have hpos := Nat.two_pow_pos (i + 1 - d)
      rw [show i + 1 + 1 - d = 0 by omega, Nat.pow_zero]
      omega
    · rw [show i + 1 + 1 - d = i + 1 - d + 1 by omega, Nat.pow_succ]
      omega

/-- Every distance is reached, by no more than twice itself. -/
theorem exists_thinned (d k : Nat) :
    ∃ i, k ≤ thinned d i ∧ thinned d i ≤ 2 * k := by
  have hreach : ∃ i, k ≤ thinned d i := ⟨k, (strictMono_thinned d).le_apply⟩
  refine ⟨Nat.find hreach, Nat.find_spec hreach, ?_⟩
  cases hfind : Nat.find hreach with
  | zero => exact Nat.zero_le _
  | succ i =>
    have hbefore : thinned d i < k := by
      refine not_le.mp (Nat.find_min hreach ?_)
      rw [hfind]
      exact Nat.lt_succ_self i
    have hstep := step_le_thinned d i
    rw [thinned]
    omega

/-- How many of the first `m` samples are on a line. -/
theorem exists_count (d m tip : Nat) :
    ∃ n ≤ m, (∀ i < n, thinned d i ≤ tip) ∧ (n = m ∨ tip < thinned d n) := by
  induction m with
  | zero => exact ⟨0, le_rfl, fun i hi ↦ absurd hi (Nat.not_lt_zero i), .inl rfl⟩
  | succ m ih =>
    obtain ⟨n, hn, hon, rfl | hoff⟩ := ih
    · rcases Nat.lt_or_ge tip (thinned d n) with hoff | hlast
      · exact ⟨n, Nat.le_succ n, hon, .inr hoff⟩
      · refine ⟨n + 1, le_rfl, fun i hi ↦ ?_, .inl rfl⟩
        rcases Nat.lt_succ_iff_lt_or_eq.mp hi with hi | rfl
        · exact hon i hi
        · exact hlast
    · exact ⟨n, Nat.le_succ_of_le hn, hon, .inr hoff⟩

/-- The samples on a line of a length, and its other end, pin every place. -/
theorem exists_pin (hon : tip < thinned d n) (hf : f ≤ tip) :
    ∃ s, (s = 0 ∨ ∃ j < n, thinned d j ≤ tip ∧ s = tip - thinned d j) ∧ s ≤ f ∧
      f - s ≤ tip - f := by
  obtain ⟨i, hreach, htwice⟩ := exists_thinned d (tip - f)
  rcases Nat.lt_or_ge tip (thinned d i) with hoff | hon'
  · exact ⟨0, .inl rfl, Nat.zero_le _, by omega⟩
  · refine ⟨tip - thinned d i, .inr ⟨i, ?_, hon', rfl⟩, by omega, by omega⟩
    exact (strictMono_thinned d).lt_iff_lt.mp (hon'.trans_lt hon)

end Plaine.Lib

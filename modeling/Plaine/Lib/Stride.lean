import Mathlib.Data.List.Iterate
import Mathlib.Data.List.Nodup
import Mathlib.Data.List.Perm.Subperm
import Mathlib.Data.Nat.ModEq

/-!
# Walks in coprime strides

A walk around `n` places in steps of one width.  If the width is coprime to `n`, no place is visited
twice in `n` steps, and so every place is visited.
-/

namespace Plaine.Lib

variable {n stride start count i j : Nat}

/-- The place after `i`. -/
def stepBy (n stride i : Nat) : Nat := (i + stride) % n

/-- The places of a walk. -/
def walk (n stride start count : Nat) : List Nat := List.iterate (stepBy n stride) start count

@[simp] theorem length_walk : (walk n stride start count).length = count := List.length_iterate _ _ _

theorem walk_succ : walk n stride start (count + 1) =
    start :: walk n stride (stepBy n stride start) count := rfl

theorem iterate_stepBy (h : start < n) (i : Nat) :
    (stepBy n stride)^[i] start = (start + i * stride) % n := by
  induction i with
  | zero => rw [Function.iterate_zero_apply, Nat.zero_mul, Nat.add_zero, Nat.mod_eq_of_lt h]
  | succ i ih =>
    rw [Function.iterate_succ_apply', ih, stepBy, Nat.mod_add_mod, Nat.succ_mul, Nat.add_assoc]

theorem mem_walk (h : start < n) : j ∈ walk n stride start count ↔
    ∃ i < count, j = (start + i * stride) % n := by
  rw [walk, List.mem_iterate]
  refine exists_congr fun i ↦ and_congr_right fun _ ↦ ?_
  rw [iterate_stepBy h]

/-- A walk stays around. -/
theorem lt_of_mem_walk (h : start < n) (hj : j ∈ walk n stride start count) : j < n := by
  obtain ⟨i, -, rfl⟩ := (mem_walk h).mp hj
  exact Nat.mod_lt _ (Nat.zero_lt_of_lt h)

/-- Two steps of a walk are at one place when they are a multiple of `n` apart. -/
theorem add_mul_mod_inj (hcop : stride.Coprime n) (hi : i < n) (hj : j < n)
    (h : (start + i * stride) % n = (start + j * stride) % n) : i = j := by
  have hmul : i * stride ≡ j * stride [MOD n] := Nat.ModEq.add_left_cancel' start h
  have hmod : i ≡ j [MOD n] := hmul.cancel_right_of_coprime hcop.symm
  exact hmod.eq_of_lt_of_lt hi hj

theorem nodup_walk (hcop : stride.Coprime n) (h : start < n) (hcount : count ≤ n) :
    (walk n stride start count).Nodup := by
  rw [walk, ← List.range_map_iterate]
  refine List.Nodup.map_on (fun i hi j hj heq ↦ ?_) List.nodup_range
  rw [iterate_stepBy h, iterate_stepBy h] at heq
  exact add_mul_mod_inj hcop ((List.mem_range.mp hi).trans_le hcount)
    ((List.mem_range.mp hj).trans_le hcount) heq

/-- A whole walk visits every place. -/
theorem mem_walk_of_lt (hcop : stride.Coprime n) (h : start < n) (hj : j < n) :
    j ∈ walk n stride start n := by
  have hsub : walk n stride start n ⊆ List.range n := fun k hk ↦
    List.mem_range.mpr (lt_of_mem_walk h hk)
  have hperm : (walk n stride start n).Perm (List.range n) :=
    ((nodup_walk hcop h le_rfl).subperm hsub).perm_of_length_le
      (by rw [List.length_range, length_walk])
  exact hperm.mem_iff.mpr (List.mem_range.mpr hj)

end Plaine.Lib

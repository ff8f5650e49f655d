import Mathlib.Data.List.Basic
import Mathlib.Algebra.Order.Ring.Nat
import Mathlib.Algebra.BigOperators.Group.List.Basic

/-!
# Checked and saturating arithmetic

Machine integers are natural numbers below a bound.  Each operation that may leave the
range says so: `checkedAdd` refuses, `saturatingAdd` stops at the largest value.  A
saturating subtraction is `Nat` subtraction itself.
-/

namespace Plaine.Lib

/-- `checked_add` of integers up to `max`. -/
def checkedAdd (max a b : Nat) : Option Nat :=
  if a + b ≤ max then some (a + b) else none

/-- `checked_mul` of integers up to `max`. -/
def checkedMul (max a b : Nat) : Option Nat :=
  if a * b ≤ max then some (a * b) else none

/-- `checked_sub`. -/
def checkedSub (a b : Nat) : Option Nat :=
  if b ≤ a then some (a - b) else none

/-- `saturating_add` of integers up to `max`. -/
def saturatingAdd (max a b : Nat) : Nat := min (a + b) max

variable {max a b c : Nat}

theorem checkedAdd_eq_some : checkedAdd max a b = some c ↔ a + b ≤ max ∧ c = a + b := by
  unfold checkedAdd
  split
  · simp [*, eq_comm]
  · simp [*]

theorem checkedAdd_of_le (h : a + b ≤ max) : checkedAdd max a b = some (a + b) := if_pos h

theorem checkedMul_eq_some : checkedMul max a b = some c ↔ a * b ≤ max ∧ c = a * b := by
  unfold checkedMul
  split
  · simp [*, eq_comm]
  · simp [*]

theorem checkedMul_of_le (h : a * b ≤ max) : checkedMul max a b = some (a * b) := if_pos h

theorem checkedSub_eq_some : checkedSub a b = some c ↔ b ≤ a ∧ c = a - b := by
  unfold checkedSub
  split
  · simp [*, eq_comm]
  · simp [*]

theorem checkedSub_of_le (h : b ≤ a) : checkedSub a b = some (a - b) := if_pos h

theorem saturatingAdd_of_le (h : a + b ≤ max) : saturatingAdd max a b = a + b :=
  Nat.min_eq_left h

theorem le_saturatingAdd (h : c ≤ max) : c ≤ saturatingAdd max a b ↔ c ≤ a + b := by
  unfold saturatingAdd
  omega

/-- A saturating sum is the exact sum cut off at the largest value. -/
theorem foldl_saturatingAdd (l : List Nat) (h : a ≤ max) :
    l.foldl (saturatingAdd max) a = min (a + l.sum) max := by
  induction l generalizing a with
  | nil => simp [h]
  | cons x l ih =>
    have hx : saturatingAdd max a x ≤ max := Nat.min_le_right _ _
    rw [List.foldl_cons, ih hx, List.sum_cons]
    unfold saturatingAdd
    omega

/-- A saturated amount and the exact one leave the same of any balance in range. -/
theorem sub_min_eq (h : a ≤ max) : a - min b max = a - b := by omega

end Plaine.Lib

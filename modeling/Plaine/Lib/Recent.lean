import Mathlib.Data.List.Nodup
import Mathlib.Data.List.TakeDrop

/-!
# The last items

A list that keeps the last items it was given, each once and no more than a bound.  An item that is
already there is not given again.
-/

namespace Plaine.Lib

variable {α : Type} [DecidableEq α] {cap : Nat} {l : List α} {x y : α}

/-- Put an item behind the others, if it is new, and drop the oldest beyond the bound. -/
def remember (cap : Nat) (l : List α) (x : α) : List α :=
  if x ∈ l then l else (l ++ [x]).drop (l.length + 1 - cap)

theorem remember_of_mem (h : x ∈ l) : remember cap l x = l := if_pos h

theorem remember_of_notMem (h : x ∉ l) :
    remember cap l x = (l ++ [x]).drop (l.length + 1 - cap) := if_neg h

theorem nodup_remember (h : l.Nodup) : (remember cap l x).Nodup := by
  by_cases hx : x ∈ l
  · rwa [remember_of_mem hx]
  · rw [remember_of_notMem hx]
    have happend : (l ++ [x]).Nodup :=
      List.nodup_append_comm.mp (List.nodup_cons.mpr ⟨hx, h⟩)
    exact happend.sublist (List.drop_sublist _ _)

theorem length_remember_le (h : l.length ≤ cap) : (remember cap l x).length ≤ cap := by
  by_cases hx : x ∈ l
  · rwa [remember_of_mem hx]
  · rw [remember_of_notMem hx, List.length_drop, List.length_append, List.length_singleton]
    omega

/-- The item that was given last is there. -/
theorem mem_remember_self (h : 0 < cap) : x ∈ remember cap l x := by
  by_cases hx : x ∈ l
  · rwa [remember_of_mem hx]
  · rw [remember_of_notMem hx, List.drop_append_of_le_length (by omega)]
    exact List.mem_append_right _ (List.mem_singleton_self x)

/-- Nothing comes in but the item that is given. -/
theorem mem_of_mem_remember (h : y ∈ remember cap l x) : y ∈ l ∨ y = x := by
  by_cases hx : x ∈ l
  · rw [remember_of_mem hx] at h
    exact .inl h
  · rw [remember_of_notMem hx] at h
    rcases List.mem_append.mp (List.mem_of_mem_drop h) with hy | hy
    · exact .inl hy
    · exact .inr (List.mem_singleton.mp hy)

/-! ## How long an item stays -/

/-- An item is there, and `k` others at most were given after it. -/
def Within (l : List α) (x : α) (k : Nat) : Prop := ∃ a b, l = a ++ x :: b ∧ b.length ≤ k

/-- How many of the items are new when they are given. -/
def countNew (cap : Nat) : List α → List α → Nat
  | _, [] => 0
  | l, y :: ys => (if y ∈ l then 0 else 1) + countNew cap (remember cap l y) ys

omit [DecidableEq α] in
theorem Within.mem {k : Nat} (h : Within l x k) : x ∈ l := by
  obtain ⟨a, b, rfl, -⟩ := h
  exact List.mem_append_right a List.mem_cons_self

/-- An item that was given last. -/
theorem within_remember_self (h : 0 < cap) (hx : x ∉ l) : Within (remember cap l x) x 0 := by
  rw [remember_of_notMem hx, List.drop_append_of_le_length (by omega)]
  exact ⟨_, [], rfl, Nat.le_refl 0⟩

/-- One more item is given. -/
theorem Within.remember {k : Nat} (h : Within l x k) (hk : k + (if y ∈ l then 0 else 1) < cap) :
    Within (remember cap l y) x (k + if y ∈ l then 0 else 1) := by
  by_cases hy : y ∈ l
  · rwa [remember_of_mem hy, if_pos hy]
  · rw [if_neg hy] at hk
    rw [remember_of_notMem hy, if_neg hy]
    obtain ⟨a, b, rfl, hb⟩ := h
    have hdrop : (a ++ x :: b).length + 1 - cap ≤ a.length := by
      rw [List.length_append, List.length_cons]
      omega
    refine ⟨a.drop ((a ++ x :: b).length + 1 - cap), b ++ [y], ?_, ?_⟩
    · rw [List.append_assoc, List.drop_append_of_le_length hdrop, List.cons_append]
    · rw [List.length_append, List.length_singleton]
      exact Nat.succ_le_succ hb

/-- An item stays while fewer new ones than the bound are given. -/
theorem Within.foldl_remember {k : Nat} {ys : List α} (h : Within l x k)
    (hk : k + countNew cap l ys < cap) :
    Within (ys.foldl (Lib.remember cap) l) x (k + countNew cap l ys) := by
  induction ys generalizing l k with
  | nil => exact h
  | cons y ys ih =>
    rw [countNew, ← Nat.add_assoc] at hk ⊢
    exact ih (h.remember (Nat.lt_of_le_of_lt (Nat.le_add_right _ _) hk)) hk

end Plaine.Lib

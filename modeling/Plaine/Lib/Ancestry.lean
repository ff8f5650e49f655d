import Mathlib.Data.List.Basic
import Mathlib.Data.List.Nodup
import Mathlib.Data.List.TakeDrop

/-!
# Ancestry

A forest is given by its parent links.  `Lineage parent i l` says that `l` is the list of the
nodes from a root down to `i`.  A node has one lineage at most, every first part of a lineage
is the lineage of its last node, and two lineages that meet agree up to where they meet.
-/

namespace Plaine.Lib

variable {ι : Type}

/-- The nodes from a root down to a node. -/
inductive Lineage (parent : ι → Option ι) : ι → List ι → Prop
  | root {i : ι} : parent i = none → Lineage parent i [i]
  | child {i p : ι} {l : List ι} :
      parent i = some p → Lineage parent p l → Lineage parent i (l ++ [i])

namespace Lineage

variable {parent : ι → Option ι} {i j : ι} {l l' : List ι}

theorem getLast? (h : Lineage parent i l) : l.getLast? = some i := by
  cases h <;> simp

theorem ne_nil (h : Lineage parent i l) : l ≠ [] := by
  cases h <;> simp

theorem length_pos (h : Lineage parent i l) : 0 < l.length := List.length_pos_of_ne_nil h.ne_nil

theorem getElem?_length (h : Lineage parent i l) : l[l.length - 1]? = some i := by
  rw [← List.getLast?_eq_getElem?, h.getLast?]

theorem mem (h : Lineage parent i l) : i ∈ l := List.mem_of_getLast? h.getLast?

/-- A node has one lineage at most. -/
theorem unique (h : Lineage parent i l) (h' : Lineage parent i l') : l = l' := by
  induction h generalizing l' with
  | root hp =>
    cases h' with
    | root => rfl
    | child hp' => rw [hp] at hp'; cases hp'
  | child hp _ ih =>
    cases h' with
    | root hp' => rw [hp] at hp'; cases hp'
    | child hp' h' =>
      rw [hp] at hp'
      cases hp'
      rw [ih h']

/-- Where parents come first, every node has a lineage. -/
theorem exists_of_lt {parent : Nat → Option Nat} (hlt : ∀ i p, parent i = some p → p < i)
    (i : Nat) : ∃ l, Lineage parent i l := by
  induction i using Nat.strongRecOn with
  | ind i ih =>
    cases hp : parent i with
    | none => exact ⟨_, .root hp⟩
    | some p =>
      obtain ⟨l, hl⟩ := ih p (hlt i p hp)
      exact ⟨_, .child hp hl⟩

/-- A lineage up to any of its nodes is that node's. -/
theorem take (h : Lineage parent i l) {k : Nat} (hk : l[k]? = some j) :
    Lineage parent j (l.take (k + 1)) := by
  induction h generalizing j with
  | @root i hp =>
    cases k with
    | zero =>
      cases hk
      exact .root hp
    | succ k => cases hk
  | @child i p l hp hl ih =>
    rcases Nat.lt_or_ge k l.length with hlt | hge
    · rw [List.getElem?_append_left hlt] at hk
      rw [List.take_append_of_le_length (by omega)]
      exact ih hk
    · have hlen := (List.getElem?_eq_some_iff.mp hk).1
      rw [List.length_append, List.length_singleton] at hlen
      obtain rfl : k = l.length := by omega
      rw [List.getElem?_concat_length] at hk
      cases hk
      rw [List.take_of_length_le (by simp)]
      exact .child hp hl

theorem take_of_mem (h : Lineage parent i l) (hj : j ∈ l) :
    ∃ k, l[k]? = some j ∧ Lineage parent j (l.take (k + 1)) := by
  obtain ⟨k, hk⟩ := List.mem_iff_getElem?.mp hj
  exact ⟨k, hk, h.take hk⟩

/-- Neighbours in a lineage are linked. -/
theorem parent_getElem? (h : Lineage parent i l) {k : Nat} (hk : l[k + 1]? = some j) :
    parent j = l[k]? := by
  have hj := h.take hk
  generalize ht : l.take (k + 1 + 1) = t at hj
  have hlen := (List.getElem?_eq_some_iff.mp hk).1
  have hlast : t = l.take (k + 1) ++ [j] := by
    rw [← ht, List.take_add_one, hk]
    rfl
  cases hj with
  | root hp =>
    have := congrArg List.length hlast
    rw [List.length_append, List.length_take_of_le (by omega), List.length_singleton] at this
    simp at this
  | child hp hl =>
    obtain ⟨rfl, -⟩ := List.append_inj' hlast rfl
    rw [hp, ← hl.getLast?, List.getLast?_eq_getElem?, List.length_take_of_le (by omega),
      Nat.add_sub_cancel, List.getElem?_take_of_lt (Nat.lt_succ_self k)]

/-- Links off the lineage do not matter. -/
theorem congr {parent' : ι → Option ι} (h : Lineage parent i l)
    (heq : ∀ j ∈ l, parent' j = parent j) : Lineage parent' i l := by
  induction h with
  | root hp => exact .root ((heq _ List.mem_cons_self).trans hp)
  | child hp _ ih =>
    refine .child ((heq _ (by simp)).trans hp) (ih fun j hj ↦ heq j (List.mem_append_left _ hj))

/-- A measure that grows by one along the links is the position in the lineage. -/
theorem depth (h : Lineage parent i l) {depth : ι → Nat}
    (hroot : ∀ j, parent j = none → depth j = 0)
    (hchild : ∀ j p, j ∈ l → parent j = some p → depth j = depth p + 1) :
    l.length = depth i + 1 := by
  induction h with
  | root hp => simp [hroot _ hp]
  | child hp hl ih =>
    have := ih fun j p hj ↦ hchild j p (List.mem_append_left _ hj)
    have := hchild _ _ (by simp) hp
    simp only [List.length_append, List.length_singleton]
    omega

/-- A mark that children take over from their parents. -/
theorem inherits (h : Lineage parent i l) (marked : ι → Prop)
    (hchild : ∀ k p, parent k = some p → marked p → marked k) (hj : j ∈ l) (hm : marked j) :
    marked i := by
  induction h with
  | root hp =>
    obtain rfl := List.mem_singleton.mp hj
    exact hm
  | child hp _ ih =>
    rcases List.mem_append.mp hj with hj | hj
    · exact hchild _ _ hp (ih hj)
    · obtain rfl := List.mem_singleton.mp hj
      exact hm

/-- A value that children take from a marked parent, and from its own if it has no mark: it is the
measure of the deepest marked node above. -/
theorem deepest (h : Lineage parent i l) (marked : ι → Prop) (depth base : ι → Nat)
    (hroot : ∀ k ∈ l, parent k = none → marked k)
    (hdepth : ∀ k p, parent k = some p → depth p < depth k)
    (hmarked : ∀ k p, parent k = some p → marked p → base k = depth p)
    (hbase : ∀ k p, parent k = some p → ¬marked p → base k = base p) (hi : ¬marked i) :
    (∃ j ∈ l, marked j ∧ depth j = base i) ∧ ∀ j ∈ l, marked j → depth j ≤ base i := by
  have hle {i l} (h : Lineage parent i l) : ∀ j ∈ l, depth j ≤ depth i := by
    induction h with
    | root =>
      rintro j hj
      obtain rfl := List.mem_singleton.mp hj
      exact Nat.le_refl _
    | child hp _ ih =>
      rintro j hj
      rcases List.mem_append.mp hj with hj | hj
      · exact Nat.le_trans (ih j hj) (Nat.le_of_lt (hdepth _ _ hp))
      · obtain rfl := List.mem_singleton.mp hj
        exact Nat.le_refl _
  induction h with
  | root hp => exact absurd (hroot _ List.mem_cons_self hp) hi
  | @child i p l hp hl ih =>
    by_cases hm : marked p
    · rw [hmarked i p hp hm]
      refine ⟨⟨p, List.mem_append_left _ hl.mem, hm, rfl⟩, fun j hj hmj ↦ ?_⟩
      rcases List.mem_append.mp hj with hj | hj
      · exact hle hl j hj
      · obtain rfl := List.mem_singleton.mp hj
        exact absurd hmj hi
    · obtain ⟨⟨j, hj, hmj, heq⟩, hmax⟩ := ih (fun k hk ↦ hroot k (List.mem_append_left _ hk)) hm
      rw [hbase i p hp hm]
      refine ⟨⟨j, List.mem_append_left _ hj, hmj, heq⟩, fun j hj hmj ↦ ?_⟩
      rcases List.mem_append.mp hj with hj | hj
      · exact hmax j hj hmj
      · obtain rfl := List.mem_singleton.mp hj
        exact absurd hmj hi

end Lineage

end Plaine.Lib

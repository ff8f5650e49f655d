import Mathlib.Logic.Function.Basic
import Mathlib.Data.List.Basic
import Mathlib.Data.List.Nodup

/-!
# Undo journals

A table is a function from keys to values.  A journal is the list of the values its keys
had before the first write to them.  `Saves s v l` says that `l` is the journal of some
writes leading from `s` to `v`; writing the journal back then gives `s`, and writing back
a stack of journals, the last first, gives the table under the whole stack.
-/

namespace Plaine.Lib

variable {κ υ : Type} [DecidableEq κ]

/-- Write a list of entries over a table. -/
def overwrite (l : List (κ × υ)) (v : κ → υ) : κ → υ :=
  l.foldl (fun v p ↦ Function.update v p.1 p.2) v

@[simp] theorem overwrite_nil (v : κ → υ) : overwrite [] v = v := rfl

@[simp] theorem overwrite_cons (p : κ × υ) (l : List (κ × υ)) (v : κ → υ) :
    overwrite (p :: l) v = overwrite l (Function.update v p.1 p.2) := rfl

theorem overwrite_append (l l' : List (κ × υ)) (v : κ → υ) :
    overwrite (l ++ l') v = overwrite l' (overwrite l v) := List.foldl_append

/-- A key no entry names keeps its value. -/
theorem overwrite_of_notMem {l : List (κ × υ)} {k : κ} (hk : k ∉ l.map Prod.fst)
    (v : κ → υ) : overwrite l v k = v k := by
  induction l generalizing v with
  | nil => rfl
  | cons p l ih =>
    simp only [List.map_cons, List.mem_cons, not_or] at hk
    rw [overwrite_cons, ih hk.2, Function.update_of_ne hk.1]

/-- When no key is named twice, a named key gets the value named with it. -/
theorem overwrite_of_mem {l : List (κ × υ)} (hl : (l.map Prod.fst).Nodup) {p : κ × υ}
    (hp : p ∈ l) (v : κ → υ) : overwrite l v p.1 = p.2 := by
  induction l generalizing v with
  | nil => cases hp
  | cons q l ih =>
    rw [List.map_cons, List.nodup_cons] at hl
    rw [overwrite_cons]
    rcases List.mem_cons.mp hp with rfl | hp
    · rw [overwrite_of_notMem hl.1, Function.update_self]
    · exact ih hl.2 hp _

/-- Overwriting with the value a table has at every named key leads to that table from any
table agreeing with it elsewhere. -/
theorem overwrite_eq_of {l : List (κ × υ)} {s v : κ → υ} (hl : (l.map Prod.fst).Nodup)
    (hs : ∀ p ∈ l, p.2 = s p.1) (hv : ∀ k ∉ l.map Prod.fst, v k = s k) :
    overwrite l v = s := by
  funext k
  by_cases hk : k ∈ l.map Prod.fst
  · obtain ⟨p, hp, rfl⟩ := List.mem_map.mp hk
    rw [overwrite_of_mem hl hp, hs p hp]
  · rw [overwrite_of_notMem hk, hv k hk]

/-- `l` is a journal of writes from the table `s` to the table `v`. -/
structure Saves (s v : κ → υ) (l : List (κ × υ)) : Prop where
  nodup : (l.map Prod.fst).Nodup
  saved : ∀ p ∈ l, p.2 = s p.1
  frame : ∀ k ∉ l.map Prod.fst, v k = s k

namespace Saves

variable {s v : κ → υ} {l : List (κ × υ)}

omit [DecidableEq κ] in
theorem refl (s : κ → υ) : Saves s s [] := ⟨List.nodup_nil, by simp, by simp⟩

/-- The first write to a key saves the value it had. -/
theorem write_new (h : Saves s v l) {k : κ} (hk : k ∉ l.map Prod.fst) (x : υ) :
    Saves s (Function.update v k x) (l ++ [(k, v k)]) where
  nodup := by
    rw [List.map_append, List.nodup_append]
    refine ⟨h.nodup, by simp, ?_⟩
    rintro a ha b hb rfl
    simp only [List.map_cons, List.map_nil, List.mem_singleton] at hb
    exact hk (hb ▸ ha)
  saved := by
    intro p hp
    rcases List.mem_append.mp hp with hp | hp
    · exact h.saved p hp
    · rw [List.mem_singleton.mp hp]
      exact h.frame k hk
  frame := by
    intro k' hk'
    simp only [List.map_append, List.map_cons, List.map_nil, List.mem_append,
      List.mem_singleton, not_or] at hk'
    rw [Function.update_of_ne hk'.2, h.frame k' hk'.1]

/-- Later writes to the same key save nothing. -/
theorem write_old (h : Saves s v l) {k : κ} (hk : k ∈ l.map Prod.fst) (x : υ) :
    Saves s (Function.update v k x) l where
  nodup := h.nodup
  saved := h.saved
  frame := by
    intro k' hk'
    have hne : k' ≠ k := fun heq ↦ hk' (heq ▸ hk)
    rw [Function.update_of_ne hne, h.frame k' hk']

/-- Writing the journal back undoes the writes. -/
theorem overwrite (h : Saves s v l) : Lib.overwrite l v = s :=
  overwrite_eq_of h.nodup h.saved h.frame

/-- A key is journalled when its value changed. -/
theorem mem_of_ne (h : Saves s v l) {k : κ} (hk : v k ≠ s k) : k ∈ l.map Prod.fst := by
  by_contra hn
  exact hk (h.frame k hn)

end Saves

/-- A stack of journals leading from `s` to `v`, the oldest first. -/
inductive SavesAll : (κ → υ) → (κ → υ) → List (List (κ × υ)) → Prop
  | nil (s : κ → υ) : SavesAll s s []
  | snoc {s v v' : κ → υ} {ls : List (List (κ × υ))} {l : List (κ × υ)} :
      SavesAll s v ls → Saves v v' l → SavesAll s v' (ls ++ [l])

omit [DecidableEq κ] in
theorem SavesAll.cons {s v v' : κ → υ} {l : List (κ × υ)} {ls : List (List (κ × υ))}
    (hl : Saves s v l) (h : SavesAll v v' ls) : SavesAll s v' (l :: ls) := by
  induction h with
  | nil => exact .snoc (.nil s) hl
  | snoc _ hv ih => exact .snoc ih hv

/-- Writing back the journals of a stack, the last first, undoes all of them. -/
theorem SavesAll.overwrite {s v : κ → υ} {ls : List (List (κ × υ))} (h : SavesAll s v ls) :
    ls.reverse.foldl (fun v l ↦ Lib.overwrite l v) v = s := by
  induction h with
  | nil => rfl
  | snoc _ hl ih =>
    rw [List.reverse_append, List.reverse_singleton, List.singleton_append, List.foldl_cons,
      hl.overwrite]
    exact ih

end Plaine.Lib

import Mathlib.Algebra.GroupWithZero.Nat
import Mathlib.Data.List.AList

/-!
# Tables

What is left in an association list after a loop of insertions or erasures, and tables that hold the
items of a list by their keys.
-/

namespace AList

variable {κ υ ι : Type} [DecidableEq κ]

/-- What a table has after erasures it had before. -/
theorem lookup_of_foldl_erase {ks : List κ} {m : AList fun _ : κ ↦ υ} {k : κ} {v : υ}
    (h : (ks.foldl (fun m k ↦ m.erase k) m).lookup k = some v) : m.lookup k = some v := by
  induction ks generalizing m with
  | nil => exact h
  | cons j ks ih =>
    have hj := ih h
    by_cases hk : k = j
    · subst hk
      rw [lookup_erase] at hj
      cases hj
    · rwa [lookup_erase_ne hk] at hj

/-- What a table has after erasures. -/
theorem lookup_foldl_erase (ks : List κ) (m : AList fun _ : κ ↦ υ) (k : κ) :
    (ks.foldl (fun m k ↦ m.erase k) m).lookup k = if k ∈ ks then none else m.lookup k := by
  induction ks generalizing m with
  | nil => rfl
  | cons j ks ih =>
    rw [List.foldl_cons, ih]
    rcases eq_or_ne k j with rfl | hk
    · rw [lookup_erase, ite_self, if_pos List.mem_cons_self]
    · rw [lookup_erase_ne hk]
      simp only [List.mem_cons, hk, false_or]

/-- What a table has after insertions it had before, or it was inserted. -/
theorem lookup_of_foldl_insert {key : ι → κ} {val : ι → υ} {l : List ι}
    {m : AList fun _ : κ ↦ υ} {k : κ} {v : υ}
    (h : (l.foldl (fun m a ↦ m.insert (key a) (val a)) m).lookup k = some v) :
    m.lookup k = some v ∨ ∃ a ∈ l, key a = k ∧ val a = v := by
  induction l generalizing m with
  | nil => exact .inl h
  | cons a l ih =>
    rcases ih h with hm | ⟨b, hb, hkey, hval⟩
    · by_cases hk : k = key a
      · subst hk
        rw [lookup_insert] at hm
        exact .inr ⟨a, List.mem_cons_self, rfl, Option.some.inj hm⟩
      · rw [lookup_insert_ne hk] at hm
        exact .inl hm
    · exact .inr ⟨b, List.mem_cons_of_mem _ hb, hkey, hval⟩

/-- A row that is new makes a table longer. -/
theorem length_keys_insert (m : AList fun _ : κ ↦ υ) (k : κ) (v : υ) :
    (m.insert k v).keys.length = m.keys.length + if (m.lookup k).isNone then 1 else 0 := by
  rw [keys_insert, List.length_cons]
  by_cases hk : k ∈ m.keys
  · have hlookup : (m.lookup k).isNone = false := by
      rw [Option.isNone_eq_false_iff]
      exact lookup_isSome.mpr hk
    rw [hlookup, List.length_erase_of_mem hk]
    exact Nat.sub_add_cancel (List.length_pos_of_mem hk)
  · have hlookup : (m.lookup k).isNone = true := Option.isNone_iff_eq_none.mpr (lookup_eq_none.mpr hk)
    rw [hlookup, List.erase_of_not_mem hk]
    rfl

/-- A row that was there makes a table shorter. -/
theorem length_keys_erase (m : AList fun _ : κ ↦ υ) (k : κ) :
    (m.erase k).keys.length = m.keys.length - if (m.lookup k).isSome then 1 else 0 := by
  rw [keys_erase]
  by_cases hk : k ∈ m.keys
  · rw [lookup_isSome.mpr hk, List.length_erase_of_mem hk]
    rfl
  · have hlookup : (m.lookup k).isSome = false := by
      rw [lookup_eq_none.mpr hk]
      rfl
    rw [hlookup, List.erase_of_not_mem hk]
    rfl

/-- What a table has after insertions: what was inserted last, or what it had. -/
theorem lookup_foldl_insert (key : ι → κ) (val : ι → υ) (l : List ι) (m : AList fun _ : κ ↦ υ)
    (k : κ) : (l.foldl (fun m a ↦ m.insert (key a) (val a)) m).lookup k =
      ((l.filter (key · = k)).getLast?.map val).or (m.lookup k) := by
  induction l generalizing m with
  | nil => rfl
  | cons a l ih =>
    rw [List.foldl_cons, ih]
    by_cases hk : key a = k
    · subst hk
      rw [List.filter_cons_of_pos (by simp), List.getLast?_cons, lookup_insert]
      cases (l.filter (key · = key a)).getLast? with
      | none => rfl
      | some b => rfl
    · rw [List.filter_cons_of_neg (by simpa using hk), lookup_insert_ne (Ne.symm hk)]

/-! ## Sums -/

/-- The sum of a size over the rows of a table. -/
def total (f : υ → Nat) (m : AList fun _ : κ ↦ υ) : Nat := (m.entries.map fun e ↦ f e.2).sum

variable {f : υ → Nat} {m : AList fun _ : κ ↦ υ} {k : κ} {v : υ}

/-- A row that is erased counts no more. -/
theorem total_erase (h : m.lookup k = some v) : total f (m.erase k) + f v = total f m := by
  have hrow : ⟨k, v⟩ ∈ m.entries := mem_lookup_iff.mp h
  obtain ⟨w, l, r, -, hentries, herase⟩ := List.exists_of_kerase (List.mem_keys_of_mem hrow)
  have hw : m.lookup k = some w := by
    refine mem_lookup_iff.mpr ?_
    rw [hentries]
    exact List.mem_append_right l List.mem_cons_self
  obtain rfl := Option.some.inj (h.symm.trans hw)
  unfold total
  rw [show (m.erase k).entries = l ++ r from herase, hentries, List.map_append, List.map_append,
    List.map_cons, List.sum_append, List.sum_append, List.sum_cons]
  dsimp only
  omega

theorem total_erase_of_notMem (h : k ∉ m) : total f (m.erase k) = total f m := by
  unfold total
  rw [show (m.erase k).entries = m.entries from List.kerase_of_notMem_keys h]

/-- A row counts in the place of the one it replaces. -/
theorem total_insert_erase (f : υ → Nat) (m : AList fun _ : κ ↦ υ) (k : κ) (v : υ) :
    total f (m.insert k v) = f v + total f (m.erase k) := by
  unfold total
  rw [entries_insert, List.map_cons, List.sum_cons]
  rfl

/-- A new row counts. -/
theorem total_insert (h : k ∉ m) : total f (m.insert k v) = f v + total f m := by
  rw [total_insert_erase, total_erase_of_notMem h]

/-! ## The items of a list, by key -/

/-- A table has the items of a list, each under its key and no two under one. -/
structure Listed (key : υ → κ) (l : List υ) (m : AList fun _ : κ ↦ υ) : Prop where
  nodup : (l.map key).Nodup
  lookup : ∀ k a, m.lookup k = some a ↔ a ∈ l ∧ key a = k

namespace Listed

variable {key : υ → κ} {l : List υ} {m : AList fun _ : κ ↦ υ} {a : υ} {k : κ}

theorem nil : Listed key [] ∅ where
  nodup := List.nodup_nil
  lookup k a := by
    constructor
    · intro h
      cases h
    · rintro ⟨h, -⟩
      cases h

theorem mem_iff (h : Listed key l m) : k ∈ m ↔ ∃ a ∈ l, key a = k := by
  rw [← lookup_isSome, Option.isSome_iff_exists]
  exact exists_congr fun a ↦ h.lookup k a

theorem append (h : Listed key l m) (ha : key a ∉ m) :
    Listed key (l ++ [a]) (m.insert (key a) a) where
  nodup := by
    rw [List.map_append, List.map_cons, List.map_nil, List.nodup_append_comm, List.singleton_append,
      List.nodup_cons, List.mem_map]
    exact ⟨fun hmem ↦ ha (h.mem_iff.mpr hmem), h.nodup⟩
  lookup k b := by
    rw [List.mem_append, List.mem_singleton]
    rcases eq_or_ne k (key a) with rfl | hk
    · rw [lookup_insert, Option.some_inj]
      constructor
      · rintro rfl
        exact ⟨.inr rfl, rfl⟩
      · rintro ⟨hb | rfl, hkey⟩
        · exact absurd (h.mem_iff.mpr ⟨b, hb, hkey⟩) ha
        · rfl
    · rw [lookup_insert_ne hk, h.lookup]
      constructor
      · rintro ⟨hb, hkey⟩
        exact ⟨.inl hb, hkey⟩
      · rintro ⟨hb | rfl, hkey⟩
        · exact ⟨hb, hkey⟩
        · exact absurd hkey.symm hk

theorem tail (h : Listed key (a :: l) m) : Listed key l (m.erase (key a)) where
  nodup := (List.nodup_cons.mp h.nodup).2
  lookup k b := by
    have hnot := (List.nodup_cons.mp h.nodup).1
    rcases eq_or_ne k (key a) with rfl | hk
    · rw [lookup_erase]
      constructor
      · intro hb
        cases hb
      · rintro ⟨hb, hkey⟩
        exact absurd (List.mem_map.mpr ⟨b, hb, hkey⟩) hnot
    · rw [lookup_erase_ne hk, h.lookup, List.mem_cons]
      constructor
      · rintro ⟨rfl | hb, hkey⟩
        · exact absurd hkey.symm hk
        · exact ⟨hb, hkey⟩
      · rintro ⟨hb, hkey⟩
        exact ⟨.inr hb, hkey⟩

/-- The items that are not kept are erased one by one. -/
theorem filter (h : Listed key l m) (p : υ → Bool) : Listed key (l.filter p)
    (((l.filter (!p ·)).map key).foldl (fun m k ↦ m.erase k) m) where
  nodup := h.nodup.sublist (List.filter_sublist.map key)
  lookup k b := by
    rw [lookup_foldl_erase, List.mem_filter]
    split
    case isTrue hk =>
      obtain ⟨a, ha, rfl⟩ := List.mem_map.mp hk
      obtain ⟨hmem, hnot⟩ := List.mem_filter.mp ha
      constructor
      · intro hb
        cases hb
      · rintro ⟨⟨hb, hp⟩, hkey⟩
        rw [List.inj_on_of_nodup_map h.nodup hb hmem hkey] at hp
        rw [hp] at hnot
        cases hnot
    case isFalse hk =>
      rw [h.lookup]
      constructor
      · rintro ⟨hb, rfl⟩
        refine ⟨⟨hb, ?_⟩, rfl⟩
        by_contra hp
        exact hk (List.mem_map_of_mem (List.mem_filter.mpr ⟨hb, by simpa using hp⟩))
      · rintro ⟨⟨hb, -⟩, hkey⟩
        exact ⟨hb, hkey⟩

end Listed

end AList

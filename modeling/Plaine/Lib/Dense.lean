import Mathlib.Data.List.AList
import Mathlib.Data.List.Basic

/-!
# Dense tables

A list of rows with an index from their keys to their positions, where a row is removed by moving
the last one to its place; and the tally of an attribute, a table that counts and has no row for
what is not there.
-/

namespace List

variable {α : Type} {l : List α} {i : Nat} {a : α}

/-- The element at `i` removed, and the last one moved to its place. -/
def swapRemove (l : List α) (i : Nat) : List α :=
  match l.getLast? with
  | none => []
  | some z => (l.set i z).dropLast

@[simp] theorem length_swapRemove (l : List α) (i : Nat) :
    (l.swapRemove i).length = l.length - 1 := by
  unfold swapRemove
  split
  case h_1 h =>
    rw [getLast?_eq_none_iff] at h
    rw [h]
    rfl
  case h_2 => rw [length_dropLast, length_set]

theorem getElem?_swapRemove (hi : i < l.length) (j : Nat) :
    (l.swapRemove i)[j]? =
      if j + 1 < l.length then if j = i then l[l.length - 1]? else l[j]? else none := by
  unfold swapRemove
  split
  case h_1 h =>
    rw [getLast?_eq_none_iff] at h
    subst h
    cases hi
  case h_2 z hz =>
    rw [getLast?_eq_getElem?] at hz
    rw [hz, getElem?_dropLast, length_set]
    by_cases hj : j + 1 < l.length
    · rw [if_pos (Nat.lt_sub_of_add_lt hj), if_pos hj, getElem?_set]
      by_cases hji : j = i
      · rw [if_pos hji.symm, if_pos hi, if_pos hji]
      · rw [if_neg (Ne.symm hji), if_neg hji]
    · rw [if_neg (fun h ↦ hj (Nat.add_lt_of_lt_sub h)), if_neg hj]

/-- What is left, with what was removed, is what was there. -/
theorem perm_swapRemove (h : l[i]? = some a) : l.Perm (a :: l.swapRemove i) := by
  obtain ⟨hi, rfl⟩ := getElem?_eq_some_iff.mp h
  rcases eq_nil_or_concat' l with rfl | ⟨front, z, rfl⟩
  · cases hi
  unfold swapRemove
  rw [getLast?_concat]
  dsimp only
  rw [length_append, length_singleton] at hi
  rcases Nat.lt_succ_iff_lt_or_eq.mp hi with hlt | rfl
  · rw [set_append_left _ _ hlt, dropLast_concat, getElem_append_left hlt]
    have hfront : front.take i ++ front[i] :: front.drop (i + 1) = front := by
      rw [← drop_eq_getElem_cons hlt, take_append_drop]
    rw [set_eq_take_cons_drop _ hlt]
    calc front ++ [z]
      _ ~ z :: front := perm_append_singleton z front
      _ ~ z :: front[i] :: (front.take i ++ front.drop (i + 1)) := by
        nth_rewrite 1 [← hfront]
        exact perm_middle.cons z
      _ ~ front[i] :: z :: (front.take i ++ front.drop (i + 1)) := Perm.swap _ _ _
      _ ~ front[i] :: (front.take i ++ z :: front.drop (i + 1)) := perm_middle.symm.cons _
  · rw [set_append_right _ _ le_rfl, Nat.sub_self, set_cons_zero, dropLast_concat,
      getElem_append_right le_rfl]
    simp only [Nat.sub_self, getElem_cons_zero]
    exact perm_append_singleton z front

variable (p : α → Bool)

/-- What one changed element does to a count. -/
theorem countP_modify {f : α → α} (h : l[i]? = some a) :
    (l.modify i f).countP p + (if p a then 1 else 0) = l.countP p + if p (f a) then 1 else 0 := by
  obtain ⟨hi, rfl⟩ := getElem?_eq_some_iff.mp h
  rw [modify_eq_take_cons_drop hi, countP_append, countP_cons]
  have hsplit : l.countP p =
      (l.take i).countP p + ((l.drop (i + 1)).countP p + if p l[i] then 1 else 0) := by
    rw [← countP_cons, ← countP_append, ← drop_eq_getElem_cons hi, take_append_drop]
  rw [hsplit]
  ac_rfl

/-- What an element that counts for as much does to a count. -/
theorem countP_modify_of_eq {f : α → α} (hf : ∀ a, p (f a) = p a) :
    (l.modify i f).countP p = l.countP p := by
  cases h : l[i]? with
  | none => rw [modify_eq_self (getElem?_eq_none_iff.mp h)]
  | some a => exact Nat.add_right_cancel ((countP_modify p h).trans (by rw [hf]))

/-- What a removed element does to a count. -/
theorem countP_swapRemove (h : l[i]? = some a) :
    l.countP p = (l.swapRemove i).countP p + if p a then 1 else 0 := by
  rw [(perm_swapRemove h).countP_eq, countP_cons]

end List

namespace Plaine.Lib

variable {α κ : Type} [DecidableEq κ]

/-! ## The index -/

/-- A table that has the position of every row under its key, and nothing else. -/
def Indexes (key : α → κ) (l : List α) (m : AList fun _ : κ ↦ Nat) : Prop :=
  ∀ k i, m.lookup k = some i ↔ l[i]?.map key = some k

/-- The index after the row with the key `k` at `i` was removed. -/
def reindex (key : α → κ) (l : List α) (m : AList fun _ : κ ↦ Nat) (k : κ) (i : Nat) :
    AList fun _ : κ ↦ Nat :=
  match (l.swapRemove i)[i]? with
  | some moved => (m.erase k).insert (key moved) i
  | none => m.erase k

namespace Indexes

variable {key : α → κ} {l : List α} {m : AList fun _ : κ ↦ Nat} {i j : Nat} {a b : α} {k : κ}

theorem empty : Indexes key [] ∅ := by
  intro k i
  rw [AList.lookup_empty, List.getElem?_nil]
  exact iff_of_false (fun h ↦ by cases h) (fun h ↦ by cases h)

/-- A key is at one position. -/
theorem eq_of_key (h : Indexes key l m) (hi : l[i]?.map key = some k) (hj : l[j]?.map key = some k) :
    i = j :=
  Option.some.inj (((h k i).mpr hi).symm.trans ((h k j).mpr hj))

/-- The row a key is found at. -/
theorem exists_of_lookup (h : Indexes key l m) (hk : m.lookup k = some i) :
    ∃ a, l[i]? = some a ∧ key a = k :=
  Option.map_eq_some_iff.mp ((h k i).mp hk)

theorem lookup_key (h : Indexes key l m) (ha : l[i]? = some a) : m.lookup (key a) = some i :=
  (h (key a) i).mpr (congrArg (·.map key) ha)

theorem lookup_eq_none (h : Indexes key l m) : m.lookup k = none ↔ ∀ a ∈ l, key a ≠ k := by
  constructor
  · rintro hnone a ha rfl
    obtain ⟨i, hi⟩ := List.getElem?_of_mem ha
    cases hnone.symm.trans (h.lookup_key hi)
  · intro hne
    refine Option.eq_none_iff_forall_ne_some.mpr fun i hi ↦ ?_
    obtain ⟨a, ha, hkey⟩ := h.exists_of_lookup hi
    exact hne a (List.mem_of_getElem? ha) hkey

/-- A row is added at the end. -/
theorem push (h : Indexes key l m) (hnew : m.lookup (key a) = none) :
    Indexes key (l ++ [a]) (m.insert (key a) l.length) := by
  intro k i
  have hlast : (l ++ [a])[l.length]? = some a := List.getElem?_concat_length
  rcases eq_or_ne k (key a) with rfl | hk
  · rw [AList.lookup_insert, Option.some.injEq]
    constructor
    · rintro rfl
      rw [hlast]
      rfl
    · intro hi
      by_contra hne
      rcases Nat.lt_or_ge i l.length with hlt | hge
      · rw [List.getElem?_append_left hlt] at hi
        cases hnew.symm.trans ((h (key a) i).mpr hi)
      · rw [List.getElem?_eq_none (by simp; omega)] at hi
        cases hi
  · rw [AList.lookup_insert_ne hk, h]
    rcases Nat.lt_trichotomy i l.length with hlt | rfl | hgt
    · rw [List.getElem?_append_left hlt]
    · rw [hlast, List.getElem?_eq_none le_rfl]
      exact iff_of_false (fun h ↦ by cases h) fun h ↦ hk (Option.some.inj h).symm
    · rw [List.getElem?_eq_none (Nat.le_of_lt hgt), List.getElem?_eq_none (by simp; omega)]

/-- A row is changed, and keeps its key. -/
theorem modify {f : α → α} (h : Indexes key l m) (hf : ∀ a, key (f a) = key a) :
    Indexes key (l.modify i f) m := by
  intro k j
  rw [h, List.getElem?_modify]
  cases l[j]? with
  | none => rfl
  | some a =>
    rw [Option.map_eq_map, Option.map_some, Option.map_some, Option.map_some]
    split_ifs
    · rw [hf]
    · rfl

/-- A row is removed. -/
theorem swapRemove (h : Indexes key l m) (ha : l[i]? = some a) :
    Indexes key (l.swapRemove i) (reindex key l m (key a) i) := by
  have hi := (List.getElem?_eq_some_iff.mp ha).1
  have hkey : ∀ {j}, l[j]?.map key = some (key a) → j = i := fun hj ↦
    h.eq_of_key hj (congrArg (·.map key) ha)
  have hget := List.getElem?_swapRemove hi
  rcases Nat.lt_or_ge (i + 1) l.length with hlt | hge
  · -- the last row takes the place of the removed one
    obtain ⟨b, hb⟩ : ∃ b, l[l.length - 1]? = some b :=
      ⟨_, List.getElem?_eq_getElem (Nat.sub_one_lt_of_lt hi)⟩
    have hlast : ∀ {j}, l[j]?.map key = some (key b) → j = l.length - 1 := fun hj ↦
      h.eq_of_key hj (congrArg (·.map key) hb)
    have hmoved : (l.swapRemove i)[i]? = some b := by rw [hget, if_pos hlt, if_pos rfl, hb]
    have hne : key b ≠ key a := fun he ↦ by
      have := hkey ((congrArg (·.map key) hb).trans (congrArg some he))
      omega
    intro k j
    rw [reindex, hmoved]
    dsimp only
    rcases eq_or_ne k (key b) with rfl | hkb
    · rw [AList.lookup_insert, hget, Option.some.injEq]
      split_ifs with hj hji
      · rw [hb]
        exact iff_of_true hji.symm rfl
      · refine iff_of_false (Ne.symm hji) fun hl ↦ ?_
        have := hlast hl
        omega
      · exact iff_of_false (by omega) fun h ↦ by cases h
    · rw [AList.lookup_insert_ne hkb, hget]
      rcases eq_or_ne k (key a) with rfl | hka
      · rw [AList.lookup_erase]
        refine iff_of_false (fun h ↦ by cases h) ?_
        split_ifs with hj hji
        · rw [hb]
          exact fun h ↦ hne (Option.some.inj h)
        · exact fun hl ↦ hji (hkey hl)
        · exact fun h ↦ by cases h
      · rw [AList.lookup_erase_ne hka, h]
        split_ifs with hj hji
        · subst hji
          rw [ha, hb]
          exact iff_of_false (fun h ↦ hka (Option.some.inj h).symm)
            fun h ↦ hkb (Option.some.inj h).symm
        · exact Iff.rfl
        · refine iff_of_false (fun hl ↦ ?_) fun h ↦ by cases h
          have hjlt : j < l.length := by
            by_contra hge
            rw [List.getElem?_eq_none (Nat.le_of_not_lt hge)] at hl
            cases hl
          obtain rfl : j = l.length - 1 := by omega
          rw [hb] at hl
          exact hkb (Option.some.inj hl).symm
  · -- the removed row is the last one
    obtain rfl : i = l.length - 1 := by omega
    have hmoved : (l.swapRemove (l.length - 1))[l.length - 1]? = none := by
      rw [hget, if_neg (by omega)]
    intro k j
    rw [reindex, hmoved]
    dsimp only
    rw [hget]
    rcases eq_or_ne k (key a) with rfl | hka
    · rw [AList.lookup_erase]
      refine iff_of_false (fun h ↦ by cases h) ?_
      split_ifs with hj hji
      · omega
      · exact fun hl ↦ hji (hkey hl)
      · exact fun h ↦ by cases h
    · rw [AList.lookup_erase_ne hka, h]
      split_ifs with hj hji
      · omega
      · exact Iff.rfl
      · refine iff_of_false (fun hl ↦ ?_) fun h ↦ by cases h
        have hjlt : j < l.length := by
          by_contra hge
          rw [List.getElem?_eq_none (Nat.le_of_not_lt hge)] at hl
          cases hl
        obtain rfl : j = l.length - 1 := by omega
        rw [ha] at hl
        exact hka (Option.some.inj hl).symm

/-- No two rows have one key. -/
theorem nodup (h : Indexes key l m) : (l.map key).Nodup := by
  rw [List.nodup_iff_getElem?_ne_getElem?]
  intro i j hij hj heq
  rw [List.getElem?_map, List.getElem?_map] at heq
  rw [List.length_map] at hj
  have hk : l[j]?.map key = some (key l[j]) := by rw [List.getElem?_eq_getElem hj, Option.map_some]
  exact Nat.ne_of_lt hij (h.eq_of_key (heq.trans hk) hk)

/-- The index has as many rows as the list. -/
theorem length_eq (h : Indexes key l m) : m.keys.length = l.length := by
  have hperm : m.keys.Perm (l.map key) := by
    refine (List.perm_ext_iff_of_nodup m.nodupKeys h.nodup).mpr fun k ↦ ?_
    change k ∈ m ↔ _
    rw [← AList.lookup_isSome, Option.isSome_iff_exists, List.mem_map]
    constructor
    · rintro ⟨i, hi⟩
      obtain ⟨a, ha, hkey⟩ := h.exists_of_lookup hi
      exact ⟨a, List.mem_of_getElem? ha, hkey⟩
    · rintro ⟨a, ha, rfl⟩
      obtain ⟨i, hi⟩ := List.getElem?_of_mem ha
      exact ⟨i, h.lookup_key hi⟩
  rw [hperm.length_eq, List.length_map]

end Indexes

/-! ## Tallies -/

/-- `*m.entry(k).or_insert(0) += 1`. -/
def bump (m : AList fun _ : κ ↦ Nat) (k : κ) : AList fun _ : κ ↦ Nat :=
  m.insert k ((m.lookup k).getD 0 + 1)

/-- One less at `k`, and no row at zero. -/
def unbump (m : AList fun _ : κ ↦ Nat) (k : κ) : AList fun _ : κ ↦ Nat :=
  match m.lookup k with
  | none => m
  | some c => if c - 1 = 0 then m.erase k else m.insert k (c - 1)

/-- A table that has the count `c` and no row for what is not there. -/
def Tallies (c : κ → Nat) (m : AList fun _ : κ ↦ Nat) : Prop :=
  ∀ k, m.lookup k = if c k = 0 then none else some (c k)

namespace Tallies

variable {c c' : κ → Nat} {m m' : AList fun _ : κ ↦ Nat} {k : κ}

theorem empty : Tallies (fun _ : κ ↦ 0) ∅ := fun k ↦ AList.lookup_empty k

theorem congr (h : Tallies c m) (hc : ∀ j, c' j = c j) : Tallies c' m := fun j ↦ by
  rw [h j, hc]

/-- What is read off a tally. -/
theorem getD_eq (h : Tallies c m) (k : κ) : (m.lookup k).getD 0 = c k := by
  rw [h k]
  split_ifs with hk
  · exact hk.symm
  · rfl

theorem bump (h : Tallies c m) (hc : ∀ j, c' j = c j + if j = k then 1 else 0) :
    Tallies c' (bump m k) := by
  intro j
  rcases eq_or_ne j k with rfl | hj
  · rw [Lib.bump, AList.lookup_insert, h.getD_eq, hc, if_pos rfl, if_neg (Nat.succ_ne_zero _)]
  · rw [Lib.bump, AList.lookup_insert_ne hj, h, hc, if_neg hj, Nat.add_zero]

theorem unbump (h : Tallies c m) (hc : ∀ j, c j = c' j + if j = k then 1 else 0) :
    Tallies c' (unbump m k) := by
  have hk : m.lookup k = some (c' k + 1) := by rw [h, hc, if_pos rfl, if_neg (Nat.succ_ne_zero _)]
  intro j
  rw [Lib.unbump, hk]
  dsimp only
  rw [Nat.add_sub_cancel]
  rcases eq_or_ne j k with rfl | hj
  · split_ifs with hz
    · exact AList.lookup_erase j m
    · exact AList.lookup_insert m
  · have hother : m.lookup j = if c' j = 0 then none else some (c' j) := by
      rw [h, hc, if_neg hj, Nat.add_zero]
    by_cases hz : c' k = 0
    · rw [if_pos hz, AList.lookup_erase_ne hj, hother]
    · rw [if_neg hz, AList.lookup_insert_ne hj, hother]

/-- The tally of a list. -/
theorem foldl_bump (f : α → κ) (l : List α) (h : Tallies c m) :
    Tallies (fun k ↦ c k + l.countP (f · = k)) (l.foldl (fun t a ↦ Lib.bump t (f a)) m) := by
  induction l generalizing c m with
  | nil => exact h
  | cons a l ih =>
    refine (ih (h.bump (fun _ ↦ rfl))).congr fun j ↦ ?_
    rw [List.countP_cons, Nat.add_assoc, Nat.add_comm (l.countP _)]
    rw [if_congr (decide_eq_true_iff.trans eq_comm) rfl rfl]

/-- Tallies of one count have the same rows. -/
theorem lookup_eq (h : Tallies c m) (h' : Tallies c m') (k : κ) : m.lookup k = m'.lookup k :=
  (h k).trans (h' k).symm

theorem length_keys_eq (h : Tallies c m) (h' : Tallies c m') : m.keys.length = m'.keys.length := by
  refine List.Perm.length_eq ((List.perm_ext_iff_of_nodup m.nodupKeys m'.nodupKeys).mpr fun k ↦ ?_)
  change k ∈ m ↔ k ∈ m'
  rw [← AList.lookup_isSome, ← AList.lookup_isSome, h.lookup_eq h']

end Tallies

end Plaine.Lib

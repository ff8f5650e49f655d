import Plaine.Lib.Links
import Plaine.Lib.Table
import Mathlib.Order.Basic

/-!
# The recency table

`Lru` of `stratum/src/abuse.rs`: entries in an array, doubly linked from the one used last to the
one used longest ago, and an index by key.  A row is reached by its position, which stands for the
`&mut V` the source returns.

`Lru.Holds` says which keys and values the table has, the one used last first.
-/

namespace Plaine.Stratum

open Plaine.Lib

/-- `Lru`. -/
structure Lru (κ υ : Type) [DecidableEq κ] where
  index : AList fun _ : κ ↦ Nat
  entries : Links (κ × υ)
  cap : Nat

namespace Lru

variable {κ υ : Type} [DecidableEq κ] {m : Lru κ υ} {k : κ} {v : υ} {i : Nat}

/-- `Lru::new`. -/
def new (cap : Nat) : Lru κ υ := ⟨∅, ⟨[], none, none⟩, max cap 1⟩

/-- `Lru::len`. -/
def len (m : Lru κ υ) : Nat := m.index.keys.length

/-- The value of a row. -/
def value (m : Lru κ υ) (i : Nat) : Option υ := (m.entries.cells[i]?).map (·.item.2)

/-- Write to a row. -/
def setValue (m : Lru κ υ) (i : Nat) (v : υ) : Lru κ υ :=
  match m.entries.cells[i]? with
  | some e => { m with entries := m.entries.setItem i (e.item.1, v) }
  | none => m

/-- `unlink`, then `push_front`. -/
def touch (m : Lru κ υ) (i : Nat) : Lru κ υ :=
  { m with entries := (m.entries.unlink i).pushFront i }

/-- `Lru::get_mut`. -/
def getMut (m : Lru κ υ) (k : κ) : Option Nat × Lru κ υ :=
  match m.index.lookup k with
  | none => (none, m)
  | some i => (some i, m.touch i)

/-- Give the row of an entry to another key. -/
def reuse (m : Lru κ υ) (victim : Nat) (k : κ) (v : υ) : Lru κ υ :=
  match m.entries.cells[victim]? with
  | none => m
  | some e =>
    { m with
      entries := ((m.entries.unlink victim).setItem victim (k, v)).pushFront victim
      index := (m.index.erase e.item.1).insert k victim }

/-- Add a row. -/
def grow (m : Lru κ υ) (k : κ) (v : υ) : Lru κ υ :=
  let i := m.entries.cells.length
  { m with
    entries := (m.entries.push (k, v)).pushFront i
    index := m.index.insert k i }

/-- `Lru::put`. -/
def put (m : Lru κ υ) (k : κ) (v : υ) : Lru κ υ :=
  match m.index.lookup k with
  | some i => (m.setValue i v).touch i
  | none =>
    match (if m.cap ≤ m.len then m.entries.tail else none) with
    | some victim => m.reuse victim k v
    | none => m.grow k v

/-- `Lru::entry_or_default`. -/
def entryOrDefault [Inhabited υ] (m : Lru κ υ) (k : κ) : Option Nat × Lru κ υ :=
  if (m.index.lookup k).isSome then m.getMut k else (m.put k default).getMut k

/-- `Lru::entry_or_default_protected`. -/
def entryOrDefaultProtected [Inhabited υ] (m : Lru κ υ) (k : κ) (evictable : υ → Bool) :
    Option Nat × Lru κ υ :=
  if (m.index.lookup k).isSome then m.getMut k
  else if m.len < m.cap then (m.put k default).getMut k
  else
    match Links.findBack m.entries.cells (fun e ↦ evictable e.2) (m.entries.cells.length + 1)
        m.entries.tail with
    | none => (none, m)
    | some victim => (some victim, m.reuse victim k default)

/-! ## What the table holds -/

/-- The rows at the positions of `o`. -/
def rows (c : Links (κ × υ)) (o : List Nat) : List (κ × υ) := o.filterMap (c.items[·]?)

/-- The walk from the head visits every row, and the index tells the row of each key. -/
structure Orders (m : Lru κ υ) (o : List Nat) : Prop where
  lists : m.entries.Lists o
  all : o.length = m.entries.cells.length
  index : ∀ k i, m.index.lookup k = some i ↔ ∃ v, m.entries.items[i]? = some (k, v)
  count : m.len = m.entries.cells.length
  room : m.entries.cells.length ≤ m.cap
  cap : 0 < m.cap

/-- The keys and values, the one used last first. -/
def Holds (m : Lru κ υ) (l : List (κ × υ)) : Prop := ∃ o, Orders m o ∧ rows m.entries o = l

/-- A table holds a row under its key, with the value, at the head. -/
structure Leads (m : Lru κ υ) (i : Nat) (k : κ) (v : υ) (l : List (κ × υ)) : Prop where
  holds : ∃ o, Orders m (i :: o) ∧ rows m.entries o = l
  item : m.entries.items[i]? = some (k, v)

variable {l l' : List (κ × υ)} {o : List Nat}

theorem Leads.toHolds (h : Leads m i k v l) : Holds m ((k, v) :: l) := by
  obtain ⟨⟨o, ho, rfl⟩, hitem⟩ := h
  refine ⟨i :: o, ho, ?_⟩
  rw [rows, List.filterMap_cons, hitem]
  rfl

theorem Leads.value (h : Leads m i k v l) : m.value i = some v := by
  have hitem := h.item
  unfold Links.items at hitem
  rw [List.getElem?_map] at hitem
  obtain ⟨e, he, hkv⟩ := Option.map_eq_some_iff.mp hitem
  rw [Lru.value, he, Option.map_some, hkv]

theorem holds_new (cap : Nat) : Holds (new cap : Lru κ υ) [] := by
  refine ⟨[], ⟨.empty, rfl, fun k i ↦ ?_, rfl, Nat.zero_le _, ?_⟩, rfl⟩
  · refine iff_of_false ?_ ?_
    · rw [new, AList.lookup_empty]
      exact fun h ↦ (by cases h)
    · rintro ⟨v, hv⟩
      cases hv
  · exact lt_of_lt_of_le Nat.one_pos (le_max_right _ _)

omit [DecidableEq κ] in
theorem rows_append (c : Links (κ × υ)) (o o' : List Nat) :
    rows c (o ++ o') = rows c o ++ rows c o' := List.filterMap_append

theorem Orders.mem (h : Orders m o) (hi : i < m.entries.cells.length) : i ∈ o := by
  have hperm : o.Perm (List.range m.entries.cells.length) := by
    refine (List.subperm_of_subset h.lists.nodup fun j hj ↦ ?_).perm_of_length_le ?_
    · exact List.mem_range.mpr (h.lists.linked.lt hj)
    · rw [List.length_range, h.all]
  exact hperm.mem_iff.mpr (List.mem_range.mpr hi)

theorem Orders.lt (h : Orders m o) (hi : m.entries.items[i]? = some (k, v)) : i ∈ o := by
  refine h.mem ?_
  have hlt := (List.getElem?_eq_some_iff.mp hi).1
  rwa [Links.items, List.length_map] at hlt

/-- The length of the list is that of the table. -/
theorem Holds.length (h : Holds m l) : l.length = m.len ∧ l.length ≤ m.cap := by
  obtain ⟨o, ho, rfl⟩ := h
  have hlen : (rows m.entries o).length = o.length := by
    rw [rows, List.length_filterMap_eq_countP]
    refine List.countP_eq_length.mpr fun i hi ↦ ?_
    rw [List.getElem?_eq_getElem]
    · rfl
    · rw [Links.items, List.length_map]
      exact ho.lists.linked.lt hi
  rw [hlen, ho.all]
  exact ⟨ho.count.symm, ho.room⟩

/-- A key the table has splits its rows. -/
theorem Orders.split (h : Orders m o) (hk : m.index.lookup k = some i) :
    ∃ v o₁ o₂, o = o₁ ++ i :: o₂ ∧ m.entries.items[i]? = some (k, v) ∧
      rows m.entries o = rows m.entries o₁ ++ (k, v) :: rows m.entries o₂ := by
  obtain ⟨v, hv⟩ := (h.index k i).mp hk
  obtain ⟨o₁, o₂, rfl⟩ := List.append_of_mem (h.lt hv)
  refine ⟨v, o₁, o₂, rfl, hv, ?_⟩
  rw [rows_append, rows, rows, List.filterMap_cons, hv]
  rfl

/-- The index knows the keys of the rows. -/
theorem Holds.lookup_isSome (h : Holds m l) : (m.index.lookup k).isSome ↔ ∃ v, (k, v) ∈ l := by
  obtain ⟨o, ho, rfl⟩ := h
  constructor
  · intro hk
    obtain ⟨i, hi⟩ := Option.isSome_iff_exists.mp hk
    obtain ⟨v, o₁, o₂, -, -, hrows⟩ := ho.split hi
    rw [hrows]
    exact ⟨v, List.mem_append_right _ List.mem_cons_self⟩
  · rintro ⟨v, hv⟩
    obtain ⟨i, -, hi⟩ := List.mem_filterMap.mp hv
    rw [(ho.index k i).mpr ⟨v, hi⟩]
    rfl

/-- Each key has one row. -/
theorem Holds.nodup (h : Holds m l) : (l.map (·.1)).Nodup := by
  obtain ⟨o, ho, rfl⟩ := h
  refine List.pairwise_map.mpr (List.pairwise_filterMap.mpr (ho.lists.nodup.imp ?_))
  rintro i j hij ⟨k, v⟩ hv ⟨k', w⟩ hw rfl
  have hi := (ho.index k i).mpr ⟨v, hv⟩
  have hj := (ho.index k j).mpr ⟨w, hw⟩
  exact hij (Option.some.inj (hi.symm.trans hj))

/-! ### Touching -/

theorem Orders.touch {o₁ o₂ : List Nat} (h : Orders m (o₁ ++ i :: o₂)) :
    Orders (m.touch i) (i :: (o₁ ++ o₂)) := by
  have hitems : (m.touch i).entries.items = m.entries.items :=
    (Links.items_pushFront _ i).trans (Links.items_unlink _ i)
  have hlen : (m.touch i).entries.cells.length = m.entries.cells.length := by
    have := congrArg List.length hitems
    rwa [Links.items, Links.items, List.length_map, List.length_map] at this
  have hi := (List.nodup_cons.mp (List.nodup_middle.mp h.lists.nodup)).1
  refine ⟨h.lists.unlink.pushFront hi ?_, ?_, ?_, ?_, ?_, h.cap⟩
  · have := congrArg List.length (Links.items_unlink m.entries i)
    rw [Links.items, Links.items, List.length_map, List.length_map] at this
    rw [this]
    exact h.lists.linked.lt (List.mem_append_right _ List.mem_cons_self)
  · rw [hlen, ← h.all]
    simp only [List.length_append, List.length_cons]
    rfl
  · rw [hitems]
    exact h.index
  · rw [hlen]
    exact h.count
  · rw [hlen]
    exact h.room

/-- Reaching a row moves it to the front. -/
theorem Holds.getMut (h : Holds m l) (hk : (m.index.lookup k).isSome) :
    ∃ i v l₁ l₂, l = l₁ ++ (k, v) :: l₂ ∧ (m.getMut k).1 = some i ∧
      Leads (m.getMut k).2 i k v (l₁ ++ l₂) ∧ (m.getMut k).2.cap = m.cap := by
  obtain ⟨o, ho, rfl⟩ := h
  obtain ⟨i, hi⟩ := Option.isSome_iff_exists.mp hk
  obtain ⟨v, o₁, o₂, rfl, hv, hrows⟩ := ho.split hi
  unfold Lru.getMut
  rw [hi]
  have hitems : (m.touch i).entries.items = m.entries.items :=
    (Links.items_pushFront _ i).trans (Links.items_unlink _ i)
  refine ⟨i, v, _, _, hrows, rfl, ⟨⟨o₁ ++ o₂, ho.touch, ?_⟩, ?_⟩, rfl⟩
  · rw [rows_append, rows, rows, hitems]
    rfl
  · rw [hitems]
    exact hv

/-! ### Writing -/

/-- Writing to a row changes its item. -/
theorem items_setValue (hitem : m.entries.items[i]? = some (k, v)) (v' : υ) (j : Nat) :
    (m.setValue i v').entries.items[j]? =
      if i = j then some (k, v') else m.entries.items[j]? := by
  have hcell := hitem
  unfold Links.items at hcell
  rw [List.getElem?_map] at hcell
  obtain ⟨e, he, hkv⟩ := Option.map_eq_some_iff.mp hcell
  unfold Lru.setValue
  rw [he]
  dsimp only
  rw [Links.items_setItem, hkv]
  split
  case isTrue hij =>
    subst hij
    rw [hitem]
    rfl
  case isFalse => rfl

/-- Writing to a row leaves the order of the rows. -/
theorem Orders.setValue (h : Orders m o) (hitem : m.entries.items[i]? = some (k, v)) (v' : υ) :
    Orders (m.setValue i v') o := by
  have hcell := hitem
  unfold Links.items at hcell
  rw [List.getElem?_map] at hcell
  obtain ⟨e, he, -⟩ := Option.map_eq_some_iff.mp hcell
  have hlen : (m.setValue i v').entries.cells.length = m.entries.cells.length := by
    unfold Lru.setValue
    rw [he]
    exact List.length_modify _ _ _
  have hindex : (m.setValue i v').index = m.index ∧ (m.setValue i v').cap = m.cap := by
    unfold Lru.setValue
    rw [he]
    exact ⟨rfl, rfl⟩
  refine ⟨?_, h.all.trans hlen.symm, fun k' j ↦ ?_, ?_, ?_, ?_⟩
  · unfold Lru.setValue
    rw [he]
    exact h.lists.setItem i _
  · rw [hindex.1, h.index, items_setValue hitem]
    split
    case isTrue hij =>
      subst hij
      rw [hitem]
      constructor
      · rintro ⟨w, hw⟩
        cases hw
        exact ⟨v', rfl⟩
      · rintro ⟨w, hw⟩
        cases hw
        exact ⟨v, rfl⟩
    case isFalse => exact Iff.rfl
  · rw [len, hindex.1, hlen]
    exact h.count
  · rw [hlen, hindex.2]
    exact h.room
  · rw [hindex.2]
    exact h.cap

/-- The rows at other positions stay. -/
theorem rows_setValue (hitem : m.entries.items[i]? = some (k, v)) (v' : υ) (hi : i ∉ o) :
    rows (m.setValue i v').entries o = rows m.entries o := by
  refine List.filterMap_congr fun j hj ↦ ?_
  rw [items_setValue hitem, if_neg]
  rintro rfl
  exact hi hj

/-- Writing to the row at the head. -/
theorem Leads.setValue (h : Leads m i k v l) (v' : υ) : Leads (m.setValue i v') i k v' l := by
  obtain ⟨⟨o, ho, hrows⟩, hitem⟩ := h
  have hi : i ∉ o := (List.nodup_cons.mp ho.lists.nodup).1
  refine ⟨⟨o, ho.setValue hitem v', ?_⟩, ?_⟩
  · rw [rows_setValue hitem v' hi, hrows]
  · rw [items_setValue hitem, if_pos rfl]

/-! ### New keys -/

/-- A key that is new gets a row of its own while there is room. -/
theorem Orders.grow (h : Orders m o) (hk : m.index.lookup k = none) (hroom : m.len < m.cap)
    (v : υ) : Leads (m.grow k v) m.entries.cells.length k v (rows m.entries o) := by
  have hnew (i : Nat) : (m.grow k v).entries.items[i]? =
      if i = m.entries.cells.length then some (k, v) else m.entries.items[i]? := by
    have hitems : (m.grow k v).entries.items = m.entries.items ++ [(k, v)] :=
      (Links.items_pushFront _ _).trans (Links.items_push _ _)
    have hlen : m.entries.items.length = m.entries.cells.length := List.length_map _
    rw [hitems]
    rcases lt_trichotomy i m.entries.cells.length with hi | rfl | hi
    · rw [List.getElem?_append_left (hlen ▸ hi), if_neg (ne_of_lt hi)]
    · rw [List.getElem?_append_right (le_of_eq hlen), hlen, Nat.sub_self, if_pos rfl]
      rfl
    · have hle : m.entries.items.length ≤ i := hlen ▸ le_of_lt hi
      rw [if_neg (ne_of_gt hi), List.getElem?_eq_none hle, List.getElem?_eq_none]
      rw [List.length_append, hlen]
      exact hi
  have hcells : (m.grow k v).entries.cells.length = m.entries.cells.length + 1 := by
    have := congrArg List.length
      (Links.items_pushFront (m.entries.push (k, v)) m.entries.cells.length)
    rw [Links.items_push, Links.items, Links.items, List.length_append, List.length_map,
      List.length_map] at this
    exact this
  have hfresh : m.entries.cells.length ∉ o := fun hmem ↦
    absurd (h.lists.linked.lt hmem) (lt_irrefl _)
  refine ⟨⟨o, ⟨?_, ?_, fun k' i ↦ ?_, ?_, ?_, h.cap⟩, ?_⟩, ?_⟩
  · refine (h.lists.push (k, v)).pushFront hfresh ?_
    show m.entries.cells.length < (m.entries.cells ++ [_]).length
    rw [List.length_append]
    exact Nat.lt_succ_self _
  · rw [hcells, List.length_cons, h.all]
  · show (m.index.insert k m.entries.cells.length).lookup k' = some i ↔ _
    rw [hnew]
    rcases eq_or_ne k' k with rfl | hk'
    · rw [AList.lookup_insert, Option.some.injEq]
      split
      case isTrue hi => exact iff_of_true hi.symm ⟨v, rfl⟩
      case isFalse hi =>
        refine iff_of_false (Ne.symm hi) ?_
        rintro ⟨w, hw⟩
        cases hk.symm.trans ((h.index k' i).mpr ⟨w, hw⟩)
    · rw [AList.lookup_insert_ne hk', h.index]
      split
      case isTrue hi =>
        subst hi
        refine iff_of_false ?_ ?_
        · rintro ⟨w, hw⟩
          exact hfresh (h.lt hw)
        · rintro ⟨w, hw⟩
          cases hw
          exact hk' rfl
      case isFalse => exact Iff.rfl
  · show (m.index.insert k m.entries.cells.length).keys.length = _
    rw [AList.length_keys_insert, hk, hcells]
    exact congrArg (· + 1) h.count
  · rw [hcells]
    exact h.count ▸ hroom
  · refine List.filterMap_congr fun i hi ↦ ?_
    rw [hnew, if_neg]
    rintro rfl
    exact hfresh hi
  · rw [hnew, if_pos rfl]

/-- A key that is new takes the row of another. -/
theorem Orders.reuse {o₁ o₂ : List Nat} {k' : κ} {v' : υ} (h : Orders m (o₁ ++ i :: o₂))
    (hk : m.index.lookup k = none) (hitem : m.entries.items[i]? = some (k', v')) (v : υ) :
    Leads (m.reuse i k v) i k v (rows m.entries o₁ ++ rows m.entries o₂) := by
  have hi := (List.nodup_cons.mp (List.nodup_middle.mp h.lists.nodup)).1
  have hlt : i < m.entries.cells.length :=
    h.lists.linked.lt (List.mem_append_right _ List.mem_cons_self)
  obtain ⟨e, he⟩ : ∃ e, m.entries.cells[i]? = some e := ⟨_, List.getElem?_eq_getElem hlt⟩
  have hkey : e.item = (k', v') := by
    unfold Links.items at hitem
    rw [List.getElem?_map, he] at hitem
    exact Option.some.inj hitem
  have hreuse : m.reuse i k v = { m with
      entries := ((m.entries.unlink i).setItem i (k, v)).pushFront i
      index := (m.index.erase k').insert k i } := by
    unfold Lru.reuse
    rw [he]
    dsimp only
    rw [hkey]
  have hitems (j : Nat) : (m.reuse i k v).entries.items[j]? =
      if j = i then some (k, v) else m.entries.items[j]? := by
    rw [hreuse, Links.items_pushFront, Links.items_setItem, Links.items_unlink]
    split
    case isTrue hij =>
      rw [if_pos hij.symm, ← hij, hitem]
      rfl
    case isFalse hij => rw [if_neg fun h ↦ hij h.symm]
  have hunlinked : (m.entries.unlink i).cells.length = m.entries.cells.length := by
    have := congrArg List.length (Links.items_unlink m.entries i)
    rwa [Links.items, Links.items, List.length_map, List.length_map] at this
  have hcells : (m.reuse i k v).entries.cells.length = m.entries.cells.length := by
    have := congrArg List.length
      (Links.items_pushFront ((m.entries.unlink i).setItem i (k, v)) i)
    rw [Links.items, Links.items, List.length_map, List.length_map] at this
    rw [hreuse, this, Links.setItem, List.length_modify, hunlinked]
  have hk' : m.index.lookup k' = some i := (h.index k' i).mpr ⟨v', hitem⟩
  have hne : k ≠ k' := by
    rintro rfl
    cases hk.symm.trans hk'
  have hcap : (m.reuse i k v).cap = m.cap := by rw [hreuse]
  have hindex : (m.reuse i k v).index = (m.index.erase k').insert k i := by rw [hreuse]
  refine ⟨⟨o₁ ++ o₂, ⟨?_, ?_, fun l j ↦ ?_, ?_, ?_, ?_⟩, ?_⟩, ?_⟩
  · rw [hreuse]
    refine (h.lists.unlink.setItem i (k, v)).pushFront hi ?_
    rw [Links.setItem, List.length_modify, hunlinked]
    exact hlt
  · rw [hcells, ← h.all]
    simp only [List.length_append, List.length_cons]
    rfl
  · rw [hindex, hitems]
    rcases eq_or_ne l k with rfl | hl
    · rw [AList.lookup_insert, Option.some.injEq]
      split
      case isTrue hj => exact iff_of_true hj.symm ⟨v, rfl⟩
      case isFalse hj =>
        refine iff_of_false (Ne.symm hj) ?_
        rintro ⟨w, hw⟩
        cases hk.symm.trans ((h.index l j).mpr ⟨w, hw⟩)
    · rw [AList.lookup_insert_ne hl]
      rcases eq_or_ne l k' with rfl | hl'
      · rw [AList.lookup_erase]
        refine iff_of_false (fun h ↦ (by cases h)) ?_
        rintro ⟨w, hw⟩
        split at hw
        case isTrue =>
          cases hw
          exact hne rfl
        case isFalse hj =>
          exact hj (Option.some.inj (((h.index l j).mpr ⟨w, hw⟩).symm.trans hk'))
      · rw [AList.lookup_erase_ne hl', h.index]
        split
        case isTrue hj =>
          subst hj
          rw [hitem]
          refine iff_of_false ?_ ?_
          · rintro ⟨w, hw⟩
            cases hw
            exact hl' rfl
          · rintro ⟨w, hw⟩
            cases hw
            exact hl rfl
        case isFalse => exact Iff.rfl
  · show (m.reuse i k v).index.keys.length = _
    rw [hindex, hcells, AList.length_keys_insert, AList.lookup_erase_ne hne, hk,
      AList.length_keys_erase, hk', ← h.count]
    refine Nat.sub_add_cancel (List.length_pos_of_mem (a := k') ?_)
    exact AList.lookup_isSome.mp (by rw [hk']; rfl)
  · rw [hcells, hcap]
    exact h.room
  · rw [hcap]
    exact h.cap
  · rw [← rows_append]
    refine List.filterMap_congr fun j hj ↦ ?_
    rw [hitems, if_neg]
    rintro rfl
    exact hi hj
  · rw [hitems, if_pos rfl]

/-! ### Entries -/

theorem Leads.getMut (h : Leads m i k v l) :
    (m.getMut k).1 = some i ∧ Leads (m.getMut k).2 i k v l := by
  obtain ⟨⟨o, ho, hrows⟩, hitem⟩ := h
  unfold Lru.getMut
  rw [(ho.index k i).mpr ⟨v, hitem⟩]
  have hitems : (m.touch i).entries.items = m.entries.items :=
    (Links.items_pushFront _ i).trans (Links.items_unlink _ i)
  have htouch : Orders (m.touch i) (i :: ([] ++ o)) := Orders.touch ho
  refine ⟨rfl, ⟨o, htouch, ?_⟩, ?_⟩
  · rw [← hrows, rows, rows, hitems]
  · rw [hitems]
    exact hitem

theorem cap_getMut (m : Lru κ υ) (k : κ) : (m.getMut k).2.cap = m.cap := by
  unfold Lru.getMut
  split <;> rfl

theorem cap_reuse (m : Lru κ υ) (i : Nat) (k : κ) (v : υ) : (m.reuse i k v).cap = m.cap := by
  unfold Lru.reuse
  split <;> rfl

theorem cap_setValue (m : Lru κ υ) (i : Nat) (v : υ) : (m.setValue i v).cap = m.cap := by
  unfold Lru.setValue
  split <;> rfl

/-- What `entry_or_default_protected` does to the rows: it finds the key, or makes a row for it, or
gives it the row used longest ago of those that may go, or finds none. -/
inductive Entry [Inhabited υ] (k : κ) (evictable : υ → Bool) (cap : Nat) :
    List (κ × υ) → Option (υ × List (κ × υ)) → Prop
  | found (l₁ l₂ : List (κ × υ)) (v : υ) :
    Entry k evictable cap (l₁ ++ (k, v) :: l₂) (some (v, l₁ ++ l₂))
  | room (l : List (κ × υ)) (hk : ∀ v, (k, v) ∉ l) (hroom : l.length < cap) :
    Entry k evictable cap l (some (default, l))
  | evicted (l₁ l₂ : List (κ × υ)) (k' : κ) (v' : υ) (hk : ∀ v, (k, v) ∉ l₁ ++ (k', v') :: l₂)
    (hfull : (l₁ ++ (k', v') :: l₂).length = cap) (hv : evictable v' = true)
    (hlast : ∀ x ∈ l₂, evictable x.2 = false) :
    Entry k evictable cap (l₁ ++ (k', v') :: l₂) (some (default, l₁ ++ l₂))
  | saturated (l : List (κ × υ)) (hk : ∀ v, (k, v) ∉ l) (hfull : l.length = cap)
    (hnone : ∀ x ∈ l, evictable x.2 = false) : Entry k evictable cap l none

/-- The scan from the tail. -/
theorem Orders.findBack (h : Orders m o) (evictable : υ → Bool) :
    (Links.findBack m.entries.cells (fun e ↦ evictable e.2) (m.entries.cells.length + 1)
        m.entries.tail = none ∧ ∀ x ∈ rows m.entries o, evictable x.2 = false) ∨
    ∃ i o₁ o₂ k' v', Links.findBack m.entries.cells (fun e ↦ evictable e.2)
        (m.entries.cells.length + 1) m.entries.tail = some i ∧ o = o₁ ++ i :: o₂ ∧
      m.entries.items[i]? = some (k', v') ∧ evictable v' = true ∧
      ∀ x ∈ rows m.entries o₂, evictable x.2 = false := by
  rw [h.lists.tail, Links.findBack_eq _ h.lists.linked (Nat.lt_succ_of_le (le_of_eq h.all))]
  have hitem (i : Nat) : (m.entries.cells[i]?.map (·.item)) = m.entries.items[i]? :=
    (List.getElem?_map ..).symm
  simp only [hitem]
  cases hfound : o.reverse.find? fun i ↦ (m.entries.items[i]?).any fun e ↦ evictable e.2 with
  | none =>
    refine .inl ⟨rfl, fun x hx ↦ ?_⟩
    obtain ⟨i, hi, hx⟩ := List.mem_filterMap.mp hx
    have hi := List.find?_eq_none.mp hfound i (List.mem_reverse.mpr hi)
    rw [hx, Option.any_some] at hi
    exact eq_false_of_ne_true hi
  | some i =>
    obtain ⟨hi, o₁, o₂, hsplit, hnone⟩ := List.find?_eq_some_iff_append.mp hfound
    obtain ⟨⟨k', v'⟩, hkv, hev⟩ := (Option.any_eq_true _ _).mp hi
    refine .inr ⟨i, o₂.reverse, o₁.reverse, k', v', rfl, ?_, hkv, hev, fun x hx ↦ ?_⟩
    · have := congrArg List.reverse hsplit
      rwa [List.reverse_reverse, List.reverse_append, List.reverse_cons, List.append_assoc,
        List.singleton_append] at this
    · obtain ⟨j, hj, hx⟩ := List.mem_filterMap.mp hx
      have hj := hnone j (List.mem_reverse.mp hj)
      rw [hx, Option.any_some] at hj
      exact eq_false_of_ne_true (by simpa using hj)

/-- `entry_or_default_protected` makes one step of the table, and the row it returns leads. -/
theorem Holds.entry [Inhabited υ] (h : Holds m l) (k : κ) (evictable : υ → Bool) :
    (m.entryOrDefaultProtected k evictable).2.cap = m.cap ∧
    ((∃ i v l', (m.entryOrDefaultProtected k evictable).1 = some i ∧
        Leads (m.entryOrDefaultProtected k evictable).2 i k v l' ∧
        Entry k evictable m.cap l (some (v, l'))) ∨
      (m.entryOrDefaultProtected k evictable = (none, m) ∧ Entry k evictable m.cap l none)) := by
  unfold entryOrDefaultProtected
  split
  case isTrue hk =>
    obtain ⟨i, v, l₁, l₂, rfl, hi, hleads, hcap⟩ := h.getMut hk
    exact ⟨hcap, .inl ⟨i, v, _, hi, hleads, .found l₁ l₂ v⟩⟩
  case isFalse hk =>
    have hlookup : m.index.lookup k = none := by
      cases hi : m.index.lookup k with
      | none => rfl
      | some i =>
        rw [hi] at hk
        exact absurd rfl hk
    have hnot : ∀ v, (k, v) ∉ l := fun v hv ↦ hk (h.lookup_isSome.mpr ⟨v, hv⟩)
    obtain ⟨hlen, hle⟩ := h.length
    split
    case isTrue hroom =>
      obtain ⟨o, ho, rfl⟩ := h
      have hput : m.put k default = m.grow k default := by
        unfold put
        rw [hlookup, if_neg (not_le.mpr hroom)]
      obtain ⟨hi, hleads⟩ := (ho.grow hlookup hroom default).getMut
      rw [hput]
      refine ⟨cap_getMut _ _, .inl ⟨_, _, _, hi, hleads, .room _ hnot ?_⟩⟩
      rw [hlen]
      exact hroom
    case isFalse hfull =>
      have hcap : l.length = m.cap := le_antisymm hle (hlen ▸ not_lt.mp hfull)
      obtain ⟨o, ho, rfl⟩ := h
      rcases ho.findBack evictable with
        ⟨hnone, hall⟩ | ⟨i, o₁, o₂, k', v', hsome, rfl, hitem, hv, hlast⟩
      · rw [hnone]
        exact ⟨rfl, .inr ⟨rfl, .saturated _ hnot hcap hall⟩⟩
      · rw [hsome]
        have hrows : rows m.entries (o₁ ++ i :: o₂) =
            rows m.entries o₁ ++ (k', v') :: rows m.entries o₂ := by
          rw [rows_append]
          refine congrArg _ ?_
          rw [rows, List.filterMap_cons, hitem]
          rfl
        rw [hrows] at hnot hcap ⊢
        exact ⟨cap_reuse _ _ _ _, .inl ⟨i, _, _, rfl, ho.reuse hlookup hitem default,
          .evicted _ _ k' v' hnot hcap hv hlast⟩⟩

end Lru

end Plaine.Stratum

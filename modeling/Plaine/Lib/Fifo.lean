import Plaine.Lib.Runs
import Plaine.Lib.Table
import Mathlib.Data.Finset.Card

/-!
# Bounded memos

A table of the last keys it was given, with their order: a new key is put behind the others, and
the oldest beyond a bound are dropped.  A key that is there keeps its place and has its row
replaced.  Where the rows are times, a key is held until its time unless a shorter one is put in its
place or there is no room.
-/

namespace Plaine.Lib

/-- A table with the order in which its keys came. -/
structure Fifo (κ υ : Type) [DecidableEq κ] where
  rows : AList fun _ : κ ↦ υ
  order : List κ

namespace Fifo

variable {κ υ : Type} [DecidableEq κ]

/-- No rows. -/
def empty : Fifo κ υ := { rows := ∅, order := [] }

/-- The row of a key. -/
def lookup (f : Fifo κ υ) (k : κ) : Option υ := f.rows.lookup k

/-- The keys of the rows that answer to `p`. -/
def keysWhere (f : Fifo κ υ) (p : υ → Bool) : List κ :=
  (f.rows.entries.filter (p ·.2)).map (·.1)

/-- Put a row in, and drop the oldest beyond the bound. -/
def insert (cap : Nat) (f : Fifo κ υ) (k : κ) (v : υ) : Fifo κ υ :=
  let rows := f.rows.insert k v
  if k ∈ f.rows then { f with rows }
  else
    let order := f.order ++ [k]
    { rows := (order.take (order.length - cap)).foldl (fun m k ↦ m.erase k) rows
      order := order.drop (order.length - cap) }

/-- Take a key out. -/
def erase (f : Fifo κ υ) (k : κ) : Fifo κ υ :=
  { rows := f.rows.erase k, order := f.order.filter (· ≠ k) }

/-- Take the rows out that answer to `p`. -/
def eraseWhere (f : Fifo κ υ) (p : υ → Bool) : Fifo κ υ :=
  { rows := (f.keysWhere p).foldl (fun m k ↦ m.erase k) f.rows
    order := f.order.filter (· ∉ f.keysWhere p) }

variable {f : Fifo κ υ} {k j : κ} {v w : υ} {p : υ → Bool}

theorem insert_of_mem {cap : Nat} (h : k ∈ f.rows) :
    f.insert cap k v = { f with rows := f.rows.insert k v } := if_pos h

/-- A new key goes behind the others. -/
theorem insert_of_notMem {cap : Nat} (h : k ∉ f.rows) :
    f.insert cap k v =
      { rows := ((f.order ++ [k]).take (f.order.length + 1 - cap)).foldl (fun m k ↦ m.erase k)
          (f.rows.insert k v)
        order := (f.order ++ [k]).drop (f.order.length + 1 - cap) } := by
  rw [insert, if_neg h]
  dsimp only
  rw [List.length_append, List.length_singleton]

theorem mem_rows_iff : k ∈ f.rows ↔ ∃ v, f.lookup k = some v := by
  rw [← AList.lookup_isSome, Option.isSome_iff_exists]
  exact Iff.rfl

theorem mem_keysWhere : k ∈ f.keysWhere p ↔ ∃ v, f.lookup k = some v ∧ p v = true := by
  constructor
  · intro h
    obtain ⟨⟨k, v⟩, hmem, rfl⟩ := List.mem_map.mp h
    obtain ⟨hrow, hp⟩ := List.mem_filter.mp hmem
    exact ⟨v, AList.mem_lookup_iff.mpr hrow, hp⟩
  · rintro ⟨v, hrow, hp⟩
    exact List.mem_map_of_mem (f := Sigma.fst)
      (List.mem_filter.mpr ⟨AList.mem_lookup_iff.mp hrow, hp⟩)

@[simp] theorem lookup_empty : (empty : Fifo κ υ).lookup k = none := rfl

/-- What is there after a row was put in was there or is the row. -/
theorem lookup_insert {cap : Nat} (h : (f.insert cap k v).lookup j = some w) :
    j = k ∧ w = v ∨ j ≠ k ∧ f.lookup j = some w := by
  have hinsert (h : (f.rows.insert k v).lookup j = some w) :
      j = k ∧ w = v ∨ j ≠ k ∧ f.lookup j = some w := by
    rcases eq_or_ne j k with rfl | hne
    · rw [AList.lookup_insert] at h
      exact .inl ⟨rfl, (Option.some.inj h).symm⟩
    · rw [AList.lookup_insert_ne hne] at h
      exact .inr ⟨hne, h⟩
  unfold insert at h
  dsimp only at h
  split at h
  case isTrue => exact hinsert h
  case isFalse => exact hinsert (AList.lookup_of_foldl_erase h)

theorem lookup_erase (h : (f.erase k).lookup j = some w) : j ≠ k ∧ f.lookup j = some w := by
  unfold erase lookup at h
  rcases eq_or_ne j k with rfl | hne
  · rw [AList.lookup_erase] at h
    cases h
  · rw [AList.lookup_erase_ne hne] at h
    exact ⟨hne, h⟩

theorem lookup_eraseWhere (h : (f.eraseWhere p).lookup j = some w) :
    p w = false ∧ f.lookup j = some w := by
  unfold eraseWhere lookup at h
  rw [AList.lookup_foldl_erase] at h
  split at h
  case isTrue => cases h
  case isFalse hkeys =>
    refine ⟨?_, h⟩
    rw [← Bool.not_eq_true]
    intro hp
    exact hkeys (mem_keysWhere.mpr ⟨w, h, hp⟩)

/-! ## What the rows and the order agree on -/

/-- The order has the keys of the rows, each once, and no more than the bound. -/
structure Ordered (cap : Nat) (f : Fifo κ υ) : Prop where
  perm : f.rows.keys.Perm f.order
  short : f.order.length ≤ cap

variable {cap : Nat}

theorem ordered_empty : Ordered cap (empty : Fifo κ υ) := ⟨.nil, Nat.zero_le cap⟩

theorem Ordered.nodup (h : Ordered cap f) : f.order.Nodup := h.perm.nodup_iff.mp f.rows.keys_nodup

theorem Ordered.mem_order (h : Ordered cap f) : k ∈ f.order ↔ k ∈ f.rows := h.perm.mem_iff.symm

/-- The keys of a table without the first of them. -/
theorem keys_foldl_erase {l r : List κ} {m : AList fun _ : κ ↦ υ} (h : m.keys.Perm (l ++ r)) :
    (l.foldl (fun m k ↦ m.erase k) m).keys.Perm r := by
  induction l generalizing m with
  | nil => exact h
  | cons k l ih =>
    refine ih ?_
    rw [AList.keys_erase]
    have herase := h.erase k
    rwa [List.cons_append, List.erase_cons_head] at herase

theorem ordered_insert (h : Ordered cap f) : Ordered cap (f.insert cap k v) := by
  by_cases hk : k ∈ f.rows
  · rw [insert_of_mem hk]
    refine ⟨?_, h.short⟩
    rw [AList.keys_insert]
    exact (List.perm_cons_erase hk).symm.trans h.perm
  · rw [insert_of_notMem hk]
    constructor
    · refine keys_foldl_erase ?_
      rw [List.take_append_drop, AList.keys_insert, List.erase_of_not_mem hk]
      exact (h.perm.cons k).trans (List.perm_append_singleton k f.order).symm
    · rw [List.length_drop, List.length_append, List.length_singleton]
      exact Nat.sub_le_iff_le_add.mpr (by omega)

theorem ordered_eraseWhere (h : Ordered cap f) : Ordered cap (f.eraseWhere p) := by
  constructor
  · refine (List.perm_ext_iff_of_nodup (AList.keys_nodup _) (h.nodup.filter _)).mpr fun j ↦ ?_
    have hmem : j ∈ (f.eraseWhere p).rows ↔ j ∉ f.keysWhere p ∧ j ∈ f.rows := by
      rw [← AList.lookup_isSome, eraseWhere, AList.lookup_foldl_erase]
      split
      case isTrue hj => exact iff_of_false (by simp) fun hn ↦ hn.1 hj
      case isFalse hj => exact AList.lookup_isSome.trans ⟨fun hr ↦ ⟨hj, hr⟩, And.right⟩
    rw [List.mem_filter, h.mem_order]
    rw [decide_eq_true_iff]
    exact hmem.trans and_comm
  · exact Nat.le_trans (List.length_filter_le _ _) h.short

/-! ## Rows that stay -/

/-- Where there is room, or the key is there, no other row goes. -/
theorem rows_insert (h : k ∈ f.rows ∨ f.order.length < cap) :
    (f.insert cap k v).rows = f.rows.insert k v := by
  by_cases hk : k ∈ f.rows
  · rw [insert_of_mem hk]
  · rw [insert_of_notMem hk, Nat.sub_eq_zero_of_le (h.resolve_left hk)]
    rfl

theorem lookup_eraseWhere_of_kept (h : f.lookup k = some v) (hp : p v = false) :
    (f.eraseWhere p).lookup k = some v := by
  unfold eraseWhere lookup
  rw [AList.lookup_foldl_erase, if_neg]
  · exact h
  · intro hk
    obtain ⟨w, hw, hpw⟩ := mem_keysWhere.mp hk
    obtain rfl := Option.some.inj (h.symm.trans hw)
    exact absurd hpw (by rw [hp]; exact Bool.false_ne_true)

/-! ## Rows that are held until a time -/

section Leases

variable {τ : Type} [LinearOrder τ] {f : Fifo κ τ} {t now : τ}

/-- A key is put in until a time, or the rows of the times that are past are taken out. -/
inductive Op (κ τ : Type) where
  | put (k : κ) (t : τ)
  | expire (now : τ)

namespace Op

/-- The key and the time of a row that is put in. -/
def row : Op κ τ → Option (κ × τ)
  | put k t => some (k, t)
  | expire _ => none

end Op

/-- The keys that are put in. -/
def keysPut (ops : List (Op κ τ)) : List κ := (ops.filterMap Op.row).map (·.1)

/-- An operation. -/
def apply (cap : Nat) (f : Fifo κ τ) : Op κ τ → Fifo κ τ
  | .put k t => f.insert cap k t
  | .expire now => f.eraseWhere (fun t ↦ ¬now < t)

/-- No row is put in the place of one that is held longer. -/
def Extends (f : Fifo κ τ) : Op κ τ → Prop
  | .put k t => ∀ t', f.lookup k = some t' → t' ≤ t
  | .expire _ => True

/-- The rows that were put in, where they are not past, are held as long at least. -/
def Holds (f : Fifo κ τ) (given : List (κ × τ)) (now : τ) : Prop :=
  ∀ g ∈ given, now < g.2 → ∃ t, f.lookup g.1 = some t ∧ g.2 ≤ t

variable {given : List (κ × τ)} {ops : List (Op κ τ)} {op : Op κ τ}

omit [LinearOrder τ] in
theorem mem_keysPut_concat :
    k ∈ keysPut (ops ++ [op]) ↔ k ∈ keysPut ops ∨ op.row.any (·.1 = k) = true := by
  unfold keysPut
  rw [List.filterMap_append, List.map_append, List.mem_append]
  cases op with
  | put j t => simp [Op.row, eq_comm]
  | expire now => simp [Op.row]

theorem Holds.put (h : f.Holds given now) (hroom : k ∈ f.rows ∨ f.order.length < cap)
    (hlonger : f.Extends (.put k t)) : (f.insert cap k t).Holds (given ++ [(k, t)]) now := by
  have hself : (f.insert cap k t).lookup k = some t := by
    rw [lookup, rows_insert hroom, AList.lookup_insert]
  unfold Holds
  rw [List.forall_mem_append, List.forall_mem_singleton]
  refine ⟨fun g hg hnow ↦ ?_, fun _ ↦ ⟨t, hself, le_rfl⟩⟩
  obtain ⟨t', hlookup, hle⟩ := h g hg hnow
  rcases eq_or_ne g.1 k with heq | hne
  · rw [heq] at hlookup
    exact ⟨t, heq ▸ hself, hle.trans (hlonger t' hlookup)⟩
  · refine ⟨t', ?_, hle⟩
    rw [lookup, rows_insert hroom, AList.lookup_insert_ne hne]
    exact hlookup

theorem Holds.expire (h : f.Holds given now) (hle : t ≤ now) :
    (f.eraseWhere (fun t' ↦ ¬t < t')).Holds given now := by
  intro g hg hnow
  obtain ⟨t', hlookup, hle'⟩ := h g hg hnow
  have hlater : t < t' := hle.trans_lt (hnow.trans_le hle')
  exact ⟨t', lookup_eraseWhere_of_kept hlookup (by simpa using hlater), hle'⟩

theorem run_ordered (cap : Nat) (ops : List (Op κ τ)) :
    Ordered cap (ops.foldl (apply cap) empty) := by
  induction ops using List.reverseRecOn with
  | nil => exact ordered_empty
  | append_singleton ops op ih =>
    rw [List.foldl_append, List.foldl_cons, List.foldl_nil]
    cases op with
    | put k t => exact ordered_insert ih
    | expire now => exact ordered_eraseWhere ih

/-- Only what was put in is in the order. -/
theorem mem_order_run {cap : Nat} (h : k ∈ (ops.foldl (apply cap) empty).order) :
    k ∈ keysPut ops := by
  induction ops using List.reverseRecOn with
  | nil => exact absurd h List.not_mem_nil
  | append_singleton ops op ih =>
    rw [List.foldl_append, List.foldl_cons, List.foldl_nil] at h
    rw [mem_keysPut_concat]
    cases op with
    | put j t =>
      by_cases hj : j ∈ (ops.foldl (apply cap) empty).rows
      · rw [apply, insert_of_mem hj] at h
        exact .inl (ih h)
      · rw [apply, insert_of_notMem hj] at h
        rcases List.mem_append.mp (List.mem_of_mem_drop h) with hold | hnew
        · exact .inl (ih hold)
        · exact .inr (decide_eq_true (List.mem_singleton.mp hnew).symm)
    | expire now => exact .inl (ih (List.mem_of_mem_filter h))

/-- While no more keys are put in than there is room for, a new one finds room. -/
theorem room_run (h : (keysPut (ops ++ [.put k t])).toFinset.card ≤ cap) :
    k ∈ (ops.foldl (apply cap) empty).rows ∨ (ops.foldl (apply cap) empty).order.length < cap := by
  refine or_iff_not_imp_left.mpr fun hk ↦ ?_
  have hordered := run_ordered cap ops
  have hnew : (k :: (ops.foldl (apply cap) empty).order).Nodup :=
    List.nodup_cons.mpr ⟨fun hmem ↦ hk (hordered.mem_order.mp hmem), hordered.nodup⟩
  have hsub : (k :: (ops.foldl (apply cap) empty).order).toFinset ⊆
      (keysPut (ops ++ [.put k t])).toFinset := by
    intro j hj
    rw [List.mem_toFinset] at hj ⊢
    rw [mem_keysPut_concat]
    rcases List.mem_cons.mp hj with rfl | hj
    · exact .inr (decide_eq_true rfl)
    · exact .inl (mem_order_run hj)
  have hcard := Finset.card_le_card hsub
  rw [List.toFinset_card_of_nodup hnew, List.length_cons] at hcard
  exact Nat.lt_of_lt_of_le (Nat.lt_succ_self _) (Nat.le_trans hcard h)

/-- Where no row takes the place of one that is held longer, and there is room for all keys, every
row is held until its time. -/
theorem run_holds (hcard : (keysPut ops).toFinset.card ≤ cap)
    (hruns : Runs (apply cap) Extends empty ops) (hnow : ∀ t, .expire t ∈ ops → t ≤ now) :
    (ops.foldl (apply cap) empty).Holds (ops.filterMap Op.row) now := by
  induction ops using List.reverseRecOn with
  | nil => exact fun g hg ↦ absurd hg List.not_mem_nil
  | append_singleton ops op ih =>
    obtain ⟨hruns, hlast⟩ := runs_concat.mp hruns
    have hbefore : (ops.foldl (apply cap) empty).Holds (ops.filterMap Op.row) now := by
      refine ih (le_trans (Finset.card_le_card ?_) hcard) hruns
        fun t ht ↦ hnow t (List.mem_append_left _ ht)
      intro j hj
      rw [List.mem_toFinset] at hj ⊢
      exact mem_keysPut_concat.mpr (.inl hj)
    rw [List.foldl_append, List.foldl_cons, List.foldl_nil, List.filterMap_append]
    cases op with
    | put k t => exact hbefore.put (room_run hcard) hlast
    | expire t =>
      have hholds := hbefore.expire (hnow t (List.mem_append_right _ List.mem_cons_self))
      exact (List.append_nil _).symm ▸ hholds

end Leases

end Fifo

end Plaine.Lib

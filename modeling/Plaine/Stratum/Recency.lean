import Plaine.Stratum.Lru

/-!
# The recency table as a list

What the recency table is for: a list of keys and values, the one used last first, with at most `cap`
keys.  Using a key brings it to the front; a new key takes the place of the last one, or of the last
one that may go.  `Lru` does the same on links between array positions (`lru_refines`).
-/

namespace Plaine.Stratum

open Plaine.Lib

namespace Recency

variable {κ υ : Type} [DecidableEq κ]

/-- The rows of the other keys. -/
def others (k : κ) (l : List (κ × υ)) : List (κ × υ) := l.filter (·.1 ≠ k)

/-- The value of a key. -/
def find (k : κ) (l : List (κ × υ)) : Option υ := (l.find? (·.1 = k)).map (·.2)

/-- The list without the last row that may go. -/
def dropLastWhere (evictable : υ → Bool) (l : List (κ × υ)) : List (κ × υ) :=
  (l.reverse.eraseP fun e ↦ evictable e.2).reverse

def put (cap : Nat) (k : κ) (v : υ) (l : List (κ × υ)) : List (κ × υ) :=
  match find k l with
  | some _ => (k, v) :: others k l
  | none => (k, v) :: if cap ≤ l.length then l.dropLast else l

/-- The value, and the list after it was written to. -/
def getMut (k : κ) (write : υ → υ) (l : List (κ × υ)) : Option υ × List (κ × υ) :=
  match find k l with
  | some v => (some v, (k, write v) :: others k l)
  | none => (none, l)

def entryOrDefault [Inhabited υ] (cap : Nat) (k : κ) (write : υ → υ) (l : List (κ × υ)) :
    Option υ × List (κ × υ) :=
  match find k l with
  | some v => (some v, (k, write v) :: others k l)
  | none => (some default, (k, write default) :: if cap ≤ l.length then l.dropLast else l)

/-- No value if the list is full and no row may go. -/
def entryOrDefaultProtected [Inhabited υ] (cap : Nat) (k : κ) (evictable : υ → Bool) (write : υ → υ)
    (l : List (κ × υ)) : Option υ × List (κ × υ) :=
  match find k l with
  | some v => (some v, (k, write v) :: others k l)
  | none =>
    if l.length < cap then (some default, (k, write default) :: l)
    else if l.any fun e ↦ evictable e.2 then
      (some default, (k, write default) :: dropLastWhere evictable l)
    else (none, l)

end Recency

/-- The operations of the table; a caller may write through the reference it gets. -/
inductive LruOp (κ υ : Type) where
  | put (k : κ) (v : υ)
  | getMut (k : κ) (write : υ → υ)
  | entryOrDefault (k : κ) (write : υ → υ)
  | entryOrDefaultProtected (k : κ) (evictable : υ → Bool) (write : υ → υ)

namespace LruOp

variable {κ υ : Type} [DecidableEq κ] [Inhabited υ]

/-- Read the row that was returned, and write to it. -/
def through (write : υ → υ) (r : Option Nat × Lru κ υ) : Option υ × Lru κ υ :=
  match r.1.bind r.2.value, r.1 with
  | some v, some i => (some v, r.2.setValue i (write v))
  | _, _ => (none, r.2)

/-- An operation on the table. -/
def run (m : Lru κ υ) : LruOp κ υ → Option υ × Lru κ υ
  | .put k v => (none, m.put k v)
  | .getMut k write => through write (m.getMut k)
  | .entryOrDefault k write => through write (m.entryOrDefault k)
  | .entryOrDefaultProtected k evictable write => through write (m.entryOrDefaultProtected k evictable)

/-- An operation on the list. -/
def spec (cap : Nat) (l : List (κ × υ)) : LruOp κ υ → Option υ × List (κ × υ)
  | .put k v => (none, Recency.put cap k v l)
  | .getMut k write => Recency.getMut k write l
  | .entryOrDefault k write => Recency.entryOrDefault cap k write l
  | .entryOrDefaultProtected k evictable write =>
    Recency.entryOrDefaultProtected cap k evictable write l

/-- What a sequence of operations returns, and what it leaves. -/
def runs {σ : Type} (step : σ → LruOp κ υ → Option υ × σ) : σ → List (LruOp κ υ) → List (Option υ) × σ
  | s, [] => ([], s)
  | s, op :: ops =>
    let (out, s) := step s op
    let (outs, s) := runs step s ops
    (out :: outs, s)

end LruOp

/-! ## Rows by their keys -/

section

variable {κ υ : Type} [DecidableEq κ] {k k' : κ} {v v' : υ} {l l₁ l₂ : List (κ × υ)}

namespace Recency

theorem find_eq_none (h : ∀ v, (k, v) ∉ l) : find k l = none := by
  rw [find, Option.map_eq_none_iff, List.find?_eq_none]
  rintro ⟨j, w⟩ hmem hj
  obtain rfl : j = k := by simpa using hj
  exact h w hmem

theorem find_split (h : ((l₁ ++ (k, v) :: l₂).map (·.1)).Nodup) :
    find k (l₁ ++ (k, v) :: l₂) = some v ∧ others k (l₁ ++ (k, v) :: l₂) = l₁ ++ l₂ := by
  rw [List.map_append, List.map_cons, List.nodup_append] at h
  obtain ⟨-, htail, hapart⟩ := h
  have hfirst : ∀ e ∈ l₁, e.1 ≠ k := fun e he ↦
    hapart e.1 (List.mem_map_of_mem he) k List.mem_cons_self
  have hsecond : ∀ e ∈ l₂, e.1 ≠ k := by
    rintro e he rfl
    exact (List.nodup_cons.mp htail).1 (List.mem_map.mpr ⟨e, he, rfl⟩)
  have hkeep (l : List (κ × υ)) (hl : ∀ e ∈ l, e.1 ≠ k) : l.filter (·.1 ≠ k) = l :=
    List.filter_eq_self.mpr fun e he ↦ decide_eq_true (hl e he)
  constructor
  · have hnone : l₁.find? (·.1 = k) = none := List.find?_eq_none.mpr fun e he ↦ by
      simpa using hfirst e he
    rw [find, List.find?_append, hnone, Option.none_or, List.find?_cons_of_pos (by simp)]
    rfl
  · rw [others, List.filter_append, List.filter_cons_of_neg (by simp), hkeep l₁ hfirst,
      hkeep l₂ hsecond]

omit [DecidableEq κ] in
theorem dropLastWhere_split {evictable : υ → Bool} (hv : evictable v = true)
    (hlast : ∀ e ∈ l₂, evictable e.2 = false) :
    dropLastWhere evictable (l₁ ++ (k, v) :: l₂) = l₁ ++ l₂ := by
  have hskip : ∀ e ∈ l₂.reverse, ¬evictable e.2 = true := fun e he ↦ by
    rw [hlast e (List.mem_reverse.mp he)]
    exact Bool.false_ne_true
  have hhead : ((k, v) :: l₁.reverse).eraseP (fun e ↦ evictable e.2) = l₁.reverse :=
    List.eraseP_cons_of_pos hv
  rw [dropLastWhere, List.reverse_append, List.reverse_cons, List.append_assoc,
    List.eraseP_append_right _ hskip, List.singleton_append, hhead, List.reverse_append, List.reverse_reverse, List.reverse_reverse]

end Recency

/-! ## The table keeps to the list -/

namespace Lru

variable {m : Lru κ υ} {i : Nat}

theorem cap_put (m : Lru κ υ) (k : κ) (v : υ) : (m.put k v).cap = m.cap := by
  unfold Lru.put
  split
  · exact cap_setValue m _ v
  · split
    · exact cap_reuse m _ k v
    · rfl

theorem Leads.through (h : Leads m i k v l) (write : υ → υ) :
    LruOp.through write (some i, m) = (some v, m.setValue i (write v)) ∧
      Holds (m.setValue i (write v)) ((k, write v) :: l) := by
  refine ⟨?_, (h.setValue (write v)).toHolds⟩
  unfold LruOp.through
  rw [Option.bind_some, h.value]

/-- A key that is put leads. -/
theorem Holds.put (h : Holds m l) (k : κ) (v : υ) :
    ∃ i l', Leads (m.put k v) i k v l' ∧ Recency.put m.cap k v l = (k, v) :: l' := by
  have hnodup := h.nodup
  have hlength := h.length
  cases hk : m.index.lookup k with
  | some i =>
    obtain ⟨o, ho, rfl⟩ := h
    obtain ⟨w, o₁, o₂, rfl, hitem, hrows⟩ := ho.split hk
    rw [hrows] at hnodup ⊢
    obtain ⟨hfind, hothers⟩ := Recency.find_split hnodup
    have hi := (List.nodup_cons.mp (List.nodup_middle.mp ho.lists.nodup)).1
    have htouch := (ho.setValue hitem v).touch
    have hitems : ((m.setValue i v).touch i).entries.items = (m.setValue i v).entries.items :=
      (Links.items_pushFront _ i).trans (Links.items_unlink _ i)
    refine ⟨i, _, ?_, by rw [Recency.put, hfind, hothers]⟩
    unfold Lru.put
    rw [hk]
    refine ⟨⟨o₁ ++ o₂, htouch, ?_⟩, ?_⟩
    · have hrows' : rows ((m.setValue i v).touch i).entries (o₁ ++ o₂) =
          rows (m.setValue i v).entries (o₁ ++ o₂) := by simp only [rows, hitems]
      rw [hrows', rows_setValue hitem v hi, rows_append]
    · rw [hitems, items_setValue hitem, if_pos rfl]
  | none =>
    have hnot : ∀ v, (k, v) ∉ l := fun v hv ↦ by
      have hsome := h.lookup_isSome.mpr ⟨v, hv⟩
      rw [hk] at hsome
      cases hsome
    rw [Recency.put, Recency.find_eq_none hnot]
    unfold Lru.put
    rw [hk]
    dsimp only
    obtain ⟨o, ho, rfl⟩ := h
    by_cases hfull : m.cap ≤ m.len
    · -- The list is not empty, and its last row is the tail.
      have hcap := ho.cap
      obtain rfl | ⟨o', i, rfl⟩ := List.eq_nil_or_concat' o
      · exact absurd (hcap.trans_le (hfull.trans hlength.1.ge)) (Nat.lt_irrefl 0)
      obtain ⟨⟨k', v'⟩, hitem⟩ : ∃ e, m.entries.items[i]? = some e := by
        refine ⟨_, List.getElem?_eq_getElem ?_⟩
        rw [Links.items, List.length_map]
        exact ho.lists.linked.lt (List.mem_append_right _ List.mem_cons_self)
      have hrows : rows m.entries (o' ++ [i]) = rows m.entries o' ++ [(k', v')] := by
        rw [rows_append]
        refine congrArg _ ?_
        rw [rows, List.filterMap_cons, hitem]
        rfl
      have htail : m.entries.tail = some i := by rw [ho.lists.tail, List.getLast?_concat]
      rw [if_pos hfull, htail, if_pos (by rw [hlength.1]; exact hfull), hrows, List.dropLast_concat]
      have hreuse := ho.reuse hk hitem v
      rw [show rows m.entries [] = [] from rfl, List.append_nil] at hreuse
      exact ⟨i, _, hreuse, rfl⟩
    · rw [if_neg hfull, if_neg (by rw [hlength.1]; exact hfull)]
      exact ⟨_, _, ho.grow hk (Nat.lt_of_not_le hfull) v, rfl⟩

/-- The four ways of `entry_or_default_protected` are those of the list. -/
theorem Entry.spec [Inhabited υ] {evictable : υ → Bool} {cap : Nat}
    {r : Option (υ × List (κ × υ))} (h : Entry k evictable cap l r) (hnodup : (l.map (·.1)).Nodup)
    (write : υ → υ) : Recency.entryOrDefaultProtected cap k evictable write l =
      match r with
      | some (v, l') => (some v, (k, write v) :: l')
      | none => (none, l) := by
  rw [Recency.entryOrDefaultProtected]
  cases h with
  | found l₁ l₂ v =>
    obtain ⟨hfind, hothers⟩ := Recency.find_split hnodup
    rw [hfind, hothers]
  | room l hk hroom => rw [Recency.find_eq_none hk, if_pos hroom]
  | evicted l₁ l₂ k' v' hk hfull hv hlast =>
    have hany : ((l₁ ++ (k', v') :: l₂).any fun e ↦ evictable e.2) = true :=
      List.any_eq_true.mpr ⟨(k', v'), List.mem_append_right _ List.mem_cons_self, hv⟩
    rw [Recency.find_eq_none hk, if_neg (Nat.not_lt.mpr hfull.ge), if_pos hany,
      Recency.dropLastWhere_split hv hlast]
  | saturated l hk hfull hnone =>
    have hany : ¬(l.any fun e ↦ evictable e.2) = true := by
      rintro hany
      obtain ⟨e, he, hev⟩ := List.any_eq_true.mp hany
      rw [hnone e he] at hev
      cases hev
    rw [Recency.find_eq_none hk, if_neg (Nat.not_lt.mpr hfull.ge), if_neg hany]

/-- Every operation of the table is that of the list. -/
theorem Holds.op [Inhabited υ] (h : Holds m l) (op : LruOp κ υ) :
    (op.run m).1 = (op.spec m.cap l).1 ∧ Holds (op.run m).2 (op.spec m.cap l).2 ∧
      (op.run m).2.cap = m.cap := by
  have hnodup := h.nodup
  have hlength := h.length
  cases op with
  | put k v =>
    obtain ⟨i, l', hleads, hput⟩ := h.put k v
    refine ⟨rfl, ?_, cap_put m k v⟩
    show Holds (m.put k v) (Recency.put m.cap k v l)
    rw [hput]
    exact hleads.toHolds
  | getMut k write =>
    show (LruOp.through write (m.getMut k)).1 = (Recency.getMut k write l).1 ∧
      Holds (LruOp.through write (m.getMut k)).2 (Recency.getMut k write l).2 ∧
      (LruOp.through write (m.getMut k)).2.cap = m.cap
    by_cases hk : (m.index.lookup k).isSome
    · obtain ⟨i, v, l₁, l₂, rfl, hi, hleads, hcap⟩ := h.getMut hk
      obtain ⟨hfind, hothers⟩ := Recency.find_split hnodup
      obtain ⟨hthrough, hholds⟩ := hleads.through write
      rw [← hi] at hthrough
      rw [hthrough, Recency.getMut, hfind, hothers]
      exact ⟨rfl, hholds, (cap_setValue _ _ _).trans hcap⟩
    · have hnot : ∀ v, (k, v) ∉ l := fun v hv ↦ hk (h.lookup_isSome.mpr ⟨v, hv⟩)
      have hnone : m.index.lookup k = none := Option.not_isSome_iff_eq_none.mp hk
      have hget : m.getMut k = (none, m) := by rw [Lru.getMut, hnone]
      rw [hget, Recency.getMut, Recency.find_eq_none hnot]
      exact ⟨rfl, h, rfl⟩
  | entryOrDefault k write =>
    show (LruOp.through write (m.entryOrDefault k)).1 = (Recency.entryOrDefault m.cap k write l).1 ∧
      Holds (LruOp.through write (m.entryOrDefault k)).2 (Recency.entryOrDefault m.cap k write l).2 ∧
      (LruOp.through write (m.entryOrDefault k)).2.cap = m.cap
    unfold Lru.entryOrDefault
    by_cases hk : (m.index.lookup k).isSome
    · obtain ⟨i, v, l₁, l₂, rfl, hi, hleads, hcap⟩ := h.getMut hk
      obtain ⟨hfind, hothers⟩ := Recency.find_split hnodup
      obtain ⟨hthrough, hholds⟩ := hleads.through write
      rw [← hi] at hthrough
      rw [if_pos hk, hthrough, Recency.entryOrDefault, hfind, hothers]
      exact ⟨rfl, hholds, (cap_setValue _ _ _).trans hcap⟩
    · have hnot : ∀ v, (k, v) ∉ l := fun v hv ↦ hk (h.lookup_isSome.mpr ⟨v, hv⟩)
      obtain ⟨i, l', hleads, hput⟩ := h.put k default
      obtain ⟨hi, hleads⟩ := hleads.getMut
      obtain ⟨hthrough, hholds⟩ := hleads.through write
      rw [← hi] at hthrough
      rw [Recency.put, Recency.find_eq_none hnot] at hput
      rw [if_neg hk, hthrough, Recency.entryOrDefault, Recency.find_eq_none hnot]
      refine ⟨rfl, ?_, (cap_setValue _ _ _).trans ((cap_getMut _ _).trans (cap_put _ _ _))⟩
      rw [(List.cons.inj hput).2]
      exact hholds
  | entryOrDefaultProtected k evictable write =>
    show (LruOp.through write (m.entryOrDefaultProtected k evictable)).1 =
        (Recency.entryOrDefaultProtected m.cap k evictable write l).1 ∧
      Holds (LruOp.through write (m.entryOrDefaultProtected k evictable)).2
        (Recency.entryOrDefaultProtected m.cap k evictable write l).2 ∧
      (LruOp.through write (m.entryOrDefaultProtected k evictable)).2.cap = m.cap
    obtain ⟨hcap, ⟨i, v, l', hi, hleads, hentry⟩ | ⟨hnone, hentry⟩⟩ := h.entry k evictable
    · obtain ⟨hthrough, hholds⟩ := hleads.through write
      rw [← hi] at hthrough
      rw [hthrough, hentry.spec hnodup write]
      exact ⟨rfl, hholds, (cap_setValue _ _ _).trans hcap⟩
    · rw [hnone, hentry.spec hnodup write]
      exact ⟨rfl, h, rfl⟩

end Lru

/-- After every sequence of operations the table has returned what the list returns, and holds it. -/
theorem Lru.Holds.runs [Inhabited υ] {m : Lru κ υ} (h : m.Holds l) (ops : List (LruOp κ υ)) :
    (LruOp.runs (fun m op ↦ op.run m) m ops).1 = (LruOp.runs (fun l op ↦ op.spec m.cap l) l ops).1 ∧
      (LruOp.runs (fun m op ↦ op.run m) m ops).2.Holds
        (LruOp.runs (fun l op ↦ op.spec m.cap l) l ops).2 ∧
      (LruOp.runs (fun m op ↦ op.run m) m ops).2.cap = m.cap := by
  induction ops generalizing m l with
  | nil => exact ⟨rfl, h, rfl⟩
  | cons op ops ih =>
    obtain ⟨hout, hholds, hcap⟩ := h.op op
    obtain ⟨houts, hlast, hcaps⟩ := ih hholds
    rw [hcap] at houts hlast hcaps
    refine ⟨?_, hlast, hcaps⟩
    simp only [LruOp.runs]
    rw [hout, houts]

/-- After every sequence of operations the table and the list have returned the same, and the table
holds the list, whose keys are distinct and at most as many as the cap. -/
theorem lru_refines [Inhabited υ] (cap : Nat) (ops : List (LruOp κ υ)) :
    (LruOp.runs (fun m op ↦ op.run m) (Lru.new cap) ops).1 =
        (LruOp.runs (fun l op ↦ op.spec (max cap 1) l) [] ops).1 ∧
      (LruOp.runs (fun m op ↦ op.run m) (Lru.new cap) ops).2.Holds
        (LruOp.runs (fun l op ↦ op.spec (max cap 1) l) [] ops).2 ∧
      ((LruOp.runs (fun l op ↦ op.spec (max cap 1) l) [] ops).2.map (·.1)).Nodup ∧
      (LruOp.runs (fun l op ↦ op.spec (max cap 1) l) [] ops).2.length ≤ max cap 1 := by
  obtain ⟨houts, hholds, hcap⟩ := (Lru.holds_new (κ := κ) (υ := υ) cap).runs ops
  have hlength := hholds.length.2
  rw [hcap] at hlength
  exact ⟨houts, hholds, hholds.nodup, hlength⟩

end

end Plaine.Stratum

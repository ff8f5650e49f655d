import Plaine.Lib.Table
import Mathlib.Order.Defs.Unbundled

/-!
# Tables with a cap

A table of rows, an index with an entry for each of them, and a counter beside the two.  When the
counter is above a cap, the rows that the least entries of the index name are removed one by one.

`Listing` is what the three agree on: one list, in the order of the index, of which the rows, the
entries and the counter are images.  Eviction drops the head of that list (`Listing.evict`).
-/

namespace Plaine.Lib

/-- Rows, the index to them, and their number. -/
structure Capped (κ α ι β : Type) [DecidableEq κ] [DecidableEq ι] where
  rows : AList fun _ : κ ↦ α
  index : AList fun _ : ι ↦ β
  count : Nat

namespace Capped

variable {κ α ι β : Type} [DecidableEq κ] [DecidableEq ι]

def empty : Capped κ α ι β := ⟨∅, ∅, 0⟩

theorem mem_map_entries {m : AList fun _ : ι ↦ β} {e : ι × β} :
    e ∈ m.entries.map (fun e ↦ (e.1, e.2)) ↔ m.lookup e.1 = some e.2 := by
  have hrow : m.lookup e.1 = some e.2 ↔ ⟨e.1, e.2⟩ ∈ m.entries := AList.mem_lookup_iff
  rw [hrow, List.mem_map]
  constructor
  · rintro ⟨r, hr, rfl⟩
    exact hr
  · intro hr
    exact ⟨_, hr, rfl⟩

variable [LT ι] [DecidableLT ι]

/-- The lower of two entries. -/
def lower (o : Option (ι × β)) (e : ι × β) : Option (ι × β) :=
  match o with
  | none => some e
  | some a => if e.1 < a.1 then some e else some a

/-- The entry with the least key. -/
def first (m : AList fun _ : ι ↦ β) : Option (ι × β) :=
  (m.entries.map fun e ↦ (e.1, e.2)).foldl lower none

omit [DecidableEq ι] in
theorem mem_of_foldl_lower {o : Option (ι × β)} {l : List (ι × β)} {e : ι × β}
    (h : l.foldl lower o = some e) : o = some e ∨ e ∈ l := by
  induction l generalizing o with
  | nil => exact .inl h
  | cons a l ih =>
    rcases ih h with hlow | hmem
    · cases o with
      | none => exact .inr (Option.some.inj hlow ▸ List.mem_cons_self)
      | some b =>
        rw [lower] at hlow
        split at hlow
        · exact .inr (Option.some.inj hlow ▸ List.mem_cons_self)
        · exact .inl hlow
    · exact .inr (List.mem_cons_of_mem a hmem)

omit [DecidableEq ι] in
theorem foldl_lower_ne_none (l : List (ι × β)) (x : ι × β) : l.foldl lower (some x) ≠ none := by
  induction l generalizing x with
  | nil => exact fun h ↦ nomatch h
  | cons y l ih =>
    rw [List.foldl_cons, lower]
    split
    · exact ih y
    · exact ih x

theorem lookup_of_first_eq_none {m : AList fun _ : ι ↦ β} (h : first m = none) (i : ι) :
    m.lookup i = none := by
  rw [first] at h
  cases hl : m.entries.map fun e ↦ (e.1, e.2) with
  | nil =>
    by_contra hsome
    obtain ⟨b, hb⟩ := Option.ne_none_iff_exists'.mp hsome
    have hmem := mem_map_entries (e := (i, b)).mpr hb
    rw [hl] at hmem
    exact absurd hmem List.not_mem_nil
  | cons x l =>
    rw [hl] at h
    exact absurd h (foldl_lower_ne_none l x)

theorem lookup_of_first {m : AList fun _ : ι ↦ β} {e : ι × β} (h : first m = some e) :
    m.lookup e.1 = some e.2 := by
  rcases mem_of_foldl_lower h with hnone | hmem
  · cases hnone
  · exact mem_map_entries.mp hmem

/-- `while` there are more than `cap`: the least entry of the index goes, and the row it names. -/
def evict (cap : Nat) (owner : ι → β → κ) (s : Capped κ α ι β) : Capped κ α ι β :=
  if cap < s.count then
    match _hfirst : first s.index with
    | none => s
    | some (i, b) =>
      evict cap owner {
        rows := s.rows.erase (owner i b)
        index := s.index.erase i
        count := if owner i b ∈ s.rows then s.count - 1 else s.count }
  else s
termination_by s.index.keys.length
decreasing_by
  have hsome : (s.index.lookup i).isSome = true := by rw [lookup_of_first _hfirst]; rfl
  have hmem : i ∈ s.index.keys := AList.lookup_isSome.mp hsome
  rw [AList.length_keys_erase, hsome, if_pos rfl]
  exact Nat.sub_lt (List.length_pos_of_mem hmem) Nat.one_pos

theorem evict_of_le {cap : Nat} {owner : ι → β → κ} {s : Capped κ α ι β} (h : s.count ≤ cap) :
    evict cap owner s = s := by rw [evict, if_neg (Nat.not_lt.mpr h)]

/-- A round of the loop. -/
theorem evict_of_first {cap : Nat} {owner : ι → β → κ} {s : Capped κ α ι β} {i : ι} {b : β}
    (hcap : cap < s.count) (hfirst : first s.index = some (i, b)) :
    evict cap owner s = evict cap owner {
      rows := s.rows.erase (owner i b)
      index := s.index.erase i
      count := if owner i b ∈ s.rows then s.count - 1 else s.count } := by
  conv_lhs => rw [evict, if_pos hcap]
  split
  case h_1 hnone =>
    rw [hfirst] at hnone
    cases hnone
  case h_2 j c hsome =>
    rw [hfirst] at hsome
    cases hsome
    rfl

/-! ## What the rows, the index and the counter agree on -/

variable [IsStrictTotalOrder ι (· < ·)]

omit [DecidableEq ι] in
theorem foldl_lower_le {l : List (ι × β)} {a e : ι × β} (h : l.foldl lower (some a) = some e) :
    ¬a.1 < e.1 ∧ ∀ x ∈ l, ¬x.1 < e.1 := by
  induction l generalizing a with
  | nil =>
    cases h
    exact ⟨irrefl_of (· < ·) e.1, fun x hx ↦ absurd hx List.not_mem_nil⟩
  | cons b l ih =>
    rw [List.foldl_cons, lower] at h
    split at h
    case isTrue hlt =>
      obtain ⟨hb, hl⟩ := ih h
      exact ⟨fun ha ↦ hb (trans_of (· < ·) hlt ha), List.forall_mem_cons.mpr ⟨hb, hl⟩⟩
    case isFalse hge =>
      obtain ⟨ha, hl⟩ := ih h
      refine ⟨ha, List.forall_mem_cons.mpr ⟨fun hb ↦ ?_, hl⟩⟩
      rcases trichotomous_of (· < ·) a.1 b.1 with hlt | heq | hgt
      · exact ha (trans_of (· < ·) hlt hb)
      · exact ha (heq ▸ hb)
      · exact hge hgt

variable {owner : ι → β → κ} {s : Capped κ α ι β} {L : List (ι × β)} {i : ι} {b : β} {k : κ} {a : α}

/-- The list of the entries in their order, with the rows they name and their number. -/
structure Listing (owner : ι → β → κ) (L : List (ι × β)) (s : Capped κ α ι β) : Prop where
  sorted : L.Pairwise fun e e' ↦ e.1 < e'.1
  index : ∀ i b, s.index.lookup i = some b ↔ (i, b) ∈ L
  owners : (L.map fun e ↦ owner e.1 e.2).Nodup
  rows : ∀ k, k ∈ s.rows ↔ ∃ e ∈ L, owner e.1 e.2 = k
  count : s.count = L.length

theorem first_of_index {m : AList fun _ : ι ↦ β} {e : ι × β}
    (hsorted : (e :: L).Pairwise fun e e' ↦ e.1 < e'.1)
    (hindex : ∀ i b, m.lookup i = some b ↔ (i, b) ∈ e :: L) : first m = some e := by
  have hmem : ∀ x, x ∈ m.entries.map (fun e ↦ (e.1, e.2)) ↔ x ∈ e :: L := fun x ↦
    mem_map_entries.trans (hindex x.1 x.2)
  unfold first
  cases hl : m.entries.map fun e ↦ (e.1, e.2) with
  | nil =>
    have he := (hmem e).mpr List.mem_cons_self
    rw [hl] at he
    exact absurd he List.not_mem_nil
  | cons x l =>
    rw [hl] at hmem
    have hstart : (x :: l).foldl lower none = l.foldl lower (some x) := rfl
    rw [hstart]
    cases hc : l.foldl lower (some x) with
    | none =>
      exact absurd hc (foldl_lower_ne_none l x)
    | some c =>
      obtain ⟨hx, hall⟩ := foldl_lower_le hc
      have hle : ¬e.1 < c.1 := (List.forall_mem_cons (p := fun x ↦ ¬x.1 < c.1)).mpr ⟨hx, hall⟩ e
        ((hmem e).mpr List.mem_cons_self)
      have hcmem : c ∈ e :: L := by
        refine (hmem c).mp ?_
        rcases mem_of_foldl_lower hc with heq | hin
        · exact Option.some.inj heq ▸ List.mem_cons_self
        · exact List.mem_cons_of_mem x hin
      rcases List.mem_cons.mp hcmem with rfl | htail
      · rfl
      · exact absurd ((List.pairwise_cons.mp hsorted).1 c htail) hle

namespace Listing

omit [DecidableLT ι] [IsStrictTotalOrder ι (· < ·)] in
theorem empty : Listing owner [] (Capped.empty : Capped κ α ι β) where
  sorted := List.Pairwise.nil
  index i b := iff_of_false (by rw [Capped.empty, AList.lookup_empty]; exact fun h ↦ nomatch h)
    List.not_mem_nil
  owners := List.nodup_nil
  rows k := iff_of_false (AList.notMem_empty k) fun ⟨_, he, _⟩ ↦ absurd he List.not_mem_nil
  count := rfl

omit [DecidableLT ι] in
theorem key_ne (h : Listing owner ((i, b) :: L) s) : ∀ e ∈ L, e.1 ≠ i := by
  rintro e he rfl
  exact irrefl_of (· < ·) e.1 ((List.pairwise_cons.mp h.sorted).1 e he)

omit [DecidableLT ι] [IsStrictTotalOrder ι (· < ·)] in
/-- As many rows as entries. -/
theorem length_rows (h : Listing owner L s) : s.rows.keys.length = L.length := by
  rw [← @List.length_map _ _ L fun e ↦ owner e.1 e.2]
  refine List.Perm.length_eq ((List.perm_ext_iff_of_nodup s.rows.nodupKeys h.owners).mpr fun k ↦ ?_)
  exact (h.rows k).trans List.mem_map.symm

omit [DecidableLT ι] [IsStrictTotalOrder ι (· < ·)] in
/-- A row is written again. -/
theorem overwrite (h : Listing owner L s) (hk : k ∈ s.rows) (a : α) :
    Listing owner L { s with rows := s.rows.insert k a } where
  sorted := h.sorted
  index := h.index
  owners := h.owners
  rows j := by
    rw [AList.mem_insert, h.rows]
    exact or_iff_right_of_imp fun hj ↦ hj ▸ (h.rows k).mp hk
  count := h.count

omit [DecidableLT ι] [IsStrictTotalOrder ι (· < ·)] in
/-- An entry is written again. -/
theorem reenter (h : Listing owner L s) (hi : (i, b) ∈ L) :
    Listing owner L { s with index := s.index.insert i b } where
  sorted := h.sorted
  index j c := by
    dsimp only
    rcases eq_or_ne j i with rfl | hj
    · rw [AList.lookup_insert, ← h.index, (h.index j b).mpr hi]
    · rw [AList.lookup_insert_ne hj, h.index]
  owners := h.owners
  rows := h.rows
  count := h.count

omit [DecidableLT ι] in
/-- A new row, with its entry at its place. -/
theorem insert {L' : List (ι × β)} (h : Listing owner (L ++ L') s) (hnew : owner i b ∉ s.rows)
    (hlow : ∀ e ∈ L, e.1 < i) (hhigh : ∀ e ∈ L', i < e.1) (a : α) :
    Listing owner (L ++ (i, b) :: L')
      ⟨s.rows.insert (owner i b) a, s.index.insert i b, s.count + 1⟩ where
  sorted := by
    obtain ⟨hl, hr, hlr⟩ := List.pairwise_append.mp h.sorted
    refine List.pairwise_append.mpr ⟨hl, List.pairwise_cons.mpr ⟨hhigh, hr⟩, fun e he e' he' ↦ ?_⟩
    rcases List.mem_cons.mp he' with rfl | htail
    · exact hlow e he
    · exact hlr e he e' htail
  index j c := by
    dsimp only
    rcases eq_or_ne j i with rfl | hj
    · rw [AList.lookup_insert, Option.some_inj]
      constructor
      · rintro rfl
        exact List.mem_append_right L List.mem_cons_self
      · intro hc
        rcases List.mem_append.mp hc with hl | hr
        · exact absurd (hlow _ hl) (irrefl_of (· < ·) j)
        rcases List.mem_cons.mp hr with heq | htail
        · exact (Prod.mk.inj heq).2.symm
        · exact absurd (hhigh _ htail) (irrefl_of (· < ·) j)
    · rw [AList.lookup_insert_ne hj, h.index, List.mem_append, List.mem_append, List.mem_cons]
      have hne : (j, c) ≠ (i, b) := fun heq ↦ hj (Prod.mk.inj heq).1
      rw [or_iff_right (b := (j, c) ∈ L') hne]
  owners := by
    rw [(List.perm_middle.map _).nodup_iff, List.map_cons, List.nodup_cons]
    refine ⟨fun hmem ↦ hnew ?_, h.owners⟩
    obtain ⟨e, he, heq⟩ := List.mem_map.mp hmem
    exact (h.rows _).mpr ⟨e, he, heq⟩
  rows k := by
    rw [AList.mem_insert, h.rows]
    constructor
    · rintro (rfl | ⟨e, he, rfl⟩)
      · exact ⟨(i, b), List.mem_append_right L List.mem_cons_self, rfl⟩
      · exact ⟨e, List.perm_middle.mem_iff.mpr (List.mem_cons_of_mem _ he), rfl⟩
    · rintro ⟨e, he, rfl⟩
      rcases List.mem_cons.mp (List.perm_middle.mem_iff.mp he) with rfl | hold
      · exact .inl rfl
      · exact .inr ⟨e, hold, rfl⟩
  count := by
    dsimp only
    rw [h.count, List.perm_middle.length_eq, List.length_cons]

omit [DecidableEq ι] [DecidableLT ι] in
/-- A new key has a place in a sorted list. -/
theorem exists_place (h : L.Pairwise fun e e' ↦ e.1 < e'.1) (hi : ∀ e ∈ L, e.1 ≠ i) :
    ∃ L₁ L₂, L = L₁ ++ L₂ ∧ (∀ e ∈ L₁, e.1 < i) ∧ ∀ e ∈ L₂, i < e.1 := by
  induction L with
  | nil => exact ⟨[], [], rfl, fun _ he ↦ absurd he List.not_mem_nil,
      fun _ he ↦ absurd he List.not_mem_nil⟩
  | cons e L ih =>
    obtain ⟨hhead, htail⟩ := List.pairwise_cons.mp h
    obtain ⟨hne, hrest⟩ := List.forall_mem_cons.mp hi
    rcases trichotomous_of (· < ·) e.1 i with hlt | heq | hgt
    · obtain ⟨L₁, L₂, rfl, hlow, hhigh⟩ := ih htail hrest
      exact ⟨e :: L₁, L₂, rfl, List.forall_mem_cons.mpr ⟨hlt, hlow⟩, hhigh⟩
    · exact absurd heq hne
    · refine ⟨[], e :: L, rfl, fun _ he ↦ absurd he List.not_mem_nil, ?_⟩
      exact List.forall_mem_cons.mpr ⟨hgt, fun x hx ↦ trans_of (· < ·) hgt (hhead x hx)⟩

omit [DecidableLT ι] in
/-- Every new entry has a place. -/
theorem exists_insert (h : Listing owner L s) (hnew : owner i b ∉ s.rows) (hi : ∀ e ∈ L, e.1 ≠ i)
    (a : α) : ∃ L' : List (ι × β), L'.Perm ((i, b) :: L) ∧
      Listing owner L' ⟨s.rows.insert (owner i b) a, s.index.insert i b, s.count + 1⟩ := by
  obtain ⟨L₁, L₂, rfl, hlow, hhigh⟩ := exists_place h.sorted hi
  exact ⟨_, List.perm_middle, h.insert hnew hlow hhigh a⟩

omit [DecidableLT ι] in
/-- The head of the list goes. -/
theorem tail (h : Listing owner ((i, b) :: L) s) :
    Listing owner L ⟨s.rows.erase (owner i b), s.index.erase i, s.count - 1⟩ where
  sorted := (List.pairwise_cons.mp h.sorted).2
  index j c := by
    dsimp only
    rcases eq_or_ne j i with rfl | hj
    · rw [AList.lookup_erase]
      exact iff_of_false (fun hc ↦ nomatch hc) fun hmem ↦ h.key_ne _ hmem rfl
    · rw [AList.lookup_erase_ne hj, h.index, List.mem_cons]
      exact or_iff_right fun heq ↦ hj (Prod.mk.inj heq).1
  owners := (List.nodup_cons.mp h.owners).2
  rows k := by
    have hnot := (List.nodup_cons.mp h.owners).1
    rw [AList.mem_erase, h.rows]
    constructor
    · rintro ⟨hk, e, he, rfl⟩
      rcases List.mem_cons.mp he with rfl | htail
      · exact absurd rfl hk
      · exact ⟨e, htail, rfl⟩
    · rintro ⟨e, he, rfl⟩
      refine ⟨fun heq ↦ hnot ?_, e, List.mem_cons_of_mem _ he, rfl⟩
      exact List.mem_map.mpr ⟨e, he, heq⟩
  count := by rw [h.count, List.length_cons, Nat.add_sub_cancel]

/-- Eviction drops the head of the list, down to the cap. -/
theorem evict (h : Listing owner L s) (cap : Nat) :
    Listing owner (L.drop (L.length - cap)) (evict cap owner s) ∧
      ∀ k ∈ (Capped.evict cap owner s).rows, (Capped.evict cap owner s).rows.lookup k = s.rows.lookup k := by
  induction L generalizing s with
  | nil =>
    rw [evict_of_le (by rw [h.count]; exact Nat.zero_le cap), List.drop_nil]
    exact ⟨h, fun _ _ ↦ rfl⟩
  | cons e L ih =>
    obtain ⟨i, b⟩ := e
    obtain hcap | hcap := Nat.lt_or_ge cap s.count
    · have hmem : owner i b ∈ s.rows := (h.rows _).mpr ⟨_, List.mem_cons_self, rfl⟩
      have hlen : cap ≤ L.length := by
        rw [h.count, List.length_cons] at hcap
        exact Nat.le_of_lt_succ hcap
      rw [evict_of_first hcap (first_of_index h.sorted h.index), if_pos hmem, List.length_cons,
        Nat.succ_sub hlen, List.drop_succ_cons]
      obtain ⟨hlisting, hrows⟩ := ih h.tail
      refine ⟨hlisting, fun k hk ↦ (hrows k hk).trans (AList.lookup_erase_ne ?_)⟩
      -- A row that is left is another than the one that went.
      obtain ⟨e, he, rfl⟩ := (hlisting.rows k).mp hk
      intro heq
      exact (List.nodup_cons.mp h.owners).1 (List.mem_map.mpr ⟨e, List.mem_of_mem_drop he, heq⟩)
    · have hle : L.length + 1 - cap = 0 := by
        rw [h.count, List.length_cons] at hcap
        exact Nat.sub_eq_zero_of_le hcap
      rw [evict_of_le hcap, List.length_cons, hle, List.drop_zero]
      exact ⟨h, fun _ _ ↦ rfl⟩

end Listing

/-! ## The counter -/

/-- Without the order: the counter counts, and every row has an entry that names it. -/
structure Counted (owner : ι → β → κ) (s : Capped κ α ι β) : Prop where
  count : s.count = s.rows.keys.length
  named : ∀ k ∈ s.rows, ∃ i b, s.index.lookup i = some b ∧ owner i b = k

omit [LT ι] [DecidableLT ι] [IsStrictTotalOrder ι (· < ·)] in
theorem Counted.empty : Counted owner (Capped.empty : Capped κ α ι β) :=
  ⟨rfl, fun k hk ↦ absurd hk (AList.notMem_empty k)⟩

omit [LT ι] [DecidableLT ι] [IsStrictTotalOrder ι (· < ·)] in
/-- A row is written with its entry. -/
theorem Counted.put (h : Counted owner s) (a : α)
    (hsame : ∀ b', s.index.lookup i = some b' → owner i b' = owner i b) :
    Counted owner ⟨s.rows.insert (owner i b) a, s.index.insert i b,
      if (s.rows.lookup (owner i b)).isNone then s.count + 1 else s.count⟩ where
  count := by
    dsimp only
    rw [AList.length_keys_insert, h.count]
    split <;> rfl
  named k hk := by
    dsimp only at hk ⊢
    rcases (AList.mem_insert _).mp hk with rfl | hold
    · exact ⟨i, b, AList.lookup_insert _, rfl⟩
    · obtain ⟨j, c, hj, rfl⟩ := h.named k hold
      rcases eq_or_ne j i with rfl | hne
      · exact ⟨j, b, AList.lookup_insert _, (hsame c hj).symm⟩
      · exact ⟨j, c, by rw [AList.lookup_insert_ne hne, hj], rfl⟩

omit [LT ι] [DecidableLT ι] [IsStrictTotalOrder ι (· < ·)] in
/-- An entry goes, and the row it names. -/
theorem Counted.erase (h : Counted owner s) (hi : s.index.lookup i = some b) :
    Counted owner ⟨s.rows.erase (owner i b), s.index.erase i,
      if owner i b ∈ s.rows then s.count - 1 else s.count⟩ where
  count := by
    dsimp only
    rw [AList.length_keys_erase, h.count]
    by_cases hk : owner i b ∈ s.rows
    · rw [if_pos hk, if_pos (AList.lookup_isSome.mpr hk)]
    · rw [if_neg hk, if_neg (mt AList.lookup_isSome.mp hk), Nat.sub_zero]
  named k hk := by
    obtain ⟨hne, hold⟩ := AList.mem_erase.mp hk
    obtain ⟨j, c, hj, rfl⟩ := h.named k hold
    refine ⟨j, c, ?_, rfl⟩
    rw [AList.lookup_erase_ne, hj]
    rintro rfl
    rw [hi] at hj
    exact hne (Option.some.inj hj ▸ rfl)

omit [IsStrictTotalOrder ι (· < ·)] in
/-- The loop ends at the cap, and not before the index is empty. -/
theorem Counted.evict {cap : Nat} (h : Counted owner s) :
    Counted owner (evict cap owner s) ∧ (evict cap owner s).count ≤ cap := by
  induction s using Capped.evict.induct cap owner with
  | case1 s hcap hfirst =>
    -- No entry names a row, so there is none.
    have hnone : s.rows.keys = [] := List.eq_nil_iff_forall_not_mem.mpr fun k hk ↦ by
      obtain ⟨i, b, hi, -⟩ := h.named k hk
      rw [lookup_of_first_eq_none hfirst] at hi
      cases hi
    rw [h.count, hnone] at hcap
    exact absurd hcap (Nat.not_lt_zero cap)
  | case2 s hcap i b hfirst ih =>
    rw [evict_of_first hcap hfirst]
    exact ih (h.erase (lookup_of_first hfirst))
  | case3 s hcap =>
    rw [evict_of_le (Nat.le_of_not_lt hcap)]
    exact ⟨h, Nat.le_of_not_lt hcap⟩

end Capped

end Plaine.Lib

import Plaine.Chain.Arena
import Plaine.Chain.MockRun

/-!
# The bookkeeping of the index

The index takes headers in, turns to another chain, has branches marked invalid, and is made anew
from the store at a restart.  Two things it knows of a node are cached: where its branch leaves the
canonical chain, and whether there is an invalid node above it.  Whatever the order of the
operations, the branch base of a node is the height of its deepest canonical ancestor, and the mark
is handed down to every descendant.
-/

namespace Plaine.Chain

open Plaine.Lib Plaine.Consensus

namespace HeaderIndex

variable {index index' : HeaderIndex} {i j n p : Nat} {l : List Nat}

/-- The links of an arena: parents come first, one height below their children; the canonical list
is a lineage; and every branch base is what the parent says. -/
structure Shape (index : HeaderIndex) : Prop where
  pos : 0 < index.nodes.length
  root : index.prev 0 = none ∧ (index.node 0).height = 0
  child : ∀ i, 0 < i → i < index.nodes.length → ∃ p, index.prev i = some p ∧ p < i ∧
    (index.node i).height = (index.node p).height + 1
  tip_lt : index.tipIndex < index.nodes.length
  canonical : Lineage index.prev index.tipIndex index.canonical
  base : ∀ i < index.nodes.length, (index.node i).branchBaseHeight =
    (index.prev i).elim (index.node i).height index.childBase

/-- A node below `n` with an invalid parent is invalid. -/
def PoisonedBelow (index : HeaderIndex) (n : Nat) : Prop :=
  ∀ i < n, ∀ p, index.prev i = some p → (index.node p).invalid = true →
    (index.node i).invalid = true

/-- What the index keeps. -/
structure Kept (index : HeaderIndex) : Prop where
  shape : index.Shape
  poisoned : index.PoisonedBelow index.nodes.length
  found : ∀ {hash i}, index.indexOf hash = some i → i < index.nodes.length

namespace Shape

theorem lt_of_prev (h : index.Shape) (hp : index.prev i = some p) :
    p < i ∧ i < index.nodes.length ∧ (index.node i).height = (index.node p).height + 1 := by
  have hi : i < index.nodes.length := by
    by_contra hge
    rw [prev_of_length_le (Nat.le_of_not_lt hge)] at hp
    cases hp
  have hpos : 0 < i := by
    refine Nat.pos_of_ne_zero fun h0 ↦ ?_
    rw [h0, h.root.1] at hp
    cases hp
  obtain ⟨p', hp', hlt, hheight⟩ := h.child i hpos hi
  obtain rfl := Option.some.inj (hp.symm.trans hp')
  exact ⟨hlt, hi, hheight⟩

/-- Nodes without a parent are at height zero. -/
theorem height_of_prev_none (h : index.Shape) (hp : index.prev i = none) :
    (index.node i).height = 0 := by
  rcases Nat.lt_or_ge i index.nodes.length with hi | hi
  · rcases Nat.eq_zero_or_pos i with rfl | hpos
    · exact h.root.2
    · obtain ⟨p, hp', -⟩ := h.child i hpos hi
      rw [hp] at hp'
      cases hp'
  · rw [node_of_length_le hi]
    rfl

theorem length_lineage (h : index.Shape) (hl : Lineage index.prev i l) :
    l.length = (index.node i).height + 1 :=
  hl.depth (fun _ hp ↦ h.height_of_prev_none hp) fun _ _ _ hp ↦ (h.lt_of_prev hp).2.2

/-- The place of a node in a lineage is its height. -/
theorem height_of_getElem? (h : index.Shape) (hl : Lineage index.prev i l) {k : Nat}
    (hk : l[k]? = some j) : (index.node j).height = k := by
  have hlen := h.length_lineage (hl.take hk)
  have hlt := (List.getElem?_eq_some_iff.mp hk).1
  rw [List.length_take, Nat.min_eq_left hlt] at hlen
  exact (Nat.succ.inj hlen).symm

theorem lt_of_mem (h : index.Shape) (hl : Lineage index.prev i l) (hi : i < index.nodes.length)
    (hj : j ∈ l) : j < index.nodes.length := by
  induction hl with
  | root => exact (List.mem_singleton.mp hj) ▸ hi
  | child hp _ ih =>
    rcases List.mem_append.mp hj with hj | hj
    · exact ih ((h.lt_of_prev hp).1.trans hi) hj
    · exact (List.mem_singleton.mp hj) ▸ hi

/-- The root is canonical. -/
theorem isCanonical_of_prev_none (h : index.Shape) (hi : i < index.nodes.length)
    (hp : index.prev i = none) : index.isCanonical i = true := by
  have hzero : ∀ j < index.nodes.length, index.prev j = none → j = 0 := by
    intro j hj hpj
    by_contra hne
    obtain ⟨p, hp', -⟩ := h.child j (Nat.pos_of_ne_zero hne) hj
    rw [hpj] at hp'
    cases hp'
  obtain rfl := hzero i hi hp
  have hpos := h.canonical.length_pos
  have hfirst := List.getElem?_eq_getElem hpos
  have hroot : index.prev index.canonical[0] = none := by
    by_contra hne
    obtain ⟨p, hp'⟩ := Option.ne_none_iff_exists'.mp hne
    have hheight := (h.lt_of_prev hp').2.2
    rw [h.height_of_getElem? h.canonical hfirst] at hheight
    cases hheight
  have hlt := h.lt_of_mem h.canonical h.tip_lt (List.mem_of_getElem? hfirst)
  rw [isCanonical, h.root.2, hfirst, hzero _ hlt hroot]
  exact decide_eq_true rfl

theorem isCanonical_iff (h : index.Shape) : index.isCanonical i = true ↔ i ∈ index.canonical := by
  rw [isCanonical, decide_eq_true_iff]
  refine ⟨List.mem_of_getElem?, fun hi ↦ ?_⟩
  obtain ⟨k, hk⟩ := List.mem_iff_getElem?.mp hi
  rwa [h.height_of_getElem? h.canonical hk]

/-- The branch base of a node off the canonical chain is the height of its deepest canonical
ancestor. -/
theorem branchBase (h : index.Shape) (hi : i < index.nodes.length) (hl : Lineage index.prev i l)
    (hoff : index.isCanonical i = false) :
    (∃ j ∈ l, index.isCanonical j = true ∧
        (index.node j).height = (index.node i).branchBaseHeight) ∧
      ∀ j ∈ l, index.isCanonical j = true →
        (index.node j).height ≤ (index.node i).branchBaseHeight := by
  have hbase (k p : Nat) (hp : index.prev k = some p) :
      (index.node k).branchBaseHeight = index.childBase p := by
    rw [h.base k (h.lt_of_prev hp).2.1, hp, Option.elim_some]
  refine hl.deepest (fun k ↦ index.isCanonical k = true) (fun k ↦ (index.node k).height)
    (fun k ↦ (index.node k).branchBaseHeight) ?_ ?_ ?_ ?_ ?_
  · intro k hk hp
    exact h.isCanonical_of_prev_none (h.lt_of_mem hl hi hk) hp
  · intro k p hp
    rw [(h.lt_of_prev hp).2.2]
    exact Nat.lt_succ_self _
  · intro k p hp hcan
    rw [hbase k p hp, childBase, if_pos hcan]
  · intro k p hp hcan
    rw [hbase k p hp, childBase, if_neg hcan]
  · rw [hoff]
    exact Bool.false_ne_true

/-- A look-up goes up the lineage. -/
theorem ancestorFrom_eq (h : index.Shape) (hl : Lineage index.prev i l) {fuel : Nat} (hi : i < fuel)
    (height : Nat) : index.ancestorFrom height fuel i = l[height]? := by
  induction hl generalizing fuel with
  | @root i hp =>
    obtain ⟨fuel, rfl⟩ := Nat.exists_eq_succ_of_ne_zero (Nat.ne_zero_of_lt hi)
    rw [ancestorFrom, h.height_of_prev_none hp]
    cases height with
    | zero => rfl
    | succ height => rfl
  | @child i p l hp hl ih =>
    obtain ⟨fuel, rfl⟩ := Nat.exists_eq_succ_of_ne_zero (Nat.ne_zero_of_lt hi)
    obtain ⟨hlt, -, hheight⟩ := h.lt_of_prev hp
    have hlen : l.length = (index.node i).height := by rw [h.length_lineage hl, hheight]
    rw [ancestorFrom, hp, Option.bind_some, ih (hlt.trans_le (Nat.lt_succ_iff.mp hi)), ← hlen]
    rcases Nat.lt_trichotomy height l.length with hbelow | rfl | habove
    · rw [if_neg hbelow.ne', if_neg hbelow.not_gt, List.getElem?_append_left hbelow]
    · rw [if_pos rfl, List.getElem?_concat_length]
    · rw [if_neg habove.ne, if_pos habove, List.getElem?_eq_none]
      rw [List.length_append, List.length_singleton]
      exact habove

theorem ancestorAt_eq (h : index.Shape) (hi : i < index.nodes.length)
    (hl : Lineage index.prev i l) (height : Nat) : index.ancestorAt i height = l[height]? :=
  h.ancestorFrom_eq hl hi height

/-- The heights of a lineage. -/
theorem map_height_lineage (h : index.Shape) (hl : Lineage index.prev i l) :
    l.map (fun j ↦ (index.node j).height) = List.range ((index.node i).height + 1) := by
  refine List.ext_getElem? fun k ↦ ?_
  rw [List.getElem?_map, ← h.length_lineage hl]
  cases hk : l[k]? with
  | none => rw [List.getElem?_eq_none (by simpa using List.getElem?_eq_none_iff.mp hk)]; rfl
  | some j =>
    have hlt := (List.getElem?_eq_some_iff.mp hk).1
    rw [List.getElem?_range hlt, Option.map_some, h.height_of_getElem? hl hk]

end Shape

/-! ## The operations -/

/-- Arenas of one size with one core have the same links. -/
theorem Grows.prev_eq_all (h : index.Grows index') (hlen : index'.nodes.length = index.nodes.length)
    (j : Nat) : index'.prev j = index.prev j := by
  rcases Nat.lt_or_ge j index.nodes.length with hj | hj
  · exact h.prev_eq hj
  · rw [prev_of_length_le hj, prev_of_length_le (hlen.trans_le hj)]

/-- The links do not change, the canonical list may. -/
theorem Shape.of_core (h : index.Shape) (hg : index.Grows index')
    (hlen : index'.nodes.length = index.nodes.length)
    (htip : index'.tipIndex < index'.nodes.length)
    (hcan : Lineage index'.prev index'.tipIndex index'.canonical)
    (hbase : ∀ i < index'.nodes.length, (index'.node i).branchBaseHeight =
      (index'.prev i).elim (index'.node i).height index'.childBase) : index'.Shape where
  pos := hlen ▸ h.pos
  root := by rw [hg.prev_eq h.pos, hg.height_eq h.pos]; exact h.root
  child i hpos hi := by
    rw [hlen] at hi
    obtain ⟨p, hp, hlt, hheight⟩ := h.child i hpos hi
    rw [hg.prev_eq hi, hg.height_eq hi]
    exact ⟨p, hp, hlt, by rw [hheight, hg.height_eq (hlt.trans hi)]⟩
  tip_lt := htip
  canonical := hcan
  base := hbase

theorem node_modify (index : HeaderIndex) (i j : Nat) (f : Node → Node) :
    (index.modify i f).node j = if j = i ∧ i < index.nodes.length then f (index.node j)
      else index.node j := by
  by_cases hj : j = i
  · subst hj
    by_cases hlt : j < index.nodes.length
    · rw [if_pos ⟨rfl, hlt⟩, node_modify_self index hlt]
    · rw [if_neg fun h ↦ hlt h.2, node_of_length_le (Nat.le_of_not_lt hlt), node_of_length_le]
      rw [nodes_length_modify]
      exact Nat.le_of_not_lt hlt
  · rw [if_neg fun h ↦ hj h.1, node_modify_ne index hj]

/-- Changing a flag of a node. -/
theorem Shape.modify (h : index.Shape) (i : Nat) {f : Node → Node} (hf : ∀ n, (f n).core = n.core)
    (hb : ∀ n, (f n).branchBaseHeight = n.branchBaseHeight) : (index.modify i f).Shape := by
  have hg := index.grows_modify i hf
  have hlen := index.nodes_length_modify i f
  have hprev := hg.prev_eq_all hlen
  have hnode (j : Nat) : ((index.modify i f).node j).branchBaseHeight =
      (index.node j).branchBaseHeight := by
    rw [node_modify]
    split
    · rw [hb]
    · rfl
  refine h.of_core hg hlen (hlen.symm ▸ h.tip_lt) (h.canonical.congr fun j _ ↦ hprev j) fun j hj ↦ ?_
  rw [hlen] at hj
  rw [hnode, h.base j hj, hprev, hg.height_eq hj]
  cases hp : index.prev j with
  | none => rfl
  | some p =>
    have hlt := (h.lt_of_prev hp).1.trans hj
    rw [Option.elim_some, Option.elim_some, childBase, childBase, isCanonical, isCanonical, hnode,
      hg.height_eq hlt, canonical_modify]

theorem Kept.setHaveBody (h : index.Kept) (i : Nat) : (index.setHaveBody i).Kept := by
  have hinvalid (j : Nat) : ((index.setHaveBody i).node j).invalid = (index.node j).invalid := by
    rw [HeaderIndex.setHaveBody, node_modify]
    split <;> rfl
  have hlen := index.nodes_length_modify i fun n ↦ { n with haveBody := true }
  refine ⟨h.shape.modify i (fun _ ↦ rfl) fun _ ↦ rfl, fun j hj p hp ↦ ?_,
    fun hfound ↦ (h.found hfound).trans_eq hlen.symm⟩
  rw [(index.grows_setHaveBody i).prev_eq_all hlen] at hp
  rw [hinvalid, hinvalid]
  exact h.poisoned j (hlen ▸ hj) p hp

/-! ### Marks -/

theorem invalid_setInvalidFlag (index : HeaderIndex) (i j : Nat) :
    ((index.setInvalidFlag i).node j).invalid =
      ((j = i ∧ i < index.nodes.length) || (index.node j).invalid) := by
  rw [setInvalidFlag, node_modify]
  split
  case isTrue h => rw [decide_eq_true h, Bool.true_or]
  case isFalse h => rw [decide_eq_false h, Bool.false_or]

theorem prev_setInvalidFlag (index : HeaderIndex) (i j : Nat) :
    (index.setInvalidFlag i).prev j = index.prev j :=
  (index.grows_setInvalidFlag i).prev_eq_all (index.nodes_length_modify _ _) j

/-- A mark on a node that has no children. -/
theorem Kept.setInvalidFlag (h : index.Kept) (hleaf : ∀ j, index.prev j ≠ some i) :
    (index.setInvalidFlag i).Kept := by
  refine ⟨h.shape.modify i (fun _ ↦ rfl) fun _ ↦ rfl, fun j hj p hp ↦ ?_,
    fun hfound ↦ (h.found hfound).trans_eq (index.nodes_length_modify i _).symm⟩
  rw [prev_setInvalidFlag] at hp
  have hne : p ≠ i := by
    rintro rfl
    exact hleaf j hp
  rw [invalid_setInvalidFlag, invalid_setInvalidFlag, decide_eq_false fun heq ↦ hne heq.1,
    Bool.false_or, Bool.or_eq_true]
  intro hinv
  exact .inr (h.poisoned j ((h.shape.lt_of_prev hp).2.1) p hp hinv)

theorem length_poison (index : HeaderIndex) (i : Nat) :
    (index.poison i).nodes.length = index.nodes.length := by
  unfold poison
  split
  · rfl
  · split
    · exact index.nodes_length_modify _ _
    · rfl

theorem prev_poison (index : HeaderIndex) (i j : Nat) : (index.poison i).prev j = index.prev j :=
  (index.grows_poison i).prev_eq_all (index.length_poison i) j

/-- A round of the forward pass hands the mark of a parent down. -/
theorem invalid_poison (index : HeaderIndex) (i j : Nat) : ((index.poison i).node j).invalid =
    ((decide (j = i) && (index.prev i).any fun p ↦ (index.node p).invalid) ||
      (index.node j).invalid) := by
  unfold poison
  cases hp : index.prev i with
  | none => rw [Option.any_none, Bool.and_false, Bool.false_or]
  | some p =>
    have hi : i < index.nodes.length := by
      by_contra hge
      rw [prev_of_length_le (Nat.le_of_not_lt hge)] at hp
      cases hp
    rw [Option.any_some]
    by_cases hmark : (index.node p).invalid = true
    · simp only [if_pos hmark]
      simp [invalid_setInvalidFlag, hi, hmark]
    · simp only [if_neg hmark]
      simp [Bool.eq_false_of_not_eq_true hmark]

theorem PoisonedBelow.poison (hlt : ∀ i p, index.prev i = some p → p < i)
    (h : index.PoisonedBelow n) : (index.poison n).PoisonedBelow (n + 1) := by
  intro i hi p hp hinv
  rw [prev_poison] at hp
  have hpi := hlt i p hp
  have hpn : p ≠ n := (hpi.trans_le (Nat.lt_succ_iff.mp hi)).ne
  rw [invalid_poison, decide_eq_false hpn, Bool.false_and, Bool.false_or] at hinv
  rw [invalid_poison]
  rcases Nat.lt_succ_iff_lt_or_eq.mp hi with hbelow | rfl
  · rw [h i hbelow p hp hinv, Bool.or_true]
  · rw [hp, Option.any_some, hinv, decide_eq_true rfl, Bool.and_self, Bool.true_or]

theorem length_markInvalid (index : HeaderIndex) (i : Nat) :
    (index.markInvalid i).nodes.length = index.nodes.length := by
  have hset := index.nodes_length_modify i fun n ↦ { n with invalid := true }
  rw [← hset]
  unfold markInvalid HeaderIndex.setInvalidFlag
  generalize index.modify i _ = marked
  induction List.range' (i + 1) (index.nodes.length - (i + 1)) generalizing marked with
  | nil => rfl
  | cons j js ih => rw [List.foldl_cons, ih, length_poison]

theorem byHash_markInvalid (index : HeaderIndex) (i : Nat) :
    (index.markInvalid i).byHash = index.byHash := by
  unfold markInvalid
  have hset : (index.setInvalidFlag i).byHash = index.byHash := rfl
  rw [← hset]
  generalize index.setInvalidFlag i = marked
  induction List.range' (i + 1) (index.nodes.length - (i + 1)) generalizing marked with
  | nil => rfl
  | cons j js ih =>
    rw [List.foldl_cons, ih]
    unfold poison
    split
    · rfl
    · split <;> rfl

/-- The forward pass from `a` on. -/
theorem PoisonedBelow.foldl_poison (hlt : ∀ i p, index.prev i = some p → p < i) {a : Nat}
    (h : index.PoisonedBelow a) (k : Nat) :
    ((List.range' a k).foldl HeaderIndex.poison index).PoisonedBelow (a + k) := by
  induction k generalizing index a with
  | zero => exact h
  | succ k ih =>
    rw [List.range'_succ, List.foldl_cons, Nat.add_comm k, ← Nat.add_assoc]
    exact ih (fun i p hp ↦ hlt i p (prev_poison index a i ▸ hp)) (h.poison hlt)

theorem Shape.poison (h : index.Shape) (i : Nat) : (index.poison i).Shape := by
  unfold HeaderIndex.poison
  split
  · exact h
  · split
    · exact h.modify _ (fun _ ↦ rfl) fun _ ↦ rfl
    · exact h

/-- The mark goes to every descendant. -/
theorem Kept.markInvalid (h : index.Kept) (i : Nat) : (index.markInvalid i).Kept := by
  have hmarked : (index.setInvalidFlag i).Shape := h.shape.modify i (fun _ ↦ rfl) fun _ ↦ rfl
  -- the children of the node come after it
  have hbelow : (index.setInvalidFlag i).PoisonedBelow (i + 1) := by
    intro j hj p hp hinv
    rw [prev_setInvalidFlag] at hp
    obtain ⟨hlt, hjlt, -⟩ := h.shape.lt_of_prev hp
    have hne : p ≠ i := (hlt.trans_le (Nat.lt_succ_iff.mp hj)).ne
    rw [invalid_setInvalidFlag, decide_eq_false fun heq ↦ hne heq.1, Bool.false_or] at hinv
    rw [invalid_setInvalidFlag, h.poisoned j hjlt p hp hinv, Bool.or_true]
  have hall := hbelow.foldl_poison (fun j p hp ↦ (hmarked.lt_of_prev hp).1)
    (index.nodes.length - (i + 1))
  constructor
  · unfold HeaderIndex.markInvalid
    generalize index.setInvalidFlag i = marked at hmarked
    induction List.range' (i + 1) (index.nodes.length - (i + 1)) generalizing marked with
    | nil => exact hmarked
    | cons j js ih => exact ih _ (hmarked.poison j)
  · intro j hj p hp hinv
    rw [length_markInvalid] at hj
    exact hall j (by omega) p hp hinv
  · intro hash j hfound
    rw [indexOf, byHash_markInvalid] at hfound
    exact (h.found hfound).trans_eq (index.length_markInvalid i).symm

/-! ### The canonical chain -/

theorem invalid_foldl_rebase (index : HeaderIndex) (js : List Nat) (j : Nat) :
    ((js.foldl rebase index).node j).invalid = (index.node j).invalid := by
  induction js generalizing index with
  | nil => rfl
  | cons i js ih =>
    rw [List.foldl_cons, ih, rebase, node_modify]
    split <;> rfl

/-- Turning to the lineage of a node. -/
theorem Kept.setCanonical (h : index.Kept) {best : Nat} {chain : List Nat}
    (hbest : best < index.nodes.length) (hchain : Lineage index.prev best chain) :
    (index.setCanonical chain).Kept := by
  set moved : HeaderIndex := { index with canonical := chain } with hmoved
  have hlen : (index.setCanonical chain).nodes.length = index.nodes.length :=
    length_rebase_range moved moved.nodes.length
  have hg := index.grows_setCanonical chain
  have hprev := hg.prev_eq_all hlen
  have hcan := index.canonical_setCanonical chain
  have htip : (index.setCanonical chain).tipIndex = best := by
    rw [tipIndex, hcan, List.getLastD_eq_getLast?, hchain.getLast?, Option.getD_some]
  constructor
  · refine h.shape.of_core hg hlen (htip ▸ hlen.symm ▸ hbest) ?_ ?_
    · rw [htip, hcan]
      exact hchain.congr fun j _ ↦ hprev j
    · intro i hi
      exact moved.base_rebase_range (fun i p hp ↦ (h.shape.lt_of_prev hp).1) le_rfl i (hlen ▸ hi)
  · intro j hj p hp hinv
    rw [hprev] at hp
    rw [HeaderIndex.setCanonical, invalid_foldl_rebase] at hinv ⊢
    exact h.poisoned j (hlen ▸ hj) p hp hinv
  · intro hash j hfound
    have hbyHash : (index.setCanonical chain).byHash = index.byHash := (rebase_range moved _).2.1
    rw [indexOf, hbyHash] at hfound
    exact (h.found hfound).trans_eq hlen.symm

/-! ### New nodes -/

theorem node_append (index : HeaderIndex) (new : Node) (byHash : AList fun _ : Hash32 ↦ Nat) (j : Nat) :
    node { index with nodes := index.nodes ++ [new], byHash } j =
      if j = index.nodes.length then new else index.node j := by
  rw [node, node, List.getD_eq_getElem?_getD, List.getD_eq_getElem?_getD]
  rcases Nat.lt_trichotomy j index.nodes.length with hlt | rfl | hgt
  · rw [if_neg hlt.ne, List.getElem?_append_left hlt]
  · rw [if_pos rfl, List.getElem?_concat_length, Option.getD_some]
  · rw [if_neg hgt.ne', List.getElem?_eq_none (by simpa using hgt), List.getElem?_eq_none hgt.le]

section

variable [Crypto]

/-- The index of a genesis header. -/
theorem kept_insertGenesis {r : HeaderRec} (h : r.height = 0) (work : Work) :
    (insertGenesis r work).Kept := by
  have hone (i : Nat) (hi : i < (insertGenesis r work).nodes.length) : i = 0 := Nat.lt_one_iff.mp hi
  refine ⟨⟨Nat.one_pos, ⟨rfl, h⟩, ?_, Nat.one_pos, .root rfl, ?_⟩, ?_, ?_⟩
  · intro i hpos hi
    exact absurd (hone i hi) hpos.ne'
  · intro i hi
    obtain rfl := hone i hi
    rfl
  · intro i hi p hp
    obtain rfl := hone i hi
    cases hp
  · intro hash i hfound
    by_cases heq : hash = r.hash
    · subst heq
      rw [indexOf, insertGenesis, AList.lookup_insert] at hfound
      exact (Option.some.inj hfound) ▸ Nat.one_pos
    · rw [indexOf, insertGenesis, AList.lookup_insert_ne heq, AList.lookup_empty] at hfound
      cases hfound

/-- A header one above its parent. -/
theorem Kept.insert (h : index.Kept) {r : HeaderRec} (hp : p < index.nodes.length)
    (hheight : r.height = (index.node p).height + 1) (work : Work) (powOk : Bool) :
    (index.insert r p work powOk).2.Kept := by
  cases hold : index.indexOf r.hash with
  | some i =>
    rw [insert_of_known _ _ _ _ _ hold]
    exact h
  | none =>
    rw [insert_of_new _ _ _ _ _ hold]
    set out : HeaderIndex := { index with
      nodes := index.nodes ++ [index.childNode r p work powOk]
      byHash := index.byHash.insert r.hash index.nodes.length } with hout
    have hlen : out.nodes.length = index.nodes.length + 1 := List.length_append
    have hnew : out.node index.nodes.length = index.childNode r p work powOk := by
      rw [hout, node_append, if_pos rfl]
    have hnode (i : Nat) (hi : i < index.nodes.length) : out.node i = index.node i := by
      rw [hout, node_append, if_neg hi.ne]
    have hprev (i : Nat) (hi : i < index.nodes.length) : out.prev i = index.prev i := by
      rw [prev, prev, hnode i hi]
    have hbase (i : Nat) (hi : i < index.nodes.length) : out.childBase i = index.childBase i :=
      childBase_congr rfl (hnode i hi)
    have hcases (i : Nat) (hi : i < out.nodes.length) : i < index.nodes.length ∨
        i = index.nodes.length := Nat.lt_succ_iff_lt_or_eq.mp (hi.trans_eq hlen)
    constructor
    · refine ⟨hlen.symm ▸ Nat.succ_pos _, ?_, ?_, ?_, ?_, ?_⟩
      · rw [hprev 0 h.shape.pos, hnode 0 h.shape.pos]
        exact h.shape.root
      · intro i hpos hi
        rcases hcases i hi with hi | rfl
        · obtain ⟨q, hq, hlt, hqheight⟩ := h.shape.child i hpos hi
          rw [hprev i hi, hnode i hi]
          exact ⟨q, hq, hlt, by rw [hqheight, hnode q (hlt.trans hi)]⟩
        · rw [prev, hnew]
          exact ⟨p, rfl, hp, by rw [hnode p hp]; exact hheight⟩
      · exact h.shape.tip_lt.trans (hlen.symm ▸ Nat.lt_succ_self _)
      · refine h.shape.canonical.congr fun j hj ↦ hprev j ?_
        exact h.shape.lt_of_mem h.shape.canonical h.shape.tip_lt hj
      · intro i hi
        rcases hcases i hi with hi | rfl
        · rw [hprev i hi, hnode i hi, h.shape.base i hi]
          cases hq : index.prev i with
          | none => rfl
          | some q => exact (hbase q ((h.shape.lt_of_prev hq).1.trans hi)).symm
        · rw [prev, hnew]
          exact (hbase p hp).symm
    · intro i hi q hq hinv
      rcases hcases i hi with hi | rfl
      · rw [hprev i hi] at hq
        rw [hnode q ((h.shape.lt_of_prev hq).1.trans hi)] at hinv
        rw [hnode i hi]
        exact h.poisoned i hi q hq hinv
      · rw [prev, hnew] at hq
        cases hq
        rw [hnode p hp] at hinv
        rw [hnew]
        exact hinv
    · intro hash i hfound
      rw [hlen]
      by_cases heq : hash = r.hash
      · subst heq
        have hself : out.indexOf r.hash = some index.nodes.length := AList.lookup_insert _
        exact (Option.some.inj (hself.symm.trans hfound)) ▸ Nat.lt_succ_self _
      · have hlook : out.indexOf hash = index.indexOf hash := AList.lookup_insert_ne heq
        exact (h.found (hlook.symm.trans hfound)).trans (Nat.lt_succ_self _)

/-- A sound arena has this shape. -/
theorem Wf.shape {D : Realm} (h : index.Wf D) : index.Shape where
  pos := h.pos
  root := by
    have hheight := h.root.2.height
    rw [List.length_singleton] at hheight
    exact ⟨h.root.1, Nat.succ.inj hheight⟩
  child i hpos hi := by
    obtain ⟨p, _, _, hp, hlt, -, -⟩ := h.child i hpos hi
    exact ⟨p, hp, hlt, h.height_prev hp⟩
  tip_lt := h.tip_lt
  canonical := h.canonical
  base := h.base

end

end HeaderIndex

/-! ## Restarts -/

section

variable [Crypto] {σ : Type} [Store σ] {s : σ} {params : ChainParams} {index index' : HeaderIndex}

open HeaderIndex

/-- The headers of the canonical chain of a store are where their heights say, and none is there
twice. -/
structure Numbered (s : σ) : Prop where
  height : ∀ {h r}, Store.headerAt s h = some r → r.height = h
  distinct : ∀ {h h' r r'}, Store.headerAt s h = some r → Store.headerAt s h' = some r' →
    r.hash = r'.hash → h = h'

/-- An arena that holds the first `n` headers of a store one after the other. -/
structure Loaded (s : σ) (n : Nat) (chain : List Nat) (index : HeaderIndex) : Prop where
  kept : index.Kept
  length : index.nodes.length = n + 1
  last : chain.getLastD 0 = n
  lineage : Lineage index.prev n chain
  height : (index.node n).height = n
  byHash : ∀ {hash i}, index.indexOf hash = some i →
    i ≤ n ∧ ∃ r, Store.headerAt s i = some r ∧ r.hash = hash

theorem loaded_insertGenesis (hs : Numbered s) {g : HeaderRec} (hg : Store.headerAt s 0 = some g)
    (work : Work) : Loaded s 0 [0] (insertGenesis g work) where
  kept := kept_insertGenesis (hs.height hg) work
  length := rfl
  last := rfl
  lineage := .root rfl
  height := hs.height hg
  byHash {hash i} h := by
    by_cases heq : hash = g.hash
    · subst heq
      rw [indexOf, insertGenesis, AList.lookup_insert] at h
      obtain rfl := Option.some.inj h
      exact ⟨le_rfl, g, hg, rfl⟩
    · rw [indexOf, insertGenesis, AList.lookup_insert_ne heq, AList.lookup_empty] at h
      cases h

/-- One header more. -/
theorem Loaded.insert (hs : Numbered s) {n : Nat} {chain : List Nat} (h : Loaded s n chain index)
    {r : HeaderRec} (hr : Store.headerAt s (n + 1) = some r) (work : Work) :
    Loaded s (n + 1) (chain ++ [(index.insert r (chain.getLastD 0) work true).1])
      ((index.insert r (chain.getLastD 0) work true).2.setHaveBody
        (index.insert r (chain.getLastD 0) work true).1) := by
  have hnew : index.indexOf r.hash = none := by
    by_contra hne
    obtain ⟨i, hi⟩ := Option.ne_none_iff_exists'.mp hne
    obtain ⟨hle, r', hr', heq⟩ := h.byHash hi
    exact absurd (hs.distinct hr' hr heq) (Nat.lt_succ_of_le hle).ne
  have hlt : n < index.nodes.length := h.length ▸ Nat.lt_succ_self n
  have hkept := h.kept.insert hlt
    (show r.height = (index.node n).height + 1 by rw [hs.height hr, h.height]) work true
  rw [h.last]
  rw [insert_of_new _ _ _ _ _ hnew] at hkept ⊢
  set out : HeaderIndex := { index with
    nodes := index.nodes ++ [index.childNode r n work true]
    byHash := index.byHash.insert r.hash index.nodes.length } with hout
  show Loaded s (n + 1) (chain ++ [index.nodes.length]) (out.setHaveBody index.nodes.length)
  rw [h.length]
  have hnode (j : Nat) : out.node j = if j = n + 1 then index.childNode r n work true
      else index.node j := by rw [hout, node_append, h.length]
  have hprev (j : Nat) : (out.setHaveBody (n + 1)).prev j = out.prev j :=
    (out.grows_setHaveBody _).prev_eq_all (out.nodes_length_modify _ _) j
  refine ⟨hkept.setHaveBody _, ?_, by simp, .child ?_ (h.lineage.congr fun j hj ↦ ?_), ?_,
    fun {hash i} hi ↦ ?_⟩
  · rw [HeaderIndex.setHaveBody, nodes_length_modify, hout, List.length_append, h.length]
    rfl
  · rw [hprev, prev, hnode, if_pos rfl]
    rfl
  · have hjn : j ≠ n + 1 := by
      have := h.kept.shape.lt_of_mem h.lineage hlt hj
      rw [h.length] at this
      exact this.ne
    rw [hprev, prev, hnode, if_neg hjn, prev]
  · rw [HeaderIndex.setHaveBody, node_modify]
    split
    all_goals
      rw [hnode, if_pos rfl]
      exact hs.height hr
  · by_cases heq : hash = r.hash
    · subst heq
      have hself : (out.setHaveBody (n + 1)).indexOf r.hash = some index.nodes.length :=
        AList.lookup_insert _
      obtain rfl := Option.some.inj (hself.symm.trans hi)
      rw [h.length]
      exact ⟨le_rfl, r, hr, rfl⟩
    · have hlook : (out.setHaveBody (n + 1)).indexOf hash = index.indexOf hash :=
        AList.lookup_insert_ne heq
      rw [hlook] at hi
      obtain ⟨hle, hfound⟩ := h.byHash hi
      exact ⟨Nat.le_succ_of_le hle, hfound⟩

/-- The loop of `load_from_store`. -/
theorem loaded_loadChain (hs : Numbered s) {k n : Nat} {cum : Work} {chain chain' : List Nat}
    (h : Loaded s n chain index)
    (hload : loadChain s params k (n + 1) cum chain index = .ok (chain', index')) :
    ∃ n', Loaded s n' chain' index' := by
  induction k generalizing n cum chain index with
  | zero =>
    cases hload
    exact ⟨n, h⟩
  | succ k ih =>
    unfold loadChain at hload
    cases hr : Store.headerAt s (n + 1) with
    | none =>
      rw [hr] at hload
      cases hload
      exact ⟨n, h⟩
    | some r =>
      simp only [hr, Except.bind_eq_ok, Except.ofOption_eq_ok] at hload
      obtain ⟨w, -, cum', -, hload⟩ := hload
      exact ih (h.insert hs hr cum') hload

/-- A header put back from the store: it has no children yet. -/
theorem kept_admitStored (h : index.Kept) {r : HeaderRec} {idx : Nat}
    (hnew : index.indexOf r.hash = none) (hadmitted : admitStored s params index r = some (idx, index')) :
    index'.Kept := by
  simp only [admitStored, Option.bind_eq_bind, Option.bind_eq_some_iff] at hadmitted
  obtain ⟨parent, hp, hadmitted⟩ := hadmitted
  split at hadmitted
  case isFalse => cases hadmitted
  case isTrue hheight =>
    simp only [Option.bind_eq_some_iff] at hadmitted
    obtain ⟨w, -, cum, -, hadmitted⟩ := hadmitted
    have hins := h.insert (h.found hp) hheight.symm cum true
    rw [insert_of_new _ _ _ _ _ hnew] at hins hadmitted
    cases hadmitted
    split
    case isFalse => exact hins
    case isTrue =>
      refine hins.setInvalidFlag fun j hj ↦ ?_
      obtain ⟨hlt, hjlt, -⟩ := hins.shape.lt_of_prev hj
      rw [List.length_append, List.length_singleton] at hjlt
      exact absurd hlt (Nat.not_lt.mpr (Nat.lt_succ_iff.mp hjlt))

theorem kept_rebuildSideArena (h : index.Kept) (rows : List HeaderRec) (restored : Nat) :
    (rebuildSideArena s params rows restored index).Kept := by
  induction rows generalizing restored index with
  | nil => exact h
  | cons r rows ih =>
    unfold rebuildSideArena
    split
    · exact h
    split
    · exact ih h restored
    case isFalse hnew =>
      have hnone : index.indexOf r.hash = none := by
        rwa [contains, Bool.not_eq_true, Option.isSome_eq_false_iff, Option.isNone_iff_eq_none]
          at hnew
      cases hadmitted : admitStored s params index r with
      | none => exact ih h restored
      | some out => exact ih (kept_admitStored h hnone hadmitted) _

/-- The index made at a restart. -/
theorem kept_loadFromStore (hs : Numbered s) {time : Nat} {ledger : CoinbaseLedger}
    (hload : loadFromStore s params = .ok (time, index, ledger)) : index.Kept := by
  simp only [loadFromStore, Except.bind_eq_ok, Except.ofOption_eq_ok, Prod.exists] at hload
  obtain ⟨g, hg, gw, -, chain, loaded, hchain, l, -, hout⟩ := hload
  cases hout
  obtain ⟨n, hloaded⟩ := loaded_loadChain hs (loaded_insertGenesis hs hg gw) hchain
  exact kept_rebuildSideArena
    (hloaded.kept.setCanonical (hloaded.length.symm ▸ Nat.lt_succ_self n) hloaded.lineage) _ _

end

/-! ## Runs -/

section

variable [Crypto]

/-- An index as its operations make it, in any order: headers are inserted one above their parents,
or put back from a store when they are not there, bodies arrive, nodes are marked invalid, and the
lineage of any node is made canonical. -/
inductive Maintained : HeaderIndex → Prop
  | genesis {r : HeaderRec} (work : Work) : r.height = 0 → Maintained (.insertGenesis r work)
  | restart {σ : Type} [Store σ] {s : σ} {params : ChainParams} {time : Nat} {index : HeaderIndex}
      {ledger : CoinbaseLedger} : Numbered s →
      loadFromStore s params = .ok (time, index, ledger) → Maintained index
  | insert {index : HeaderIndex} {r : HeaderRec} {parent : Nat} (work : Work) (powOk : Bool) :
      Maintained index → parent < index.nodes.length →
      r.height = (index.node parent).height + 1 → Maintained (index.insert r parent work powOk).2
  | readmit {σ : Type} [Store σ] {s : σ} {params : ChainParams} {index index' : HeaderIndex}
      {r : HeaderRec} {idx : Nat} : Maintained index → index.indexOf r.hash = none →
      admitStored s params index r = some (idx, index') → Maintained index'
  | setHaveBody {index : HeaderIndex} (idx : Nat) : Maintained index →
      Maintained (index.setHaveBody idx)
  | markInvalid {index : HeaderIndex} (idx : Nat) : Maintained index →
      Maintained (index.markInvalid idx)
  | setCanonical {index : HeaderIndex} {best : Nat} {chain : List Nat} : Maintained index →
      best < index.nodes.length → Lineage index.prev best chain →
      Maintained (index.setCanonical chain)

theorem Maintained.kept {index : HeaderIndex} (h : Maintained index) : index.Kept := by
  induction h with
  | genesis work hheight => exact HeaderIndex.kept_insertGenesis hheight work
  | restart hs hload => exact kept_loadFromStore hs hload
  | insert work powOk _ hparent hheight ih => exact ih.insert hparent hheight work powOk
  | readmit _ hnew hadmitted ih => exact kept_admitStored ih hnew hadmitted
  | setHaveBody idx _ ih => exact ih.setHaveBody idx
  | markInvalid idx _ ih => exact ih.markInvalid idx
  | setCanonical _ hbest hchain ih => exact ih.setCanonical hbest hchain

/-- The bookkeeping of the index.  A node has one path to the root, one node for each height up to its
own, and looking up an ancestor at a height gives the node of the path there; off the canonical chain
the branch base is the height of the deepest canonical node of the path; and a node with an invalid
node on its path is invalid. -/
theorem index_bookkeeping {index : HeaderIndex} (h : Maintained index) {i : Nat}
    (hi : i < index.nodes.length) : ∃ l, Lineage index.prev i l ∧
      l.map (fun j ↦ (index.node j).height) = List.range ((index.node i).height + 1) ∧
      (∀ height, index.ancestorAt i height = l[height]?) ∧
      (index.isCanonical i = false →
        (∃ j ∈ l, index.isCanonical j = true ∧
          (index.node j).height = (index.node i).branchBaseHeight) ∧
        ∀ j ∈ l, index.isCanonical j = true →
          (index.node j).height ≤ (index.node i).branchBaseHeight) ∧
      ∀ j ∈ l, (index.node j).invalid = true → (index.node i).invalid = true := by
  have hkept := h.kept
  obtain ⟨l, hl⟩ := Lineage.exists_of_lt (fun _ _ hp ↦ (hkept.shape.lt_of_prev hp).1) i
  refine ⟨l, hl, hkept.shape.map_height_lineage hl, hkept.shape.ancestorAt_eq hi hl,
    hkept.shape.branchBase hi hl, fun j hj hinv ↦ ?_⟩
  refine hl.inherits (fun k ↦ (index.node k).invalid = true) (fun k p hp ↦ ?_) hj hinv
  exact hkept.poisoned k (hkept.shape.lt_of_prev hp).2.1 p hp

end

namespace Bookkeeping

open Scene

/-- A store with the genesis block. -/
def store : @MemStore crypto :=
  letI := crypto
  ⟨[.fromRaw genesis], [], ∅, ∅, ∅, ∅, ∅, [], none, 0, 0, 0⟩

/-- Its index. -/
def start : HeaderIndex :=
  letI := crypto
  (((loadFromStore store params).toOption).map (·.2.1)).getD .new

/-- Two branches on the genesis block. -/
def both : HeaderIndex :=
  letI := crypto
  ((start.insert (.fromRaw first) 0 0 true).2.insert (.fromRaw rival) 0 0 true).2

/-- A block on the first branch, which was marked invalid before. -/
def longer : HeaderIndex :=
  letI := crypto
  ((both.markInvalid 1).insert (.fromRaw second) 1 0 true).2

/-- The second branch made canonical. -/
def forked : HeaderIndex := longer.setCanonical [0, 2]

theorem numbered_store : letI := crypto
    Numbered store := by
  let _ := crypto
  have hzero : ∀ {h : Nat} {r}, Store.headerAt store h = some r → h = 0 ∧ r = .fromRaw genesis := by
    intro h r hr
    cases h with
    | zero => exact ⟨rfl, (Option.some.inj hr).symm⟩
    | succ h => cases hr
  refine ⟨fun hr ↦ ?_, fun hr hr' _ ↦ (hzero hr).1.trans (hzero hr').1.symm⟩
  obtain ⟨rfl, rfl⟩ := hzero hr
  decide +kernel

theorem maintained_start : letI := crypto
    Maintained start := by
  let _ := crypto
  have hload : (loadFromStore store params).toOption.isSome = true := by decide +kernel
  obtain ⟨⟨time, index, ledger⟩, hsome⟩ := Option.isSome_iff_exists.mp hload
  have hindex : start = index := by
    rw [start, hsome]
    rfl
  cases hok : loadFromStore store params with
  | error e =>
    rw [hok] at hsome
    cases hsome
  | ok out =>
    rw [hok] at hsome
    cases hsome
    exact hindex ▸ .restart numbered_store hok

theorem maintained_forked : letI := crypto
    Maintained forked := by
  let _ := crypto
  have hsteps : (0 < start.nodes.length ∧
      (HeaderRec.fromRaw first).height = (start.node 0).height + 1) ∧
      (0 < (start.insert (.fromRaw first) 0 0 true).2.nodes.length ∧
        (HeaderRec.fromRaw rival).height =
          ((start.insert (.fromRaw first) 0 0 true).2.node 0).height + 1) ∧
      (1 < (both.markInvalid 1).nodes.length ∧
        (HeaderRec.fromRaw second).height = ((both.markInvalid 1).node 1).height + 1) ∧
      longer.prev 0 = none ∧ longer.prev 2 = some 0 ∧ 2 < longer.nodes.length := by decide +kernel
  obtain ⟨hfirst, hrival, hsecond, hroot, hlink, hbest⟩ := hsteps
  have hone : Maintained (start.insert (.fromRaw first) 0 0 true).2 :=
    .insert 0 true maintained_start hfirst.1 hfirst.2
  generalize hmid : (start.insert (.fromRaw first) 0 0 true).2 = mid at hone hrival
  have hboth : Maintained both := by
    rw [both, hmid]
    exact .insert 0 true hone hrival.1 hrival.2
  have hlonger : Maintained longer := .insert 0 true (.markInvalid 1 hboth) hsecond.1 hsecond.2
  exact .setCanonical hlonger hbest (.child hlink (.root hroot))

end Bookkeeping

open Bookkeeping in
/-- The block on the invalid one is invalid, and branches off at the genesis block. -/
theorem index_bookkeeping_forked :
    forked.ancestorAt 3 1 = some 1 ∧ (forked.node 3).branchBaseHeight = 0 ∧
      (forked.node 3).invalid = true := by
  let _ := Scene.crypto
  have hfacts : 3 < forked.nodes.length ∧
      (forked.prev 0 = none ∧ forked.prev 1 = some 0 ∧ forked.prev 3 = some 1) ∧
      (forked.isCanonical 1 = false ∧ forked.isCanonical 3 = false) ∧
      (forked.node 0).height = 0 ∧ (forked.node 1).invalid = true := by decide +kernel
  obtain ⟨hlength, hlinks, hoff, hzero, hmark⟩ := hfacts
  obtain ⟨l, hl, -, hancestor, hbase, hinvalid⟩ := index_bookkeeping maintained_forked hlength
  obtain rfl : l = [0, 1, 3] :=
    hl.unique (.child hlinks.2.2 (.child hlinks.2.1 (.root hlinks.1)))
  obtain ⟨⟨j, hj, hcan, heq⟩, -⟩ := hbase hoff.2
  refine ⟨hancestor 1, ?_, hinvalid 1 (by simp) hmark⟩
  simp only [List.mem_cons, List.not_mem_nil, or_false] at hj
  rcases hj with rfl | rfl | rfl
  · rw [← heq, hzero]
  · rw [hoff.1] at hcan
    cases hcan
  · rw [hoff.2] at hcan
    cases hcan

end Plaine.Chain

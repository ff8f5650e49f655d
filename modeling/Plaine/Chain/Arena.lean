import Plaine.Chain.HeaderChain

/-!
# What the arena keeps

`HeaderIndex.Wf D index`: every node of the arena stands for the last header of a linked chain
of the realm, its parent link leads to the node of the header before, its work is the chain's,
and the canonical list is the lineage of the tip.  Each operation of the index keeps it.
`Grows` is what no operation changes: the nodes there are, but for their flags and branch
bases.
-/

namespace Plaine.Chain

open Plaine.Lib Plaine.Consensus

/-- A node without its flags and its branch base. -/
def Node.core (n : Node) : Node :=
  { n with branchBaseHeight := 0, invalid := false, haveBody := false }

/-- What nodes of one core agree on. -/
theorem Node.core_eq_iff {n n' : Node} : n'.core = n.core ↔
    n'.hash = n.hash ∧ n'.prev = n.prev ∧ n'.height = n.height ∧ n'.time = n.time ∧
      n'.bits = n.bits ∧ n'.cumWork = n.cumWork ∧ n'.powOk = n.powOk := by
  simp [Node.core]

section

variable [Crypto]

/-- A node that stands for the last header of a chain. -/
structure Node.StandsFor (n : Node) (D : Realm) (rs : List HeaderRec) : Prop where
  linked : D.Linked rs
  hash : rs.getLast?.map HeaderRec.hash = some n.hash
  time : rs.getLast?.map HeaderRec.time = some n.time
  bits : rs.getLast?.map HeaderRec.bits = some n.bits
  height : n.height + 1 = rs.length
  work : n.cumWork = D.chainWork rs

namespace Node.StandsFor

variable {D : Realm} {n n' : Node} {rs rs' : List HeaderRec}

theorem of_core (h : n.StandsFor D rs) (heq : n'.core = n.core) : n'.StandsFor D rs := by
  obtain ⟨hhash, -, hheight, htime, hbits, hwork, -⟩ := Node.core_eq_iff.mp heq
  exact ⟨h.linked, hhash ▸ h.hash, htime ▸ h.time, hbits ▸ h.bits, hheight ▸ h.height,
    hwork ▸ h.work⟩

/-- Nodes with one hash stand for one chain. -/
theorem unique (h : n.StandsFor D rs) (h' : n'.StandsFor D rs') (heq : n.hash = n'.hash) :
    rs = rs' :=
  h.linked.unique h'.linked (by rw [h.hash, h'.hash, heq])

theorem exists_last (h : n.StandsFor D rs) :
    ∃ r, rs.getLast? = some r ∧ r.hash = n.hash ∧ r.time = n.time ∧ r.bits = n.bits ∧
      r.height = n.height := by
  obtain ⟨r, hr⟩ := Option.isSome_iff_exists.mp (List.getLast?_isSome.mpr h.linked.ne_nil)
  have hhash := h.hash
  have htime := h.time
  have hbits := h.bits
  have hheight := h.linked.height_last hr
  rw [hr] at hhash htime hbits
  have := h.height
  exact ⟨r, hr, Option.some.inj hhash, Option.some.inj htime, Option.some.inj hbits, by omega⟩

/-- The node made for a header that follows a chain stands for the longer chain. -/
theorem snoc {r : HeaderRec} {p : Nat} {index : HeaderIndex} {w : Work} {powOk : Bool}
    (hl : D.Linked rs) (hf : D.Follows rs r) (hw : w = D.chainWork (rs ++ [r])) :
    (index.childNode r p w powOk).StandsFor D (rs ++ [r]) where
  linked := .snoc hl hf
  hash := by simp [HeaderIndex.childNode]
  time := by simp [HeaderIndex.childNode]
  bits := by simp [HeaderIndex.childNode]
  height := by simp [HeaderIndex.childNode, hf.height]
  work := hw

end Node.StandsFor

end

namespace HeaderIndex

theorem node_eq_getElem {index : HeaderIndex} {i : Nat} (hi : i < index.nodes.length) :
    index.node i = index.nodes[i] := by
  rw [node, List.getD_eq_getElem?_getD, List.getElem?_eq_getElem hi, Option.getD_some]

theorem node_of_length_le {index : HeaderIndex} {i : Nat} (hi : index.nodes.length ≤ i) :
    index.node i = default := by
  rw [node, List.getD_eq_getElem?_getD, List.getElem?_eq_none hi, Option.getD_none]

theorem prev_of_length_le {index : HeaderIndex} {i : Nat} (hi : index.nodes.length ≤ i) :
    index.prev i = none := by
  rw [prev, node_of_length_le hi]
  rfl

/-! ## Growth -/

/-- The nodes of the first arena are nodes of the second, but for flags and branch bases. -/
def Grows (index index' : HeaderIndex) : Prop :=
  index.nodes.map Node.core <+: index'.nodes.map Node.core

namespace Grows

variable {index index' index'' : HeaderIndex}

protected theorem refl (index : HeaderIndex) : index.Grows index := List.prefix_refl _

protected theorem trans (h : index.Grows index') (h' : index'.Grows index'') :
    index.Grows index'' :=
  List.IsPrefix.trans h h'

theorem length_le (h : index.Grows index') : index.nodes.length ≤ index'.nodes.length := by
  simpa using List.IsPrefix.length_le h

theorem core_eq (h : index.Grows index') {i : Nat} (hi : i < index.nodes.length) :
    (index'.node i).core = (index.node i).core := by
  have hi' := hi.trans_le h.length_le
  have heq := List.IsPrefix.getElem h (i := i) (by simpa using hi)
  simp only [List.getElem_map] at heq
  rw [node_eq_getElem hi, node_eq_getElem hi', heq]

theorem hash_eq (h : index.Grows index') {i : Nat} (hi : i < index.nodes.length) :
    (index'.node i).hash = (index.node i).hash :=
  (Node.core_eq_iff.mp (h.core_eq hi)).1

theorem height_eq (h : index.Grows index') {i : Nat} (hi : i < index.nodes.length) :
    (index'.node i).height = (index.node i).height :=
  (Node.core_eq_iff.mp (h.core_eq hi)).2.2.1

theorem prev_eq (h : index.Grows index') {i : Nat} (hi : i < index.nodes.length) :
    index'.prev i = index.prev i :=
  (Node.core_eq_iff.mp (h.core_eq hi)).2.1

end Grows

@[simp] theorem nodes_length_modify (index : HeaderIndex) (i : Nat) (f : Node → Node) :
    (index.modify i f).nodes.length = index.nodes.length := by
  simp [modify]

@[simp] theorem canonical_modify (index : HeaderIndex) (i : Nat) (f : Node → Node) :
    (index.modify i f).canonical = index.canonical := rfl

theorem node_modify_self (index : HeaderIndex) {i : Nat} (hi : i < index.nodes.length)
    (f : Node → Node) : (index.modify i f).node i = f (index.node i) := by
  rw [node_eq_getElem (by simpa using hi), node_eq_getElem hi]
  simp [modify]

theorem node_modify_ne (index : HeaderIndex) {i j : Nat} (hij : j ≠ i) (f : Node → Node) :
    (index.modify i f).node j = index.node j := by
  simp [node, modify, List.getD_eq_getElem?_getD, List.getElem?_modify_ne, hij.symm]

/-- Changing a flag or a base of a node leaves the cores alone. -/
theorem map_core_modify (index : HeaderIndex) (i : Nat) {f : Node → Node}
    (hf : ∀ n, (f n).core = n.core) :
    (index.modify i f).nodes.map Node.core = index.nodes.map Node.core := by
  refine List.ext_getElem (by simp) fun j hj hj' ↦ ?_
  simp only [List.getElem_map, modify, List.getElem_modify]
  split
  · rw [hf]
  · rfl

theorem grows_modify (index : HeaderIndex) (i : Nat) {f : Node → Node}
    (hf : ∀ n, (f n).core = n.core) : index.Grows (index.modify i f) := by
  rw [Grows, map_core_modify index i hf]

section

variable [Crypto]

/-! ## The invariant -/

/-- A well formed arena. -/
structure Wf (D : Realm) (index : HeaderIndex) : Prop where
  pos : 0 < index.nodes.length
  root : index.prev 0 = none ∧ (index.node 0).StandsFor D [D.genesis]
  child : ∀ i, 0 < i → i < index.nodes.length → ∃ p rs r, index.prev i = some p ∧ p < i ∧
    (index.node p).StandsFor D rs ∧ (index.node i).StandsFor D (rs ++ [r])
  powOk : ∀ i < index.nodes.length, (index.node i).powOk = true
  byHash : ∀ h i, index.indexOf h = some i ↔ i < index.nodes.length ∧ (index.node i).hash = h
  tip_lt : index.tipIndex < index.nodes.length
  canonical : Lineage index.prev index.tipIndex index.canonical
  base : ∀ i < index.nodes.length, (index.node i).branchBaseHeight =
    (index.prev i).elim (index.node i).height index.childBase

namespace Wf

variable {D : Realm} {index : HeaderIndex} {i p : Nat} {rs : List HeaderRec} {l : List Nat}

theorem stands (h : index.Wf D) (hi : i < index.nodes.length) :
    ∃ rs, (index.node i).StandsFor D rs := by
  rcases Nat.eq_zero_or_pos i with rfl | hpos
  · exact ⟨_, h.root.2⟩
  · obtain ⟨p, rs, r, -, -, -, hs⟩ := h.child i hpos hi
    exact ⟨_, hs⟩

theorem prev_eq_none (h : index.Wf D) (hi : i < index.nodes.length) :
    index.prev i = none ↔ i = 0 := by
  refine ⟨fun hp ↦ ?_, fun hi ↦ hi ▸ h.root.1⟩
  by_contra hne
  obtain ⟨p, rs, r, hp', -⟩ := h.child i (Nat.pos_of_ne_zero hne) hi
  rw [hp] at hp'
  cases hp'

theorem lt_of_prev (h : index.Wf D) (hp : index.prev i = some p) :
    p < i ∧ i < index.nodes.length := by
  have hi : i < index.nodes.length := by
    by_contra hge
    rw [prev_of_length_le (by omega)] at hp
    cases hp
  have hpos : 0 < i := by
    refine Nat.pos_of_ne_zero fun h0 ↦ ?_
    rw [h0, h.root.1] at hp
    cases hp
  obtain ⟨p', rs, r, hp', hlt, -⟩ := h.child i hpos hi
  rw [hp] at hp'
  cases hp'
  exact ⟨hlt, hi⟩

/-- The parent of a node stands for the chain without its last header. -/
theorem stands_prev (h : index.Wf D) (hp : index.prev i = some p)
    (hs : (index.node i).StandsFor D rs) :
    ∃ rs' r, rs = rs' ++ [r] ∧ (index.node p).StandsFor D rs' := by
  obtain ⟨hlt, hi⟩ := h.lt_of_prev hp
  obtain ⟨p', rs', r, hp', -, hsp, hsi⟩ := h.child i (by omega) hi
  rw [hp] at hp'
  cases hp'
  exact ⟨rs', r, hs.unique hsi rfl, hsp⟩

theorem height_prev (h : index.Wf D) (hp : index.prev i = some p) :
    (index.node i).height = (index.node p).height + 1 := by
  obtain ⟨hlt, hi⟩ := h.lt_of_prev hp
  obtain ⟨rs, hs⟩ := h.stands hi
  obtain ⟨rs', r, rfl, hsp⟩ := h.stands_prev hp hs
  have := hs.height
  have := hsp.height
  rw [List.length_append, List.length_singleton] at *
  omega

/-- The lineage of a node is the chain it stands for. -/
theorem lineage (h : index.Wf D) (hl : Lineage index.prev i l) (hi : i < index.nodes.length)
    (hs : (index.node i).StandsFor D rs) :
    l.length = rs.length ∧ ∀ k j, l[k]? = some j → j < index.nodes.length ∧
      (index.node j).StandsFor D (rs.take (k + 1)) := by
  induction hl generalizing rs with
  | root hp =>
    obtain rfl := (h.prev_eq_none hi).mp hp
    obtain rfl := hs.unique h.root.2 rfl
    refine ⟨rfl, fun k j hk ↦ ?_⟩
    cases k with
    | zero => cases hk; exact ⟨hi, hs⟩
    | succ k => cases hk
  | @child i p l hp hl ih =>
    obtain ⟨hlt, -⟩ := h.lt_of_prev hp
    obtain ⟨rs', r, rfl, hsp⟩ := h.stands_prev hp hs
    obtain ⟨hlen, hnodes⟩ := ih (hlt.trans hi) hsp
    refine ⟨by simp [hlen], fun k j hk ↦ ?_⟩
    rcases Nat.lt_or_ge k l.length with hk' | hk'
    · rw [List.getElem?_append_left hk'] at hk
      rw [List.take_append_of_le_length (by omega)]
      exact hnodes k j hk
    · have := (List.getElem?_eq_some_iff.mp hk).1
      rw [List.length_append, List.length_singleton] at this
      obtain rfl : k = l.length := by omega
      rw [List.getElem?_concat_length] at hk
      cases hk
      rw [hlen, List.take_of_length_le (by simp)]
      exact ⟨hi, hs⟩

theorem exists_lineage (h : index.Wf D) (i : Nat) : ∃ l, Lineage index.prev i l :=
  Lineage.exists_of_lt (fun _ _ hp ↦ (h.lt_of_prev hp).1) i

/-! ### The canonical chain -/

theorem canonical_lt (h : index.Wf D) {k : Nat} (hk : index.canonical[k]? = some i) :
    i < index.nodes.length := by
  obtain ⟨rs, hs⟩ := h.stands h.tip_lt
  exact ((h.lineage h.canonical h.tip_lt hs).2 k i hk).1

theorem canonical_height (h : index.Wf D) {k : Nat} (hk : index.canonical[k]? = some i) :
    (index.node i).height = k := by
  obtain ⟨rs, hs⟩ := h.stands h.tip_lt
  obtain ⟨hlen, hnodes⟩ := h.lineage h.canonical h.tip_lt hs
  have hsi := (hnodes k i hk).2.height
  have := (List.getElem?_eq_some_iff.mp hk).1
  rw [List.length_take, Nat.min_eq_left (by omega)] at hsi
  omega

theorem canonical_length (h : index.Wf D) : index.canonical.length = index.tipHeight + 1 := by
  obtain ⟨rs, hs⟩ := h.stands h.tip_lt
  rw [(h.lineage h.canonical h.tip_lt hs).1, ← hs.height]
  rfl

theorem isCanonical_iff (h : index.Wf D) : index.isCanonical i = true ↔ i ∈ index.canonical := by
  rw [isCanonical, decide_eq_true_iff]
  refine ⟨List.mem_of_getElem?, fun hi ↦ ?_⟩
  obtain ⟨k, hk⟩ := List.mem_iff_getElem?.mp hi
  rwa [h.canonical_height hk]

/-- The canonical chain starts at the root. -/
theorem canonical_zero (h : index.Wf D) : index.canonical[0]? = some 0 := by
  have hlen := h.canonical.length_pos
  have hk := List.getElem?_eq_getElem hlen
  have hi := h.canonical_lt hk
  have hroot : index.prev index.canonical[0] = none := by
    by_contra hne
    obtain ⟨p, hp⟩ := Option.ne_none_iff_exists'.mp hne
    have := h.height_prev hp
    have := h.canonical_height hk
    omega
  rw [hk, (h.prev_eq_none hi).mp hroot]

/-- The branch base of a node: the canonical block at that height is on the node's lineage. -/
theorem base_mem_lineage (h : index.Wf D) (hl : Lineage index.prev i l)
    (hi : i < index.nodes.length) :
    index.canonical[(index.node i).branchBaseHeight]? = l[(index.node i).branchBaseHeight]? ∧
      (index.node i).branchBaseHeight ≤ (index.node i).height := by
  induction hl with
  | root hp =>
    obtain rfl := (h.prev_eq_none hi).mp hp
    rw [h.base 0 hi, h.root.1]
    have := h.root.2.height
    rw [List.length_singleton] at this
    obtain h0 : (index.node 0).height = 0 := by omega
    simp [h0, h.canonical_zero]
  | @child i p l hp hl ih =>
    obtain ⟨hlt, -⟩ := h.lt_of_prev hp
    obtain ⟨hbase, hle⟩ := ih (hlt.trans hi)
    have hheight := h.height_prev hp
    obtain ⟨rs, hs⟩ := h.stands (hlt.trans hi)
    obtain ⟨hlen, -⟩ := h.lineage hl (hlt.trans hi) hs
    have hsh := hs.height
    rw [h.base i hi, hp, Option.elim_some, childBase]
    split
    case isTrue hcan =>
      refine ⟨?_, by omega⟩
      rw [isCanonical, decide_eq_true_iff] at hcan
      rw [hcan, List.getElem?_append_left (by omega)]
      have := hl.getElem?_length
      rw [hlen, show rs.length - 1 = (index.node p).height by omega] at this
      exact this.symm
    case isFalse hcan =>
      rw [hbase, List.getElem?_append_left (by omega)]
      exact ⟨rfl, by omega⟩

/-- The node of a chain's last header has the node of the chain before as its parent. -/
theorem prev_eq_some (h : index.Wf D) {r : HeaderRec} (hi : i < index.nodes.length)
    (hp : p < index.nodes.length) (hs : (index.node i).StandsFor D (rs ++ [r]))
    (hsp : (index.node p).StandsFor D rs) : index.prev i = some p := by
  have hpos : 0 < i := by
    refine Nat.pos_of_ne_zero fun h0 ↦ ?_
    have hroot := h.root.2.height
    have := hs.height
    have := hsp.height
    rw [h0] at *
    simp only [List.length_append, List.length_singleton] at *
    omega
  obtain ⟨q, rs', r', hq, hlt, hsq, hsi⟩ := h.child i hpos hi
  obtain ⟨rfl, -⟩ := List.append_inj' (hs.unique hsi rfl) rfl
  have hhash : (index.node q).hash = (index.node p).hash :=
    Option.some.inj (hsq.hash.symm.trans hsp.hash)
  have hq' := (h.byHash _ q).mpr ⟨hlt.trans hi, rfl⟩
  have hp' := (h.byHash _ p).mpr ⟨hp, hhash.symm⟩
  rw [hq, Option.some.inj (hq'.symm.trans hp')]

/-- The node of a header of the realm stands for the chain that ends in it. -/
theorem stands_of_hash (h : index.Wf D) (hl : D.Linked rs) (hi : i < index.nodes.length)
    (heq : rs.getLast?.map HeaderRec.hash = some (index.node i).hash) :
    (index.node i).StandsFor D rs := by
  obtain ⟨rs', hs⟩ := h.stands hi
  obtain rfl := hl.unique hs.linked (heq.trans hs.hash.symm)
  exact hs

end Wf

omit [Crypto] in
theorem childBase_congr {index index' : HeaderIndex} {p : Nat}
    (hcan : index'.canonical = index.canonical) (hnode : index'.node p = index.node p) :
    index'.childBase p = index.childBase p := by
  rw [childBase, childBase, isCanonical, isCanonical, hcan, hnode]

/-! ## The operations -/

variable {D : Realm} {index index' : HeaderIndex}

theorem wf_insertGenesis {w : Work} (hw : workOf D.genesis.bits D.powLimit = some w) :
    (insertGenesis D.genesis w).Wf D := by
  have hnode : (insertGenesis D.genesis w).node 0 = ⟨D.genesis.hash, none, D.genesis.height,
    D.genesis.time, D.genesis.bits, w, D.genesis.height, true, false, true⟩ := rfl
  have hlink : D.Linked [D.genesis] := .genesis (by rw [hw]; rfl)
  refine {
    pos := Nat.one_pos
    root := ⟨rfl, hlink, rfl, rfl, rfl, ?_, ?_⟩
    child := fun i hpos hi ↦ absurd hi (by simp only [insertGenesis, List.length_singleton]; omega)
    powOk := ?_
    byHash := ?_
    tip_lt := Nat.one_pos
    canonical := .root rfl
    base := ?_ }
  · rw [hnode, D.genesis_height]
    rfl
  · rw [hnode, Realm.chainWork_singleton, Realm.work_eq hw]
  · intro i hi
    obtain rfl : i = 0 := Nat.lt_one_iff.mp hi
    rfl
  · intro h i
    by_cases hh : h = D.genesis.hash
    · subst hh
      simp only [indexOf, insertGenesis, AList.lookup_insert, List.length_singleton,
        Option.some_inj]
      constructor
      · rintro rfl
        exact ⟨Nat.one_pos, rfl⟩
      · exact fun hi ↦ (Nat.lt_one_iff.mp hi.1).symm
    · simp only [indexOf, insertGenesis, AList.lookup_insert_ne hh, AList.lookup_empty,
        reduceCtorEq, List.length_singleton, false_iff, not_and]
      intro hi heq
      obtain rfl : i = 0 := Nat.lt_one_iff.mp hi
      exact hh heq.symm
  · intro i hi
    obtain rfl : i = 0 := Nat.lt_one_iff.mp hi
    rfl

section

variable (index) (r : HeaderRec) (p : Nat) (w : Work) (powOk : Bool)

/-- Inserting a new header adds one node at the end. -/
theorem insert_of_new (hnew : index.indexOf r.hash = none) :
    index.insert r p w powOk = (index.nodes.length, { index with
      nodes := index.nodes ++ [index.childNode r p w powOk]
      byHash := index.byHash.insert r.hash index.nodes.length }) := by
  rw [insert, hnew]

theorem insert_of_known {i : Nat} (hold : index.indexOf r.hash = some i) :
    index.insert r p w powOk = (i, index) := by
  rw [insert, hold]

theorem grows_insert : index.Grows (index.insert r p w powOk).2 := by
  unfold insert
  split
  · exact .refl _
  · simp [Grows]

theorem canonical_insert : (index.insert r p w powOk).2.canonical = index.canonical := by
  unfold insert
  split <;> rfl

theorem indexOf_insert_self :
    (index.insert r p w powOk).2.indexOf r.hash = some (index.insert r p w powOk).1 := by
  cases hold : index.indexOf r.hash with
  | none => simp [insert_of_new _ _ _ _ _ hold, indexOf]
  | some i => rwa [insert_of_known _ _ _ _ _ hold]

end

/-- Inserting a header that follows the chain of its parent. -/
theorem Wf.insert (h : index.Wf D) {r : HeaderRec} {p : Nat} {rs : List HeaderRec} {w : Work}
    (hp : p < index.nodes.length) (hs : (index.node p).StandsFor D rs) (hf : D.Follows rs r)
    (hw : w = D.chainWork (rs ++ [r])) : (index.insert r p w true).2.Wf D := by
  cases hold : index.indexOf r.hash with
  | some i => rwa [insert_of_known _ _ _ _ _ hold]
  | none =>
    have hg := index.grows_insert r p w true
    rw [insert_of_new _ _ _ _ _ hold] at hg ⊢
    set index' : HeaderIndex := { index with
      nodes := index.nodes ++ [index.childNode r p w true]
      byHash := index.byHash.insert r.hash index.nodes.length } with hindex'
    change index.Grows index' at hg
    change index'.Wf D
    have hpos := h.pos
    have hlen : index'.nodes.length = index.nodes.length + 1 := by simp [hindex']
    have hnew : index'.node index.nodes.length = index.childNode r p w true := by
      rw [node_eq_getElem (by omega)]
      simp [hindex']
    have hnode : ∀ i < index.nodes.length, index'.node i = index.node i := by
      intro i hi
      rw [node_eq_getElem (by omega), node_eq_getElem hi]
      simp [hindex', List.getElem_append_left hi]
    have hprev : ∀ i < index.nodes.length, index'.prev i = index.prev i := fun i hi ↦ by
      rw [prev, prev, hnode i hi]
    have hlineage : ∀ j ∈ index.canonical, index'.prev j = index.prev j := by
      intro j hj
      obtain ⟨k, hk⟩ := List.mem_iff_getElem?.mp hj
      exact hprev j (h.canonical_lt hk)
    have hbase : ∀ i < index.nodes.length, index'.childBase i = index.childBase i := fun i hi ↦
      childBase_congr rfl (hnode i hi)
    refine {
      pos := by omega
      root := by rw [hprev 0 h.pos, hnode 0 h.pos]; exact h.root
      child := fun i hpos hi ↦ ?_
      powOk := fun i hi ↦ ?_
      byHash := fun hash i ↦ ?_
      tip_lt := h.tip_lt.trans_le hg.length_le
      canonical := h.canonical.congr hlineage
      base := fun i hi ↦ ?_ }
    · rcases Nat.lt_succ_iff_lt_or_eq.mp (hlen ▸ hi) with hi | rfl
      · obtain ⟨q, rs', r', hq, hlt, hsq, hsi⟩ := h.child i hpos hi
        exact ⟨q, rs', r', by rw [hprev i hi, hq], hlt, by rwa [hnode q (by omega)],
          by rwa [hnode i hi]⟩
      · refine ⟨p, rs, r, by rw [prev, hnew]; rfl, hp, by rwa [hnode p hp], ?_⟩
        rw [hnew]
        exact .snoc hs.linked hf hw
    · rcases Nat.lt_succ_iff_lt_or_eq.mp (hlen ▸ hi) with hi | rfl
      · rw [hnode i hi]
        exact h.powOk i hi
      · rw [hnew]
        rfl
    · have hlook : ∀ hash ≠ r.hash, index'.indexOf hash = index.indexOf hash := fun hash hne ↦
        AList.lookup_insert_ne hne
      by_cases hh : hash = r.hash
      · subst hh
        rw [show index'.indexOf r.hash = some index.nodes.length from AList.lookup_insert _]
        constructor
        · intro heq
          cases heq
          exact ⟨by omega, by rw [hnew]; rfl⟩
        · rintro ⟨hi, heq⟩
          rcases Nat.lt_succ_iff_lt_or_eq.mp (hlen ▸ hi) with hi | rfl
          · rw [hnode i hi] at heq
            have := (h.byHash r.hash i).mpr ⟨hi, heq⟩
            rw [hold] at this
            cases this
          · rfl
      · rw [hlook hash hh, h.byHash]
        constructor
        · rintro ⟨hi, heq⟩
          exact ⟨by omega, by rwa [hnode i hi]⟩
        · rintro ⟨hi, heq⟩
          rcases Nat.lt_succ_iff_lt_or_eq.mp (hlen ▸ hi) with hi | rfl
          · rw [hnode i hi] at heq
            exact ⟨hi, heq⟩
          · rw [hnew] at heq
            exact absurd heq.symm hh
    · rcases Nat.lt_succ_iff_lt_or_eq.mp (hlen ▸ hi) with hi | rfl
      · rw [hnode i hi, hprev i hi, h.base i hi]
        cases hq : index.prev i with
        | none => rfl
        | some q => rw [Option.elim_some, Option.elim_some, hbase q ((h.lt_of_prev hq).1.trans hi)]
      · rw [prev, hnew]
        exact (hbase p hp).symm

/-- An arena with the same cores, and the canonical list and branch bases in order. -/
theorem Wf.of_core (h : index.Wf D) (hg : index.Grows index')
    (hlen : index'.nodes.length = index.nodes.length) (hhash : index'.byHash = index.byHash)
    (htip : index'.tipIndex < index'.nodes.length)
    (hcan : Lineage index'.prev index'.tipIndex index'.canonical)
    (hbase : ∀ i < index'.nodes.length, (index'.node i).branchBaseHeight =
      (index'.prev i).elim (index'.node i).height index'.childBase) : index'.Wf D where
  pos := hlen ▸ h.pos
  root := by
    rw [hg.prev_eq h.pos]
    exact ⟨h.root.1, h.root.2.of_core (hg.core_eq h.pos)⟩
  child i hpos hi := by
    rw [hlen] at hi
    obtain ⟨p, rs, r, hp, hlt, hsp, hsi⟩ := h.child i hpos hi
    exact ⟨p, rs, r, by rw [hg.prev_eq hi, hp], hlt, hsp.of_core (hg.core_eq (hlt.trans hi)),
      hsi.of_core (hg.core_eq hi)⟩
  powOk i hi := by
    rw [hlen] at hi
    rw [(Node.core_eq_iff.mp (hg.core_eq hi)).2.2.2.2.2.2, h.powOk i hi]
  byHash hash i := by
    rw [indexOf, hhash, ← indexOf, h.byHash, hlen]
    exact and_congr_right fun hi ↦ by rw [hg.hash_eq hi]
  tip_lt := htip
  canonical := hcan
  base := hbase

/-- Changing the flags of a node. -/
theorem Wf.modify (h : index.Wf D) (i : Nat) {f : Node → Node} (hf : ∀ n, (f n).core = n.core)
    (hbase : ∀ n, (f n).branchBaseHeight = n.branchBaseHeight) : (index.modify i f).Wf D := by
  have hg := index.grows_modify i hf
  have hlen := index.nodes_length_modify i f
  have hnode : ∀ j, ((index.modify i f).node j).branchBaseHeight =
      (index.node j).branchBaseHeight := by
    intro j
    by_cases hij : j = i
    · subst hij
      rcases Nat.lt_or_ge j index.nodes.length with hj | hj
      · rw [node_modify_self _ hj, hbase]
      · rw [node_of_length_le hj, node_of_length_le (by omega)]
    · rw [node_modify_ne _ hij]
  have hprev : ∀ j, (index.modify i f).prev j = index.prev j := by
    intro j
    rcases Nat.lt_or_ge j index.nodes.length with hj | hj
    · exact hg.prev_eq hj
    · rw [prev_of_length_le hj, prev_of_length_le (by omega)]
  refine h.of_core hg hlen rfl (hlen ▸ h.tip_lt) (h.canonical.congr fun j _ ↦ hprev j)
    fun j hj ↦ ?_
  rw [hlen] at hj
  rw [hnode, h.base j hj, hprev, hg.height_eq hj]
  cases hp : index.prev j with
  | none => rfl
  | some p =>
    have hlt := (h.lt_of_prev hp).1.trans hj
    rw [Option.elim_some, Option.elim_some, childBase, childBase, isCanonical, isCanonical, hnode,
      hg.height_eq hlt, canonical_modify]

theorem Wf.setHaveBody (h : index.Wf D) (i : Nat) : (index.setHaveBody i).Wf D :=
  h.modify i (fun _ ↦ rfl) fun _ ↦ rfl

theorem Wf.setInvalidFlag (h : index.Wf D) (i : Nat) : (index.setInvalidFlag i).Wf D :=
  h.modify i (fun _ ↦ rfl) fun _ ↦ rfl

omit [Crypto] in
theorem grows_setHaveBody (index : HeaderIndex) (i : Nat) : index.Grows (index.setHaveBody i) :=
  index.grows_modify i fun _ ↦ rfl

omit [Crypto] in
theorem grows_setInvalidFlag (index : HeaderIndex) (i : Nat) :
    index.Grows (index.setInvalidFlag i) :=
  index.grows_modify i fun _ ↦ rfl

/-! ### Marking a branch invalid -/

omit [Crypto] in
theorem grows_poison (index : HeaderIndex) (i : Nat) : index.Grows (index.poison i) := by
  unfold poison
  split
  · exact .refl _
  · split
    · exact index.grows_setInvalidFlag i
    · exact .refl _

theorem Wf.poison (h : index.Wf D) (i : Nat) : (index.poison i).Wf D := by
  unfold HeaderIndex.poison
  split
  · exact h
  · split
    · exact h.setInvalidFlag i
    · exact h

omit [Crypto] in
theorem grows_markInvalid (index : HeaderIndex) (i : Nat) : index.Grows (index.markInvalid i) := by
  unfold markInvalid
  refine (index.grows_setInvalidFlag i).trans ?_
  generalize index.setInvalidFlag i = marked
  induction List.range' (i + 1) (index.nodes.length - (i + 1)) generalizing marked with
  | nil => exact .refl _
  | cons j js ih => exact (marked.grows_poison j).trans (ih _)

theorem Wf.markInvalid (h : index.Wf D) (i : Nat) : (index.markInvalid i).Wf D := by
  unfold HeaderIndex.markInvalid
  have hset := h.setInvalidFlag i
  revert hset
  generalize index.setInvalidFlag i = marked
  intro hset
  induction List.range' (i + 1) (index.nodes.length - (i + 1)) generalizing marked with
  | nil => exact hset
  | cons j js ih => exact ih _ (hset.poison j)

omit [Crypto] in
theorem canonical_poison (index : HeaderIndex) (i : Nat) :
    (index.poison i).canonical = index.canonical := by
  unfold poison
  split
  · rfl
  · split <;> rfl

omit [Crypto] in
theorem canonical_markInvalid (index : HeaderIndex) (i : Nat) :
    (index.markInvalid i).canonical = index.canonical := by
  unfold markInvalid
  have hset : (index.setInvalidFlag i).canonical = index.canonical := rfl
  rw [← hset]
  generalize index.setInvalidFlag i = marked
  induction List.range' (i + 1) (index.nodes.length - (i + 1)) generalizing marked with
  | nil => rfl
  | cons j js ih => rw [List.foldl_cons, ih, canonical_poison]

/-! ### Changing the canonical chain -/

/-- `ancestry` lists the lineage. -/
theorem Wf.ancestry (h : index.Wf D) {i : Nat} (hi : i < index.nodes.length) :
    Lineage index.prev i (index.ancestry i) := by
  suffices hfuel : ∀ fuel cur, cur ≤ fuel → Lineage index.prev cur (index.ancestryFrom fuel cur)
    from hfuel _ i hi.le
  intro fuel
  induction fuel with
  | zero =>
    intro cur hcur
    obtain rfl := Nat.le_zero.mp hcur
    exact .root h.root.1
  | succ fuel ih =>
    intro cur hcur
    unfold ancestryFrom
    cases hp : index.prev cur with
    | none => exact .root hp
    | some p =>
      have := (h.lt_of_prev hp).1
      exact .child hp (ih p (by omega))

section

variable (index) (n : Nat)

omit [Crypto]

/-- The rounds of `set_canonical` below `n`. -/
theorem rebase_range : let out := (List.range n).foldl rebase index
    index.nodes.map Node.core = out.nodes.map Node.core ∧ out.byHash = index.byHash ∧
      out.canonical = index.canonical := by
  induction n with
  | zero => exact ⟨rfl, rfl, rfl⟩
  | succ n ih =>
    obtain ⟨hcore, hhash, hcan⟩ := ih
    rw [List.range_succ, List.foldl_concat]
    refine ⟨hcore.trans (Eq.symm ?_), hhash, hcan⟩
    unfold rebase
    apply map_core_modify
    exact fun _ ↦ rfl

theorem grows_rebase_range : index.Grows ((List.range n).foldl rebase index) := by
  rw [Grows, (rebase_range index n).1]

theorem length_rebase_range :
    ((List.range n).foldl rebase index).nodes.length = index.nodes.length := by
  simpa using congrArg List.length (rebase_range index n).1.symm

end

omit [Crypto] in
/-- Every round of `set_canonical` sets the branch base of one node, from its parent's. -/
theorem base_rebase_range (hlt : ∀ i p, index.prev i = some p → p < i) {n : Nat}
    (hn : n ≤ index.nodes.length) :
    let out := (List.range n).foldl rebase index
    ∀ i < n, (out.node i).branchBaseHeight =
      (out.prev i).elim (out.node i).height out.childBase := by
  induction n with
  | zero => exact fun i hi ↦ absurd hi (Nat.not_lt_zero i)
  | succ n ih =>
    intro out i hi
    have hout : out = ((List.range n).foldl rebase index).rebase n := by
      simp only [out, List.range_succ, List.foldl_concat]
    have hbelow := ih (by omega)
    have hlen := length_rebase_range index n
    have hgrows := grows_rebase_range index n
    set mid := (List.range n).foldl rebase index with hmid
    have hother : ∀ j ≠ n, out.node j = mid.node j := fun j hj ↦ by
      rw [hout, rebase, node_modify_ne _ hj]
    have hcan : out.canonical = mid.canonical := by rw [hout, rebase, canonical_modify]
    have hchild : ∀ j ≠ n, out.childBase j = mid.childBase j := fun j hj ↦
      childBase_congr hcan (hother j hj)
    rcases Nat.lt_succ_iff_lt_or_eq.mp hi with hi | rfl
    · rw [prev, hother i (by omega), ← prev, hbelow i hi]
      cases hp : mid.prev i with
      | none => rfl
      | some p =>
        rw [hgrows.prev_eq (by omega)] at hp
        have := hlt i p hp
        rw [Option.elim_some, Option.elim_some, hchild p (by omega)]
    · have hself : out.node i = { mid.node i with
          branchBaseHeight := (mid.prev i).elim (mid.node i).height mid.childBase } := by
        rw [hout, rebase, node_modify_self _ (by omega)]
        cases mid.prev i <;> rfl
      have hprev : out.prev i = mid.prev i := by rw [prev, hself, prev]
      rw [hprev, hself]
      cases hp : mid.prev i with
      | none => rfl
      | some p =>
        rw [hgrows.prev_eq (by omega)] at hp
        have := hlt i p hp
        exact (hchild p (by omega)).symm

/-- Making the lineage of a node the canonical chain. -/
theorem Wf.setCanonical (h : index.Wf D) {best : Nat} {chain : List Nat}
    (hbest : best < index.nodes.length) (hchain : Lineage index.prev best chain) :
    (index.setCanonical chain).Wf D := by
  set moved : HeaderIndex := { index with canonical := chain } with hmoved
  have hset : index.setCanonical chain = (List.range moved.nodes.length).foldl rebase moved := rfl
  have hg := grows_rebase_range moved moved.nodes.length
  have hlen := length_rebase_range moved moved.nodes.length
  obtain ⟨-, hhash, hcan⟩ := rebase_range moved moved.nodes.length
  rw [hset]
  set out := (List.range moved.nodes.length).foldl rebase moved with hout
  have hg' : index.Grows out := hg
  have htip : out.tipIndex = best := by
    rw [tipIndex, hcan, List.getLastD_eq_getLast?, hchain.getLast?, Option.getD_some]
  have hprev : ∀ j, out.prev j = index.prev j := by
    intro j
    rcases Nat.lt_or_ge j index.nodes.length with hj | hj
    · exact hg'.prev_eq hj
    · rw [prev_of_length_le hj, prev_of_length_le (hlen.trans_le hj)]
  refine h.of_core hg' hlen hhash (htip ▸ hlen.symm ▸ hbest) ?_ fun i hi ↦ ?_
  · rw [htip, hcan]
    exact hchain.congr fun j _ ↦ hprev j
  · exact moved.base_rebase_range (fun i p hp ↦ (h.lt_of_prev hp).1) le_rfl i
      (hlen ▸ hi)

omit [Crypto] in
theorem canonical_setCanonical (index : HeaderIndex) (chain : List Nat) :
    (index.setCanonical chain).canonical = chain :=
  (rebase_range { index with canonical := chain } _).2.2

omit [Crypto] in
theorem grows_setCanonical (index : HeaderIndex) (chain : List Nat) :
    index.Grows (index.setCanonical chain) :=
  grows_rebase_range { index with canonical := chain } _

end

end HeaderIndex

end Plaine.Chain

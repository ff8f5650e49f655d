import Plaine.Lib.HashTree
import Mathlib.Logic.Relation

/-!
# Inclusion proofs

A proof that a digest is in the list of a hash tree is the list of its siblings on the way up; where
it is the odd one out of a level it has none.  How wide the levels are, and where on them the digest
is, comes with the proof.

The siblings of an element lead to the root.  Conversely, as long as the hashes that were computed do
not collide, a proof that leads to the root shows the element at its index if it has the width right,
and whatever its width it starts at an element of the list, or at a digest that is itself a hash.
-/

namespace Plaine.Lib.HashTree

variable {H : Type*} (node : H → H → Bool → H)

/-! ## Paths -/

/-- What is hashed for a digest at an index of a level, and the siblings that are left. -/
def pairWith (h : H) (idx width : Nat) (siblings : List H) : Option ((H × H × Bool) × List H) :=
  if idx = width - 1 ∧ width % 2 = 1 then some ((h, h, true), siblings)
  else
    match siblings with
    | [] => none
    | s :: rest => some (if idx % 2 = 0 then (h, s, false) else (s, h, false), rest)

/-- The pairs hashed on the way up, the digest at the top, and the siblings that are left. -/
def path (h : H) (idx width : Nat) (siblings : List H) :
    Option (List (H × H × Bool) × H × List H) :=
  if 1 < width then
    (pairWith h idx width siblings).bind fun p ↦
      (path (value node p.1) (idx / 2) ((width + 1) / 2) p.2).map fun q ↦ (p.1 :: q.1, q.2)
  else some ([], h, siblings)
termination_by width
decreasing_by omega

/-- The siblings of an index on the way up. -/
def siblings (l : List H) (idx : Nat) : List H :=
  if 1 < l.length then
    (if idx = l.length - 1 ∧ l.length % 2 = 1 then []
      else (l[if idx % 2 = 0 then idx + 1 else idx - 1]?).toList) ++
      siblings (level node l) (idx / 2)
  else []
termination_by l.length
decreasing_by
  rw [length_level]
  omega

variable {node} {l : List H} {h top : H} {idx width i : Nat} {sibs rest : List H}
  {c : H × H × Bool} {cs : List (H × H × Bool)} {C : Set (H × H × Bool)} {leaves : Set H}

theorem pairWith_last (hlast : idx = width - 1 ∧ width % 2 = 1) :
    pairWith h idx width sibs = some ((h, h, true), sibs) := if_pos hlast

theorem pairWith_cons {s : H} (hlast : ¬(idx = width - 1 ∧ width % 2 = 1)) :
    pairWith h idx width (s :: rest) =
      some (if idx % 2 = 0 then (h, s, false) else (s, h, false), rest) := if_neg hlast

theorem path_of_le (hw : ¬1 < width) : path node h idx width sibs = some ([], h, sibs) := by
  rw [path, if_neg hw]

/-- A path is its first pair and the path above. -/
theorem path_eq_some (hw : 1 < width) :
    path node h idx width sibs = some (cs, top, rest) ↔
      ∃ c sibs' cs', pairWith h idx width sibs = some (c, sibs') ∧
        path node (value node c) (idx / 2) ((width + 1) / 2) sibs' = some (cs', top, rest) ∧
          cs = c :: cs' := by
  rw [path, if_pos hw, Option.bind_eq_some_iff]
  constructor
  · rintro ⟨⟨c, sibs'⟩, hpair, hpath⟩
    obtain ⟨⟨cs', top', rest'⟩, habove, heq⟩ := Option.map_eq_some_iff.mp hpath
    cases heq
    exact ⟨c, sibs', cs', hpair, habove, rfl⟩
  · rintro ⟨c, sibs', cs', hpair, hpath, rfl⟩
    refine ⟨(c, sibs'), hpair, ?_⟩
    rw [hpath]
    rfl

/-! ## Where the pairs of a level are -/

theorem getElem?_pairs (l : List H) (i : Nat) :
    (pairs l)[i]? = (l[2 * i]?).map fun a ↦ (l[2 * i + 1]?).elim (a, a, true) (a, ·, false) := by
  fun_induction pairs l generalizing i with
  | case1 a b l ih =>
    cases i with
    | zero => rfl
    | succ i =>
      rw [List.getElem?_cons_succ, ih]
      rfl
  | case2 a =>
    cases i with
    | zero => rfl
    | succ i => rfl
  | case3 => rfl

/-- The pair of an element is the one above it. -/
theorem getElem?_of_pair (hpair : pairWith h idx l.length sibs = some (c, rest))
    (hc : (pairs l)[idx / 2]? = some c) : l[idx]? = some h := by
  rw [getElem?_pairs] at hc
  obtain ⟨a, ha, rfl⟩ := Option.map_eq_some_iff.mp hc
  unfold pairWith at hpair
  split at hpair
  case isTrue hlast =>
    have heven : 2 * (idx / 2) = idx := by omega
    rw [heven] at ha hpair
    cases hb : l[idx + 1]? with
    | some b =>
      rw [hb] at hpair
      cases hpair
    | none =>
      rw [hb] at hpair
      cases hpair
      exact ha
  case isFalse =>
    split at hpair
    case h_1 => cases hpair
    case h_2 s rest' =>
      obtain ⟨heq, -⟩ := Prod.mk.inj (Option.some.inj hpair)
      by_cases heven : idx % 2 = 0
      · have hidx' : 2 * (idx / 2) = idx := by omega
        rw [if_pos heven] at heq
        rw [hidx'] at ha heq
        cases hb : l[idx + 1]? with
        | some b =>
          rw [hb] at heq
          cases heq
          exact ha
        | none =>
          rw [hb] at heq
          cases heq
      · have hidx' : 2 * (idx / 2) + 1 = idx := by omega
        rw [if_neg heven] at heq
        rw [hidx'] at heq
        cases hb : l[idx]? with
        | some b =>
          rw [hb] at heq
          cases heq
          rfl
        | none =>
          rw [hb] at heq
          cases heq

/-! ## Soundness -/

/-- A path of the width of the list that leads to its root starts at the element of its index. -/
theorem getElem?_of_path (hinj : Set.InjOn (value node) C) (hcalls : ∀ c ∈ calls node l, c ∈ C)
    (hcs : ∀ c ∈ cs, c ∈ C) (hidx : idx < l.length) (hroot : root node l = some top)
    (hpath : path node h idx l.length sibs = some (cs, top, rest)) : l[idx]? = some h := by
  fun_induction root node l generalizing h idx sibs cs with
  | case1 => cases hroot
  | case2 a =>
    rw [path_of_le (by simp)] at hpath
    cases hpath
    cases hroot
    obtain rfl := Nat.lt_one_iff.mp hidx
    rfl
  | case3 a b l ih =>
    have htwo : 1 < (a :: b :: l).length := Nat.succ_lt_succ (Nat.succ_pos _)
    obtain ⟨c, sibs', cs', hpair, habove, rfl⟩ := (path_eq_some htwo).mp hpath
    rw [calls] at hcalls
    have hlevel : (level node (a :: b :: l)).length = ((a :: b :: l).length + 1) / 2 :=
      length_level node _
    rw [← hlevel] at habove
    have hup := ih (fun c hc ↦ hcalls c (List.mem_append_right _ hc))
      (fun c hc ↦ hcs c (List.mem_cons_of_mem _ hc)) (by rw [hlevel]; omega) hroot habove
    rw [level, List.getElem?_map] at hup
    obtain ⟨c', hc', heq⟩ := Option.map_eq_some_iff.mp hup
    obtain rfl := hinj (hcalls c' (List.mem_append_left _ (List.mem_of_getElem? hc')))
      (hcs c List.mem_cons_self) heq
    exact getElem?_of_pair hpair hc'

/-- A digest is hashed into another. -/
def Feeds (node : H → H → Bool → H) (C : Set (H × H × Bool)) (x y : H) : Prop :=
  ∃ c ∈ C, (x = c.1 ∨ x = c.2.1) ∧ value node c = y

variable (node) in
theorem feeds_of_pair (hpair : pairWith h idx width sibs = some (c, rest)) (hc : c ∈ C) :
    Feeds node C h (value node c) := by
  refine ⟨c, hc, ?_, rfl⟩
  unfold pairWith at hpair
  split at hpair
  case isTrue =>
    cases hpair
    exact .inl rfl
  case isFalse =>
    split at hpair
    case h_1 => cases hpair
    case h_2 s rest' =>
      obtain ⟨rfl, -⟩ := Prod.mk.inj (Option.some.inj hpair)
      split
      case isTrue => exact .inl rfl
      case isFalse => exact .inr rfl

theorem feeds_of_path (hcs : ∀ c ∈ cs, c ∈ C)
    (hpath : path node h idx width sibs = some (cs, top, rest)) :
    Relation.ReflTransGen (Feeds node C) h top := by
  induction cs generalizing h idx width sibs with
  | nil =>
    by_cases hw : 1 < width
    · obtain ⟨_, _, _, -, -, hcons⟩ := (path_eq_some hw).mp hpath
      cases hcons
    · rw [path_of_le hw] at hpath
      cases hpath
      exact .refl
  | cons c cs ih =>
    by_cases hw : 1 < width
    · obtain ⟨c', sibs', cs', hpair, habove, hcons⟩ := (path_eq_some hw).mp hpath
      cases hcons
      have hfeeds := feeds_of_pair node hpair (hcs c List.mem_cons_self)
      exact .head hfeeds (ih (fun c hc ↦ hcs c (List.mem_cons_of_mem _ hc)) habove)
    · rw [path_of_le hw] at hpath
      cases hpath

/-- What leads to the root of a level leads to an element of it, or is higher. -/
theorem feeds_root {k : Nat} {x : H} (hfree : CollisionFree node leaves C)
    (hl : ∀ z ∈ l, Rises node leaves C k z) (hcalls : ∀ c ∈ calls node l, c ∈ C)
    (hroot : root node l = some top) (hx : Relation.ReflTransGen (Feeds node C) x top) :
    (∃ z ∈ l, Relation.ReflTransGen (Feeds node C) x z) ∨ ∃ j, k < j ∧ Rises node leaves C j x := by
  fun_induction root node l generalizing k with
  | case1 => cases hroot
  | case2 a =>
    cases hroot
    exact .inl ⟨_, List.mem_cons_self, hx⟩
  | case3 a b l ih =>
    rw [calls] at hcalls
    have hpairs (c) (hc : c ∈ pairs (a :: b :: l)) := hcalls c (List.mem_append_left _ hc)
    have hup := Rises.level hl hpairs
    rcases ih hup (fun c hc ↦ hcalls c (List.mem_append_right _ hc)) hroot with
      ⟨z, hz, hxz⟩ | ⟨j, hj, hrises⟩
    · cases hxz with
      | refl => exact .inr ⟨k + 1, Nat.lt_succ_self k, hup x hz⟩
      | tail hxw hwz =>
        -- the hash has one pair, that of the level
        obtain ⟨c, hc, hw, heq⟩ := hwz
        obtain ⟨c', hc', heq'⟩ := List.mem_map.mp hz
        obtain rfl := hfree.inj hc (hpairs c' hc') (heq.trans heq'.symm)
        obtain ⟨hleft, hright⟩ := mem_of_mem_pairs hc'
        rcases hw with rfl | rfl
        · exact .inl ⟨_, hleft, hxw⟩
        · exact .inl ⟨_, hright, hxw⟩
    · exact .inr ⟨j, (Nat.lt_succ_self k).trans hj, hrises⟩

/-- A leaf that leads to the root is an element of the list, whatever width is claimed. -/
theorem mem_of_path (hfree : CollisionFree node leaves C) (hl : ∀ z ∈ l, z ∈ leaves)
    (hh : h ∈ leaves) (hcalls : ∀ c ∈ calls node l, c ∈ C) (hcs : ∀ c ∈ cs, c ∈ C)
    (hroot : root node l = some top)
    (hpath : path node h idx width sibs = some (cs, top, rest)) : h ∈ l := by
  rcases feeds_root hfree (fun z hz ↦ .leaf (hl z hz)) hcalls hroot (feeds_of_path hcs hpath) with
    ⟨z, hz, hhz⟩ | ⟨j, hj, hrises⟩
  · cases hhz with
    | refl => exact hz
    | tail _ hwz =>
      obtain ⟨c, hc, -, heq⟩ := hwz
      exact absurd heq.symm (hfree.leaf z (hl z hz) c hc)
  · exact absurd (hrises.height_unique hfree (.leaf hh)) hj.ne'

/-! ## Completeness -/

variable (node) in
/-- The pair of an element with its sibling. -/
theorem pairWith_siblings (hw : 1 < l.length) (hidx : l[idx]? = some h) :
    ∃ c, pairWith h idx l.length (siblings node l idx) =
        some (c, siblings node (level node l) (idx / 2)) ∧ (pairs l)[idx / 2]? = some c := by
  obtain ⟨hlt, -⟩ := List.getElem?_eq_some_iff.mp hidx
  rw [siblings, if_pos hw, getElem?_pairs]
  by_cases hlast : idx = l.length - 1 ∧ l.length % 2 = 1
  · have heven : 2 * (idx / 2) = idx := by omega
    have hnone : l[idx + 1]? = none := List.getElem?_eq_none (by omega)
    rw [if_pos hlast, List.nil_append, pairWith_last hlast, heven, hidx, hnone]
    exact ⟨(h, h, true), rfl, rfl⟩
  · rw [if_neg hlast]
    by_cases heven : idx % 2 = 0
    · have hidx' : 2 * (idx / 2) = idx := by omega
      obtain ⟨b, hb⟩ : ∃ b, l[idx + 1]? = some b := ⟨_, List.getElem?_eq_getElem (by omega)⟩
      rw [if_pos heven, hb, Option.toList_some, List.singleton_append, pairWith_cons hlast,
        if_pos heven, hidx', hidx, hb]
      exact ⟨(h, b, false), rfl, rfl⟩
    · have hidx' : 2 * (idx / 2) = idx - 1 := by omega
      have hnext : idx - 1 + 1 = idx := by omega
      obtain ⟨a, ha⟩ : ∃ a, l[idx - 1]? = some a := ⟨_, List.getElem?_eq_getElem (by omega)⟩
      rw [if_neg heven, ha, Option.toList_some, List.singleton_append, pairWith_cons hlast,
        if_neg heven, hidx', ha, hnext, hidx]
      exact ⟨(a, h, false), rfl, rfl⟩

/-- The siblings of an element lead to the root. -/
theorem path_siblings (hidx : l[idx]? = some h) (hroot : root node l = some top) :
    ∃ cs, path node h idx l.length (siblings node l idx) = some (cs, top, []) := by
  fun_induction root node l generalizing h idx with
  | case1 => cases hroot
  | case2 a =>
    cases hroot
    obtain ⟨hlt, rfl⟩ := List.getElem?_eq_some_iff.mp hidx
    obtain rfl := Nat.lt_one_iff.mp hlt
    refine ⟨[], ?_⟩
    rw [path_of_le (by simp), siblings, if_neg (by simp)]
    rfl
  | case3 a b l ih =>
    have htwo : 1 < (a :: b :: l).length := Nat.succ_lt_succ (Nat.succ_pos _)
    obtain ⟨c, hpair, hc⟩ := pairWith_siblings node htwo hidx
    have hup : (level node (a :: b :: l))[idx / 2]? = some (value node c) := by
      rw [level, List.getElem?_map, hc]
      rfl
    obtain ⟨cs, hcs⟩ := ih hup hroot
    rw [length_level] at hcs
    exact ⟨c :: cs, (path_eq_some htwo).mpr ⟨c, _, cs, hpair, hcs, rfl⟩⟩

/-- No more siblings than levels. -/
theorem length_siblings_le (l : List H) (idx : Nat) :
    (siblings node l idx).length ≤ Nat.clog 2 l.length := by
  fun_induction siblings node l idx with
  | case1 l idx hw ih =>
    have hclog : Nat.clog 2 l.length = Nat.clog 2 (level node l).length + 1 := by
      rw [length_level, Nat.clog_of_two_le Nat.one_lt_two hw]
      rfl
    rw [hclog, List.length_append, Nat.add_comm]
    refine Nat.add_le_add ih ?_
    split
    · exact Nat.zero_le _
    · cases l[if idx % 2 = 0 then idx + 1 else idx - 1]? <;> simp
  | case2 l idx hw => exact Nat.zero_le _

end Plaine.Lib.HashTree

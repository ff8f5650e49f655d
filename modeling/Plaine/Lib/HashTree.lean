import Mathlib.Data.Nat.Log
import Mathlib.Tactic.Linarith

/-!
# Hash trees by levels

A hash tree over a list of digests is built level by level: neighbours are hashed together, and an
odd one out with itself, under a flag that tells the two cases apart.  The root is what is left.

It is the root of the tree cut from the top at powers of two, and it commits to the list: as long as
the hashes that were computed do not collide, with each other or with a leaf, no two lists have the
same root, of whatever lengths.
-/

namespace Plaine.Lib.HashTree

variable {H : Type*} (node : H → H → Bool → H)

/-- The pairs that are hashed on the way from one level to the next. -/
def pairs : List H → List (H × H × Bool)
  | a :: b :: l => (a, b, false) :: pairs l
  | [a] => [(a, a, true)]
  | [] => []

/-- The hash of a pair. -/
def value (c : H × H × Bool) : H := node c.1 c.2.1 c.2.2

/-- The next level. -/
def level (l : List H) : List H := (pairs l).map (value node)

@[simp] theorem level_nil : level node [] = [] := rfl

@[simp] theorem level_singleton (a : H) : level node [a] = [node a a true] := rfl

@[simp] theorem level_cons_cons (a b : H) (l : List H) :
    level node (a :: b :: l) = node a b false :: level node l := rfl

theorem length_level (l : List H) : (level node l).length = (l.length + 1) / 2 := by
  fun_induction pairs l with
  | case1 a b l ih =>
    rw [level_cons_cons, List.length_cons, ih, List.length_cons, List.length_cons]
    omega
  | case2 a => rw [level_singleton, List.length_singleton, List.length_singleton]
  | case3 => rw [level_nil, List.length_nil]

/-- The pairs of a level are its own. -/
theorem pairs_injective : Function.Injective (pairs (H := H)) := by
  intro l
  fun_induction pairs l with
  | case1 a b l ih =>
    rintro (_ | ⟨a', _ | ⟨b', l'⟩⟩) h
    · cases h
    · cases h
    · rw [pairs] at h
      obtain ⟨hhead, htail⟩ := List.cons.inj h
      cases hhead
      rw [ih htail]
  | case2 a =>
    rintro (_ | ⟨a', _ | ⟨b', l'⟩⟩) h
    · cases h
    · cases h
      rfl
    · cases h
  | case3 =>
    rintro (_ | ⟨a', _ | ⟨b', l'⟩⟩) h
    · rfl
    · cases h
    · cases h

/-- The elements of a pair are on the level. -/
theorem mem_of_mem_pairs {l : List H} {c : H × H × Bool} (h : c ∈ pairs l) : c.1 ∈ l ∧ c.2.1 ∈ l := by
  fun_induction pairs l with
  | case1 a b l ih =>
    rcases List.mem_cons.mp h with rfl | h
    · exact ⟨List.mem_cons_self, List.mem_cons_of_mem _ List.mem_cons_self⟩
    · obtain ⟨hl, hr⟩ := ih h
      exact ⟨List.mem_cons_of_mem _ (List.mem_cons_of_mem _ hl),
        List.mem_cons_of_mem _ (List.mem_cons_of_mem _ hr)⟩
  | case2 a =>
    obtain rfl := List.mem_singleton.mp h
    exact ⟨List.mem_cons_self, List.mem_cons_self⟩
  | case3 => cases h

/-- The root, of a list that is not empty. -/
def root : List H → Option H
  | [] => none
  | [a] => some a
  | a :: b :: l => root (level node (a :: b :: l))
termination_by l => l.length
decreasing_by
  rw [length_level, List.length_cons, List.length_cons]
  omega

/-- The pairs that are hashed on the way to the root. -/
def calls : List H → List (H × H × Bool)
  | [] => []
  | [_] => []
  | a :: b :: l => pairs (a :: b :: l) ++ calls (level node (a :: b :: l))
termination_by l => l.length
decreasing_by
  rw [length_level, List.length_cons, List.length_cons]
  omega

variable {l l' : List H}

theorem root_of_two_le (h : 2 ≤ l.length) : root node l = root node (level node l) := by
  rcases l with _ | ⟨a, _ | ⟨b, l⟩⟩
  · cases h
  · exact absurd h (Nat.not_succ_le_self 1)
  · rw [root]

theorem calls_of_two_le (h : 2 ≤ l.length) :
    calls node l = pairs l ++ calls node (level node l) := by
  rcases l with _ | ⟨a, _ | ⟨b, l⟩⟩
  · cases h
  · exact absurd h (Nat.not_succ_le_self 1)
  · rw [calls]

theorem root_eq_none : root node l = none ↔ l = [] := by
  fun_induction root node l with
  | case1 => exact iff_of_true rfl rfl
  | case2 a => exact iff_of_false (Option.some_ne_none a) (List.cons_ne_nil _ _)
  | case3 a b l ih =>
    rw [ih]
    exact iff_of_false (List.cons_ne_nil _ _) (List.cons_ne_nil _ _)

/-- The root is a digest of the list, or one of those computed. -/
theorem mem_of_root_eq {x : H} (h : root node l = some x) :
    x ∈ l ∨ ∃ c ∈ calls node l, x = value node c := by
  fun_induction root node l with
  | case1 => cases h
  | case2 a => exact .inl (List.mem_singleton.mpr (Option.some.inj h).symm)
  | case3 a b l ih =>
    rw [calls]
    rcases ih h with hx | ⟨c, hc, hx⟩
    · obtain ⟨c, hc, rfl⟩ := List.mem_map.mp hx
      exact .inr ⟨c, List.mem_append_left _ hc, rfl⟩
    · exact .inr ⟨c, List.mem_append_right _ hc, hx⟩

/-! ## Cut from the top -/

/-- The root of a tree of depth `d`: of the two halves, or of the left one with itself where the
right one is empty. -/
def subtree : Nat → List H → Option H
  | 0, l => l.head?
  | d + 1, l =>
    if l.length ≤ 2 ^ d then (subtree d l).map fun x ↦ node x x true
    else (subtree d (l.take (2 ^ d))).bind fun x ↦
      (subtree d (l.drop (2 ^ d))).map fun y ↦ node x y false

theorem level_take (k : Nat) (l : List H) : level node (l.take (2 * k)) = (level node l).take k := by
  induction k generalizing l with
  | zero => rw [Nat.mul_zero, List.take_zero, List.take_zero, level_nil]
  | succ k ih =>
    rcases l with _ | ⟨a, _ | ⟨b, l⟩⟩
    · rw [List.take_nil, level_nil, List.take_nil]
    · rw [Nat.mul_succ, List.take_succ_cons, List.take_nil, level_singleton, List.take_succ_cons,
        List.take_nil]
    · rw [Nat.mul_succ, List.take_succ_cons, List.take_succ_cons, level_cons_cons, ih, level_cons_cons,
        List.take_succ_cons]

theorem level_drop (k : Nat) (l : List H) : level node (l.drop (2 * k)) = (level node l).drop k := by
  induction k generalizing l with
  | zero => rw [Nat.mul_zero, List.drop_zero, List.drop_zero]
  | succ k ih =>
    rcases l with _ | ⟨a, _ | ⟨b, l⟩⟩
    · rw [List.drop_nil, level_nil, List.drop_nil]
    · rw [Nat.mul_succ, List.drop_succ_cons, List.drop_nil, level_singleton, List.drop_succ_cons,
        List.drop_nil, level_nil]
    · rw [Nat.mul_succ, List.drop_succ_cons, List.drop_succ_cons, ih, level_cons_cons,
        List.drop_succ_cons]

/-- A tree is one shallower over the next level. -/
theorem subtree_succ {d : Nat} (hne : l ≠ []) (h : l.length ≤ 2 ^ (d + 1)) :
    subtree node (d + 1) l = subtree node d (level node l) := by
  induction d generalizing l with
  | zero =>
    rcases l with _ | ⟨a, _ | ⟨b, _ | ⟨c, l⟩⟩⟩
    · exact absurd rfl hne
    · rfl
    · rfl
    · rw [List.length_cons, List.length_cons, List.length_cons] at h
      omega
  | succ d ih =>
    have hpow : 2 ^ (d + 1) = 2 * 2 ^ d := Nat.pow_succ'
    have hhalf : l.length ≤ 2 ^ (d + 1) ↔ (level node l).length ≤ 2 ^ d := by
      rw [length_level, hpow]
      omega
    rw [subtree, subtree.eq_def node (d + 1) (level node l)]
    dsimp only
    by_cases hle : l.length ≤ 2 ^ (d + 1)
    · rw [if_pos hle, if_pos (hhalf.mp hle), ih hne hle]
    · have hlt : 2 ^ (d + 1) < l.length := Nat.lt_of_not_le hle
      have htake : (l.take (2 ^ (d + 1))).length ≤ 2 ^ (d + 1) := List.length_take_le _ _
      have hdrop : (l.drop (2 ^ (d + 1))).length ≤ 2 ^ (d + 1) := by
        rw [List.length_drop]
        have : 2 ^ (d + 1 + 1) = 2 * 2 ^ (d + 1) := Nat.pow_succ'
        omega
      have htake₀ : l.take (2 ^ (d + 1)) ≠ [] := by
        rw [Ne, List.take_eq_nil_iff, not_or]
        exact ⟨(Nat.two_pow_pos _).ne', hne⟩
      have hdrop₀ : l.drop (2 ^ (d + 1)) ≠ [] := by
        rw [Ne, List.drop_eq_nil_iff]
        exact hlt.not_ge
      rw [if_neg hle, if_neg (hhalf.not.mp hle), ih htake₀ htake, ih hdrop₀ hdrop, hpow, level_take,
        level_drop]

/-- The levels lead to the root of the tree cut from the top. -/
theorem root_eq_subtree (l : List H) (hne : l ≠ []) :
    root node l = subtree node (Nat.clog 2 l.length) l := by
  fun_induction root node l with
  | case1 => exact absurd rfl hne
  | case2 a => rfl
  | case3 a b l ih =>
    have htwo : 2 ≤ (a :: b :: l).length := Nat.le_add_left _ _
    have hlen : (level node (a :: b :: l)).length = ((a :: b :: l).length + 2 - 1) / 2 :=
      length_level node _
    have hclog : Nat.clog 2 (a :: b :: l).length =
        Nat.clog 2 (level node (a :: b :: l)).length + 1 := by
      rw [hlen, Nat.clog_of_two_le Nat.one_lt_two htwo]
    rw [ih (by rw [level_cons_cons]; exact List.cons_ne_nil _ _), hclog, subtree_succ node hne]
    rw [← hclog]
    exact Nat.le_pow_clog Nat.one_lt_two _

/-! ## Commitment -/

section

variable (leaves : Set H) (C : Set (H × H × Bool))

/-- The digests that are `k` hashes above the leaves. -/
inductive Rises : Nat → H → Prop
  | leaf {x : H} : x ∈ leaves → Rises 0 x
  | node {k : Nat} {c : H × H × Bool} : c ∈ C → Rises k c.1 → Rises k c.2.1 →
      Rises (k + 1) (value node c)

/-- The hashes that were computed differ, from each other and from the leaves. -/
structure CollisionFree : Prop where
  inj : Set.InjOn (value node) C
  leaf : ∀ x ∈ leaves, ∀ c ∈ C, x ≠ value node c

variable {node leaves C} {j k : Nat} {x y : H}

/-- A digest is at one height only. -/
theorem Rises.height_unique (hfree : CollisionFree node leaves C) (h : Rises node leaves C j x)
    (h' : Rises node leaves C k x) : j = k := by
  induction h generalizing k with
  | leaf hx =>
    cases h' with
    | leaf => rfl
    | node hc => exact absurd rfl (hfree.leaf _ hx _ hc)
  | @node j c hc _ _ ih _ =>
    generalize hy : value node c = y at h'
    cases h' with
    | leaf hx => exact absurd hy.symm (hfree.leaf _ hx _ hc)
    | node hc' hl' _ =>
      obtain rfl := hfree.inj hc hc' hy
      rw [ih hl']

/-- The next level is one higher. -/
theorem Rises.level (h : ∀ x ∈ l, Rises node leaves C k x) (hC : ∀ c ∈ pairs l, c ∈ C) :
    ∀ x ∈ level node l, Rises node leaves C (k + 1) x := by
  intro x hx
  obtain ⟨c, hc, rfl⟩ := List.mem_map.mp hx
  obtain ⟨hl, hr⟩ := mem_of_mem_pairs hc
  exact .node (hC c hc) (h _ hl) (h _ hr)

/-- The root of a level is higher than the level, unless it is the level. -/
theorem Rises.root (h : ∀ x ∈ l, Rises node leaves C k x) (hC : ∀ c ∈ calls node l, c ∈ C)
    (hroot : root node l = some x) :
    ∃ j, k ≤ j ∧ (2 ≤ l.length → k < j) ∧ Rises node leaves C j x := by
  fun_induction HashTree.root node l generalizing k with
  | case1 => cases hroot
  | case2 a =>
    cases hroot
    exact ⟨k, le_rfl, fun htwo ↦ absurd htwo (Nat.not_succ_le_self 1), h _ List.mem_cons_self⟩
  | case3 a b l ih =>
    rw [calls] at hC
    have hlevel := Rises.level h fun c hc ↦ hC c (List.mem_append_left _ hc)
    obtain ⟨j, hle, -, hj⟩ := ih hlevel (fun c hc ↦ hC c (List.mem_append_right _ hc)) hroot
    exact ⟨j, (Nat.le_succ k).trans hle, fun _ ↦ hle, hj⟩

/-- A root that is no hash is the only digest there is. -/
theorem eq_singleton_of_root (hroot : HashTree.root node l = some x) (hlt : ¬2 ≤ l.length) :
    l = [x] := by
  rcases l with _ | ⟨a, _ | ⟨b, l⟩⟩
  · rw [HashTree.root] at hroot
    cases hroot
  · rw [HashTree.root] at hroot
    rw [Option.some.inj hroot]
  · exact absurd (Nat.le_add_left _ _) hlt

/-- A digest that is a level is not the root of a longer one of the same height. -/
theorem CollisionFree.not_two_le (hfree : CollisionFree node leaves C)
    (h : ∀ x ∈ l, Rises node leaves C k x) (hC : ∀ c ∈ calls node l, c ∈ C)
    (hroot : HashTree.root node l = some x) (hx : Rises node leaves C k x) : ¬2 ≤ l.length := by
  intro htwo
  obtain ⟨j, -, hlt, hj⟩ := Rises.root h hC hroot
  exact (hlt htwo).ne (hx.height_unique hfree hj)

/-- The pairs can be told from their hashes. -/
theorem CollisionFree.eq_of_level_eq (hfree : CollisionFree node leaves C)
    (hC : ∀ c ∈ pairs l, c ∈ C) (hC' : ∀ c ∈ pairs l', c ∈ C)
    (heq : HashTree.level node l = HashTree.level node l') : l = l' := by
  refine pairs_injective ?_
  unfold HashTree.level at heq
  generalize pairs l = p at *
  generalize pairs l' = p' at *
  induction p generalizing p' with
  | nil => exact (List.map_eq_nil_iff.mp heq.symm).symm
  | cons c p ih =>
    rcases p' with _ | ⟨c', p'⟩
    · cases heq
    · obtain ⟨hhead, htail⟩ := List.cons.inj heq
      rw [hfree.inj (hC c List.mem_cons_self) (hC' c' List.mem_cons_self) hhead,
        ih (fun d hd ↦ hC d (List.mem_cons_of_mem _ hd)) p'
          (fun d hd ↦ hC' d (List.mem_cons_of_mem _ hd)) htail]

/-- Two levels of one height with one root are the same. -/
theorem CollisionFree.eq_of_root_eq (hfree : CollisionFree node leaves C)
    (h : ∀ x ∈ l, Rises node leaves C k x) (h' : ∀ x ∈ l', Rises node leaves C k x)
    (hC : ∀ c ∈ calls node l, c ∈ C) (hC' : ∀ c ∈ calls node l', c ∈ C)
    (hroot : HashTree.root node l = some x) (hroot' : HashTree.root node l' = some x) : l = l' := by
  fun_induction HashTree.root node l generalizing k l' with
  | case1 => cases hroot
  | case2 a =>
    cases hroot
    have hshort := hfree.not_two_le h' hC' hroot' (h _ List.mem_cons_self)
    exact (eq_singleton_of_root hroot' hshort).symm
  | case3 a b l ih =>
    have htwo : 2 ≤ (a :: b :: l).length := Nat.le_add_left _ _
    have htwo' : 2 ≤ l'.length := by
      by_contra hshort
      obtain rfl := eq_singleton_of_root hroot' hshort
      refine hfree.not_two_le h hC ?_ (h' x List.mem_cons_self) htwo
      rw [HashTree.root, hroot]
    rw [calls] at hC
    rw [calls_of_two_le node htwo'] at hC'
    rw [root_of_two_le node htwo'] at hroot'
    have hpairs : ∀ c ∈ pairs (a :: b :: l), c ∈ C := fun c hc ↦ hC c (List.mem_append_left _ hc)
    have hpairs' : ∀ c ∈ pairs l', c ∈ C := fun c hc ↦ hC' c (List.mem_append_left _ hc)
    refine hfree.eq_of_level_eq hpairs hpairs' ?_
    exact ih (Rises.level h hpairs) (Rises.level h' hpairs')
      (fun c hc ↦ hC c (List.mem_append_right _ hc)) (fun c hc ↦ hC' c (List.mem_append_right _ hc))
      hroot hroot'

end

end Plaine.Lib.HashTree

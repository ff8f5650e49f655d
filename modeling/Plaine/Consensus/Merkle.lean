import Plaine.Consensus.Blake3
import Plaine.Lib.HashTree

/-!
# The Merkle root

`merkle_root` goes up a hash tree level by level.  It is the root of the tree cut from the top at
powers of two, and no two lists of transactions have the same root unless two of the digests that
were computed for them collide: an odd node out is hashed with itself under a flag of its own, so
that repeating the last transaction does not go unnoticed.
-/

namespace Plaine.Consensus

open Plaine.Lib

section

variable [Crypto]

/-- `reference_root`, the recursion the tests compare `merkle_root` with. -/
def referenceRoot : List Hash32 → Hash32
  | [] => txRootEmpty
  | [root] => root
  | a :: b :: l => referenceRoot (HashTree.level merkleNode (a :: b :: l))
termination_by l => l.length
decreasing_by
  rw [HashTree.length_level, List.length_cons, List.length_cons]
  omega

theorem merkleLevel_eq (l : List Hash32) : merkleLevel l = HashTree.level merkleNode l := by
  fun_induction merkleLevel l with
  | case1 a b l ih => rw [HashTree.level_cons_cons, ih]
  | case2 a => rfl
  | case3 => rfl

theorem referenceRoot_eq (l : List Hash32) :
    referenceRoot l = (HashTree.root merkleNode l).getD txRootEmpty := by
  fun_induction referenceRoot l with
  | case1 => rw [HashTree.root, Option.getD_none]
  | case2 a => rw [HashTree.root, Option.getD_some]
  | case3 a b l ih => rw [HashTree.root, ih]

/-- The loop has come to the root once its fuel is used up. -/
theorem merkleLoop_eq {fuel : Nat} {l : List Hash32} (h : l.length ≤ fuel) :
    merkleLoop fuel l = (HashTree.root merkleNode l).getD txRootEmpty := by
  fun_induction merkleLoop fuel l with
  | case1 => rw [HashTree.root, Option.getD_none]
  | case2 => rw [HashTree.root, Option.getD_some]
  | case3 root l _ => cases h
  | case4 fuel l hnil hone ih =>
    have htwo : 2 ≤ l.length := by
      rcases l with _ | ⟨a, _ | ⟨b, l⟩⟩
      · exact absurd rfl hnil
      · exact absurd rfl (hone a)
      · exact Nat.le_add_left _ _
    rw [ih, merkleLevel_eq, ← HashTree.root_of_two_le merkleNode htwo]
    rw [merkleLevel_eq, HashTree.length_level]
    omega

theorem merkleRoot_eq (l : List Hash32) :
    merkleRoot l = (HashTree.root merkleNode l).getD txRootEmpty := merkleLoop_eq le_rfl

/-- The pairs that are hashed for the roots of two lists of transactions. -/
def merkleCalls (txs txs' : List Bytes) : List (Hash32 × Hash32 × Bool) :=
  HashTree.calls merkleNode (txs.map merkleLeaf) ++ HashTree.calls merkleNode (txs'.map merkleLeaf)

/-- The digests computed for the roots of two lists of transactions do not collide: no two nodes,
no node with a leaf, and none of them with the root of no transactions. -/
structure MerkleCollisionFree (txs txs' : List Bytes) : Prop where
  node : ∀ c ∈ merkleCalls txs txs', ∀ c' ∈ merkleCalls txs txs',
    merkleNode c.1 c.2.1 c.2.2 = merkleNode c'.1 c'.2.1 c'.2.2 → c = c'
  leaf : ∀ tx ∈ txs ++ txs', ∀ c ∈ merkleCalls txs txs',
    merkleLeaf tx ≠ merkleNode c.1 c.2.1 c.2.2
  emptyLeaf : ∀ tx ∈ txs ++ txs', merkleLeaf tx ≠ txRootEmpty
  emptyNode : ∀ c ∈ merkleCalls txs txs', merkleNode c.1 c.2.1 c.2.2 ≠ txRootEmpty

variable {txs txs' : List Bytes}

/-- The digests can be looked through. -/
theorem merkleCollisionFree_of_all
    (hnode : ((merkleCalls txs txs').all fun c ↦ (merkleCalls txs txs').all fun c' ↦
      merkleNode c.1 c.2.1 c.2.2 ≠ merkleNode c'.1 c'.2.1 c'.2.2 ∨ c = c') = true)
    (hleaf : ((txs ++ txs').all fun tx ↦ (merkleCalls txs txs').all fun c ↦
      merkleLeaf tx ≠ merkleNode c.1 c.2.1 c.2.2) = true)
    (hempty : ((txs ++ txs').all fun tx ↦ merkleLeaf tx ≠ txRootEmpty) = true)
    (hempty' : ((merkleCalls txs txs').all fun c ↦
      merkleNode c.1 c.2.1 c.2.2 ≠ txRootEmpty) = true) : MerkleCollisionFree txs txs' := by
  simp only [List.all_eq_true, decide_eq_true_eq] at hnode hleaf hempty hempty'
  exact ⟨fun c hc c' hc' heq ↦ (hnode c hc c' hc').resolve_left (not_not.mpr heq), hleaf, hempty,
    hempty'⟩

theorem MerkleCollisionFree.symm (h : MerkleCollisionFree txs txs') : MerkleCollisionFree txs' txs := by
  have hcalls : ∀ {c}, c ∈ merkleCalls txs' txs → c ∈ merkleCalls txs txs' := fun hc ↦
    List.mem_append.mpr (List.mem_append.mp hc).symm
  have htxs : ∀ {tx}, tx ∈ txs' ++ txs → tx ∈ txs ++ txs' := fun htx ↦
    List.mem_append.mpr (List.mem_append.mp htx).symm
  exact ⟨fun c hc c' hc' ↦ h.node c (hcalls hc) c' (hcalls hc'),
    fun tx htx c hc ↦ h.leaf tx (htxs htx) c (hcalls hc), fun tx htx ↦ h.emptyLeaf tx (htxs htx),
    fun c hc ↦ h.emptyNode c (hcalls hc)⟩

/-- A root is not that of no transactions. -/
theorem MerkleCollisionFree.root_ne (h : MerkleCollisionFree txs txs') {root : Hash32}
    (hroot : HashTree.root merkleNode (txs.map merkleLeaf) = some root) : root ≠ txRootEmpty := by
  rcases HashTree.mem_of_root_eq merkleNode hroot with hleaf | ⟨c, hc, rfl⟩
  · obtain ⟨tx, htx, rfl⟩ := List.mem_map.mp hleaf
    exact h.emptyLeaf tx (List.mem_append_left _ htx)
  · exact h.emptyNode c (List.mem_append_left _ hc)

/-- The loop over the levels comes to the root of the recursion, which is that of the tree cut from
the top; and two lists of leaf hashes with one root are the same, unless digests computed for them
collide. -/
theorem merkleRoot_commits (txs txs' : List Bytes) :
    (∀ leaves, merkleRoot leaves = referenceRoot leaves ∧ (leaves ≠ [] →
      HashTree.subtree merkleNode (Nat.clog 2 leaves.length) leaves = some (merkleRoot leaves))) ∧
    (MerkleCollisionFree txs txs' →
      merkleRoot (txs.map merkleLeaf) = merkleRoot (txs'.map merkleLeaf) →
        txs.map merkleLeaf = txs'.map merkleLeaf) := by
  refine ⟨fun leaves ↦ ⟨by rw [merkleRoot_eq, referenceRoot_eq], fun hne ↦ ?_⟩, fun hfree heq ↦ ?_⟩
  · obtain ⟨root, hroot⟩ : ∃ root, HashTree.root merkleNode leaves = some root := by
      refine Option.ne_none_iff_exists'.mp fun hnone ↦ hne ?_
      exact (HashTree.root_eq_none merkleNode).mp hnone
    rw [← HashTree.root_eq_subtree merkleNode leaves hne, merkleRoot_eq, hroot, Option.getD_some]
  · rw [merkleRoot_eq, merkleRoot_eq] at heq
    cases hroot : HashTree.root merkleNode (txs.map merkleLeaf) with
    | none =>
      cases hroot' : HashTree.root merkleNode (txs'.map merkleLeaf) with
      | none => rw [(HashTree.root_eq_none _).mp hroot, (HashTree.root_eq_none _).mp hroot']
      | some root =>
        rw [hroot, hroot'] at heq
        exact absurd heq.symm (hfree.symm.root_ne hroot')
    | some root =>
      cases hroot' : HashTree.root merkleNode (txs'.map merkleLeaf) with
      | none =>
        rw [hroot, hroot'] at heq
        exact absurd heq (hfree.root_ne hroot)
      | some root' =>
        rw [hroot, hroot'] at heq
        obtain rfl : root = root' := heq
        -- All leaves are at the bottom.
        have hfree' : HashTree.CollisionFree merkleNode {x | ∃ tx ∈ txs ++ txs', merkleLeaf tx = x}
            {c | c ∈ merkleCalls txs txs'} := by
          refine ⟨fun c hc c' hc' h ↦ hfree.node c hc c' hc' h, ?_⟩
          rintro _ ⟨tx, htx, rfl⟩ c hc
          exact hfree.leaf tx htx c hc
        refine hfree'.eq_of_root_eq (k := 0) (fun x hx ↦ .leaf ?_) (fun x hx ↦ .leaf ?_)
          (fun c hc ↦ List.mem_append_left _ hc) (fun c hc ↦ List.mem_append_right _ hc) hroot hroot'
        · obtain ⟨tx, htx, rfl⟩ := List.mem_map.mp hx
          exact ⟨tx, List.mem_append_left _ htx, rfl⟩
        · obtain ⟨tx, htx, rfl⟩ := List.mem_map.mp hx
          exact ⟨tx, List.mem_append_right _ htx, rfl⟩

end

/-- Two transactions, and the second twice. -/
def twoTxs : List Bytes := [[1], [2]]
def twoTxsRepeated : List Bytes := [[1], [2], [2]]

/-- Repeating a transaction shows. -/
theorem merkleRoot_commits_repeated : letI := Crypto.ofSignatures []
    merkleRoot (twoTxs.map merkleLeaf) ≠ merkleRoot (twoTxsRepeated.map merkleLeaf) := by
  let _ := Crypto.ofSignatures []
  have hcalls : merkleCalls twoTxs twoTxsRepeated =
      [(merkleLeaf [1], merkleLeaf [2], false), (merkleLeaf [1], merkleLeaf [2], false),
        (merkleLeaf [2], merkleLeaf [2], true),
        (merkleNode (merkleLeaf [1]) (merkleLeaf [2]) false,
          merkleNode (merkleLeaf [2]) (merkleLeaf [2]) true, false)] := by
    simp [merkleCalls, twoTxs, twoTxsRepeated, HashTree.calls, HashTree.pairs]
  have hfree : MerkleCollisionFree twoTxs twoTxsRepeated := by
    refine merkleCollisionFree_of_all ?_ ?_ (by decide +kernel) ?_
    · rw [hcalls]
      decide +kernel
    · rw [hcalls]
      decide +kernel
    · rw [hcalls]
      decide +kernel
  intro heq
  have hsame := (merkleRoot_commits twoTxs twoTxsRepeated).2 hfree heq
  exact absurd (congrArg List.length hsame) (by decide)

end Plaine.Consensus

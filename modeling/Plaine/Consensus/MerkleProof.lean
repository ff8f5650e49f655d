import Plaine.Consensus.Merkle
import Plaine.Lib.HashProof

/-!
# Merkle proofs

`merkle_proof` lists the siblings on the way from a leaf to the root; `verify_merkle_proof` goes up
again, by the index and the number of transactions that come with the proof.  The number is not
authenticated: with the right one a proof shows the leaf at its index, with any other it still cannot
show a leaf that is not in the list.
-/

namespace Plaine.Consensus

open Plaine.Lib

/-- `MerkleProof`. -/
structure MerkleProof where
  index : UInt32
  txCount : UInt32
  siblings : List Hash32
deriving DecidableEq

section

variable [Crypto]

/-- The loop of `merkle_proof`.  Every pass halves the level up to rounding, so a fuel of its length
is enough. -/
def merkleProofLoop : Nat → List Hash32 → Nat → List Hash32
  | 0, _, _ => []
  | fuel + 1, level, idx =>
    if 1 < level.length then
      (if idx = level.length - 1 ∧ level.length % 2 = 1 then []
        -- `level[sib]` in the source; it is in range.
        else (level[if idx % 2 = 0 then idx + 1 else idx - 1]?).toList) ++
        merkleProofLoop fuel (merkleLevel level) (idx / 2)
    else []

/-- `merkle::merkle_proof`. -/
def merkleProof (leaves : List Hash32) (index : Nat) : Option MerkleProof :=
  if leaves = [] ∨ leaves.length ≤ index ∨ 2 ^ 32 - 1 < leaves.length then none
  else some ⟨UInt32.ofNat index, UInt32.ofNat leaves.length,
    merkleProofLoop leaves.length leaves index⟩

/-- The loop of `verify_merkle_proof`: the digest it ends with, and the siblings it did not use. -/
def verifyLoop : Nat → Hash32 → Nat → Nat → List Hash32 → Option (Hash32 × List Hash32)
  | 0, h, _, _, siblings => some (h, siblings)
  | fuel + 1, h, idx, width, siblings =>
    if 1 < width then
      if idx = width - 1 ∧ width % 2 = 1 then
        verifyLoop fuel (merkleNode h h true) (idx / 2) ((width + 1) / 2) siblings
      else
        match siblings with
        | [] => none
        | sib :: rest =>
          verifyLoop fuel (if idx % 2 = 0 then merkleNode h sib false else merkleNode sib h false)
            (idx / 2) ((width + 1) / 2) rest
    else some (h, siblings)

/-- `merkle::verify_merkle_proof`. -/
def verifyMerkleProof (leaf : Hash32) (proof : MerkleProof) (root : Hash32) : Bool :=
  if proof.txCount = 0 ∨ proof.txCount ≤ proof.index then false
  else if merkleMaxDepth < proof.siblings.length then false
  else
    match verifyLoop proof.txCount.toNat leaf proof.index.toNat proof.txCount.toNat
      proof.siblings with
    | none => false
    | some (h, rest) => rest = [] ∧ h = root

/-! ## The loops -/

theorem merkleProofLoop_eq {fuel : Nat} {level : List Hash32} (h : level.length ≤ fuel) (idx : Nat) :
    merkleProofLoop fuel level idx = HashTree.siblings merkleNode level idx := by
  induction fuel generalizing level idx with
  | zero =>
    obtain rfl := List.length_eq_zero_iff.mp (Nat.le_zero.mp h)
    rw [HashTree.siblings]
    rfl
  | succ fuel ih =>
    rw [merkleProofLoop, HashTree.siblings]
    split
    case isFalse => rfl
    case isTrue hlong =>
      rw [ih, merkleLevel_eq]
      rw [merkleLevel_eq, HashTree.length_level]
      omega

theorem verifyLoop_eq {fuel width : Nat} (hw : width ≤ fuel) (h : Hash32) (idx : Nat)
    (siblings : List Hash32) : verifyLoop fuel h idx width siblings =
      (HashTree.path merkleNode h idx width siblings).map (·.2) := by
  induction fuel generalizing h idx width siblings with
  | zero =>
    rw [HashTree.path_of_le (by omega)]
    rfl
  | succ fuel ih =>
    by_cases hlong : 1 < width
    · have hhalf : (width + 1) / 2 ≤ fuel := by omega
      rw [verifyLoop.eq_def, HashTree.path, if_pos hlong]
      simp only [if_pos hlong]
      by_cases hlast : idx = width - 1 ∧ width % 2 = 1
      · rw [if_pos hlast, HashTree.pairWith_last hlast, ih hhalf, Option.bind_some, Option.map_map]
        rfl
      · rw [if_neg hlast]
        cases siblings with
        | nil =>
          rw [HashTree.pairWith, if_neg hlast]
          rfl
        | cons sib rest =>
          simp only [HashTree.pairWith_cons hlast, ih hhalf, Option.bind_some, Option.map_map]
          by_cases heven : idx % 2 = 0
          · rw [if_pos heven, if_pos heven]
            rfl
          · rw [if_neg heven, if_neg heven]
            rfl
    · rw [verifyLoop.eq_def, HashTree.path_of_le hlong]
      simp only [if_neg hlong]
      rfl

/-- An accepted proof has a path to the root that uses all of its siblings. -/
theorem verifyMerkleProof_iff {leaf root : Hash32} {proof : MerkleProof} :
    verifyMerkleProof leaf proof root = true ↔
      (proof.index.toNat < proof.txCount.toNat ∧ proof.siblings.length ≤ merkleMaxDepth) ∧
        ∃ cs, HashTree.path merkleNode leaf proof.index.toNat proof.txCount.toNat proof.siblings =
          some (cs, root, []) := by
  rw [verifyMerkleProof, verifyLoop_eq le_rfl]
  by_cases hshape : proof.txCount = 0 ∨ proof.txCount ≤ proof.index
  · have hlt : ¬proof.index.toNat < proof.txCount.toNat := by
      rcases hshape with hzero | hle
      · rw [hzero]
        exact Nat.not_lt_zero _
      · exact Nat.not_lt.mpr (UInt32.le_iff_toNat_le.mp hle)
    rw [if_pos hshape]
    exact ⟨fun h ↦ absurd h Bool.false_ne_true, fun h ↦ absurd h.1.1 hlt⟩
  · have hlt : proof.index.toNat < proof.txCount.toNat :=
      UInt32.lt_iff_toNat_lt.mp (UInt32.not_le.mp fun h ↦ hshape (.inr h))
    rw [if_neg hshape]
    by_cases hdepth : merkleMaxDepth < proof.siblings.length
    · rw [if_pos hdepth]
      exact ⟨fun h ↦ absurd h Bool.false_ne_true, fun h ↦ absurd hdepth (Nat.not_lt.mpr h.1.2)⟩
    · rw [if_neg hdepth, and_iff_right ⟨hlt, Nat.not_lt.mp hdepth⟩]
      rcases HashTree.path merkleNode leaf proof.index.toNat proof.txCount.toNat proof.siblings with
        _ | ⟨cs, top, rest⟩
      · simp
      · simp [and_comm]

/-! ## Proofs of transactions -/

/-- The pairs that are hashed when a proof is verified. -/
def proofCalls (leaf : Hash32) (proof : MerkleProof) : List (Hash32 × Hash32 × Bool) :=
  ((HashTree.path merkleNode leaf proof.index.toNat proof.txCount.toNat proof.siblings).map
    (·.1)).getD []

/-- The pairs that are hashed for the root of a list and for a proof. -/
def inclusionCalls (leaves : List Hash32) (leaf : Hash32) (proof : MerkleProof) :
    List (Hash32 × Hash32 × Bool) := HashTree.calls merkleNode leaves ++ proofCalls leaf proof

/-- No two nodes that were computed for the root of a list and for a proof collide. -/
def NodesApart (leaves : List Hash32) (leaf : Hash32) (proof : MerkleProof) : Prop :=
  Set.InjOn (HashTree.value merkleNode) {c | c ∈ inclusionCalls leaves leaf proof}

/-- The digests computed for the root of a list of transactions and for a proof of one do not
collide: no two nodes, no node with a leaf, and none of them with the root of no transactions where
that is the root. -/
structure InclusionCollisionFree (txs : List Bytes) (tx : Bytes) (proof : MerkleProof) : Prop where
  node : NodesApart (txs.map merkleLeaf) (merkleLeaf tx) proof
  leaf : ∀ t ∈ tx :: txs, ∀ c ∈ inclusionCalls (txs.map merkleLeaf) (merkleLeaf tx) proof,
    merkleLeaf t ≠ merkleNode c.1 c.2.1 c.2.2
  empty : txs = [] → merkleLeaf tx ≠ txRootEmpty ∧
    ∀ c ∈ proofCalls (merkleLeaf tx) proof, merkleNode c.1 c.2.1 c.2.2 ≠ txRootEmpty

variable {leaves : List Hash32} {leaf : Hash32} {proof : MerkleProof} {txs : List Bytes} {tx : Bytes}

/-- A list with an element has a root. -/
theorem merkleRoot_of_ne_nil (h : leaves ≠ []) :
    HashTree.root merkleNode leaves = some (merkleRoot leaves) := by
  obtain ⟨top, htop⟩ := Option.ne_none_iff_exists'.mp
    fun hnone ↦ h ((HashTree.root_eq_none merkleNode).mp hnone)
  rw [merkleRoot_eq, htop, Option.getD_some]

/-- The proof of an element is accepted. -/
theorem verifyMerkleProof_merkleProof {index : Nat} (hlen : leaves.length ≤ maxTxsPerBlock)
    (hidx : leaves[index]? = some leaf) :
    ∃ proof, merkleProof leaves index = some proof ∧
      verifyMerkleProof leaf proof (merkleRoot leaves) = true := by
  obtain ⟨hlt, -⟩ := List.getElem?_eq_some_iff.mp hidx
  have hne : leaves ≠ [] := List.ne_nil_of_length_pos (Nat.zero_lt_of_lt hlt)
  have hword : leaves.length < 2 ^ 32 := hlen.trans_lt (by decide)
  have hshape : ¬(leaves = [] ∨ leaves.length ≤ index ∨ 2 ^ 32 - 1 < leaves.length) := by
    rintro (hnil | hle | hlong)
    · exact hne hnil
    · exact absurd hlt (Nat.not_lt.mpr hle)
    · exact absurd hlong (Nat.not_lt.mpr (Nat.le_pred_of_lt hword))
  refine ⟨_, if_neg hshape, verifyMerkleProof_iff.mpr ?_⟩
  simp only [UInt32.toNat_ofNat_of_lt' hword, UInt32.toNat_ofNat_of_lt' (hlt.trans hword),
    merkleProofLoop_eq le_rfl]
  refine ⟨⟨hlt, (HashTree.length_siblings_le _ _).trans ?_⟩,
    HashTree.path_siblings hidx (merkleRoot_of_ne_nil hne)⟩
  exact (Nat.clog_le_iff_le_pow Nat.one_lt_two).mpr (hlen.trans maxTxsPerBlock_le_merkleMaxDepth)

/-- With the right number of leaves the digest is the one at its index. -/
theorem getElem?_of_verifyMerkleProof (hnode : NodesApart leaves leaf proof)
    (hproof : verifyMerkleProof leaf proof (merkleRoot leaves) = true)
    (hcount : proof.txCount.toNat = leaves.length) : leaves[proof.index.toNat]? = some leaf := by
  obtain ⟨⟨hidx, -⟩, cs, hpath⟩ := verifyMerkleProof_iff.mp hproof
  have hcs : proofCalls leaf proof = cs := by
    rw [proofCalls, hpath]
    rfl
  rw [hcount] at hidx hpath
  have hne : leaves ≠ [] := List.ne_nil_of_length_pos (Nat.zero_lt_of_lt hidx)
  exact HashTree.getElem?_of_path hnode (fun c hc ↦ List.mem_append_left _ hc)
    (fun c hc ↦ List.mem_append_right _ (hcs.symm ▸ hc)) hidx (merkleRoot_of_ne_nil hne) hpath

/-- Whatever the number of leaves, a leaf is in the list. -/
theorem mem_of_verifyMerkleProof (hfree : InclusionCollisionFree txs tx proof)
    (hproof : verifyMerkleProof (merkleLeaf tx) proof (merkleRoot (txs.map merkleLeaf)) = true) :
    merkleLeaf tx ∈ txs.map merkleLeaf := by
  obtain ⟨-, cs, hpath⟩ := verifyMerkleProof_iff.mp hproof
  have hcs : proofCalls (merkleLeaf tx) proof = cs := by
    rw [proofCalls, hpath]
    rfl
  by_cases hnil : txs = []
  · -- what leads to the root of no transactions
    obtain ⟨hleaf, hnode⟩ := hfree.empty hnil
    rw [hnil] at hpath
    rcases Relation.ReflTransGen.cases_tail
      (HashTree.feeds_of_path (C := {c | c ∈ cs}) (fun c hc ↦ hc) hpath) with heq | ⟨x, -, c, hc, -, heq⟩
    · exact absurd heq.symm hleaf
    · exact absurd heq (hnode c (hcs.symm ▸ hc))
  · have hfree' : HashTree.CollisionFree merkleNode {x | ∃ t ∈ tx :: txs, merkleLeaf t = x}
        {c | c ∈ inclusionCalls (txs.map merkleLeaf) (merkleLeaf tx) proof} := by
      refine ⟨hfree.node, ?_⟩
      rintro _ ⟨t, ht, rfl⟩ c hc
      exact hfree.leaf t ht c hc
    refine HashTree.mem_of_path hfree' ?_ ⟨tx, List.mem_cons_self, rfl⟩
      (fun c hc ↦ List.mem_append_left _ hc) (fun c hc ↦ List.mem_append_right _ (hcs.symm ▸ hc))
      (merkleRoot_of_ne_nil fun h ↦ hnil (List.map_eq_nil_iff.mp h)) hpath
    intro z hz
    obtain ⟨t, ht, rfl⟩ := List.mem_map.mp hz
    exact ⟨t, List.mem_cons_of_mem _ ht, rfl⟩

/-- Merkle proofs are complete and sound.  The proof of every leaf of a list that fits a block is
accepted; a proof with the right number of leaves is of the digest at its index; and with any number
and index, a leaf that has a proof is in the list. -/
theorem merkleProof_spec :
    (∀ (leaves : List Hash32) (index : Nat) (leaf : Hash32), leaves.length ≤ maxTxsPerBlock →
      leaves[index]? = some leaf → ∃ proof, merkleProof leaves index = some proof ∧
        verifyMerkleProof leaf proof (merkleRoot leaves) = true) ∧
    (∀ (leaves : List Hash32) (leaf : Hash32) (proof : MerkleProof), NodesApart leaves leaf proof →
      verifyMerkleProof leaf proof (merkleRoot leaves) = true →
        proof.txCount.toNat = leaves.length → leaves[proof.index.toNat]? = some leaf) ∧
    ∀ (txs : List Bytes) (tx : Bytes) (proof : MerkleProof), InclusionCollisionFree txs tx proof →
      verifyMerkleProof (merkleLeaf tx) proof (merkleRoot (txs.map merkleLeaf)) = true →
        merkleLeaf tx ∈ txs.map merkleLeaf :=
  ⟨fun _ _ _ ↦ verifyMerkleProof_merkleProof, fun _ _ _ ↦ getElem?_of_verifyMerkleProof,
    fun _ _ _ ↦ mem_of_verifyMerkleProof⟩

end

/-- The proof of the second of two transactions. -/
theorem merkleProof_spec_second : letI := Crypto.ofSignatures []
    (∃ proof, merkleProof (twoTxs.map merkleLeaf) 1 = some proof ∧
      verifyMerkleProof (merkleLeaf [2]) proof (merkleRoot (twoTxs.map merkleLeaf)) = true) ∧
    (twoTxs.map merkleLeaf)[1]? = some (merkleLeaf [2]) ∧
    merkleLeaf [2] ∈ twoTxs.map merkleLeaf := by
  let _ := Crypto.ofSignatures []
  obtain ⟨hcomplete, hindex, hmem⟩ := merkleProof_spec
  have hleaves : twoTxs.map merkleLeaf = [merkleLeaf [1], merkleLeaf [2]] := rfl
  let proof : MerkleProof := ⟨1, 2, [merkleLeaf [1]]⟩
  have hpath : HashTree.path merkleNode (merkleLeaf [2]) 1 2 [merkleLeaf [1]] =
      some ([(merkleLeaf [1], merkleLeaf [2], false)],
        merkleNode (merkleLeaf [1]) (merkleLeaf [2]) false, []) := by
    rw [HashTree.path, if_pos Nat.one_lt_two, HashTree.pairWith_cons (by decide), Option.bind_some,
      HashTree.path_of_le (by decide)]
    rfl
  have hcalls : inclusionCalls (twoTxs.map merkleLeaf) (merkleLeaf [2]) proof =
      [(merkleLeaf [1], merkleLeaf [2], false), (merkleLeaf [1], merkleLeaf [2], false)] := by
    rw [inclusionCalls, proofCalls, hleaves, HashTree.calls, HashTree.level_cons_cons,
      HashTree.level_nil, HashTree.calls]
    exact congrArg _ (congrArg (fun p ↦ (p.map (·.1)).getD []) hpath)
  have hnode : NodesApart (twoTxs.map merkleLeaf) (merkleLeaf [2]) proof := by
    intro c hc c' hc' _
    rw [Set.mem_ofPred_eq, hcalls] at hc hc'
    have hone : ∀ {c}, c ∈ [(merkleLeaf [1], merkleLeaf [2], false),
        (merkleLeaf [1], merkleLeaf [2], false)] → c = (merkleLeaf [1], merkleLeaf [2], false) := by
      simp
    rw [hone hc, hone hc']
  have hfree : InclusionCollisionFree twoTxs [2] proof := by
    have hapart : merkleLeaf [1] ≠ merkleNode (merkleLeaf [1]) (merkleLeaf [2]) false ∧
        merkleLeaf [2] ≠ merkleNode (merkleLeaf [1]) (merkleLeaf [2]) false := by decide +kernel
    refine ⟨hnode, ?_, fun hnil ↦ absurd hnil (List.cons_ne_nil _ _)⟩
    rw [hcalls]
    simpa [twoTxs] using ⟨hapart.2, hapart⟩
  have hverify : verifyMerkleProof (merkleLeaf [2]) proof (merkleRoot (twoTxs.map merkleLeaf)) =
      true := by decide +kernel
  exact ⟨hcomplete _ 1 _ (by decide) rfl, hindex _ _ proof hnode hverify rfl,
    hmem _ _ proof hfree hverify⟩

end Plaine.Consensus

import Plaine.Chain.Enforced

/-!
# The depth of a reorg

A reorg leaves the chain at the last block the old and the new chain have in common.  The
depth that the reorg predicate judges is the distance from the old tip to that block, so past
the cap only a chain that holds the signed anchor above it is adopted.
-/

namespace Plaine.Chain

open Plaine.Lib Plaine.Consensus

section

variable [Crypto]

/-- Two chains agree up to height `k` of the first, and no further. -/
structure LastCommon (l l' : List Hash32) (k : Nat) : Prop where
  lt : k < l.length
  common : l'.take (k + 1) = l.take (k + 1)
  apart : ∀ h, l[k + 1]? = some h → l'[k + 1]? ≠ some h

/-! ## Plans and anchors -/

/-- A plan leaves the canonical chain at the last block the new chain has in common with it,
and its depth is the distance from the tip to there. -/
theorem lastCommon_of_plan {D : Realm} {m : Manager} {best : Nat} {plan : Plan}
    (h : m.index.Wf D) (hbest : best < m.index.nodes.length)
    (hplan : planReorg m.index best = some plan) :
    LastCommon m.chainHashes ((m.index.canonical.take (plan.forkHeight + 1) ++ plan.apply).map
        fun i ↦ (m.index.node i).hash) plan.forkHeight ∧
      plan.depth = m.index.tipHeight - plan.forkHeight := by
  have hleads := h.planReorg hbest hplan
  have hlen := h.canonical_length
  have hfork := hleads.fork_le
  have htake : (m.index.canonical.take (plan.forkHeight + 1)).length = plan.forkHeight + 1 :=
    List.length_take_of_le (by omega)
  refine ⟨⟨?_, ?_, fun hash hold hnew ↦ ?_⟩, ?_⟩
  · rw [Manager.chainHashes, List.length_map]
    omega
  · rw [Manager.chainHashes, List.map_append, List.take_left' (by rw [List.length_map, htake]),
      List.map_take]
  · -- Two nodes with one hash are one node, and the nodes to apply are not canonical.
    rw [List.getElem?_map, List.getElem?_append_right htake.le, htake, Nat.sub_self] at hnew
    obtain ⟨i, hi, hihash⟩ := Option.map_eq_some_iff.mp hnew
    rw [Manager.chainHashes_getElem?, HeaderIndex.canonicalAt, Option.map_map] at hold
    obtain ⟨j, hj, hjhash⟩ := Option.map_eq_some_iff.mp hold
    obtain ⟨rs, hrs⟩ := h.stands hbest
    have hilt : i < m.index.nodes.length := by
      refine ((h.lineage hleads.lineage hbest hrs).2 (plan.forkHeight + 1) i ?_).1
      rw [List.getElem?_append_right htake.le, htake, Nat.sub_self, hi]
    have hii := (h.byHash hash i).mpr ⟨hilt, hihash⟩
    have hjj := (h.byHash hash j).mpr ⟨h.canonical_lt hj, hjhash⟩
    obtain rfl : i = j := Option.some.inj (hii.symm.trans hjj)
    exact hleads.off i (List.mem_of_getElem? hi) (List.mem_of_getElem? hj)
  · unfold planReorg at hplan
    split at hplan
    · cases hplan
    · cases hplan
      rfl

/-- A plan that passes is no deeper than the cap, or leads to a chain that holds the anchor. -/
theorem depth_of_judge {m : Manager} {plan : Plan} {best : Nat}
    (hleads : m.index.Leads best plan) {v : ReorgVerdict} {D : Realm} (hwf : m.index.Wf D)
    (hcap : 0 < m.params.maxReorgDepth) (h : World.judge m plan = some (.ok v)) :
    m.index.tipHeight - plan.forkHeight ≤ m.params.maxReorgDepth ∨
      ∃ a, m.cps.anchor = some a ∧ plan.forkHeight < a.height ∧
        ((m.index.canonical.take (plan.forkHeight + 1) ++ plan.apply).map
          fun i ↦ (m.index.node i).hash)[a.height]? = some a.hash := by
  obtain ⟨candidate, hcand, heval⟩ := judge_eq_ok h
  obtain ⟨-, -, -, -, -, -, -, hguards, -⟩ := evaluateReorgWithCap_ok heval
  have hfork := hleads.fork_le
  have hlen := hwf.canonical_length
  have htake : (m.index.canonical.take (plan.forkHeight + 1)).length = plan.forkHeight + 1 :=
    List.length_take_of_le (by omega)
  simp only [reorgGuards, Except.bind_eq_ok, Except.require_eq_ok] at hguards
  obtain ⟨-, hdepth, -⟩ := hguards
  rcases hdepth with hzero | hle | hanchor
  · omega
  · left
    have hle : m.index.tipHeight + 1 - (plan.forkHeight + 1) ≤ m.params.maxReorgDepth := hle
    omega
  · right
    cases ha : m.cps.anchor with
    | none => simp [ha] at hanchor
    | some a =>
      rw [ha, Option.any_some, candidateMeetsAnchor, decide_eq_true_iff] at hanchor
      obtain ⟨-, -, hle, hmeets⟩ := hanchor
      refine ⟨a, rfl, hle, ?_⟩
      rw [List.getElem?_map, List.getElem?_append_right (by omega), htake, ← candidate_hash hcand]
      exact hmeets

/-! ## Runs -/

variable {σ : Type} [Store σ] [Sink σ] [HeaderStore σ] [PowVerifier] {params : ChainParams}
  {H : Headers} {w w' : World σ}

/-- The anchor, when there is one, is one the manager was handed with good signatures. -/
theorem Reachable.anchor_signed (hlimit : params.powLimit = H.powLimit)
    (h : Reachable H.free params (fun _ _ ↦ True) w) {a : Anchor} (ha : w.chain.cps.anchor = some a) :
    ∃ cp, params.Signs cp ∧ a = ⟨cp.height, cp.hash⟩ := by
  induction h generalizing a with
  | boot hs hm =>
    obtain ⟨-, -, hcps, -⟩ := hs.sound hlimit hm
    rw [hcps] at ha
    cases ha
  | @step w w' op hw hraws hop he ih =>
    obtain ⟨-, hcps, -⟩ := hw.exec_cps hlimit hraws he
    rw [hcps] at ha
    rcases Checkpoints.anchor_after w.chain.cps params w.chain.Holds op with hsame | ⟨cp, hcp, hnew⟩
    · exact ih (hsame ▸ ha)
    · exact ⟨cp, hcp, Option.some.inj (ha.symm.trans hnew)⟩

/-- In every run with a cap on depth, a step that changes the canonical chain goes by a plan
whose depth is the distance from the tip to the last common block, and is past the cap only
if the new chain holds the signed anchor above that block. -/
theorem reorg_depth_bounded (hlimit : params.powLimit = H.powLimit)
    (hcap : 0 < params.maxReorgDepth) (h : Reachable H.free params (fun _ _ ↦ True) w)
    (hstep : Steps H.free (fun _ _ ↦ True) w w') :
    w'.chain.chainHashes = w.chain.chainHashes ∨
    ∃ (m : Manager) (best : Nat) (plan : Plan) (v : ReorgVerdict),
      -- The decision, taken on an arena with the old chain.
      m.chainHashes = w.chain.chainHashes ∧ m.cps = w.chain.cps ∧
      planReorg m.index best = some plan ∧ World.judge m plan = some (.ok v) ∧
      -- The depth it is taken on.
      LastCommon w.chain.chainHashes w'.chain.chainHashes plan.forkHeight ∧
      plan.depth = w.chain.index.tipHeight - plan.forkHeight ∧
      (arenaView m.index m.params.powLimit).len - (plan.forkHeight + 1) = plan.depth ∧
      -- The bound.
      (plan.depth ≤ params.maxReorgDepth ∨
        ∃ cp, params.Signs cp ∧ w.chain.cps.anchor = some ⟨cp.height, cp.hash⟩ ∧
          plan.forkHeight < cp.height ∧ w'.chain.Holds cp) := by
  obtain ⟨hsound, -, hturn⟩ := h.step_sound hlimit hstep
  obtain ⟨-, hparams⟩ := h.sound_free hlimit
  cases hturn with
  | stay hst => exact .inl (hst.chainHashes hsound.wf)
  | adopt m best plan v wf mid cps lt plans judge index mparams genesisTime =>
    have hmparams : m.params = params := mid.params.trans hparams
    have hchain : m.chainHashes = w.chain.chainHashes := mid.chainHashes hsound.wf
    have hchain' := World.chainHashes_adopt wf lt plans index
    obtain ⟨hlast, hdepth⟩ := lastCommon_of_plan wf lt plans
    have htip : m.index.tipHeight = w.chain.index.tipHeight := by
      have hlen := congrArg List.length hchain
      rw [Manager.chainHashes, Manager.chainHashes, List.length_map, List.length_map,
        wf.canonical_length, hsound.wf.canonical_length] at hlen
      exact Nat.succ.inj hlen
    refine .inr ⟨m, best, plan, v, hchain, cps, plans, judge, hchain' ▸ hchain ▸ hlast, htip ▸ hdepth,
      ?_, ?_⟩
    · rw [hdepth]
      exact Nat.succ_sub_succ _ _
    · rw [hdepth]
      have hbound := depth_of_judge (wf.planReorg lt plans) wf (hmparams ▸ hcap) judge
      rw [hmparams, cps, ← hchain'] at hbound
      refine hbound.imp_right ?_
      rintro ⟨a, ha, hlt, hheld⟩
      obtain ⟨cp, hcp, rfl⟩ := h.anchor_signed hlimit ha
      exact ⟨cp, hcp, ha, hlt, hheld⟩

end

/-- The step of a run in which the tip is replaced by its rival. -/
theorem reorg_depth_sample :
    letI := Scene.crypto
    ∃ w w' : World MemStore, w'.chain.tip.hash = Scene.rivalHash ∧
      (w'.chain.chainHashes = w.chain.chainHashes ∨ ∃ fork,
        LastCommon w.chain.chainHashes w'.chain.chainHashes fork ∧
        (w.chain.index.tipHeight - fork ≤ Scene.params.maxReorgDepth ∨
          ∃ cp, Scene.params.Signs cp ∧ w'.chain.Holds cp)) := by
  let _ := Scene.crypto
  let _ := Scene.pow
  obtain ⟨w', hw', hout⟩ := Option.map_eq_some_iff.mp Scene.run_reorgOps
  obtain ⟨w₀, hboot, hrun⟩ := Option.bind_eq_some_iff.mp hw'
  rw [show Scene.reorgOps = Scene.reorgOps.take 5 ++ [.advance 1000200] from rfl,
    List.foldlM_append] at hrun
  obtain ⟨w, hrun, hlast⟩ := Option.bind_eq_some_iff.mp hrun
  have hreach : Reachable Scene.headers.free Scene.params (fun _ _ ↦ True) w :=
    Scene.reachable_run rfl rfl (fun op hop ↦ Scene.raws_reorgOps op (List.mem_of_mem_take hop))
      (Option.bind_eq_some_iff.mpr ⟨w₀, hboot, hrun⟩)
  have hstep : Steps Scene.headers.free (fun _ _ ↦ True) w w' :=
    ⟨.advance 1000200, by simp [Op.raws], trivial, by simpa using hlast⟩
  refine ⟨w, w', congrArg Prod.snd hout, ?_⟩
  rcases reorg_depth_bounded (H := Scene.headers) rfl (by decide) hreach hstep with hsame |
    ⟨m, best, plan, v, -, -, -, -, hlast, hdepth, -, hbound⟩
  · exact .inl hsame
  · refine .inr ⟨plan.forkHeight, hlast, ?_⟩
    rw [hdepth] at hbound
    refine hbound.imp_right ?_
    rintro ⟨cp, hcp, -, -, hheld⟩
    exact ⟨cp, hcp, hheld⟩

end Plaine.Chain

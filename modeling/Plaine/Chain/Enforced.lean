import Plaine.Chain.TipOrder

/-!
# Enforced checkpoints

A checkpoint is enforced when it is submitted while the canonical chain holds its block, and
the reorg predicate keeps the block from then on.  A checkpoint that comes earlier only becomes
the anchor: nothing enforces it later, so what is enforced depends on the order of arrival.
-/

namespace Plaine.Chain

open Plaine.Lib Plaine.Consensus

section

variable [Crypto]

/-- The canonical chain has the block of a checkpoint. -/
def Manager.Holds (m : Manager) (cp : SignedCheckpoint) : Prop :=
  m.chainHashes[cp.height]? = some cp.hash

instance (m : Manager) (cp : SignedCheckpoint) : Decidable (m.Holds cp) :=
  inferInstanceAs (Decidable (_ = _))

/-- A checkpoint that counts: validly signed, and not for genesis. -/
def ChainParams.Signs (params : ChainParams) (cp : SignedCheckpoint) : Prop :=
  verifyCheckpoint cp params.authorityKeys params.checkpointThreshold = true ∧ cp.height ≠ 0

instance (params : ChainParams) (cp : SignedCheckpoint) : Decidable (params.Signs cp) :=
  inferInstanceAs (Decidable (_ ∧ _))

/-- Every enforced checkpoint names a block of the canonical chain, and no two name one height. -/
def Manager.Binds (m : Manager) : Prop :=
  (∀ cp ∈ m.cps.enforced, cp.1 ≤ m.index.tipHeight ∧ m.chainHashes[cp.1]? = some cp.2) ∧
    ∀ cp ∈ m.cps.enforced, ∀ cp' ∈ m.cps.enforced, cp.1 = cp'.1 → cp = cp'

/-! ## Checkpoints -/

namespace Checkpoints

variable {c : Checkpoints} {cp : SignedCheckpoint} {x : Nat × Hash32}

omit [Crypto] in
@[simp] theorem enforced_installAnchor (c : Checkpoints) (cp : SignedCheckpoint) :
    (c.installAnchor cp).2.enforced = c.enforced := by
  unfold installAnchor
  dsimp only
  split <;> rfl

omit [Crypto] in
@[simp] theorem anchor_enforce (c : Checkpoints) (cp : SignedCheckpoint) :
    (c.enforce cp).anchor = c.anchor := by
  unfold enforce
  split <;> rfl

omit [Crypto] in
theorem anchor_installAnchor (c : Checkpoints) (cp : SignedCheckpoint) :
    (c.installAnchor cp).2.anchor =
      if anchorSupersedes c.anchor ⟨cp.height, cp.hash⟩ then some ⟨cp.height, cp.hash⟩
      else c.anchor := by
  unfold installAnchor
  dsimp only
  split <;> rfl

omit [Crypto] in
/-- A checkpoint is added where its height is new. -/
theorem mem_enforce : x ∈ (c.enforce cp).enforced ↔
    x ∈ c.enforced ∨ (x = (cp.height, cp.hash) ∧ ∀ y ∈ c.enforced, y.1 ≠ cp.height) := by
  unfold enforce
  split
  · rename_i hany
    obtain ⟨y, hy, hheight⟩ := List.any_eq_true.mp hany
    refine ⟨.inl, ?_⟩
    rintro (hx | ⟨-, hnew⟩)
    · exact hx
    · exact absurd (of_decide_eq_true hheight) (hnew y hy)
  · rename_i hany
    simp only [List.mem_insertionSort, List.mem_append, List.mem_singleton]
    refine or_congr Iff.rfl (iff_self_and.mpr fun _ y hy hheight ↦ ?_)
    exact hany (List.any_eq_true.mpr ⟨y, hy, decide_eq_true hheight⟩)

/-- What an operation makes of the checkpoints, where the canonical chain has the blocks that
`holds` tells. -/
def after (c : Checkpoints) (params : ChainParams) (holds : SignedCheckpoint → Prop)
    [DecidablePred holds] : Op → Checkpoints
  | .submitCheckpoint cp =>
    if params.Signs cp then ((if holds cp then c.enforce cp else c).installAnchor cp).2 else c
  | .loadAnchor cp => if params.Signs cp then (c.installAnchor cp).2 else c
  | _ => c

variable {params : ChainParams} {holds : SignedCheckpoint → Prop} [DecidablePred holds]

/-- What is enforced after an operation was so before, or is submitted in time. -/
theorem mem_after {op : Op} : x ∈ (c.after params holds op).enforced ↔ x ∈ c.enforced ∨
    ∃ cp, op = .submitCheckpoint cp ∧ params.Signs cp ∧ holds cp ∧ x = (cp.height, cp.hash) ∧
      ∀ y ∈ c.enforced, y.1 ≠ cp.height := by
  cases op with
  | submitCheckpoint cp =>
    simp only [after]
    split_ifs with hsigns hholds
    · rw [enforced_installAnchor, mem_enforce]
      simp [hsigns, hholds]
    · simp [hholds]
    · simp [hsigns]
  | loadAnchor cp =>
    simp only [after]
    split_ifs <;> simp
  | _ => simp [after]

/-- The anchor stays what it was, or becomes one with good signatures. -/
theorem anchor_after (c : Checkpoints) (params : ChainParams) (holds : SignedCheckpoint → Prop)
    [DecidablePred holds] (op : Op) : (c.after params holds op).anchor = c.anchor ∨
      ∃ cp, params.Signs cp ∧ (c.after params holds op).anchor = some ⟨cp.height, cp.hash⟩ := by
  have hinstall : ∀ {c' : Checkpoints} {cp : SignedCheckpoint}, params.Signs cp →
      c'.anchor = c.anchor → (c'.installAnchor cp).2.anchor = c.anchor ∨
        ∃ q, params.Signs q ∧ (c'.installAnchor cp).2.anchor = some ⟨q.height, q.hash⟩ := by
    intro c' cp hsigns hc
    rw [anchor_installAnchor]
    split
    · exact .inr ⟨cp, hsigns, rfl⟩
    · exact .inl hc
  cases op with
  | submitCheckpoint cp =>
    simp only [after]
    split
    case isTrue hsigns =>
      refine hinstall hsigns ?_
      split
      · exact anchor_enforce c cp
      · rfl
    case isFalse => exact .inl rfl
  | loadAnchor cp =>
    simp only [after]
    split
    case isTrue hsigns => exact hinstall hsigns rfl
    case isFalse => exact .inl rfl
  | _ => exact .inl rfl

end Checkpoints

/-! ## What the operations do to them -/

variable {D : Realm}

theorem Manager.chainHashes_getElem? (m : Manager) (k : Nat) :
    m.chainHashes[k]? = (m.index.canonicalAt k).map (·.hash) := by
  simp [chainHashes, HeaderIndex.canonicalAt, Function.comp_def]

omit [Crypto] in
/-- The verdict on a checkpoint, read off the canonical chain. -/
theorem checkpointAdmission_arenaView {index : HeaderIndex} {powLimit height : Nat} {hash : Hash32}
    {a : CheckpointAdmission} (hlen : index.canonical.length = index.tipHeight + 1)
    (h : checkpointAdmission (arenaView index powLimit) height hash = some a) :
    (a = .genesisImmutable ↔ height = 0) ∧
      (a = .admits ↔ height ≠ 0 ∧ (index.canonicalAt height).map (·.hash) = some hash) := by
  unfold checkpointAdmission at h
  split at h
  · rename_i hzero
    cases h
    simp [hzero]
  split at h
  · rename_i hnz hlen'
    cases h
    have hout : index.canonicalAt height = none := by
      rw [HeaderIndex.canonicalAt, List.getElem?_eq_none (hlen.trans_le hlen'), Option.map_none]
    simp [hnz, hout]
  · rename_i hnz _
    simp only [arenaView, Option.bind_eq_bind, Option.bind_eq_some_iff] at h
    obtain ⟨info, ⟨n, hn, hinfo⟩, h⟩ := h
    simp only [headerInfoOf, Option.bind_eq_bind, Option.bind_eq_some_iff] at hinfo
    obtain ⟨target, -, hinfo⟩ := hinfo
    cases hinfo
    rw [hn, Option.map_some, Option.some.injEq]
    dsimp only at h
    split at h
    · rename_i heq
      cases h
      simp [hnz, heq]
    · rename_i hne
      cases h
      simp [hnz, hne]

variable  {σ : Type} [Store σ] [Sink σ] [HeaderStore σ]

namespace World

variable {w w' : World σ} {cp : SignedCheckpoint}

/-- What is submitted is enforced if the canonical chain holds it, and may become the anchor. -/
theorem Sound.submitCheckpoint_cps (h : w.Sound D) {report : CheckpointReport}
    (hs : w.submitCheckpoint cp = some (report, w')) :
    w'.chain.index = w.chain.index ∧
      w'.chain.cps =
        if w.chain.params.Signs cp then
          ((if w.chain.Holds cp then w.chain.cps.enforce cp else w.chain.cps).installAnchor cp).2
        else w.chain.cps := by
  simp only [World.submitCheckpoint, Option.bind_eq_bind, Option.bind_eq_some_iff,
    Prod.exists] at hs
  obtain ⟨report', cps, hsub, hs⟩ := hs
  cases hs
  refine ⟨rfl, ?_⟩
  dsimp only
  unfold Checkpoints.submit at hsub
  split at hsub
  case isFalse hv =>
    cases hsub
    rw [if_neg fun hand ↦ hv hand.1]
  case isTrue hv =>
    obtain ⟨a, ha, hsub⟩ := Option.bind_eq_some_iff.mp hsub
    obtain ⟨hzero, hadmitted⟩ := checkpointAdmission_arenaView h.wf.canonical_length ha
    have hadmitted : a = .admits ↔ cp.height ≠ 0 ∧ w.chain.Holds cp := by
      rw [Manager.Holds, Manager.chainHashes_getElem?]
      exact hadmitted
    cases a with
    | genesisImmutable =>
      cases hsub
      rw [if_neg fun hand ↦ hand.2 (hzero.mp rfl)]
    | admits =>
      obtain ⟨hnz, hholds⟩ := hadmitted.mp rfl
      rw [if_pos (show w.chain.params.Signs cp from ⟨hv, hnz⟩), if_pos hholds]
      exact (congrArg Prod.snd (Option.some.inj hsub)).symm
    | notHeldYet =>
      have hnz : cp.height ≠ 0 := fun hz ↦ by cases hzero.mpr hz
      have hnot : ¬w.chain.Holds cp := fun hholds ↦ by cases hadmitted.mpr ⟨hnz, hholds⟩
      rw [if_pos (show w.chain.params.Signs cp from ⟨hv, hnz⟩), if_neg hnot]
      exact (congrArg Prod.snd (Option.some.inj hsub)).symm
    | hashConflict =>
      have hnz : cp.height ≠ 0 := fun hz ↦ by cases hzero.mpr hz
      have hnot : ¬w.chain.Holds cp := fun hholds ↦ by cases hadmitted.mpr ⟨hnz, hholds⟩
      rw [if_pos (show w.chain.params.Signs cp from ⟨hv, hnz⟩), if_neg hnot]
      exact (congrArg Prod.snd (Option.some.inj hsub)).symm

omit [HeaderStore σ] [Sink σ] [Store σ] in
theorem loadAnchor_cps (w : World σ) (cp : SignedCheckpoint) :
    (w.loadAnchor cp).chain.cps =
      if w.chain.params.Signs cp then (w.chain.cps.installAnchor cp).2 else w.chain.cps := by
  simp only [World.loadAnchor, Checkpoints.loadAnchor]
  split
  case isFalse hv => rw [if_neg fun hsigns ↦ hv hsigns.1]
  case isTrue hv =>
    split
    case isTrue => rfl
    case isFalse hsigns =>
      -- Genesis is no anchor.
      have hzero : cp.height = 0 := not_not.mp fun hnz ↦ hsigns ⟨hv, hnz⟩
      simp [Checkpoints.installAnchor, anchorSupersedes, hzero]

/-- What an operation does to the checkpoints; submitting one is all it does. -/
theorem Sound.exec_cps [PowVerifier] (h : w.Sound D) {Own : HeaderIndex → Staged → Prop}
    (hrule : ∀ ctx : IngestCtx, ctx.params = w.chain.params →
      ctx.genesisTime = w.chain.genesisTime → StagingRule D ctx Own)
    {op : Op} (hraws : ∀ raw ∈ op.raws, raw ∈ D.raws) (hfresh : op.Fresh Own w)
    (he : op.exec w = some w') :
    w'.chain.cps = w.chain.cps.after w.chain.params w.chain.Holds op ∧
      ((∃ cp, op = .submitCheckpoint cp) → w'.chain.index = w.chain.index) := by
  cases op with
  | submitHeaders now monoMs source raws solicitation =>
    cases he
    exact ⟨(h.ingestHeaders _ _ _ hrule hraws hfresh).2.2, by rintro ⟨_, ⟨⟩⟩⟩
  | submitBlock hash body =>
    cases he
    exact ⟨(h.submitBlock hash body).2.2, by rintro ⟨_, ⟨⟩⟩⟩
  | advance now =>
    obtain ⟨⟨result, out⟩, ha, rfl⟩ := Option.map_eq_some_iff.mp he
    exact ⟨(h.advance ha).2.2, by rintro ⟨_, ⟨⟩⟩⟩
  | submitTx now monoMs origin raw =>
    cases he
    refine ⟨?_, by rintro ⟨_, ⟨⟩⟩⟩
    unfold World.submitTx
    dsimp only
    split
    · rfl
    · split <;> rfl
  | submitCheckpoint cp =>
    obtain ⟨⟨report, out⟩, hc, rfl⟩ := Option.map_eq_some_iff.mp he
    obtain ⟨hindex, hcps⟩ := h.submitCheckpoint_cps hc
    exact ⟨hcps, fun _ ↦ hindex⟩
  | loadAnchor cp =>
    cases he
    exact ⟨loadAnchor_cps w cp, by rintro ⟨_, ⟨⟩⟩⟩
  | forgetSource source =>
    cases he
    exact ⟨rfl, by rintro ⟨_, ⟨⟩⟩⟩

/-! ## Turns -/

omit [Store σ] [Sink σ] [HeaderStore σ] in
/-- The blocks below the end of the canonical chain keep their hashes. -/
theorem Stays.chainHashes (hst : w.Stays w') (hwf : w.chain.index.Wf D) :
    w'.chain.chainHashes = w.chain.chainHashes := by
  rw [Manager.chainHashes, Manager.chainHashes, hst.canonical]
  refine List.map_congr_left fun i hi ↦ ?_
  obtain ⟨k, hk⟩ := List.mem_iff_getElem?.mp hi
  exact hst.grows.hash_eq (hwf.canonical_lt hk)

omit [Store σ] [Sink σ] [HeaderStore σ] in
/-- The hashes of the chain a plan leads to. -/
theorem chainHashes_adopt {m : Manager} {best : Nat} {plan : Plan} (hwf : m.index.Wf D)
    (hlt : best < m.index.nodes.length) (hplan : planReorg m.index best = some plan)
    (hindex : w'.chain.index = m.index.setCanonical (m.index.ancestry best)) :
    w'.chain.chainHashes =
      (m.index.canonical.take (plan.forkHeight + 1) ++ plan.apply).map
        fun i ↦ (m.index.node i).hash := by
  have hl := (hwf.planReorg hlt hplan).lineage
  rw [(hwf.ancestry hlt).unique hl] at hindex
  have hg := m.index.grows_setCanonical (m.index.canonical.take (plan.forkHeight + 1) ++ plan.apply)
  rw [Manager.chainHashes, hindex, HeaderIndex.canonical_setCanonical]
  refine List.map_congr_left fun i hi ↦ ?_
  obtain ⟨k, hk⟩ := List.mem_iff_getElem?.mp hi
  obtain ⟨rs, hrs⟩ := hwf.stands hlt
  exact hg.hash_eq ((hwf.lineage hl hlt hrs).2 k i hk).1

/-- A turn keeps every enforced checkpoint on the chain. -/
theorem Turn.chainHashes_enforced (ht : w.Turn D w') (h : w.Sound D) {x : Nat × Hash32}
    (hx : x ∈ w.chain.cps.enforced) (hheld : w.chain.chainHashes[x.1]? = some x.2) :
    w'.chain.chainHashes[x.1]? = some x.2 := by
  cases ht with
  | stay hst => rw [hst.chainHashes h.wf, hheld]
  | adopt m best plan v wf mid cps lt plans judge index params genesisTime =>
    rw [chainHashes_adopt wf lt plans index, List.getElem?_map]
    refine checkpoint_of_judge wf (wf.planReorg lt plans) judge (by rw [cps]; exact hx) ?_
    rw [← Manager.chainHashes_getElem?]
    exact (congrArg (·[x.1]?) (mid.chainHashes h.wf)).trans hheld

end World

/-! ## Runs -/

variable [PowVerifier] {params : ChainParams} {H : Headers} {w w' : World σ}

theorem Reachable.sound_free (hlimit : params.powLimit = H.powLimit)
    (h : Reachable H.free params (fun _ _ ↦ True) w) :
    w.Sound H.free ∧ w.chain.params = params := by
  obtain ⟨hs, hp, -⟩ := h.sound hlimit (fun ctx _ _ ↦ Headers.stagingRule_free ctx)
    fun w op _ _ _ ↦ op.fresh_true w
  exact ⟨hs, hp⟩

/-- What an operation of a run does to the chain and the checkpoints. -/
theorem Reachable.exec_cps (hlimit : params.powLimit = H.powLimit)
    (h : Reachable H.free params (fun _ _ ↦ True) w) {op : Op} (hraws : ∀ raw ∈ op.raws, raw ∈ H.raws)
    (he : op.exec w = some w') :
    w.Turn H.free w' ∧ w'.chain.cps = w.chain.cps.after params w.chain.Holds op ∧
      ((∃ cp, op = .submitCheckpoint cp) → w'.chain.index = w.chain.index) := by
  obtain ⟨hs, rfl⟩ := h.sound_free hlimit
  exact ⟨(hs.exec (fun ctx _ _ ↦ Headers.stagingRule_free ctx) hraws (op.fresh_true w) he).2,
    hs.exec_cps (fun ctx _ _ ↦ Headers.stagingRule_free ctx) hraws (op.fresh_true w) he⟩

/-- The canonical chain holds every enforced checkpoint. -/
theorem Reachable.chainHashes_enforced (hlimit : params.powLimit = H.powLimit)
    (h : Reachable H.free params (fun _ _ ↦ True) w) {x : Nat × Hash32}
    (hx : x ∈ w.chain.cps.enforced) : w.chain.chainHashes[x.1]? = some x.2 := by
  induction h generalizing x with
  | boot hs hm =>
    obtain ⟨-, -, hcps, -⟩ := hs.sound hlimit hm
    rw [hcps] at hx
    cases hx
  | @step w w' op hw hraws hop he ih =>
    obtain ⟨hturn, hcps, hindex⟩ := hw.exec_cps hlimit hraws he
    rw [hcps, Checkpoints.mem_after] at hx
    rcases hx with hx | ⟨cp, rfl, -, hholds, rfl, -⟩
    · exact hturn.chainHashes_enforced (hw.sound_free hlimit).1 hx (ih hx)
    · rw [Manager.chainHashes, hindex ⟨cp, rfl⟩]
      exact hholds

/-- In every reachable state the enforced checkpoints bind. -/
theorem enforced_bind (hlimit : params.powLimit = H.powLimit)
    (h : Reachable H.free params (fun _ _ ↦ True) w) : w.chain.Binds := by
  have hwf := (h.sound_free hlimit).1.wf
  refine ⟨fun cp hcp ↦ ?_, fun cp hcp cp' hcp' heq ↦ ?_⟩
  · have hget := h.chainHashes_enforced hlimit hcp
    have hlt := (List.getElem?_eq_some_iff.mp hget).1
    rw [Manager.chainHashes, List.length_map, hwf.canonical_length] at hlt
    exact ⟨Nat.le_of_lt_succ hlt, hget⟩
  · have hget := h.chainHashes_enforced hlimit hcp
    have hget' := h.chainHashes_enforced hlimit hcp'
    rw [heq, hget'] at hget
    exact Prod.ext heq (Option.some.inj hget).symm

end

namespace Scene

/-- The first block is adopted, and then the checkpoint for it comes. -/
def lateOps : List Op :=
  [deliver [first], .submitBlock firstHash body, .advance 1000200, .submitCheckpoint checkpoint]

theorem raws_lateOps : ∀ op ∈ lateOps, ∀ raw ∈ op.raws, raw ∈ raws := by
  simp [lateOps, deliver, Op.raws, raws]

theorem run_lateOps : letI := crypto
    (run params lateOps).map (fun w ↦ (w.chain.chainHashes, w.chain.cps.enforced)) =
      some ([genesisHash, firstHash], [(1, firstHash)]) := by decide +kernel

end Scene

/-- A run that enforces a checkpoint. -/
theorem enforced_bind_sample :
    letI := Scene.crypto
    ∃ w : World MemStore, w.chain.cps.enforced = [(1, Scene.firstHash)] ∧ w.chain.Binds := by
  let _ := Scene.crypto
  let _ := Scene.pow
  obtain ⟨w, hw, hout⟩ := Option.map_eq_some_iff.mp Scene.run_lateOps
  exact ⟨w, congrArg Prod.snd hout, enforced_bind rfl
    (Scene.reachable_run (D := Scene.headers.free) rfl rfl Scene.raws_lateOps hw)⟩

end Plaine.Chain

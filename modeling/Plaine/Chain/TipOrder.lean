import Plaine.Chain.MockRun
import Plaine.Lib.Ascent

/-!
# The tip moves up

Over a run the chain of the tip moves up in the order of fork choice.  The chain is read off
the manager: its hashes, and its work summed over the headers.  The last hash determines the
chain, and a run has room for finitely many chains, so a tip that was left never comes back
and the moves end.
-/

namespace Plaine.Chain

open Plaine.Lib Plaine.Consensus

section

variable [Crypto]

namespace Manager

/-- The hashes of the canonical chain, from genesis to the tip. -/
def chainHashes (m : Manager) : List Hash32 := m.index.canonical.map fun i ↦ (m.index.node i).hash

/-- The work of the canonical chain, header by header. -/
def chainWork (m : Manager) : Work :=
  (m.index.canonical.map fun i ↦
    (workOf (m.index.node i).bits m.params.powLimit).getD 0).sum

/-- The order of fork choice on the canonical chains: more work, or as much with the last block
alone replaced, by one of a lower hash. -/
def Overtakes (m' m : Manager) : Prop :=
  m.chainWork < m'.chainWork ∨
    (m'.chainWork = m.chainWork ∧ m'.chainHashes.length = m.chainHashes.length ∧
      m'.chainHashes.dropLast = m.chainHashes.dropLast ∧ m'.tip.hash < m.tip.hash)

end Manager

/-! ## The chain of the tip -/

variable {D : Realm}

/-- A chain is determined by its hashes. -/
theorem Realm.Linked.eq_of_hashes {rs rs' : List HeaderRec} (h : D.Linked rs) (h' : D.Linked rs')
    (heq : rs.map HeaderRec.hash = rs'.map HeaderRec.hash) : rs = rs' :=
  h.unique h' (by rw [← List.getLast?_map, ← List.getLast?_map, heq])

/-- The chains of a realm that starts from finitely many headers are finitely many. -/
theorem Realm.finite_linked (D : Realm) : {rs | D.Linked rs}.Finite := by
  have hfin : D.raws.Finite := Set.finite_of_encard_le_coe (k := 2 ^ 32) (by exact_mod_cast D.small.le)
  -- A chain is a choice of its last header.
  refine Set.Finite.of_finite_image (f := fun rs ↦ rs.getLast?.map HeaderRec.raw)
    ((hfin.image some).subset ?_) fun rs h rs' h' heq ↦ ?_
  · rintro _ ⟨rs, h, rfl⟩
    obtain ⟨r, hr⟩ := Option.isSome_iff_exists.mp (List.getLast?_isSome.mpr h.ne_nil)
    exact ⟨r.raw, h.mem_raws (List.mem_of_getLast? hr), by simp [hr]⟩
  · have heq : rs.getLast?.map HeaderRec.raw = rs'.getLast?.map HeaderRec.raw := heq
    refine Linked.unique h h' ?_
    rw [funext HeaderRec.hash_eq, ← Function.comp_def headerHash, ← Option.map_map,
      ← Option.map_map, heq]

variable {σ : Type} [Store σ] [Sink σ] [HeaderStore σ]

namespace World

variable {w w' : World σ} {rs rs' : List HeaderRec}

/-- What a sound manager's canonical chain stands for. -/
structure Shows (w : World σ) (D : Realm) (rs : List HeaderRec) : Prop where
  stands : w.chain.index.tip.StandsFor D rs
  hashes : w.chain.chainHashes = rs.map HeaderRec.hash
  work : w.chain.chainWork = D.chainWork rs

omit [HeaderStore σ] [Sink σ] [Store σ] in
theorem Shows.tip_hash (h : w.Shows D rs) : rs.getLast?.map HeaderRec.hash = some w.chain.tip.hash :=
  h.stands.hash

theorem Sound.shows (h : w.Sound D) : ∃ rs, w.Shows D rs := by
  obtain ⟨rs, hrs⟩ := h.wf.stands h.wf.tip_lt
  have hshow := h.wf.lineage_shows h.wf.canonical h.wf.tip_lt hrs
  refine ⟨rs, hrs, (hshow.imp fun i r hs ↦ hs.hash).map_eq_map, ?_⟩
  rw [Manager.chainWork, Realm.chainWork]
  refine congrArg List.sum (hshow.imp fun i r hs ↦ ?_).map_eq_map
  rw [hs.bits, h.powLimit, Realm.work]

/-- A turn leaves the chain as it was or improves it. -/
theorem Turn.improves (ht : w.Turn D w') (h : w.Sound D) (hw : w.Shows D rs)
    (hw' : w'.Shows D rs') : rs' = rs ∨ D.Improves rs rs' := by
  cases ht with
  | stay hst =>
    refine .inl (hw'.stands.unique hw.stands ?_)
    rw [HeaderIndex.tip, HeaderIndex.tipIndex, hst.canonical]
    exact hst.grows.hash_eq h.wf.tip_lt
  | adopt m best plan v wf mid cps lt plans judge index params genesisTime =>
    right
    have htip : m.index.tip.StandsFor D rs := by
      rw [HeaderIndex.tip, HeaderIndex.tipIndex, mid.canonical]
      exact hw.stands.of_core (mid.grows.core_eq h.wf.tip_lt)
    have hbest : (m.index.node best).StandsFor D rs' := by
      have hg := m.index.grows_setCanonical (m.index.ancestry best)
      have hlast : w'.chain.index.tipIndex = best := by
        rw [index, HeaderIndex.tipIndex, HeaderIndex.canonical_setCanonical,
          List.getLastD_eq_getLast?, (wf.ancestry lt).getLast?, Option.getD_some]
      have hnode := hw'.stands
      rw [HeaderIndex.tip, hlast, index] at hnode
      exact hnode.of_core (hg.core_eq lt).symm
    exact improves_of_judge wf (mid.params ▸ h.powLimit)
      (wf.planReorg lt plans) lt htip hbest judge

omit [HeaderStore σ] [Sink σ] [Store σ] in
/-- What it is for a chain to improve on another, read off the managers. -/
theorem Shows.overtakes (hw : w.Shows D rs) (hw' : w'.Shows D rs') (h : D.Improves rs rs') :
    w'.chain.Overtakes w.chain := by
  rcases h with h | ⟨hwork, hlen, hinit, r, r', hr, hr', hlt⟩
  · left
    rwa [hw.work, hw'.work]
  · right
    have hhash := hw.tip_hash
    have hhash' := hw'.tip_hash
    rw [hr] at hhash
    rw [hr'] at hhash'
    refine ⟨by rw [hw.work, hw'.work, hwork], by rw [hw.hashes, hw'.hashes]; simp [hlen], ?_, ?_⟩
    · rw [hw.hashes, hw'.hashes, ← List.map_dropLast, ← List.map_dropLast, hinit]
    · rwa [← Option.some.inj hhash, ← Option.some.inj hhash']

end World

instance : IsTrans (List HeaderRec) D.Improves := ⟨fun _ _ _ ↦ Realm.Improves.trans⟩

instance : Std.Irrefl D.Improves := ⟨Realm.Improves.irrefl⟩

/-! ## Runs -/

variable [PowVerifier] {params : ChainParams} {H : Headers}

omit [PowVerifier] in
/-- Where nothing is checked against ancestors, staging has nothing to keep. -/
theorem Headers.stagingRule_free (ctx : IngestCtx) :
    StagingRule H.free ctx fun _ _ ↦ True where
  mono := fun _ _ _ _ ↦ trivial
  stage := fun _ _ _ _ _ _ ↦ ⟨trivial, trivial⟩

omit [Sink σ] [HeaderStore σ] [Store σ] [PowVerifier] in
theorem Op.fresh_true (w : World σ) (op : Op) : op.Fresh (fun _ _ ↦ True) w := by
  cases op with
  | submitHeaders => exact fun _ _ _ _ _ ↦ trivial
  | _ => exact trivial

/-- The worlds of a run. -/
theorem Reachable.step_sound {allowed : World σ → Op → Prop}
    (hlimit : params.powLimit = H.powLimit) {w w' : World σ}
    (h : Reachable H.free params allowed w) (hs : Steps H.free allowed w w') :
    w.Sound H.free ∧ Reachable H.free params allowed w' ∧ w.Turn H.free w' := by
  have hrule : ∀ ctx, StagingRule H.free ctx fun _ _ ↦ True := Headers.stagingRule_free
  obtain ⟨op, hraws, hop, he⟩ := hs
  obtain ⟨hsound, -, -⟩ := h.sound hlimit (fun ctx _ _ ↦ hrule ctx) fun w op _ _ _ ↦ op.fresh_true w
  exact ⟨hsound, h.step hraws hop he,
    (hsound.exec (fun ctx _ _ ↦ hrule ctx) hraws (op.fresh_true w) he).2⟩

/-- In every run each change of the canonical chain goes up in the order of fork choice, a tip
that was left is not reached again, and from some point on the chain stays as it is. -/
theorem tip_moves_up (hlimit : params.powLimit = H.powLimit) {t : ℕ → World σ}
    (hstart : Reachable H.free params (fun _ _ ↦ True) (t 0))
    (hsteps : ∀ n, Steps H.free (fun _ _ ↦ True) (t n) (t (n + 1))) :
    (∀ n, (t n).chain.tip.chainwork = (t n).chain.chainWork) ∧
    (∀ n, (t (n + 1)).chain.chainHashes = (t n).chain.chainHashes ∨
      (t (n + 1)).chain.Overtakes (t n).chain) ∧
    (∀ m k n, m ≤ k → k ≤ n → (t n).chain.tip.hash = (t m).chain.tip.hash →
      (t k).chain.chainHashes = (t m).chain.chainHashes) ∧
    ∃ n, ∀ m, n ≤ m → (t m).chain.chainHashes = (t n).chain.chainHashes := by
  have hreach : ∀ n, Reachable H.free params (fun _ _ ↦ True) (t n) := by
    intro n
    induction n with
    | zero => exact hstart
    | succ n ih => exact (ih.step_sound hlimit (hsteps n)).2.1
  have hsound : ∀ n, (t n).Sound H.free := fun n ↦ ((hreach n).step_sound hlimit (hsteps n)).1
  choose rs hrs using fun n ↦ (hsound n).shows
  have hup : MovesUp H.free.Improves rs := fun n ↦
    ((hreach n).step_sound hlimit (hsteps n)).2.2.improves (hsound n) (hrs n) (hrs (n + 1))
  have hhashes : ∀ {m n}, rs m = rs n → (t m).chain.chainHashes = (t n).chain.chainHashes :=
    fun heq ↦ by rw [(hrs _).hashes, (hrs _).hashes, heq]
  refine ⟨fun n ↦ ?_, fun n ↦ ?_, fun m k n hmk hkn htip ↦ ?_, ?_⟩
  · exact (hrs n).stands.work.trans (hrs n).work.symm
  · exact (hup n).imp hhashes ((hrs n).overtakes (hrs (n + 1)))
  · exact hhashes (hup.eq_of_eq hmk hkn ((hrs n).stands.unique (hrs m).stands htip))
  · obtain ⟨n, hn⟩ := hup.eventually_eq (H.free.finite_linked.subset (by
      rintro _ ⟨n, rfl⟩
      exact (hrs n).stands.linked))
    exact ⟨n, fun m hm ↦ hhashes (hn m hm)⟩

end

/-- A run in which the tip moves twice, the second time on the hash alone. -/
theorem tip_moves_up_sample :
    letI := Scene.crypto
    ∃ t : ℕ → World MemStore, (t 6).chain.tip.hash = Scene.rivalHash ∧
      (∀ n, (t n).chain.tip.chainwork = (t n).chain.chainWork) ∧
      (∀ n, (t (n + 1)).chain.chainHashes = (t n).chain.chainHashes ∨
        (t (n + 1)).chain.Overtakes (t n).chain) ∧
      (∀ m k n, m ≤ k → k ≤ n → (t n).chain.tip.hash = (t m).chain.tip.hash →
        (t k).chain.chainHashes = (t m).chain.chainHashes) ∧
      ∃ n, ∀ m, n ≤ m → (t m).chain.chainHashes = (t n).chain.chainHashes := by
  let _ := Scene.crypto
  let _ := Scene.pow
  obtain ⟨w, hw, hout⟩ := Option.map_eq_some_iff.mp Scene.run_reorgOps
  obtain ⟨w₀, hboot, hrun⟩ := Option.bind_eq_some_iff.mp hw
  obtain ⟨t, h0, hlast, hsteps⟩ := exists_run (D := Scene.headers.free) Scene.raws_reorgOps hrun
  obtain ⟨hs, hm⟩ := Scene.boots (D := Scene.headers.free) rfl rfl hboot
  have hstart : Reachable Scene.headers.free Scene.params (fun _ _ ↦ True) (t 0) :=
    h0 ▸ .boot hs hm
  have htip : (t 6).chain.tip.hash = Scene.rivalHash :=
    (congrArg (·.chain.tip.hash) hlast).trans (congrArg Prod.snd hout)
  exact ⟨t, htip, tip_moves_up rfl hstart hsteps⟩

end Plaine.Chain

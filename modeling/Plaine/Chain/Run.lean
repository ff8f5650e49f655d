import Plaine.Chain.Sound

/-!
# Runs of a manager

A manager is made from a store and then takes one operation after the other.  Whatever the
operations, every world reached is sound, and each operation turns the canonical chain at most
once.
-/

namespace Plaine.Chain

open Plaine.Lib Plaine.Consensus

section

variable [Crypto]

/-- The raw headers an operation delivers. -/
def Op.raws : Op → List RawHeader
  | .submitHeaders _ _ _ raws _ => raws
  | _ => []

/-- The staged parents of the headers an operation delivers are `Own`. -/
def Op.Fresh {σ : Type} (Own : HeaderIndex → Staged → Prop) (w : World σ) : Op → Prop
  | .submitHeaders _ _ source raws _ => ∀ t ∈ w.chain.ingest.stagedOf source, ∀ raw ∈ raws,
      t.hdr.hash = (Header.ofRaw raw).prevHash → Own w.chain.index t
  | _ => True

variable {σ : Type} [Store σ] [Sink σ] [HeaderStore σ]

/-- A store to start from: its canonical headers are a chain of the realm, and it holds no
header from elsewhere. -/
structure Boots (D : Realm) (s : σ) : Prop where
  chain : ∃ rs, D.Linked rs ∧ ∀ {h r}, Store.headerAt s h = some r → rs[h]? = some r
  held : ∀ {r}, r ∈ HeaderStore.held s → D.Known r

/-! ## Boot -/

variable {D : Realm} {s : σ} {params : ChainParams}

omit [Sink σ] [HeaderStore σ] in
/-- The loop of `load_from_store`: the arena is that of the headers read, and the list made of
their positions is a lineage. -/
theorem loadChain_eq_ok {rs : List HeaderRec} (hrs : D.Linked rs)
    (hread : ∀ {h r}, Store.headerAt s h = some r → rs[h]? = some r)
    (hlimit : params.powLimit = D.powLimit) {n h : Nat} {cum : Work} {chain chain' : List Nat}
    {index index' : HeaderIndex} (hwf : index.Wf D) (hpos : 0 < h)
    (hlt : chain.getLastD 0 < index.nodes.length)
    (hl : Lineage index.prev (chain.getLastD 0) chain)
    (hstands : (index.node (chain.getLastD 0)).StandsFor D (rs.take h))
    (hcum : cum = D.chainWork (rs.take h))
    (hload : loadChain s params n h cum chain index = .ok (chain', index')) :
    index'.Wf D ∧ chain'.getLastD 0 < index'.nodes.length ∧
      Lineage index'.prev (chain'.getLastD 0) chain' := by
  induction n generalizing h cum chain index with
  | zero => cases hload; exact ⟨hwf, hlt, hl⟩
  | succ n ih =>
    unfold loadChain at hload
    cases hr : Store.headerAt s h with
    | none =>
      rw [hr] at hload
      cases hload
      exact ⟨hwf, hlt, hl⟩
    | some r =>
      simp only [hr, Except.bind_eq_ok, Except.ofOption_eq_ok] at hload
      obtain ⟨w, hw, cum', hcum', hload⟩ := hload
      obtain ⟨-, rfl⟩ := checkedAdd_eq_some.mp hcum'
      -- The header read is the next of the chain, so it follows the headers below.
      have htake : rs.take (h + 1) = rs.take h ++ [r] := by
        rw [List.take_add_one, hread hr]
        rfl
      have hne : rs.take h ≠ [] := hstands.linked.ne_nil
      have hlink := hrs.take (k := h + 1) (by omega)
      rw [htake] at hlink
      obtain ⟨-, hf⟩ := hlink.of_snoc hne
      have hwork : cum + w = D.chainWork (rs.take h ++ [r]) := by
        rw [D.chainWork_append, D.chainWork_singleton, ← hcum,
          Realm.work_eq (by rw [← hlimit]; exact hw)]
      have hwf' := hwf.insert hlt hstands hf hwork
      have hg := index.grows_insert r (chain.getLastD 0) (cum + w) true
      have hself := index.indexOf_insert_self r (chain.getLastD 0) (cum + w) true
      generalize index.insert r (chain.getLastD 0) (cum + w) true = out at *
      obtain ⟨idx, grown⟩ := out
      dsimp only at hwf' hg hself hload
      obtain ⟨hidx, hhash⟩ := (hwf'.byHash _ _).mp hself
      have hsidx : (grown.node idx).StandsFor D (rs.take h ++ [r]) :=
        hwf'.stands_of_hash hlink hidx (by rw [List.getLast?_concat, Option.map_some, hhash])
      have hprev := hwf'.prev_eq_some hidx (hlt.trans_le hg.length_le) hsidx
        (hstands.of_core (hg.core_eq hlt))
      have hbody := grown.grows_setHaveBody idx
      have hlen := grown.nodes_length_modify idx fun n ↦ { n with haveBody := true }
      have hlast : (chain ++ [idx]).getLastD 0 = idx := by simp
      refine ih (hwf'.setHaveBody idx) (Nat.succ_pos h) (by rw [hlast]; exact hlen ▸ hidx) ?_ ?_
        (by rw [hwork, htake]) hload
      · rw [hlast]
        refine .child ((hbody.prev_eq hidx).trans hprev) (hl.congr fun j hj ↦ ?_)
        obtain ⟨k, hk⟩ := List.mem_iff_getElem?.mp hj
        have hjlt := ((hwf.lineage hl hlt hstands).2 k j hk).1
        exact (hbody.prev_eq (hjlt.trans_le hg.length_le)).trans (hg.prev_eq hjlt)
      · rw [hlast, htake]
        exact hsidx.of_core (hbody.core_eq hidx)

omit [Sink σ] [HeaderStore σ] in
/-- The side headers put back at boot. -/
theorem wf_rebuildSideArena (hlimit : params.powLimit = D.powLimit) {rows : List HeaderRec}
    (hrows : ∀ r ∈ rows, D.Known r) (restored : Nat) {index : HeaderIndex} (hwf : index.Wf D) :
    (rebuildSideArena s params rows restored index).Wf D := by
  induction rows generalizing restored index with
  | nil => exact hwf
  | cons r rows ih =>
    have hrest := fun q hq ↦ hrows q (List.mem_cons_of_mem _ hq)
    unfold rebuildSideArena
    split
    · exact hwf
    split
    · exact ih hrest restored hwf
    cases hadmitted : admitStored s params index r with
    | none => exact ih hrest restored hwf
    | some out =>
      obtain ⟨idx, index'⟩ := out
      exact ih hrest _ (wf_admitStored hwf hlimit (hrows r List.mem_cons_self) hadmitted).1

/-- A manager made from such a store is sound. -/
theorem Boots.sound [PowVerifier] (hs : Boots D s) (hlimit : params.powLimit = D.powLimit)
    {m : Manager} (h : Manager.new s params = .ok m) :
    World.Sound D ⟨m, s⟩ ∧ m.params = params ∧ m.cps = .new ∧
      m.genesisTime = D.genesis.time := by
  simp only [Manager.new, loadFromStore, Except.bind_eq_ok, Except.ofOption_eq_ok,
    Prod.exists] at h
  obtain ⟨_, -, time, index, ledger, ⟨g, hg, gw, hgw, chain, loaded, hload, l, -, hout⟩, h⟩ := h
  cases hout
  cases h
  obtain ⟨rs, hrs, hread⟩ := hs.chain
  have hgenesis : g = D.genesis := Option.some.inj ((hread hg).symm.trans hrs.getElem?_zero)
  subst hgenesis
  rw [hlimit] at hgw
  have hwf := HeaderIndex.wf_insertGenesis hgw
  have hone : rs.take 1 = [D.genesis] := by
    rw [List.take_one, List.head?_eq_getElem?, hrs.getElem?_zero]
    rfl
  obtain ⟨hwf', hlt, hl⟩ := loadChain_eq_ok hrs hread hlimit hwf Nat.one_pos hwf.tip_lt
    hwf.canonical (by rw [hone]; exact hwf.root.2)
    (by rw [hone, Realm.chainWork_singleton, Realm.work_eq hgw]) hload
  have hrows : ∀ r ∈ Store.sideHeadersFrom s 0 params.maxSideHeaders, D.Known r :=
    fun r hr ↦ hs.held (HeaderStore.sideHeadersFrom hr)
  have hwf'' := wf_rebuildSideArena (s := s) hlimit hrows 0 (hwf'.setCanonical hlt hl)
  refine ⟨⟨hlimit, ⟨hwf'', fun id ↦ ?_⟩, fun hlook ↦ ?_, hs.held⟩, rfl, rfl, rfl⟩
  · exact .nil
  · cases hlook

/-! ## Operations -/

variable [PowVerifier] {w w' : World σ}

/-- Every operation keeps a world sound, and turns the canonical chain at most once. -/
theorem World.Sound.exec (h : w.Sound D) {Own : HeaderIndex → Staged → Prop}
    (hrule : ∀ ctx : IngestCtx, ctx.params = w.chain.params →
      ctx.genesisTime = w.chain.genesisTime → StagingRule D ctx Own)
    {op : Op} (hraws : ∀ raw ∈ op.raws, raw ∈ D.raws) (hfresh : op.Fresh Own w)
    (he : op.exec w = some w') : w'.Sound D ∧ w.Turn D w' := by
  cases op with
  | submitHeaders now monoMs source raws solicitation =>
    cases he
    obtain ⟨hs, hst, -⟩ := h.ingestHeaders now monoMs solicitation hrule hraws hfresh
    exact ⟨hs, .stay hst⟩
  | submitBlock hash body =>
    cases he
    obtain ⟨hs, hst, -⟩ := h.submitBlock hash body
    exact ⟨hs, .stay hst⟩
  | advance now =>
    obtain ⟨⟨result, out⟩, ha, rfl⟩ := Option.map_eq_some_iff.mp he
    obtain ⟨hs, ht, -⟩ := h.advance ha
    exact ⟨hs, ht⟩
  | submitTx now monoMs origin raw =>
    cases he
    suffices hsame : ∃ m, (w.submitTx now monoMs origin raw).2 = ⟨m, w.store⟩ ∧
        m.params = w.chain.params ∧ m.index = w.chain.index ∧ m.ingest = w.chain.ingest ∧
        m.sideRaws = w.chain.sideRaws ∧ m.genesisTime = w.chain.genesisTime by
      obtain ⟨m, heq, hp, hi, hg, hsd, ht⟩ := hsame
      rw [heq]
      exact ⟨h.note hp hi hg hsd, .stay ⟨by rw [hi]; exact .refl _, by rw [hi], hp, ht⟩⟩
    unfold World.submitTx
    dsimp only
    split
    · exact ⟨w.chain, rfl, rfl, rfl, rfl, rfl, rfl⟩
    · split
      · exact ⟨_, rfl, rfl, rfl, rfl, rfl, rfl⟩
      · exact ⟨_, rfl, rfl, rfl, rfl, rfl, rfl⟩
  | submitCheckpoint cp =>
    obtain ⟨⟨report, out⟩, hc, rfl⟩ := Option.map_eq_some_iff.mp he
    simp only [World.submitCheckpoint, Option.bind_eq_bind, Option.bind_eq_some_iff,
      Prod.exists] at hc
    obtain ⟨report', cps, -, hc⟩ := hc
    cases hc
    refine ⟨⟨h.powLimit, h.intake, h.sideRaws, fun {r} hr ↦ ?_⟩, .stay ⟨.refl _, rfl, rfl, rfl⟩⟩
    dsimp only at hr
    split at hr
    · exact h.store (HeaderStore.putAnchor hr)
    · exact h.store hr
  | loadAnchor cp =>
    cases he
    exact ⟨⟨h.powLimit, h.intake, h.sideRaws, h.store⟩, .stay ⟨.refl _, rfl, rfl, rfl⟩⟩
  | forgetSource source =>
    cases he
    refine ⟨⟨h.powLimit, ⟨h.wf, fun id ↦ ?_⟩, h.sideRaws, h.store⟩,
      .stay ⟨.refl _, rfl, rfl, rfl⟩⟩
    change Staging D w.chain.index ((w.chain.ingest.forget source).stagedOf id)
    rw [Ingest.stagedOf_forget]
    split
    · exact .nil
    · exact h.intake.staging id

/-! ## Runs -/

/-- The worlds reached from a store, by operations that deliver headers of the realm and that
`allowed` lets pass. -/
inductive Reachable (D : Realm) (params : ChainParams) (allowed : World σ → Op → Prop) :
    World σ → Prop
  | boot {s : σ} {m : Manager} : Boots D s → Manager.new s params = .ok m →
      Reachable D params allowed ⟨m, s⟩
  | step {w w' : World σ} {op : Op} : Reachable D params allowed w →
      (∀ raw ∈ op.raws, raw ∈ D.raws) → allowed w op → op.exec w = some w' →
      Reachable D params allowed w'

/-- What one operation does in a run. -/
def Steps (D : Realm) (allowed : World σ → Op → Prop) (w w' : World σ) : Prop :=
  ∃ op : Op, (∀ raw ∈ op.raws, raw ∈ D.raws) ∧ allowed w op ∧ op.exec w = some w'

/-- Operations carried out one after the other lead from a world reached to one. -/
theorem Reachable.foldlM (h : Reachable D params (fun _ _ ↦ True) w) {ops : List Op}
    (hraws : ∀ op ∈ ops, ∀ raw ∈ op.raws, raw ∈ D.raws) (he : ops.foldlM Op.exec w = some w') :
    Reachable D params (fun _ _ ↦ True) w' := by
  induction ops generalizing w with
  | nil => exact Option.some.inj he ▸ h
  | cons op ops ih =>
    rw [List.foldlM_cons] at he
    obtain ⟨w₁, hop, he⟩ := Option.bind_eq_some_iff.mp he
    exact ih (h.step (hraws op List.mem_cons_self) trivial hop)
      (fun o ho ↦ hraws o (List.mem_cons_of_mem _ ho)) he

omit [HeaderStore σ] in
/-- A list of operations carried out one after the other is the start of a run. -/
theorem exists_run {ops : List Op} {w w' : World σ}
    (hraws : ∀ op ∈ ops, ∀ raw ∈ op.raws, raw ∈ D.raws) (he : ops.foldlM Op.exec w = some w') :
    ∃ t : ℕ → World σ, t 0 = w ∧ t ops.length = w' ∧
      ∀ n, Steps D (fun _ _ ↦ True) (t n) (t (n + 1)) := by
  induction ops generalizing w with
  | nil =>
    obtain rfl : w = w' := Option.some.inj he
    -- Nothing is left to do but to forget a source again and again.
    let forget : World σ → World σ := fun w ↦ w.forgetSource 0
    refine ⟨fun n ↦ forget^[n] w, rfl, rfl, fun n ↦ ⟨.forgetSource 0, by simp [Op.raws], trivial, ?_⟩⟩
    exact congrArg some (Function.iterate_succ_apply' forget n w).symm
  | cons op ops ih =>
    rw [List.foldlM_cons] at he
    obtain ⟨w₁, hop, he⟩ := Option.bind_eq_some_iff.mp he
    obtain ⟨t, h0, hlast, hsteps⟩ := ih (fun o ho ↦ hraws o (List.mem_cons_of_mem _ ho)) he
    refine ⟨fun n ↦ n.casesOn w t, rfl, hlast, fun n ↦ ?_⟩
    cases n with
    | zero => exact ⟨op, hraws op List.mem_cons_self, trivial, hop.trans (congrArg some h0.symm)⟩
    | succ n => exact hsteps n

/-- Every world reached is sound, where staging checks what the realm asks for. -/
theorem Reachable.sound {allowed : World σ → Op → Prop} {Own : HeaderIndex → Staged → Prop}
    (hlimit : params.powLimit = D.powLimit)
    (hrule : ∀ ctx : IngestCtx, ctx.params = params → ctx.genesisTime = D.genesis.time →
      StagingRule D ctx Own)
    (hallowed : ∀ w op, w.Sound D → w.chain.params = params → allowed w op → op.Fresh Own w)
    (h : Reachable D params allowed w) :
    w.Sound D ∧ w.chain.params = params ∧ w.chain.genesisTime = D.genesis.time := by
  induction h with
  | boot hs hm =>
    obtain ⟨hsound, hp, -, ht⟩ := hs.sound hlimit hm
    exact ⟨hsound, hp, ht⟩
  | step _ hraws hop he ih =>
    obtain ⟨hsound, hp, ht⟩ := ih
    obtain ⟨hs, hturn⟩ := hsound.exec (fun ctx hcp hct ↦ hrule ctx (hcp.trans hp) (hct.trans ht))
      hraws (hallowed _ _ hsound hp hop) he
    refine ⟨hs, ?_⟩
    cases hturn with
    | stay hst => exact ⟨hst.params.trans hp, hst.genesisTime.trans ht⟩
    | adopt m best plan v wf mid cps lt plans judge index params genesisTime =>
      exact ⟨params.trans (mid.params.trans hp), genesisTime.trans (mid.genesisTime.trans ht)⟩

end

end Plaine.Chain

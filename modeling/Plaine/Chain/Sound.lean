import Plaine.Chain.Intake
import Plaine.Chain.Plan
import Plaine.Lib.Table

/-!
# What a running manager keeps

`World.Sound D w`: the arena is well formed, staged headers stand behind their parents, and
every header the manager or its store can return is a header of the realm.  Every operation
keeps it, and either leaves the canonical chain as it was or moves it by a plan that the reorg
predicate let pass (`World.Turn`).
-/

namespace Plaine.Chain

open Plaine.Lib Plaine.Consensus

section

variable [Crypto]

variable {σ : Type}

/-- What a call leaves alone, or only grows. -/
structure World.Stays (w w' : World σ) : Prop where
  grows : w.chain.index.Grows w'.chain.index
  canonical : w'.chain.index.canonical = w.chain.index.canonical
  params : w'.chain.params = w.chain.params
  genesisTime : w'.chain.genesisTime = w.chain.genesisTime

/-- What an operation does to the canonical chain: nothing, or it goes over to the chain of a
plan that was let pass on an arena that has grown from the first. -/
inductive World.Turn (D : Realm) (w w' : World σ) : Prop
  | stay (h : w.Stays w')
  | adopt (m : Manager) (best : Nat) (plan : Plan) (v : ReorgVerdict)
      (wf : m.index.Wf D) (mid : w.Stays ⟨m, w'.store⟩) (cps : m.cps = w.chain.cps)
      (lt : best < m.index.nodes.length) (plans : planReorg m.index best = some plan)
      (judge : World.judge m plan = some (.ok v))
      (index : w'.chain.index = m.index.setCanonical (m.index.ancestry best))
      (params : w'.chain.params = m.params) (genesisTime : w'.chain.genesisTime = m.genesisTime)

namespace World

theorem Stays.refl (w : World σ) : w.Stays w := ⟨.refl _, rfl, rfl, rfl⟩

theorem Stays.trans {w w' w'' : World σ} (h : w.Stays w') (h' : w'.Stays w'') : w.Stays w'' :=
  ⟨h.grows.trans h'.grows, h'.canonical.trans h.canonical, h'.params.trans h.params,
    h'.genesisTime.trans h.genesisTime⟩

end World

/-- The header of a commit. -/
def CommitBlock.header (b : CommitBlock) : HeaderRec := .fromRaw b.headerRaw

/-- A store that returns no header it was not given: `held` is all it has, of which it may
return any part. -/
class HeaderStore (σ : Type) [Store σ] [Sink σ] where
  held : σ → Set HeaderRec
  headerAt : ∀ {s : σ} {h r}, Store.headerAt s h = some r → r ∈ held s
  headerByHash : ∀ {s : σ} {h r}, Store.headerByHash s h = some r → r ∈ held s
  sideHeadersFrom : ∀ {s : σ} {n k r}, r ∈ Store.sideHeadersFrom s n k → r ∈ held s
  commitBlock : ∀ {s : σ} {b r}, r ∈ held (Sink.commitBlock s b).2 → r ∈ held s ∨ r = b.header
  commitReorg : ∀ {s : σ} {p r}, r ∈ held (Sink.commitReorg s p).2 →
    r ∈ held s ∨ r ∈ p.apply.map CommitBlock.header
  commitDeepReorg : ∀ {s : σ} {p r}, r ∈ held (Sink.commitDeepReorg s p).2 →
    r ∈ held s ∨ r ∈ p.apply.map CommitBlock.header
  storeSideHeader : ∀ {s : σ} {q w r}, r ∈ held (Sink.storeSideHeader s q w).2 →
    r ∈ held s ∨ r = q
  markInvalid : ∀ {s : σ} {h r}, r ∈ held (Sink.markInvalid s h).2 → r ∈ held s
  putAnchor : ∀ {s : σ} {cp r}, r ∈ held (Sink.putAnchor s cp).2 → r ∈ held s

variable [Store σ] [Sink σ] [HeaderStore σ]

/-- What a manager and its store keep of headers. -/
structure World.Sound (D : Realm) (w : World σ) : Prop where
  powLimit : w.chain.params.powLimit = D.powLimit
  intake : w.chain.ingest.Sound D w.chain.index
  sideRaws : ∀ {h raw}, w.chain.sideRaws.lookup h = some raw → D.Known (.fromRaw raw)
  store : ∀ {r}, r ∈ HeaderStore.held w.store → D.Known r

namespace World

variable {D : Realm} {w w' : World σ}

theorem Sound.wf (h : w.Sound D) : w.chain.index.Wf D := h.intake.wf

/-- A sound world whose arena has grown. -/
theorem Sound.grow (h : w.Sound D) {index : HeaderIndex} (hwf : index.Wf D)
    (hg : w.chain.index.Grows index) :
    Sound D { w with chain := { w.chain with index } } :=
  ⟨h.powLimit, h.intake.grow hwf hg, h.sideRaws, h.store⟩

/-- A header the manager can return. -/
theorem Sound.headerRaw (h : w.Sound D) {hash : Hash32} {raw : RawHeader}
    (hr : w.chain.headerRaw w.store hash = some raw) : D.Known (.fromRaw raw) := by
  rcases Option.or_eq_some_iff.mp hr with hr | hr
  · exact h.sideRaws hr
  · obtain ⟨r, hget, rfl⟩ := Option.map_eq_some_iff.mp hr.2
    rw [HeaderRec.fromRaw_raw]
    exact h.store (HeaderStore.headerByHash hget)

end World

/-! ## Headers put back from the store -/

omit [Sink σ] [HeaderStore σ] in
/-- A header of the realm put back into the arena. -/
theorem wf_admitStored {D : Realm} {index index' : HeaderIndex} {s : σ} {params : ChainParams}
    {r : HeaderRec} {idx : Nat} (hwf : index.Wf D) (hlimit : params.powLimit = D.powLimit)
    (hr : D.Known r) (h : admitStored s params index r = some (idx, index')) :
    index'.Wf D ∧ index.Grows index' ∧ index'.canonical = index.canonical := by
  simp only [admitStored, Option.bind_eq_bind, Option.bind_eq_some_iff] at h
  obtain ⟨parent, hp, h⟩ := h
  split at h
  case isFalse => cases h
  case isTrue hheight =>
    simp only [Option.bind_eq_some_iff] at h
    obtain ⟨w, hw, cum, hcum, h⟩ := h
    obtain ⟨rs, hl⟩ := hr
    have hne : rs ≠ [] := by
      rintro rfl
      have := hl.height_last (r := r) rfl
      simp at this
      omega
    obtain ⟨hrs, hf⟩ := hl.of_snoc hne
    obtain ⟨hlt, hhash⟩ := (hwf.byHash _ _).mp hp
    have hstands := hwf.stands_of_hash hrs hlt (by rw [hf.prevHash, hhash])
    obtain ⟨-, rfl⟩ := checkedAdd_eq_some.mp hcum
    have hins := hwf.insert hlt hstands hf
      (w := (index.node parent).cumWork + w) (by
        rw [D.chainWork_append, D.chainWork_singleton, ← hstands.work,
          Realm.work_eq (by rw [← hlimit]; exact hw)])
    have hg := index.grows_insert r parent ((index.node parent).cumWork + w) true
    have hcan := index.canonical_insert r parent ((index.node parent).cumWork + w) true
    cases h
    split
    · exact ⟨hins.setInvalidFlag _, hg.trans (HeaderIndex.grows_setInvalidFlag _ _), hcan⟩
    · exact ⟨hins, hg, hcan⟩

namespace World

variable {D : Realm} {w w' : World σ}

/-! ## Headers and bodies -/

/-- A batch of headers. -/
theorem Sound.ingestHeaders [PowVerifier] (h : w.Sound D) {Own : HeaderIndex → Staged → Prop}
    {source : SourceId} {raws : List RawHeader} (now monoMs : Nat) (solicitation : Solicitation)
    (hrule : ∀ ctx : IngestCtx, ctx.params = w.chain.params →
      ctx.genesisTime = w.chain.genesisTime → StagingRule D ctx Own)
    (hraws : ∀ raw ∈ raws, raw ∈ D.raws)
    (hown : ∀ t ∈ w.chain.ingest.stagedOf source, ∀ raw ∈ raws,
      t.hdr.hash = (Header.ofRaw raw).prevHash → Own w.chain.index t) :
    (w.ingestHeaders now monoMs source raws solicitation).2.Sound D ∧
      w.Stays (w.ingestHeaders now monoMs source raws solicitation).2 ∧
      (w.ingestHeaders now monoMs source raws solicitation).2.chain.cps = w.chain.cps := by
  unfold World.ingestHeaders
  dsimp only
  split
  · exact ⟨h, .refl _, rfl⟩
  split
  · exact ⟨h, .refl _, rfl⟩
  generalize hctx : IngestCtx.mk _ _ _ _ _ _ _ _ _ _ = ctx
  have hparams : ctx.params = w.chain.params := by rw [← hctx]
  have htime : ctx.genesisTime = w.chain.genesisTime := by rw [← hctx]
  obtain ⟨hsound, hg, hcan, hknown⟩ := submitHeaders_sound w.store
    (hrule ctx hparams htime) (by rw [hparams, h.powLimit]) h.intake hraws hown
  generalize submitHeaders w.store w.chain.ingest w.chain.index ctx source raws = out at *
  obtain ⟨accepted, ing, index, connected⟩ := out
  cases accepted with
  | error e => exact ⟨⟨h.powLimit, hsound, h.sideRaws, h.store⟩, ⟨hg, hcan, rfl, rfl⟩, rfl⟩
  | ok accepted =>
    dsimp only at hknown ⊢
    refine ⟨⟨h.powLimit, hsound, fun hlook ↦ ?_, fun {r} hr ↦ ?_⟩, ⟨hg, hcan, rfl, rfl⟩, rfl⟩
    · rcases AList.lookup_of_foldl_insert hlook with hlook | ⟨r, hr, -, rfl⟩
      · exact h.sideRaws hlook
      · rw [HeaderRec.fromRaw_raw]
        exact hknown r hr
    · revert hr
      have hstore : ∀ {r}, r ∈ HeaderStore.held w.store → D.Known r := h.store
      generalize w.store = store at hstore
      clear hctx hsound hg hcan
      induction connected generalizing store with
      | nil => exact fun hr ↦ hstore hr
      | cons q connected ih =>
        refine ih (fun r hr ↦ hknown r (List.mem_cons_of_mem _ hr)) _ fun hr ↦ ?_
        rcases HeaderStore.storeSideHeader hr with hr | rfl
        · exact hstore hr
        · exact hknown _ List.mem_cons_self

/-- A body. -/
theorem Sound.submitBlock (h : w.Sound D) (hash : Hash32) (body : Bytes) :
    (w.submitBlock hash body).2.Sound D ∧ w.Stays (w.submitBlock hash body).2 ∧
      (w.submitBlock hash body).2.chain.cps = w.chain.cps := by
  unfold World.submitBlock
  dsimp only
  split
  · exact ⟨h, .refl _, rfl⟩
  split
  case h_1 => exact ⟨h, .refl _, rfl⟩
  case h_2 idx index hfound =>
    have hindex : index.Wf D ∧ w.chain.index.Grows index ∧
        index.canonical = w.chain.index.canonical := by
      split at hfound
      · cases hfound
        exact ⟨h.wf, .refl _, rfl⟩
      · simp only [Manager.readmitPersistedHeader, Option.bind_eq_bind,
          Option.bind_eq_some_iff] at hfound
        obtain ⟨r, hr, hfound⟩ := hfound
        split at hfound
        · exact wf_admitStored h.wf h.powLimit (h.store (HeaderStore.headerByHash hr)) hfound
        · cases hfound
    obtain ⟨hwf, hg, hcan⟩ := hindex
    have hgrown : Sound D { w with chain := { w.chain with index } } := h.grow hwf hg
    have hstays : w.Stays { w with chain := { w.chain with index } } := ⟨hg, hcan, rfl, rfl⟩
    split
    · exact ⟨hgrown, hstays, rfl⟩
    split
    · exact ⟨hgrown, hstays, rfl⟩
    split
    · exact ⟨hgrown, hstays, rfl⟩
    · have hbody := index.grows_setHaveBody idx
      exact ⟨⟨h.powLimit, h.intake.grow (hwf.setHaveBody idx) (hg.trans hbody), h.sideRaws,
        h.store⟩, ⟨hg.trans hbody, hcan, rfl, rfl⟩, rfl⟩

/-! ## Advancing -/

theorem Sound.invalidate (h : w.Sound D) (hash : Hash32) :
    (w.invalidate hash).Sound D ∧ w.Stays (w.invalidate hash) ∧
      (w.invalidate hash).chain.cps = w.chain.cps := by
  unfold World.invalidate
  cases w.chain.index.indexOf hash with
  | none => exact ⟨h, .refl _, rfl⟩
  | some idx =>
    have hg := w.chain.index.grows_markInvalid idx
    exact ⟨⟨h.powLimit, h.intake.grow (h.wf.markInvalid idx) hg, h.sideRaws,
      fun hr ↦ h.store (HeaderStore.markInvalid hr)⟩,
      ⟨hg, w.chain.index.canonical_markInvalid idx, rfl, rfl⟩, rfl⟩

end World

omit [Sink σ] [HeaderStore σ] in
/-- The blocks a rewind replays are read from the store. -/
theorem headers_rewindToFork {s : σ} {o o' : Overlay} {tip fork : Nat} {params : ChainParams}
    {work : Nat → Work} {base : Base} {l : CoinbaseLedger} {replayed : List CommitBlock}
    (h : rewindToFork s o tip fork params work = .ok (base, o', l, replayed)) {b : CommitBlock}
    (hb : b ∈ replayed) : ∃ k, Store.headerAt s k = some b.header := by
  unfold rewindToFork at h
  split at h
  · simp only [Except.bind_eq_ok] at h
    obtain ⟨_, -, h⟩ := h
    cases h
    cases hb
  · simp only [deepRewind, Except.bind_eq_ok, Prod.exists] at h
    obtain ⟨rewindTo, o₂, replayed₂, ⟨_, -, _, -, rows, -, o₁, replayed₁, hfold, h₁⟩, _, -, h⟩ := h
    cases h₁
    cases h
    have hinv := List.foldlM_invariant (P := fun acc : Overlay × List CommitBlock ↦
      ∀ b ∈ acc.2, ∃ k, Store.headerAt s k = some b.header) ?_ ?_ hfold
    · exact hinv b hb
    · intro acc k acc' hacc hstep b hb
      simp only [replayBlock, Except.bind_eq_ok, Except.ofOption_eq_ok, Prod.exists] at hstep
      obtain ⟨raw, -, r, hr, v, o, l, -, hstep⟩ := hstep
      cases hstep
      rcases List.mem_append.mp hb with hb | hb
      · exact hacc b hb
      · rw [List.mem_singleton.mp hb]
        exact ⟨k, by rw [hr, CommitBlock.header, commitBlockOf, HeaderRec.fromRaw_raw]⟩
    · intro b hb
      cases hb

omit σ [Store σ] [Sink σ] [HeaderStore σ] in
/-- The commits of a branch have the branch's headers. -/
theorem headers_validateBranch {params : ChainParams} {work : Nat → Work} {i : Nat}
    {branch : List (HeaderRec × Bytes)} {o o' : Overlay} {l l' : CoinbaseLedger}
    {out : List CommitBlock} {spent : List (Address × Nat)}
    (h : validateBranch params work i branch o l = .ok (out, spent, o', l')) :
    out.map CommitBlock.header = branch.map Prod.fst := by
  induction branch generalizing i o l out spent with
  | nil => cases h; rfl
  | cons b branch ih =>
    obtain ⟨v, o₁, l₁, out', spent', -, hb, rfl, -⟩ := validateBranch_cons_eq_ok.mp h
    rw [List.map_cons, List.map_cons, ih hb]
    simp [CommitBlock.header, commitBlockOf]

omit [Sink σ] [HeaderStore σ] in
/-- The loop of `build_ledger` fails in one way only. -/
theorem buildLedger_error {s : σ} {height : Nat} {e : Reject} (h : buildLedger s height = .error e) :
    e = .arithmeticOverflow := by
  unfold buildLedger ledgerFrom at h
  generalize ledgerWindow height = hs, CoinbaseLedger.new = l at h
  induction hs generalizing l with
  | nil => cases h
  | cons k hs ih =>
    rw [List.foldlM_cons] at h
    cases hstep : pushCoinbase (Store.bodyAt s) l k with
    | ok m =>
      rw [hstep] at h
      exact ih _ h
    | error e' =>
      rw [hstep] at h
      cases h
      unfold pushCoinbase at hstep
      split at hstep
      · cases hstep
      · rename_i cb _
        cases hcr : coinbaseCredit cb with
        | ok c => rw [hcr] at hstep; cases hstep
        | error t => rw [hcr] at hstep; cases hstep; rfl

theorem held_commitPlan {s : σ} {plan : Plan} {base : Base} {commits : List CommitBlock}
    {r : HeaderRec} (h : r ∈ HeaderStore.held (World.commitPlan s plan base commits).2) :
    r ∈ HeaderStore.held s ∨ r ∈ commits.map CommitBlock.header := by
  unfold World.commitPlan at h
  split at h
  · exact HeaderStore.commitDeepReorg h
  · split at h
    · exact (HeaderStore.commitBlock h).imp_right fun hr ↦ by simp [hr]
    · exact HeaderStore.commitReorg h

namespace World

variable {D : Realm} {w w' : World σ}

/-- What is committed of a plan are headers of the realm. -/
theorem Sound.validatePlan (h : w.Sound D) {plan : Plan} {base : Base}
    {commits : List CommitBlock} {spent : List (Address × Nat)}
    (hv : validatePlan w.chain w.store plan = .ok (base, commits, spent)) {r : HeaderRec}
    (hr : r ∈ commits.map CommitBlock.header) : D.Known r := by
  simp only [World.validatePlan, Except.bind_eq_ok, Prod.exists] at hv
  obtain ⟨branch, hbranch, _, o, l, replayed, hrewind, out, _, _, _, hval, hv⟩ := hv
  cases hv
  rw [List.map_append] at hr
  rcases List.mem_append.mp hr with hr | hr
  · obtain ⟨b, hb, rfl⟩ := List.mem_map.mp hr
    obtain ⟨k, hk⟩ := headers_rewindToFork hrewind hb
    exact h.store (HeaderStore.headerAt hk)
  · rw [headers_validateBranch hval] at hr
    obtain ⟨b, hb, rfl⟩ := List.mem_map.mp hr
    have hall := List.forall₂_of_mapM_ok hbranch
    obtain ⟨i, -, hi⟩ := hall.exists_of_mem_right hb
    simp only [Except.bind_eq_ok, Except.ofOption_eq_ok] at hi
    obtain ⟨raw, hraw, body, -, hi⟩ := hi
    cases hi
    exact h.headerRaw hraw

omit [Sink σ] [HeaderStore σ] in
/-- What the world after a commit has in common with the one before. -/
theorem adopted_snd (m : Manager) (s : σ) (now best : Nat) (plan : Plan)
    (spent : List (Address × Nat)) (disconnected : List (Nat × List Bytes)) :
    let out := (adopted m s now best plan spent disconnected).2
    out.chain.index = m.index.setCanonical (m.index.ancestry best) ∧ out.store = s ∧
      out.chain.params = m.params ∧ out.chain.cps = m.cps ∧
      out.chain.genesisTime = m.genesisTime ∧ out.chain.ingest = m.ingest ∧
      out.chain.sideRaws = (plan.apply.map fun i ↦ (m.index.node i).hash).foldl
        (fun l h ↦ l.erase h) m.sideRaws := by
  unfold adopted
  dsimp only
  split <;> exact ⟨rfl, rfl, rfl, rfl, rfl, rfl, rfl⟩

omit [Sink σ] [HeaderStore σ] in
/-- After a commit nothing is left to condemn or refuse. -/
theorem adopted_fst {m : Manager} {s : σ} {now best : Nat} {plan : Plan}
    {spent : List (Address × Nat)} {disconnected : List (Nat × List Bytes)} {e : Reject}
    (h : (adopted m s now best plan spent disconnected).1 = .error e) :
    e = .arithmeticOverflow := by
  unfold adopted at h
  dsimp only at h
  split at h
  · rename_i e' he
    cases h
    exact buildLedger_error he
  · cases h

omit [HeaderStore σ] in
/-- What `try_adopt` does to the world: nothing but to the halted flag and the store, or it
adopts the plan. -/
theorem tryAdopt_eq {now best : Nat} {plan : Plan} {result : Except Reject Progress}
    (h : w.tryAdopt now best plan = some (result, w')) :
    (∃ e halted store, result = .error e ∧ w' = ⟨{ w.chain with halted }, store⟩ ∧
      (store = w.store ∨ ∃ base commits spent, validatePlan w.chain w.store plan =
        .ok (base, commits, spent) ∧ store = (commitPlan w.store plan base commits).2)) ∨
    ∃ v base commits spent, judge w.chain plan = some (.ok v) ∧
      validatePlan w.chain w.store plan = .ok (base, commits, spent) ∧
      (commitPlan w.store plan base commits).1 = .ok () ∧
      (result, w') = adopted w.chain (commitPlan w.store plan base commits).2 now best plan spent
        (plan.rollback.map fun h ↦ (h, nonCoinbaseBytes w.store h)) := by
  unfold World.tryAdopt at h
  dsimp only at h
  split at h
  · cases h
  · rename_i e _
    cases h
    exact .inl ⟨e, w.chain.halted, w.store, rfl, rfl, .inl rfl⟩
  · rename_i v hv
    have h := Option.some.inj h
    split at h
    · rename_i e _
      cases h
      exact .inl ⟨e, w.chain.halted, w.store, rfl, rfl, .inl rfl⟩
    · rename_i base commits spent hplan
      have hc : ∀ r s, commitPlan w.store plan base commits = (r, s) →
          (commitPlan w.store plan base commits).2 = s := fun r s hrs ↦ by rw [hrs]
      split at h
      · rename_i store hcommit
        refine .inr ⟨v, base, commits, spent, hv, hplan, by rw [hcommit], ?_⟩
        rw [hcommit, h]
      all_goals
        rename_i hcommit
        cases h
        exact .inl ⟨_, _, _, rfl, rfl, .inr ⟨base, commits, spent, hplan, (hc _ _ hcommit).symm⟩⟩

/-- What `try_adopt` keeps. -/
theorem Sound.tryAdopt (h : w.Sound D) {now best : Nat} {plan : Plan}
    {result : Except Reject Progress} (hbest : best < w.chain.index.nodes.length)
    (hplan : planReorg w.chain.index best = some plan)
    (ht : w.tryAdopt now best plan = some (result, w')) :
    w'.Sound D ∧ w'.chain.cps = w.chain.cps ∧
      ((w.Stays w' ∧ ∃ e, result = .error e) ∨
        (w.Turn D w' ∧ ∀ e, result = .error e → e = .arithmeticOverflow)) := by
  rcases tryAdopt_eq ht with ⟨e, halted, store, rfl, rfl, hstore⟩ |
    ⟨v, base, commits, spent, hv, hval, -, heq⟩
  · refine ⟨⟨h.powLimit, h.intake, h.sideRaws, fun {r} hr ↦ ?_⟩, rfl,
      .inl ⟨⟨.refl _, rfl, rfl, rfl⟩, e, rfl⟩⟩
    rcases hstore with rfl | ⟨base, commits, spent, hval, rfl⟩
    · exact h.store hr
    · exact (held_commitPlan hr).elim h.store (h.validatePlan hval)
  · set store := (commitPlan w.store plan base commits).2 with hstore
    obtain ⟨hindex, hst, hparams, hcps, htime, hingest, hside⟩ := adopted_snd w.chain store now best
      plan spent (plan.rollback.map fun h ↦ (h, nonCoinbaseBytes w.store h))
    have hfst := @adopted_fst _ _ _ w.chain store now best plan spent
      (plan.rollback.map fun h ↦ (h, nonCoinbaseBytes w.store h))
    rw [← heq] at hindex hst hparams hcps htime hingest hside hfst
    dsimp only at hindex hst hparams hcps htime hingest hside hfst
    have hg := w.chain.index.grows_setCanonical (w.chain.index.ancestry best)
    have hwf := h.wf.setCanonical hbest (h.wf.ancestry hbest)
    refine ⟨⟨by rw [hparams, h.powLimit], ?_, fun hlook ↦ ?_, fun {r} hr ↦ ?_⟩, hcps,
      .inr ⟨.adopt w.chain best plan v h.wf ⟨.refl _, rfl, rfl, rfl⟩ rfl hbest hplan hv hindex hparams
        htime, fun e he ↦ hfst he⟩⟩
    · rw [hingest, hindex]
      exact h.intake.grow hwf hg
    · rw [hside] at hlook
      exact h.sideRaws (AList.lookup_of_foldl_erase hlook)
    · rw [hst] at hr
      exact (held_commitPlan hr).elim h.store (h.validatePlan hval)

omit [Store σ] [Sink σ] [HeaderStore σ] in
theorem Turn.of_stays {w₀ : World σ} (h : w₀.Stays w) (hcps : w.chain.cps = w₀.chain.cps)
    (ht : w.Turn D w') : w₀.Turn D w' := by
  cases ht with
  | stay hs => exact .stay (h.trans hs)
  | adopt m best plan v wf mid cps lt plans judge index params genesisTime =>
    exact .adopt m best plan v wf ⟨h.grows.trans mid.grows, mid.canonical.trans h.canonical,
      mid.params.trans h.params, mid.genesisTime.trans h.genesisTime⟩ (cps.trans hcps) lt plans
      judge index params genesisTime

omit [Store σ] [Sink σ] [HeaderStore σ] in
/-- A turn is about the arena and the parameters. -/
theorem Turn.congr {w'' : World σ} (ht : w.Turn D w') (hindex : w''.chain.index = w'.chain.index)
    (hparams : w''.chain.params = w'.chain.params)
    (htime : w''.chain.genesisTime = w'.chain.genesisTime) : w.Turn D w'' := by
  cases ht with
  | stay hs =>
    exact .stay ⟨hindex ▸ hs.grows, hindex ▸ hs.canonical, hparams ▸ hs.params,
      htime ▸ hs.genesisTime⟩
  | adopt m best plan v wf mid cps lt plans judge index params genesisTime =>
    exact .adopt m best plan v wf ⟨mid.grows, mid.canonical, mid.params, mid.genesisTime⟩ cps lt
      plans judge (hindex.trans index) (hparams.trans params) (htime.trans genesisTime)

/-- Notes for the caller are no header's business. -/
theorem Sound.note (h : w.Sound D) {m : Manager} (hparams : m.params = w.chain.params)
    (hindex : m.index = w.chain.index) (hingest : m.ingest = w.chain.ingest)
    (hside : m.sideRaws = w.chain.sideRaws) : Sound D ⟨m, w.store⟩ :=
  ⟨hparams ▸ h.powLimit, by rw [hindex, hingest]; exact h.intake, fun hl ↦ h.sideRaws (hside ▸ hl),
    h.store⟩

/-- Where `advance` answers after `try_adopt`. -/
theorem Sound.afterAdopt_inl (h : w.Sound D) {best : Nat} {scan : Scan}
    {result answer : Except Reject Progress}
    (ha : w.afterAdopt best scan result = .inl (answer, w')) :
    w'.Sound D ∧ w'.chain.cps = w.chain.cps ∧ w'.chain.index = w.chain.index ∧
      w'.chain.params = w.chain.params ∧ w'.chain.genesisTime = w.chain.genesisTime := by
  unfold World.afterAdopt at ha
  dsimp only at ha
  split at ha
  · cases ha
    exact ⟨h.note rfl rfl rfl rfl, rfl, rfl, rfl, rfl⟩
  · split at ha
    · cases ha
    · cases ha
      exact ⟨h, rfl, rfl, rfl, rfl⟩
  · cases ha
  · cases ha
    exact ⟨h.note rfl rfl rfl rfl, rfl, rfl, rfl, rfl⟩

/-- Where `advance` goes on after `try_adopt`: a block is condemned, or a candidate refused by
the rule. -/
theorem Sound.afterAdopt_inr (h : w.Sound D) {best : Nat} {scan scan' : Scan}
    {result : Except Reject Progress} (ha : w.afterAdopt best scan result = .inr (w', scan')) :
    w'.Sound D ∧ w'.chain.cps = w.chain.cps ∧ w.Stays w' ∧
      ∃ e, result = .error e ∧ e ≠ .arithmeticOverflow := by
  unfold World.afterAdopt at ha
  dsimp only at ha
  split at ha
  · cases ha
  · rename_i height hash cause
    split at ha
    · cases ha
      have hmarked : Sound D ⟨{ w.chain with
        lastBranchFailure := some (Reject.branchInvalid height hash cause) }, w.store⟩ :=
        h.note rfl rfl rfl rfl
      obtain ⟨hs, hst, hcps⟩ := hmarked.invalidate hash
      exact ⟨hs, hcps, ⟨hst.grows, hst.canonical, hst.params, hst.genesisTime⟩, _, rfl, by simp⟩
    · cases ha
  · cases ha
    exact ⟨h.note rfl rfl rfl rfl, rfl, ⟨.refl _, rfl, rfl, rfl⟩, _, rfl, by simp⟩
  · cases ha

theorem Sound.settle (h : w.Sound D) (scan : Scan) :
    (w.settle scan).2.Sound D ∧ w.Stays (w.settle scan).2 ∧
      (w.settle scan).2.chain.cps = w.chain.cps := by
  have hnote : Sound D ⟨{ w.chain with wantedBodies := scan.pending }, w.store⟩ :=
    ⟨h.powLimit, h.intake, h.sideRaws, h.store⟩
  unfold World.settle
  dsimp only
  split
  · exact ⟨hnote, ⟨.refl _, rfl, rfl, rfl⟩, rfl⟩
  · split <;> exact ⟨hnote, ⟨.refl _, rfl, rfl, rfl⟩, rfl⟩

/-- The loop of `advance`. -/
theorem Sound.advanceLoop {w₀ : World σ} {now fuel : Nat} {scan : Scan}
    {result : Except Reject Progress} (h : w.Sound D) (hstays : w₀.Stays w)
    (hcps : w.chain.cps = w₀.chain.cps)
    (ha : World.advanceLoop now fuel w scan = some (result, w')) :
    w'.Sound D ∧ w₀.Turn D w' ∧ w'.chain.cps = w₀.chain.cps := by
  have hsettle : ∀ {w : World σ} {scan : Scan}, w.Sound D → w₀.Stays w →
      w.chain.cps = w₀.chain.cps → (w.settle scan).2.Sound D ∧ w₀.Turn D (w.settle scan).2 ∧
        (w.settle scan).2.chain.cps = w₀.chain.cps := by
    intro w scan h hstays hcps
    obtain ⟨hs, hst, hc⟩ := h.settle scan
    exact ⟨hs, .stay (hstays.trans hst), hc.trans hcps⟩
  induction fuel generalizing w scan with
  | zero => cases ha
  | succ fuel ih =>
    unfold World.advanceLoop at ha
    dsimp only at ha
    split at ha
    · have heq := Option.some.inj ha
      rw [show w' = (w.settle scan).2 by rw [heq]]
      exact hsettle h hstays hcps
    cases hplan : planReorg w.chain.index
        (selectBestExcluding w.chain.index scan.refused) with
    | none =>
      rw [hplan] at ha
      have heq := Option.some.inj ha
      rw [show w' = (w.settle scan).2 by rw [heq]]
      exact hsettle h hstays hcps
    | some plan =>
      simp only [hplan] at ha
      split at ha
      · split at ha
        · cases ha
        · rename_i res mid htry
          obtain ⟨hsound, hcps', hturn⟩ := h.tryAdopt (h.wf.selectBest_lt _) hplan htry
          split at ha
          · rename_i answer hanswer
            cases ha
            obtain ⟨hs, hc, hindex, hparams, htime⟩ := hsound.afterAdopt_inl hanswer
            refine ⟨hs, ?_, hc.trans (hcps'.trans hcps)⟩
            have hmid : w.Turn D mid := hturn.elim (fun ht ↦ .stay ht.1) fun ht ↦ ht.1
            exact (hmid.of_stays hstays hcps).congr hindex hparams htime
          · rename_i next scan' hanswer
            obtain ⟨hs, hc, hst, e, he, hne⟩ := hsound.afterAdopt_inr hanswer
            rcases hturn with ⟨hmid, -⟩ | ⟨-, hover⟩
            · exact ih hs (hstays.trans (hmid.trans hst)) (hc.trans (hcps'.trans hcps)) ha
            · exact absurd (hover e he) hne
      · exact ih h hstays hcps ha

theorem Sound.advance {now : Nat} {result : Except Reject Progress} (h : w.Sound D)
    (ha : w.advance now = some (result, w')) :
    w'.Sound D ∧ w.Turn D w' ∧ w'.chain.cps = w.chain.cps := by
  unfold World.advance at ha
  split at ha
  · cases ha
    exact ⟨h, .stay (.refl _), rfl⟩
  · exact h.advanceLoop (.refl _) rfl ha

end World

end

end Plaine.Chain

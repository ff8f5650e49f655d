import Plaine.Chain.Bookkeeping
import Plaine.Chain.TipOrder
import Plaine.Chain.MockRun

/-!
# Held bodies

A manager keeps the bodies it was given until their blocks are adopted.  `World.Tidy w`: each of them
is the body of a block that can still be adopted, neither canonical nor marked invalid.
-/

namespace Plaine.Chain

open Plaine.Lib Plaine.Consensus

section

variable [Crypto]

/-! ## Arenas that only take headers in -/

namespace HeaderIndex

variable {index index' : HeaderIndex}

theorem prefix_insert (index : HeaderIndex) (r : HeaderRec) (p : Nat) (w : Work) (powOk : Bool) :
    index.nodes <+: (index.insert r p w powOk).2.nodes := by
  unfold insert
  split
  · exact List.prefix_rfl
  · exact List.prefix_append _ _

omit [Crypto] in
theorem node_eq_of_prefix (h : index.nodes <+: index'.nodes) {i : Nat}
    (hi : i < index.nodes.length) : index'.node i = index.node i := by
  obtain ⟨l, hl⟩ := h
  rw [node, node, ← hl, List.getD_eq_getElem?_getD, List.getD_eq_getElem?_getD,
    List.getElem?_append_left hi]

end HeaderIndex

section

variable [PowVerifier]

theorem prefix_promoteLoop (ctx : IngestCtx) (id : SourceId) (todo : List Staged) (p : Promotion) :
    p.index.nodes <+: (promoteLoop ctx id todo p).index.nodes := by
  induction todo generalizing p with
  | nil => exact List.prefix_rfl
  | cons s todo ih =>
    have hrest (q : Promotion) (hq : p.index.nodes <+: q.index.nodes) :
        p.index.nodes <+: (promoteLoop ctx id todo q).index.nodes := hq.trans (ih q)
    unfold promoteLoop
    dsimp only
    split
    · exact List.prefix_rfl
    split
    · exact List.prefix_rfl
    split
    · split
      · exact hrest _ List.prefix_rfl
      · exact hrest _ (HeaderIndex.prefix_insert _ _ _ _ _)
    · exact List.prefix_rfl

theorem prefix_promote (ctx : IngestCtx) (id : SourceId) (ing : Ingest) (index : HeaderIndex)
    (connectedOut : List HeaderRec) (lost : Option Rejection) (held : Option Held) :
    index.nodes <+: (promote ing index ctx id connectedOut lost held).1.index.nodes := by
  unfold promote
  dsimp only
  split
  · exact List.prefix_rfl
  split
  · exact List.prefix_rfl
  split
  · exact List.prefix_rfl
  · exact prefix_promoteLoop ctx id (ing.stagedOf id) ⟨ing, index, connectedOut, 0, 0, false, lost⟩

theorem Batch.prefix_promote (b : Batch) (ctx : IngestCtx) (id : SourceId) :
    b.index.nodes <+: (b.promote ctx id).index.nodes :=
  Chain.prefix_promote ctx id b.ing b.index b.connectedOut b.out.firstRejection b.out.firstHeld

theorem Batch.prefix_stage (b : Batch) (ctx : IngestCtx) (id : SourceId) (raw : RawHeader) :
    b.index.nodes <+: (b.stage ctx id raw).index.nodes := by
  have hfirst : b.index.nodes <+: (if ctx.params.maxStagedHeaders ≤ (b.ing.stagedOf id).length
      then b.promote ctx id else b).index.nodes := by
    split
    · exact b.prefix_promote ctx id
    · exact List.prefix_rfl
  unfold stage
  dsimp only
  generalize (if ctx.params.maxStagedHeaders ≤ (b.ing.stagedOf id).length
    then b.promote ctx id else b) = b' at hfirst ⊢
  split <;> exact hfirst

variable {σ : Type} [Store σ]

theorem prefix_submitLoop (store : σ) (ctx : IngestCtx) (id : SourceId) (raws : List RawHeader)
    (b : Batch) : b.index.nodes <+: (submitLoop store ctx id raws b).index.nodes := by
  induction raws generalizing b with
  | nil => exact List.prefix_rfl
  | cons raw raws ih =>
    unfold submitLoop
    split
    · dsimp only
      split
      · exact List.prefix_rfl
      · exact ih (b.duplicate id (headerHash raw))
    · exact (b.prefix_stage ctx id raw).trans (ih _)

/-- A batch of headers is taken in behind the nodes that are there. -/
theorem prefix_submitHeaders (store : σ) (ing : Ingest) (index : HeaderIndex) (ctx : IngestCtx)
    (id : SourceId) (raws : List RawHeader) :
    index.nodes <+: (submitHeaders store ing index ctx id raws).2.2.1.nodes := by
  have hbatch (b : Batch) (hb : b.index = index) :
      index.nodes <+: ((submitLoop store ctx id raws b).promote ctx id).index.nodes :=
    hb ▸ (prefix_submitLoop store ctx id raws b).trans (Batch.prefix_promote _ ctx id)
  unfold submitHeaders
  dsimp only
  split
  · exact List.prefix_rfl
  · exact hbatch _ rfl

end

/-! ## Blocks that can be adopted -/

/-- A block that is neither canonical nor marked invalid. -/
def HeaderIndex.Adoptable (index : HeaderIndex) (hash : Hash32) : Prop :=
  ∃ i, index.indexOf hash = some i ∧ index.isCanonical i = false ∧ (index.node i).invalid = false

variable {D : Realm} {index index' : HeaderIndex} {hash : Hash32}

namespace HeaderIndex

/-- A block stays adoptable where its node neither becomes canonical nor is marked. -/
theorem Adoptable.mono (h : index.Adoptable hash) (hwf : index.Wf D) (hwf' : index'.Wf D)
    (hg : index.Grows index')
    (hkept : ∀ i < index.nodes.length, (index.node i).hash = hash → i ∉ index.canonical →
      (index.node i).invalid = false → i ∉ index'.canonical ∧ (index'.node i).invalid = false) :
    index'.Adoptable hash := by
  obtain ⟨i, hfound, hcan, hvalid⟩ := h
  obtain ⟨hi, hhash⟩ := (hwf.byHash hash i).mp hfound
  have hoff : i ∉ index.canonical := fun hmem ↦ by
    rw [hwf.isCanonical_iff.mpr hmem] at hcan
    cases hcan
  obtain ⟨hoff', hvalid'⟩ := hkept i hi hhash hoff hvalid
  refine ⟨i, (hwf'.byHash hash i).mpr ⟨hi.trans_le hg.length_le, ?_⟩, ?_, hvalid'⟩
  · exact (hg.hash_eq hi).trans hhash
  · rw [Bool.eq_false_iff]
    exact fun hcan' ↦ hoff' (hwf'.isCanonical_iff.mp hcan')

end HeaderIndex

namespace World

variable {σ : Type} {w w' : World σ}

/-- The bodies that are held are those of blocks that can be adopted. -/
def Tidy (w : World σ) : Prop := ∀ hash ∈ w.chain.bodies, w.chain.index.Adoptable hash

theorem Tidy.congr (h : w.Tidy) (hindex : w'.chain.index = w.chain.index)
    (hbodies : w'.chain.bodies = w.chain.bodies) : w'.Tidy := by
  unfold Tidy
  rw [hindex, hbodies]
  exact h

/-- Where nothing but headers is taken in. -/
theorem Tidy.takes (h : w.Tidy) (hwf : w.chain.index.Wf D) (hwf' : w'.chain.index.Wf D)
    (hstays : w.Stays w') (hkept : ∀ i < w.chain.index.nodes.length,
      (w'.chain.index.node i).invalid = (w.chain.index.node i).invalid)
    (hbodies : w'.chain.bodies = w.chain.bodies) : w'.Tidy := by
  intro hash hmem
  rw [hbodies] at hmem
  refine (h hash hmem).mono hwf hwf' hstays.grows fun i hi _ hoff hvalid ↦ ?_
  rw [hstays.canonical, hkept i hi]
  exact ⟨hoff, hvalid⟩

variable [Store σ]

/-! ## Adoption -/

theorem adopted_bodies (m : Manager) (s : σ) (now best : Nat) (plan : Plan)
    (spent : List (Address × Nat)) (disconnected : List (Nat × List Bytes)) :
    (adopted m s now best plan spent disconnected).2.chain.bodies =
      (plan.apply.map fun i ↦ (m.index.node i).hash).foldl (fun l h ↦ l.erase h) m.bodies := by
  unfold adopted
  dsimp only
  split <;> rfl

/-- The bodies of a plan's blocks are released with its adoption. -/
theorem Tidy.adopted {m : Manager} {s : σ} (h : Tidy ⟨m, s⟩) (hwf : m.index.Wf D) {best : Nat}
    (hbest : best < m.index.nodes.length) {plan : Plan} (hleads : m.index.Leads best plan)
    (now : Nat) (spent : List (Address × Nat)) (disconnected : List (Nat × List Bytes)) :
    Tidy (World.adopted m s now best plan spent disconnected).2 := by
  obtain ⟨hindex, -⟩ := adopted_snd m s now best plan spent disconnected
  have hwf' := hwf.setCanonical hbest (hwf.ancestry hbest)
  have hchain : m.index.ancestry best =
      m.index.canonical.take (plan.forkHeight + 1) ++ plan.apply :=
    (hwf.ancestry hbest).unique hleads.lineage
  intro hash hmem
  rw [adopted_bodies, ← AList.lookup_isSome, AList.lookup_foldl_erase] at hmem
  rw [hindex]
  split at hmem
  case isTrue => cases hmem
  case isFalse hheld =>
    refine (h hash (AList.lookup_isSome.mp hmem)).mono hwf hwf' (m.index.grows_setCanonical _)
      fun i hi hhash hoff hvalid ↦ ?_
    rw [HeaderIndex.canonical_setCanonical, hchain, List.mem_append]
    refine ⟨?_, (HeaderIndex.invalid_foldl_rebase _ _ _).trans hvalid⟩
    rintro (hmem | hmem)
    · exact hoff (List.mem_of_mem_take hmem)
    · exact hheld (List.mem_map.mpr ⟨i, hmem, hhash⟩)

/-! ## Condemnation -/

/-- To mark a block reaches none of the blocks whose bodies are held. -/
def SparesHeld (w : World σ) (hash : Hash32) : Prop :=
  ∀ i, w.chain.index.indexOf hash = some i → ∀ held ∈ w.chain.bodies, ∀ j,
    w.chain.index.indexOf held = some j → ((w.chain.index.markInvalid i).node j).invalid = false

variable [Sink σ]

omit [Store σ] in
theorem Tidy.invalidate (h : w.Tidy) (hwf : w.chain.index.Wf D) (hspares : w.SparesHeld hash) :
    (w.invalidate hash).Tidy := by
  unfold World.invalidate
  cases hfound : w.chain.index.indexOf hash with
  | none => exact h
  | some i =>
    intro held hmem
    refine (h held hmem).mono hwf (hwf.markInvalid i) (w.chain.index.grows_markInvalid i)
      fun j hj hhash hoff _ ↦ ⟨?_, ?_⟩
    · rwa [w.chain.index.canonical_markInvalid]
    · exact hspares i hfound held hmem j ((hwf.byHash held j).mpr ⟨hj, hhash⟩)

/-- The rounds of `advance` condemn no block whose mark reaches one whose body is held. -/
def LoopSpares (now : Nat) : Nat → World σ → Scan → Prop
  | 0, _, _ => True
  | fuel + 1, w, scan =>
    let best := selectBestExcluding w.chain.index scan.refused
    best ∉ scan.refused → ∀ plan, planReorg w.chain.index best = some plan →
      match w.gapOf plan.apply with
      | [] => ∀ result w₁, w.tryAdopt now best plan = some (result, w₁) →
          (∀ height hash cause, result = .error (.branchInvalid height hash cause) →
            (w₁.chain.index.indexOf hash).any (fun i ↦ !w₁.chain.index.isCanonical i) = true →
            w₁.SparesHeld hash) ∧
          ∀ w₂ scan', w₁.afterAdopt best scan result = .inr (w₂, scan') →
            LoopSpares now fuel w₂ scan'
      | gap => LoopSpares now fuel w { scan with
          refused := gap.foldl skipInsert scan.refused
          pending := queue scan.pending (w.missingOf plan.apply) }

/-- What is asked of an operation: a body is not that of a canonical block which the store has no
body of, and no block is condemned whose mark reaches one whose body is held. -/
def Releases (w : World σ) : Op → Prop
  | .submitBlock hash _ => ∀ i, w.chain.index.indexOf hash = some i →
      w.chain.index.isCanonical i = true → w.chain.haveBody w.store hash = true
  | .advance now => w.chain.halted = none →
      LoopSpares now (w.chain.index.nodes.length + 1) w ⟨[], none, []⟩
  | _ => True

/-- What `try_adopt` does with the bodies. -/
theorem Tidy.tryAdopt (h : w.Tidy) (hwf : w.chain.index.Wf D) {now best : Nat} {plan : Plan}
    (hbest : best < w.chain.index.nodes.length) (hleads : w.chain.index.Leads best plan)
    {result : Except Reject Progress} (ht : w.tryAdopt now best plan = some (result, w')) :
    w'.Tidy := by
  rcases tryAdopt_eq ht with ⟨e, halted, store, -, rfl, -⟩ | ⟨v, base, commits, spent, -, -, -, heq⟩
  · exact h
  · have hout := Tidy.adopted (s := (commitPlan w.store plan base commits).2) h hwf hbest hleads now
      spent (plan.rollback.map fun h ↦ (h, nonCoinbaseBytes w.store h))
    rwa [← heq] at hout

omit [Store σ] in
theorem Tidy.afterAdopt_inl (h : w.Tidy) {best : Nat} {scan : Scan}
    {result answer : Except Reject Progress}
    (ha : w.afterAdopt best scan result = .inl (answer, w')) : w'.Tidy := by
  unfold World.afterAdopt at ha
  dsimp only at ha
  split at ha
  · cases ha
    exact h
  · split at ha
    · cases ha
    · cases ha
      exact h
  · cases ha
  · cases ha
    exact h

omit [Store σ] in
theorem Tidy.afterAdopt_inr (h : w.Tidy) (hwf : w.chain.index.Wf D) {best : Nat}
    {scan scan' : Scan} {result : Except Reject Progress}
    (hcondemned : ∀ height hash cause, result = .error (.branchInvalid height hash cause) →
      (w.chain.index.indexOf hash).any (fun i ↦ !w.chain.index.isCanonical i) = true →
      w.SparesHeld hash)
    (ha : w.afterAdopt best scan result = .inr (w', scan')) : w'.Tidy := by
  unfold World.afterAdopt at ha
  dsimp only at ha
  split at ha
  · cases ha
  · rename_i height hash cause
    split at ha
    case isTrue hside =>
      cases ha
      exact Tidy.invalidate (w := { w with chain := { w.chain with
        lastBranchFailure := some (.branchInvalid height hash cause) } }) h hwf
        (hcondemned height hash cause rfl hside)
    case isFalse => cases ha
  · cases ha
    exact h
  · cases ha

/-! ## Operations -/

variable [HeaderStore σ]

/-- The rounds of `advance`. -/
theorem Tidy.advanceLoop {now fuel : Nat} {scan : Scan} {result : Except Reject Progress}
    (hsound : w.Sound D) (h : w.Tidy) (hspares : LoopSpares now fuel w scan)
    (ha : World.advanceLoop now fuel w scan = some (result, w')) : w'.Tidy := by
  have hsettle {w : World σ} {scan : Scan} (h : w.Tidy) : (w.settle scan).2.Tidy := by
    unfold World.settle
    dsimp only
    split
    · exact h
    · split <;> exact h
  induction fuel generalizing w scan with
  | zero => cases ha
  | succ fuel ih =>
    unfold World.advanceLoop at ha
    dsimp only at ha
    split at ha
    case isTrue =>
      have heq := Option.some.inj ha
      rw [show w' = (w.settle scan).2 by rw [heq]]
      exact hsettle h
    case isFalse hnew =>
      cases hplan : planReorg w.chain.index
          (selectBestExcluding w.chain.index scan.refused) with
      | none =>
        rw [hplan] at ha
        have heq := Option.some.inj ha
        rw [show w' = (w.settle scan).2 by rw [heq]]
        exact hsettle h
      | some plan =>
        have hround := hspares hnew plan hplan
        simp only [hplan] at ha
        cases hgap : w.gapOf plan.apply with
        | cons i gap =>
          rw [hgap] at ha hround
          exact ih hsound h hround ha
        | nil =>
          rw [hgap] at ha hround
          dsimp only at ha hround
          split at ha
          · cases ha
          · rename_i res w₁ htry
            obtain ⟨hcondemned, hrest⟩ := hround res w₁ htry
            have hbest := hsound.wf.selectBest_lt scan.refused
            obtain ⟨hsound₁, -, -⟩ := hsound.tryAdopt hbest hplan htry
            have h₁ : w₁.Tidy := h.tryAdopt hsound.wf hbest (hsound.wf.planReorg hbest hplan) htry
            split at ha
            · rename_i answer hanswer
              cases ha
              exact h₁.afterAdopt_inl hanswer
            · rename_i w₂ scan' hanswer
              obtain ⟨hsound₂, -, -, -⟩ := hsound₁.afterAdopt_inr hanswer
              exact ih hsound₂ (h₁.afterAdopt_inr hsound₁.wf hcondemned hanswer)
                (hrest w₂ scan' hanswer) ha

/-- A batch of headers. -/
theorem Tidy.ingestHeaders [PowVerifier] (h : w.Tidy) {Own : HeaderIndex → Staged → Prop}
    (hsound : w.Sound D) {source : SourceId} {raws : List RawHeader} (now monoMs : Nat)
    (solicitation : Solicitation)
    (hrule : ∀ ctx : IngestCtx, ctx.params = w.chain.params →
      ctx.genesisTime = w.chain.genesisTime → StagingRule D ctx Own)
    (hraws : ∀ raw ∈ raws, raw ∈ D.raws)
    (hown : ∀ t ∈ w.chain.ingest.stagedOf source, ∀ raw ∈ raws,
      t.hdr.hash = (Header.ofRaw raw).prevHash → Own w.chain.index t) :
    (w.ingestHeaders now monoMs source raws solicitation).2.Tidy := by
  obtain ⟨hsound', hstays, -⟩ :=
    hsound.ingestHeaders now monoMs solicitation hrule hraws hown
  have hkept : (w.ingestHeaders now monoMs source raws solicitation).2.chain.bodies =
        w.chain.bodies ∧
      w.chain.index.nodes <+:
        (w.ingestHeaders now monoMs source raws solicitation).2.chain.index.nodes := by
    unfold World.ingestHeaders
    dsimp only
    split
    · exact ⟨rfl, List.prefix_rfl⟩
    split
    · exact ⟨rfl, List.prefix_rfl⟩
    generalize IngestCtx.mk _ _ _ _ _ _ _ _ _ _ = ctx
    have hprefix := prefix_submitHeaders w.store w.chain.ingest w.chain.index ctx source raws
    split <;> exact ⟨rfl, hprefix⟩
  refine h.takes hsound.wf hsound'.wf hstays (fun i hi ↦ ?_) hkept.1
  rw [HeaderIndex.node_eq_of_prefix hkept.2 hi]

omit [Sink σ] [HeaderStore σ] in
/-- A header that is put back from the store goes behind the nodes that are there. -/
theorem node_admitStored {index index' : HeaderIndex} {s : σ} {params : ChainParams}
    {r : HeaderRec} {idx : Nat} (hnew : index.indexOf r.hash = none)
    (h : admitStored s params index r = some (idx, index')) :
    idx = index.nodes.length ∧ index'.indexOf r.hash = some idx ∧
      ∀ i < index.nodes.length, index'.node i = index.node i := by
  simp only [admitStored, Option.bind_eq_bind, Option.bind_eq_some_iff] at h
  obtain ⟨parent, -, h⟩ := h
  split at h
  case isFalse => cases h
  case isTrue =>
    simp only [Option.bind_eq_some_iff] at h
    obtain ⟨work, -, cum, -, h⟩ := h
    have hprefix := index.prefix_insert r parent cum true
    have hself := index.indexOf_insert_self r parent cum true
    rw [HeaderIndex.insert_of_new _ _ _ _ _ hnew] at h hprefix hself
    cases h
    split
    · refine ⟨rfl, hself, fun i hi ↦ ?_⟩
      rw [HeaderIndex.setInvalidFlag, HeaderIndex.node_modify, if_neg fun heq ↦ hi.ne heq.1]
      exact HeaderIndex.node_eq_of_prefix hprefix hi
    · exact ⟨rfl, hself, fun i hi ↦ HeaderIndex.node_eq_of_prefix hprefix hi⟩

/-- The block that a body is for, in an arena that it may have been put back into. -/
theorem Sound.found (hsound : w.Sound D) {hash : Hash32} {idx : Nat} {index : HeaderIndex}
    (hfound : (match w.chain.index.indexOf hash with
      | some i => some (i, w.chain.index)
      | none => w.chain.readmitPersistedHeader w.store hash) = some (idx, index)) :
    index.Wf D ∧ w.chain.index.Grows index ∧ index.canonical = w.chain.index.canonical ∧
      index.indexOf hash = some idx ∧
      (w.chain.index.indexOf hash = some idx ∨ idx ∉ index.canonical) ∧
      ∀ i < w.chain.index.nodes.length, index.node i = w.chain.index.node i := by
  cases hold : w.chain.index.indexOf hash with
  | some i =>
    rw [hold] at hfound
    cases hfound
    exact ⟨hsound.wf, .refl _, rfl, hold, .inl rfl, fun _ _ ↦ rfl⟩
  | none =>
    rw [hold] at hfound
    simp only [Manager.readmitPersistedHeader, Option.bind_eq_bind,
      Option.bind_eq_some_iff] at hfound
    obtain ⟨r, hr, hfound⟩ := hfound
    split at hfound
    case isFalse => cases hfound
    case isTrue hhash =>
      subst hhash
      obtain ⟨hwf, hg, hcan⟩ := wf_admitStored hsound.wf hsound.powLimit
        (hsound.store (HeaderStore.headerByHash hr)) hfound
      obtain ⟨rfl, hself, hnodes⟩ := node_admitStored hold hfound
      refine ⟨hwf, hg, hcan, hself, .inr fun hmem ↦ ?_, hnodes⟩
      rw [hcan] at hmem
      exact absurd (hsound.wf.shape.lt_of_mem hsound.wf.canonical hsound.wf.tip_lt hmem)
        (lt_irrefl _)

/-- A body. -/
theorem Tidy.submitBlock (h : w.Tidy) (hsound : w.Sound D) {hash : Hash32} {body : Bytes}
    (hreleases : w.Releases (.submitBlock hash body)) : (w.submitBlock hash body).2.Tidy := by
  unfold World.submitBlock
  dsimp only
  split
  · exact h
  split
  case h_1 => exact h
  case h_2 idx index hfound =>
    obtain ⟨hwf, hg, hcan, hself, hside, hnodes⟩ := hsound.found hfound
    have hgrown : Tidy { w with chain := { w.chain with index } } :=
      h.takes hsound.wf hwf ⟨hg, hcan, rfl, rfl⟩ (fun i hi ↦ by rw [hnodes i hi]) rfl
    split
    · exact hgrown
    rename_i hvalid
    split
    · exact hgrown
    rename_i hmissing
    split
    · exact hgrown
    · rename_i hfits
      obtain ⟨-, hvalid⟩ := not_or.mp hvalid
      have hinvalid (i : Nat) : ((index.setHaveBody idx).node i).invalid = (index.node i).invalid := by
        rw [HeaderIndex.setHaveBody, HeaderIndex.node_modify]
        split <;> rfl
      -- The block of the body is not canonical, or its stored body would have been found.
      have hoff : idx ∉ index.canonical := by
        rcases hside with hold | hoff
        · intro hmem
          refine hmissing (hreleases idx hold (hsound.wf.isCanonical_iff.mpr ?_))
          rwa [← hcan]
        · exact hoff
      intro held hmem
      rcases (AList.mem_insert _).mp hmem with rfl | hmem
      · refine ⟨idx, hself, Bool.eq_false_iff.mpr fun hcan' ↦ ?_, ?_⟩
        · exact hoff ((hwf.setHaveBody idx).isCanonical_iff.mp hcan')
        · exact (hinvalid idx).trans (Bool.eq_false_iff.mpr hvalid)
      · exact (hgrown held hmem).mono hwf (hwf.setHaveBody idx) (index.grows_setHaveBody idx)
          fun i _ _ hoff hvalid ↦ ⟨hoff, (hinvalid i).trans hvalid⟩

theorem Tidy.advance {now : Nat} {result : Except Reject Progress} (h : w.Tidy)
    (hsound : w.Sound D) (hreleases : w.Releases (.advance now))
    (ha : w.advance now = some (result, w')) : w'.Tidy := by
  unfold World.advance at ha
  split at ha
  · cases ha
    exact h
  · rename_i hrunning
    exact h.advanceLoop hsound (hreleases hrunning) ha

/-- An operation that puts no body in for a canonical block, and condemns none that is held, keeps
a world tidy. -/
theorem Tidy.exec [PowVerifier] (h : w.Tidy) {Own : HeaderIndex → Staged → Prop}
    (hsound : w.Sound D)
    (hrule : ∀ ctx : IngestCtx, ctx.params = w.chain.params →
      ctx.genesisTime = w.chain.genesisTime → StagingRule D ctx Own)
    {op : Op} (hraws : ∀ raw ∈ op.raws, raw ∈ D.raws) (hfresh : op.Fresh Own w)
    (hreleases : w.Releases op) (he : op.exec w = some w') : w'.Tidy := by
  cases op with
  | submitHeaders now monoMs source raws solicitation =>
    cases he
    exact h.ingestHeaders hsound now monoMs solicitation hrule hraws hfresh
  | submitBlock hash body =>
    cases he
    exact h.submitBlock hsound hreleases
  | advance now =>
    obtain ⟨⟨result, out⟩, ha, rfl⟩ := Option.map_eq_some_iff.mp he
    exact h.advance hsound hreleases ha
  | submitTx now monoMs origin raw =>
    cases he
    refine h.congr ?_ ?_
    all_goals
      unfold World.submitTx
      dsimp only
      split
      · rfl
      · split <;> rfl
  | submitCheckpoint cp =>
    obtain ⟨⟨report, out⟩, hc, rfl⟩ := Option.map_eq_some_iff.mp he
    simp only [World.submitCheckpoint, Option.bind_eq_bind, Option.bind_eq_some_iff,
      Prod.exists] at hc
    obtain ⟨report', cps, -, hc⟩ := hc
    cases hc
    exact h.congr rfl rfl
  | loadAnchor cp =>
    cases he
    exact h.congr rfl rfl
  | forgetSource source =>
    cases he
    exact h.congr rfl rfl

end World

/-! ## Runs -/

variable {σ : Type} [Store σ] [Sink σ] [HeaderStore σ] [PowVerifier] {params : ChainParams}
  {H : Headers}

/-- Where every operation releases what it condemns, the bodies held are those of blocks that can
still be adopted. -/
theorem bodies_released (hlimit : params.powLimit = H.powLimit) {w : World σ}
    (h : Reachable H.free params World.Releases w) : w.Tidy := by
  have hrule : ∀ ctx, StagingRule H.free ctx fun _ _ ↦ True := Headers.stagingRule_free
  induction h with
  | boot hs hm =>
    intro hash hmem
    simp only [Manager.new, Except.bind_eq_ok, Prod.exists] at hm
    obtain ⟨-, -, time, index, ledger, -, heq⟩ := hm
    cases heq
    exact absurd hmem (AList.notMem_empty hash)
  | step h hraws hreleases he ih =>
    obtain ⟨hsound, -, -⟩ := h.sound hlimit (fun ctx _ _ ↦ hrule ctx)
      fun w op _ _ _ ↦ op.fresh_true w
    exact ih.exec hsound (fun ctx _ _ ↦ hrule ctx) hraws (Op.fresh_true _ _) hreleases he

end

namespace Scene

/-- The first block, with a body that is not its own. -/
def wrongBodyOps : List Op :=
  [deliver [first], .submitBlock firstHash [], .advance 1000200]

theorem raws_wrongBodyOps : ∀ op ∈ wrongBodyOps, ∀ raw ∈ op.raws, raw ∈ raws := by
  simp [wrongBodyOps, deliver, Op.raws, raws]

theorem run_wrongBodyOps : letI := crypto
    (run params wrongBodyOps).map (fun w ↦ (decide (firstHash ∈ w.chain.bodies),
      w.chain.index.indexOf firstHash, (w.chain.index.node 1).invalid)) =
      some (true, some 1, true) := by decide +kernel

theorem run_deliver_first : letI := crypto
    (run params [deliver [first]]).map (fun w ↦ (w.chain.index.indexOf firstHash,
      w.chain.index.isCanonical 1, decide (firstHash ∈ (w.submitBlock firstHash body).2.chain.bodies))) =
      some (some 1, false, true) := by decide +kernel

end Scene

/-- The body of a block that was condemned stays. -/
theorem condemned_body_held :
    letI := Scene.crypto
    letI := Scene.pow
    ∃ w : World MemStore, Reachable Scene.headers.free Scene.params (fun _ _ ↦ True) w ∧
      ¬w.Tidy := by
  let _ := Scene.crypto
  let _ := Scene.pow
  obtain ⟨w, hw, hout⟩ := Option.map_eq_some_iff.mp Scene.run_wrongBodyOps
  refine ⟨w, Scene.reachable_run rfl rfl Scene.raws_wrongBodyOps hw, fun htidy ↦ ?_⟩
  simp only [Prod.mk.injEq, decide_eq_true_eq] at hout
  obtain ⟨hheld, hfound, hinvalid⟩ := hout
  obtain ⟨i, hi, -, hvalid⟩ := htidy _ hheld
  rw [hfound] at hi
  cases hi
  rw [hinvalid] at hvalid
  cases hvalid

/-- The body of the first block is held until it is adopted. -/
theorem bodies_released_sample :
    letI := Scene.crypto
    letI := Scene.pow
    ∃ w : World MemStore, Scene.firstHash ∈ w.chain.bodies ∧ w.Tidy := by
  let _ := Scene.crypto
  let _ := Scene.pow
  obtain ⟨w, hw, hout⟩ := Option.map_eq_some_iff.mp Scene.run_deliver_first
  simp only [Prod.mk.injEq, decide_eq_true_eq] at hout
  obtain ⟨hfound, hside, hheld⟩ := hout
  obtain ⟨w₀, hboot, hrun⟩ := Option.bind_eq_some_iff.mp hw
  have he : (Scene.deliver [Scene.first]).exec w₀ = some w := by simpa using hrun
  obtain ⟨hs, hm⟩ := Scene.boots (D := Scene.headers.free) rfl rfl hboot
  have hstart : Reachable Scene.headers.free Scene.params World.Releases w₀ :=
    .boot hs hm
  have hdelivered : Reachable Scene.headers.free Scene.params World.Releases w := by
    have hreleases : w₀.Releases (Scene.deliver [Scene.first]) := trivial
    refine hstart.step (fun raw hraw ↦ ?_) hreleases he
    obtain rfl := List.mem_singleton.mp hraw
    exact List.mem_cons_of_mem _ List.mem_cons_self
  have hreleases : w.Releases (.submitBlock Scene.firstHash Scene.body) := by
    intro i hi hcan
    obtain rfl : 1 = i := Option.some.inj (hfound.symm.trans hi)
    rw [hside] at hcan
    cases hcan
  exact ⟨_, hheld, bodies_released rfl (hdelivered.step (by simp [Op.raws]) hreleases rfl)⟩

end Plaine.Chain

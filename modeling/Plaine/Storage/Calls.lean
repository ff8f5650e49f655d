import Plaine.Storage.Growth

/-!
# Runs of the committer

The calls the node makes of a store, and the canonical chain they leave.  A call fits a chain
when its blocks do, in the order they are applied in.  What a view shows follows the chain over
every call but a deep reorg, whose checkpoint has to be looked at first.
-/

namespace Plaine.Storage

open Plaine.Lib Plaine.Consensus

section

variable [Crypto]

/-! ## Views that show a chain -/

theorem Shows.congr {t t' : Tables} {m m' : Meta} {bs : List BlockToCommit} (h : Shows t m bs)
    (hstate : t'.state = t.state) (hundo : t'.undo = t.undo)
    (hfp : m'.fingerprint = m.fingerprint) (hissued : m'.issued = m.issued) : Shows t' m' bs :=
  ⟨hstate ▸ h.rows, by rw [hfp, hstate, h.fingerprint], hissued.trans h.issued, hundo ▸ h.undo⟩

/-- What tables show can be read off their view. -/
theorem Shows.of_view {t t' : Tables} {m m' : Meta} {bs : List BlockToCommit} (h : Shows t m bs)
    (hview : t'.view m' = t.view m) : Shows t' m' bs :=
  h.congr (congrArg View.state hview) (congrArg View.undo hview)
    (congrArg (·.core.fingerprint) hview) (congrArg (·.core.issued) hview)

/-- A view that shows a chain. -/
structure Shown (v : View) (bs : List BlockToCommit) : Prop where
  shows : ∀ t m, t.view m = v → Shows t m bs
  hdrWatermark : v.core.hdrWatermark = bs.length
  height : v.core.tip.height = bs.length - 1

/-- Blocks that fit a chain, each as its turn comes. -/
def Fitting (bs blocks : List BlockToCommit) : Prop :=
  ∀ done b, done ++ [b] <+: blocks → IsChain (bs ++ done) →
    b.height = (bs ++ done).length → b.Fits (stateOf (bs ++ done))

variable {cfg : StoreConfig} {v v' : View} {bs blocks done : List BlockToCommit} {b : BlockToCommit}

omit [Crypto] in
theorem Fitting.of_prefix (h : Fitting bs blocks) (hpre : done <+: blocks) : Fitting bs done :=
  fun d b hd ↦ h d b (hd.trans hpre)

omit [Crypto] in
theorem Fitting.nil : Fitting bs [] := fun done b hd ↦ by simp at hd

omit [Crypto] in
theorem Fitting.cons (hb : b.height = bs.length → b.Fits (stateOf bs))
    (h : Fitting (bs ++ [b]) blocks) : Fitting bs (b :: blocks) := by
  intro done c hpre hchain hheight
  cases done with
  | nil =>
    rw [List.nil_append, List.cons_prefix_cons] at hpre
    rw [List.append_nil] at hheight ⊢
    exact hpre.1 ▸ hb (hpre.1 ▸ hheight)
  | cons d done =>
    rw [List.cons_append, List.cons_prefix_cons] at hpre
    obtain ⟨rfl, hpre⟩ := hpre
    rw [List.append_cons] at hchain hheight ⊢
    exact h done c hpre hchain hheight

/-- What a block changes in the core and in the undo rows. -/
theorem AppliesOne.spec (h : AppliesOne cfg b v v') :
    v'.core.tip = ⟨b.hash, b.height, b.chainwork⟩ ∧ v'.core.hdrWatermark = b.height + 1 ∧
      v'.core.undoFloor = b.height + 1 - undoRing ∧
      ∀ k, v'.undo.lookup k = if k = b.height then some (encodeUndo b.undo b.issuedDelta)
        else if k + undoRing = b.height then none else v.undo.lookup k := by
  obtain ⟨readHeader, t, m, t', m', rfl, rfl, hinputs, happ⟩ := h
  obtain ⟨_, _, _, _, _, heq, -, -⟩ := applyBlock_eq readHeader cfg t m
    (Committer.aligned_of_checkBlockInputs hinputs)
  rw [happ] at heq
  cases heq
  exact ⟨rfl, rfl, rfl, lookup_putUndo b t⟩

/-- A block that fits leads from a chain shown to a chain shown. -/
theorem Shown.appliesOne (h : Shown v bs) (hheight : b.height = bs.length)
    (hb : b.Fits (stateOf bs)) (happ : AppliesOne cfg b v v') : Shown v' (bs ++ [b]) := by
  obtain ⟨htip, hwm, -, -⟩ := happ.spec
  obtain ⟨readHeader, t, m, t', m', hv, rfl, -, happ⟩ := happ
  refine ⟨fun t₁ m₁ hview ↦ ((h.shows t m hv).apply hheight hb happ).of_view hview, ?_, ?_⟩
  · rw [hwm, hheight, List.length_append, List.length_singleton]
  · rw [htip, List.length_append, List.length_singleton, Nat.add_sub_cancel, hheight]

/-- A branch that fits leads from a chain shown to a chain shown. -/
theorem Shown.applied (hchain : IsChain bs) (h : Shown v bs) (hfit : Fitting bs blocks)
    (hheight : ∀ done b, done ++ [b] <+: blocks → b.height = (bs ++ done).length)
    (happ : Applied cfg v blocks v') : IsChain (bs ++ blocks) ∧ Shown v' (bs ++ blocks) := by
  induction happ with
  | nil => exact (List.append_nil bs).symm ▸ ⟨hchain, h⟩
  | @snoc blocks b v' v'' _ hone ih =>
    obtain ⟨hchain', hshown⟩ := ih (hfit.of_prefix (List.prefix_append _ _))
      fun d c hd ↦ hheight d c (hd.trans (List.prefix_append _ _))
    have hb := hfit blocks b List.prefix_rfl hchain' (hheight blocks b List.prefix_rfl)
    rw [← List.append_assoc]
    exact ⟨hchain'.concat (hheight blocks b List.prefix_rfl) hb,
      hshown.appliesOne (hheight blocks b List.prefix_rfl) hb hone⟩

/-- Blocks that fit and are extended by lead from a chain shown to a chain shown, and what is
committed shows a chain on the way. -/
theorem Shown.grows {db db' : Db} (hchain : IsChain bs) (h : Shown v bs)
    (hfit : Fitting bs blocks) (hgrows : Grows cfg v db blocks v' db')
    (hdb : ∃ v₀ bs₀, db.tables.settled = some v₀ ∧ bs₀ <+: bs ∧ Shown v₀ bs₀) :
    IsChain (bs ++ blocks) ∧ Shown v' (bs ++ blocks) ∧
      ∃ v₀ bs₀, db'.tables.settled = some v₀ ∧ bs₀ <+: bs ++ blocks ∧ Shown v₀ bs₀ := by
  induction hgrows with
  | refl => exact (List.append_nil bs).symm ▸ ⟨hchain, h, hdb⟩
  | @block blocks b v' v'' db' _ hheight hone ih =>
    obtain ⟨hchain', hshown, v₀, bs₀, hsettled, hpre, hshown₀⟩ :=
      ih (hfit.of_prefix (List.prefix_append _ _))
    rw [hshown.hdrWatermark] at hheight
    have hb := hfit blocks b List.prefix_rfl hchain' hheight
    rw [← List.append_assoc]
    exact ⟨hchain'.concat hheight hb, hshown.appliesOne hheight hb hone, v₀, bs₀, hsettled,
      hpre.trans (List.prefix_append _ _), hshown₀⟩
  | commit _ hsettled _ ih =>
    obtain ⟨hchain', hshown, -⟩ := ih hfit
    exact ⟨hchain', hshown, _, _, hsettled, List.prefix_rfl, hshown⟩
  | upkeep _ hsettled hup ih =>
    obtain ⟨hchain', hshown, -⟩ := ih hfit
    exact ⟨hchain', hshown, _, _, hup.settled.trans hsettled, List.prefix_rfl, hshown⟩

/-! ## Reorgs -/

/-- The heights a plan says it rolls back are those above its fork: what the callers pass. -/
def ReorgPlan.Whole (plan : ReorgPlan) (bs : List BlockToCommit) : Prop :=
  plan.rollback = heightsDown (plan.forkHeight + 1) (bs.length - (plan.forkHeight + 1))

/-- What a plan that is checked says of its heights. -/
structure PlanFacts (plan : ReorgPlan) (tip undoFloor : Nat) : Prop where
  depth : plan.rollback.length ≤ maxReorgDepth
  fork_le : plan.forkHeight ≤ tip
  rolled : plan.rollback = [] → plan.forkHeight = tip
  top : plan.rollback ≠ [] → plan.rollback.head? = some tip
  floor : plan.rollback ≠ [] → undoFloor ≤ plan.forkHeight + 1
  nonempty : plan.apply ≠ []
  height : ∀ done b, done ++ [b] <+: plan.apply → b.height = plan.forkHeight + 1 + done.length

omit [Crypto] in
theorem planFacts {m : Meta} {replayFloor : Nat} {plan : ReorgPlan}
    (h : Committer.checkPlan m replayFloor plan = .ok ()) :
    PlanFacts plan m.tip.height m.undoFloor := by
  unfold Committer.checkPlan Committer.checkRollback at h
  simp only [Except.bind_eq_ok, Except.require_eq_ok] at h
  obtain ⟨_, hdepth, _, hdesc, _, hends, _, hhead, happly⟩ := h
  refine ⟨hdepth, ?_, fun hnil ↦ ?_, fun hne ↦ ?_, fun hne ↦ ?_, fun hnil ↦ ?_, ?_⟩
  · cases hroll : plan.rollback with
    | nil =>
      rw [hroll] at hends
      simp only [List.getLast?_nil, Except.require_eq_ok] at hends
      exact hends.le
    | cons top rest =>
      rw [hroll] at hends hdesc
      rw [List.getLast?_eq_some_getLast (List.cons_ne_nil _ _)] at hends
      simp only [Except.bind_eq_ok, Except.require_eq_ok] at hends
      obtain ⟨_, ⟨hlowest, htop⟩, -⟩ := hends
      obtain rfl : top = m.tip.height := Option.some.inj htop
      rcases List.mem_cons.mp (List.getLast_mem (List.cons_ne_nil m.tip.height rest)) with heq | hmem
      · exact (Nat.le_succ _).trans (hlowest.symm.trans heq).le
      · have hlt := List.rel_of_pairwise_cons hdesc.pairwise hmem
        omega
  · rw [hnil] at hends
    simpa only [List.getLast?_nil, Except.require_eq_ok] using hends
  · rw [List.getLast?_eq_some_getLast hne] at hends
    simp only [Except.bind_eq_ok, Except.require_eq_ok] at hends
    exact hends.choose_spec.1.2
  · rw [List.getLast?_eq_some_getLast hne] at hends
    simp only [Except.bind_eq_ok, Except.require_eq_ok] at hends
    obtain ⟨_, ⟨hlowest, -⟩, hfloor⟩ := hends
    exact hlowest ▸ hfloor
  · rw [hnil] at hhead
    cases hhead
  · rintro done b ⟨rest, hrest⟩
    have hmem : (b, done.length) ∈ plan.apply.zipIdx := by
      rw [List.mem_zipIdx_iff_getElem?, ← hrest, List.append_assoc,
        List.getElem?_append_right le_rfl, Nat.sub_self]
      rfl
    have := List.forM_eq_ok.mp happly _ hmem
    simp only [Except.bind_eq_ok, Except.require_eq_ok] at this
    obtain ⟨_, hheight, -⟩ := this
    exact hheight

/-- A plan that goes through forks at a height of the chain, passes its checks, and unwinds to
the chain up to the fork before it applies its branch. -/
theorem Reorged.fork {plan : ReorgPlan} (hchain : IsChain bs) (h : Shown v bs) (hne : bs ≠ [])
    (hwhole : plan.Whole bs) (hre : Reorged cfg plan v v') :
    plan.forkHeight + 1 ≤ bs.length ∧ PlanFacts plan (bs.length - 1) v.core.undoFloor ∧
      ∃ t m t₁ m₁, t.view m = v ∧ rollbackHeights plan.rollback t m = (.ok t₁, m₁) ∧
        Shows t₁ m₁ (bs.take (plan.forkHeight + 1)) ∧
        Applied cfg ((t₁.view m₁).rewound plan.forkHeight) plan.apply v' := by
  obtain ⟨m₀, replayFloor, hcore₀, hchecked⟩ := hre.checked
  have htip : m₀.tip.height = bs.length - 1 := by
    rw [← h.height]
    exact congrArg (·.tip.height) hcore₀
  have hfacts : PlanFacts plan (bs.length - 1) v.core.undoFloor := by
    rw [← htip, ← hcore₀]
    exact planFacts hchecked
  have hpos : 0 < bs.length := List.length_pos_iff.mpr hne
  have hle : plan.forkHeight + 1 ≤ bs.length := by
    rcases Nat.lt_or_ge bs.length (plan.forkHeight + 1) with hlt | hge
    · have hnil : plan.rollback = [] := by
        rw [hwhole, Nat.sub_eq_zero_of_le hlt.le, heightsDown_zero]
      have := hfacts.rolled hnil
      omega
    · exact hge
  have hlen : (bs.take (plan.forkHeight + 1)).length = plan.forkHeight + 1 :=
    List.length_take_of_le hle
  obtain ⟨t, m, t₁, m₁, hv, hroll, happ⟩ := hre.unwound
  refine ⟨hle, hfacts, t, m, t₁, m₁, hv, hroll, ?_, happ⟩
  refine Shows.rollbackHeights (t := t) (m := m) (l := bs.drop (plan.forkHeight + 1)) ?_ ?_ ?_
  · rwa [List.take_append_drop]
  · rw [List.take_append_drop]
    exact h.shows t m hv
  · rw [hlen, List.length_drop, ← hwhole]
    exact hroll

/-- A reorg leads from a chain shown to its part up to the fork with the branch on top. -/
theorem Shown.reorged {plan : ReorgPlan} (hchain : IsChain bs) (h : Shown v bs) (hne : bs ≠ [])
    (hwhole : plan.Whole bs) (hfit : Fitting (bs.take (plan.forkHeight + 1)) plan.apply)
    (hre : Reorged cfg plan v v') :
    IsChain (bs.take (plan.forkHeight + 1) ++ plan.apply) ∧
      Shown v' (bs.take (plan.forkHeight + 1) ++ plan.apply) := by
  obtain ⟨hle, hfacts, t, m, t₁, m₁, -, -, hshows, happ⟩ := hre.fork hchain h hne hwhole
  have hlen : (bs.take (plan.forkHeight + 1)).length = plan.forkHeight + 1 :=
    List.length_take_of_le hle
  have hshown : Shown ((t₁.view m₁).rewound plan.forkHeight)
      (bs.take (plan.forkHeight + 1)) := by
    refine ⟨fun t' m' hv' ↦ ?_, hlen.symm, ?_⟩
    · exact hshows.congr (congrArg View.state hv') (congrArg View.undo hv')
        (congrArg (·.core.fingerprint) hv') (congrArg (·.core.issued) hv')
    · rw [hlen]
      rfl
  refine Shown.applied (hchain.take _) hshown hfit (fun done b hd ↦ ?_) happ
  rw [List.length_append, hlen]
  exact hfacts.height done b hd

/-! ## Calls -/

/-- A call of the committer. -/
inductive Call where
  | extend (blocks : List BlockToCommit)
  | reorg (plan : ReorgPlan)
  | deepReorg (plan : DeepReorgPlan)
  | flush
  | setMode (mode : DurabilityMode)
  | pruneTo (floor : Nat)

namespace Call

/-- The method of the committer a call is of. -/
def run : Call → Op Unit
  | .extend blocks => Committer.extend blocks
  | .reorg plan => Committer.reorg plan
  | .deepReorg plan => Committer.deepReorg plan
  | .flush => Committer.flush
  | .setMode mode => Committer.setMode mode
  | .pruneTo floor => Committer.pruneTo floor

/-- A call whose blocks and undo rows match the state they meet.  Pruning by hand would wait
for ever for a transaction that is open. -/
def Fits (bs : List BlockToCommit) (c : Committer) : Call → Prop
  | .extend blocks => Fitting bs blocks
  | .reorg plan =>
    bs ≠ [] ∧ plan.Whole bs ∧ Fitting (bs.take (plan.forkHeight + 1)) plan.apply
  | .deepReorg plan => Fitting (bs.take (plan.rewindTo + 1)) (plan.replay ++ plan.apply)
  | .pruneTo _ => c.txn = none
  | .flush | .setMode _ => True

/-- A call that restores no checkpoint. -/
def Shallow : Call → Prop
  | .deepReorg _ => False
  | _ => True

/-- The chain a call leaves that is not refused.  An extend may stop after some of its
blocks. -/
def left (bs : List BlockToCommit) (c : Committer) : Call → List BlockToCommit
  | .extend blocks => (bs ++ blocks).take (Committer.extend blocks c).state.info.hdrWatermark
  | .reorg plan =>
    match (Committer.reorg plan c).result with
    | .ok _ => bs.take (plan.forkHeight + 1) ++ plan.apply
    | .error _ => bs
  | .deepReorg plan =>
    match (Committer.restoreCheckpoint plan c).result with
    | .ok _ => (bs.take (plan.rewindTo + 1) ++ (plan.replay ++ plan.apply)).take
        (Committer.deepReorg plan c).state.info.hdrWatermark
    | .error _ => bs
  | .flush | .setMode _ | .pruneTo _ => bs

/-- The chain a call leaves. -/
def chain (bs : List BlockToCommit) (c : Committer) (call : Call) : List BlockToCommit :=
  if c.poisoned then bs else call.left bs c

end Call

/-- What `open` makes of an empty directory. -/
def Committer.fresh (cfg : StoreConfig) : Committer where
  disk := { Disk.empty with
    db := Db.empty.commit { Tables.empty with info := some (Meta.fresh 0 cfg.ibdBatchBlocks) } }
  cfg
  info := Meta.fresh 0 cfg.ibdBatchBlocks
  replayFloor := 0
  mode := .tip
  seg := none
  txn := none
  batchBlocks := 0
  batchBytes := 0
  dirtyHdr := false
  dirtyBody := false
  poisoned := false

/-- A committer reached from an empty directory by calls that fit, and its canonical chain.  `P`
restricts the calls. -/
inductive Reached (cfg : StoreConfig) (P : List BlockToCommit → Committer → Call → Prop) :
    Committer → List BlockToCommit → Prop
  | fresh : Reached cfg P (.fresh cfg) []
  | call {c : Committer} {bs : List BlockToCommit} {call : Call} : Reached cfg P c bs →
      call.Fits bs c → P bs c call → Reached cfg P (call.run c).state (call.chain bs c)

theorem Reached.mono {cfg : StoreConfig} {P Q : List BlockToCommit → Committer → Call → Prop}
    (hPQ : ∀ bs c call, P bs c call → Q bs c call) {c : Committer} {bs : List BlockToCommit}
    (h : Reached cfg P c bs) : Reached cfg Q c bs := by
  induction h with
  | fresh => exact .fresh
  | call _ hfit hP ih => exact .call ih hfit (hPQ _ _ _ hP)

/-- A poisoned committer refuses every call and stays as it is. -/
theorem Call.state_of_poisoned (call : Call) {c : Committer} (hc : c.poisoned = true) :
    (call.run c).state = c := by
  have hguard : ∀ {α : Type} (f : Unit → Op α) (Q : α → Committer → Prop),
      (Committer.guard >>= f).wp (fun _ ↦ True) Q (fun _ c' ↦ c' = c) c := by
    intro α f Q
    simp [Committer.guard, hc]
  have h : call.run.wp (fun _ ↦ True) (fun _ c' ↦ c' = c) (fun _ c' ↦ c' = c) c := by
    cases call with
    | extend blocks => exact hguard _ _
    | reorg plan => exact hguard _ _
    | deepReorg plan => exact Prog.wp_bind.mpr (hguard _ _)
    | flush => exact hguard _ _
    | setMode mode =>
      refine Prog.wp_bind.mpr (Prog.wp_peek.mpr (Prog.wp_ite.mpr ⟨fun _ ↦ ?_, fun _ ↦ ?_⟩))
      · exact Prog.wp_bind.mpr (hguard _ _)
      · exact Prog.wp_pure.mpr rfl
    | pruneTo floor => exact hguard _ _
  rcases h.cases with ⟨_, -, h⟩ | ⟨_, -, h⟩
  · exact h
  · exact h

/-- A committer that did a reorg was not poisoned. -/
theorem Committer.poisoned_of_reorg {c : Committer} {plan : ReorgPlan}
    (h : (Committer.reorg plan c).result.isOk = true) : c.poisoned = false := by
  by_contra hpois
  have hrefused : (Committer.reorg plan).wp (fun _ ↦ True) (fun _ _ ↦ False) (fun _ _ ↦ True) c := by
    simp [Committer.reorg, Committer.guard, hpois]
  rcases hrefused.cases with ⟨_, -, hfalse⟩ | ⟨e, hres, -⟩
  · exact hfalse
  · rw [hres] at h
    cases h

/-- A committer that may go on, and the chain it has. -/
structure Live (c : Committer) (bs : List BlockToCommit) : Prop where
  tidy : c.Tidy
  chain : IsChain bs
  shown : Shown c.view bs
  stored : ∃ v bs₀, c.disk.db.tables.settled = some v ∧ bs₀ <+: bs ∧ Shown v bs₀

/-- A committer whose database shows a chain, and that has the chain `bs` while it may go on. -/
structure Held (c : Committer) (bs : List BlockToCommit) : Prop where
  stored : ∃ v bs₀, c.disk.db.tables.settled = some v ∧ IsChain bs₀ ∧ Shown v bs₀
  live : c.poisoned = false → Live c bs

theorem Live.held {c : Committer} {bs : List BlockToCommit} (h : Live c bs) : Held c bs where
  stored := by
    obtain ⟨v, bs₀, hsettled, hpre, hshown⟩ := h.stored
    rw [List.prefix_iff_eq_take] at hpre
    exact ⟨v, bs₀, hsettled, hpre ▸ h.chain.take _, hshown⟩
  live _ := h

theorem held_fresh (cfg : StoreConfig) : Held (.fresh cfg) [] := by
  have hshown : Shown (Committer.fresh cfg).view [] := by
    refine ⟨fun t m hview ↦ ?_, rfl, rfl⟩
    have hstate : t.state = ∅ := congrArg View.state hview
    have hundo : t.undo = ∅ := congrArg View.undo hview
    refine ⟨?_, ?_, congrArg (·.core.issued) hview, ?_⟩
    · rw [hstate]
      rfl
    · rw [hstate]
      exact congrArg (·.core.fingerprint) hview
    · rw [hundo]
      rintro h blob ⟨⟩
  refine Live.held ⟨⟨fun _ ↦ ⟨_, rfl, rfl⟩, rfl, rfl⟩, .nil, hshown, ?_⟩
  exact ⟨_, [], rfl, List.prefix_rfl, hshown⟩

/-- Extending keeps a committer and its chain together. -/
theorem Live.grown {c c' : Committer} {bs blocks : List BlockToCommit} (h : Live c bs)
    (hfit : Fitting bs blocks) (hgrown : c.Grown blocks c') : Live c' (bs ++ blocks) := by
  obtain ⟨hchain, hshown, hstored⟩ := Shown.grows h.chain h.shown hfit hgrown.grows h.stored
  exact ⟨hgrown.tidy, hchain, hshown, hstored⟩

/-- A reorg keeps what is committed and its chain together. -/
theorem Live.reorgs {c : Committer} {bs : List BlockToCommit} {plan : ReorgPlan} (h : Live c bs)
    (hfit : Call.Fits bs c (.reorg plan)) {v' : View} {db' : Db}
    {flushed : Db}
    (hre : Reorgs c.cfg plan c.view c.disk.db flushed v' db') :
    IsChain (bs.take (plan.forkHeight + 1) ++ plan.apply) ∧
      Shown v' (bs.take (plan.forkHeight + 1) ++ plan.apply) ∧ db'.tables.settled = some v' := by
  obtain ⟨hne, hwhole, hfit⟩ := hfit
  cases hre with
  | intro _ _ _ _ hre hsettled _ hup =>
    obtain ⟨hchain, hshown⟩ := Shown.reorged h.chain h.shown hne hwhole hfit hre
    exact ⟨hchain, hshown, hup.settled.trans hsettled⟩

/-- An extend that stopped has come as far as its watermark says. -/
theorem Live.take_extended {c : Committer} {bs blocks done : List BlockToCommit}
    (h : Live c (bs ++ done)) (hpre : done <+: blocks) :
    (bs ++ blocks).take c.info.hdrWatermark = bs ++ done := by
  have hwm : c.info.hdrWatermark = (bs ++ done).length := h.shown.hdrWatermark
  rw [hwm]
  exact (List.prefix_iff_eq_take.mp ((List.prefix_append_right_inj bs).mpr hpre)).symm

/-- The blocks a call extends by. -/
def Call.extended : Call → List BlockToCommit
  | .extend blocks => blocks
  | _ => []

omit [Crypto] in
theorem Call.Fits.extended {call : Call} {c : Committer} {bs : List BlockToCommit}
    (h : call.Fits bs c) : Fitting bs call.extended := by
  cases call with
  | extend blocks => exact h
  | reorg _ | deepReorg _ | flush | setMode _ | pruneTo _ => exact .nil

omit [Crypto] in
theorem Call.Fits.atRest {call : Call} {c : Committer} {bs : List BlockToCommit}
    (h : call.Fits bs c) : ∀ floor, call = .pruneTo floor → c.txn = none := by
  rintro floor rfl
  exact h

/-- What a call that restores no checkpoint does: it extends, as far as it gets; it reorganises;
or it fails in the middle of a reorg, before the commit or after it. -/
inductive Effect (c : Committer) (call : Call) : Except StoreError Unit → Committer → Prop
  | grown {r : Except StoreError Unit} {c' : Committer} {done : List BlockToCommit} :
      done <+: call.extended → (r.isOk → done = call.extended) →
      (∀ plan, call = .reorg plan → ∃ e, r = .error e) → c.Grown done c' → Effect c call r c'
  | reorg {c' : Committer} {plan : ReorgPlan} : call = .reorg plan → c'.Tidy →
      Reorgs c.cfg plan c.view c.disk.db c.flushed c'.view c'.disk.db →
      Effect c call (.ok ()) c'
  | failed {e : StoreError} {c' : Committer} {plan : ReorgPlan} : call = .reorg plan →
      c'.poisoned = true → c.ReorgTrail plan c'.disk.db → Effect c call (.error e) c'

/-- What a call does. -/
theorem Call.effect (call : Call) {c : Committer} (hc : c.Tidy)
    (hopen : ∀ floor, call = .pruneTo floor → c.txn = none) (hshallow : call.Shallow) :
    Effect c call (call.run c).result (call.run c).state := by
  have hidle : ∀ {c'}, call.extended = [] → (∀ plan, call ≠ .reorg plan) → c.Grown [] c' →
      ∀ {r}, Effect c call r c' := fun hnil hne hg _ ↦
    .grown (List.nil_prefix : [] <+: call.extended) (fun _ ↦ hnil.symm)
      (fun plan hplan ↦ absurd hplan (hne plan)) hg
  cases call with
  | extend blocks =>
    rcases (Committer.extend_spec hc blocks).cases with ⟨_, hres, hg, -⟩ |
      ⟨e, hres, done, hpre, hg⟩
    · exact .grown List.prefix_rfl (fun _ ↦ rfl) (fun _ h ↦ by cases h) hg
    · refine .grown hpre (fun hok ↦ ?_) (fun _ h ↦ by cases h) hg
      rw [show (Call.extend blocks).run c = Committer.extend blocks c from rfl, hres] at hok
      cases hok
  | reorg plan =>
    rcases (Committer.reorg_spec hc plan).cases with ⟨_, hres, hre, htidy, hcfg, -⟩ |
      ⟨e, hres, ⟨hg, -⟩ | ⟨hpois, -, htrail⟩⟩
    · rw [show ((Call.reorg plan).run c).result = .ok () from hres]
      exact .reorg rfl htidy hre
    · rw [show ((Call.reorg plan).run c).result = .error e from hres]
      exact .grown List.nil_prefix (fun _ ↦ rfl) (fun _ _ ↦ ⟨e, rfl⟩) hg
    · rw [show ((Call.reorg plan).run c).result = .error e from hres]
      exact .failed rfl hpois htrail
  | deepReorg plan => exact hshallow.elim
  | flush =>
    rcases (Committer.sealBatch_spec hc).cases with ⟨_, -, hs⟩ | ⟨_, -, hs, -⟩
    · exact hidle rfl (fun _ h ↦ by cases h) (hs.grown hc)
    · exact hidle rfl (fun _ h ↦ by cases h) ((congrArg (c.Grown []) hs).mpr ((refl_of Committer.Same c).grown hc))
  | setMode mode =>
    have hself : c.Grown [] c := (refl_of Committer.Same c).grown hc
    have hset : (Committer.setMode mode).wp (fun _ ↦ True) (fun _ ↦ c.Grown []) (fun _ ↦ c.Grown [])
        c := by
      refine Prog.wp_bind.mpr (Prog.wp_peek.mpr (Prog.wp_ite.mpr ⟨fun _ ↦ ?_, fun _ ↦
        Prog.wp_pure.mpr hself⟩))
      refine Prog.wp_bind.mpr ((Committer.sealBatch_spec hc).imp (fun _ _ ↦ trivial)
        (fun _ c' hs ↦ ?_) fun _ c' hs ↦ hs.1 ▸ hself)
      have hg := hs.grown hc
      exact Prog.wp_alter.mpr
        ⟨hg.grows, ⟨hg.tidy.stored, hg.tidy.stateCkpt, hg.tidy.replayFloor⟩, hg.cfg⟩
    rcases hset.cases with ⟨_, -, hg⟩ | ⟨_, -, hg⟩
    · exact hidle rfl (fun _ h ↦ by cases h) hg
    · exact hidle rfl (fun _ h ↦ by cases h) hg
  | pruneTo floor =>
    have hrest := hc.atRest (hopen floor rfl)
    rcases (Committer.tends_pruneTo floor c).cases with ⟨_, -, ht⟩ | ⟨_, -, ht, -⟩
    · exact hidle rfl (fun _ h ↦ by cases h) ((ht hrest).grown hrest)
    · exact hidle rfl (fun _ h ↦ by cases h) ((ht hrest).grown hrest)

/-- The chain a call leaves that has done nothing but extend. -/
theorem Live.left_of_grown {c : Committer} {bs done : List BlockToCommit} {call : Call}
    (h : Live (call.run c).state (bs ++ done)) (hshallow : call.Shallow)
    (hpre : done <+: call.extended)
    (hne : ∀ plan, call = .reorg plan → ∃ e, (call.run c).result = .error e) :
    call.left bs c = bs ++ done := by
  cases call with
  | extend blocks =>
    have hdone : done <+: blocks := hpre
    exact h.take_extended hdone
  | deepReorg plan => exact hshallow.elim
  | reorg plan =>
    obtain ⟨e, he⟩ := hne plan rfl
    rw [Call.left, show (Committer.reorg plan c).result = .error e from he,
      List.prefix_nil.mp hpre, List.append_nil]
  | flush | setMode _ | pruneTo _ =>
    rw [List.prefix_nil.mp hpre, List.append_nil]
    rfl

/-- A call that restores no checkpoint keeps a committer and its chain together; a reorg that
fails on the way leaves what is committed with the chain it had or the chain it was to have. -/
theorem Live.call {c : Committer} {bs : List BlockToCommit} {call : Call} (h : Live c bs)
    (hfit : call.Fits bs c) (hshallow : call.Shallow) :
    Live (call.run c).state (call.left bs c) ∨
      (call.run c).state.poisoned = true ∧ (∃ e, (call.run c).result = .error e) ∧
        ∃ v bs₀, (call.run c).state.disk.db.tables.settled = some v ∧ IsChain bs₀ ∧
          Shown v bs₀ := by
  have heffect := call.effect h.tidy hfit.atRest hshallow
  generalize hr : (call.run c).result = r at heffect
  generalize hc' : (call.run c).state = c' at heffect
  cases heffect with
  | @grown _ _ done hpre _ hne hg =>
    have hlive := h.grown (hfit.extended.of_prefix hpre) hg
    have hleft := Live.left_of_grown (hc'.symm ▸ hlive) hshallow hpre (hr.symm ▸ hne)
    exact .inl (hleft.symm ▸ hlive)
  | reorg hcall htidy hre =>
    subst hcall
    obtain ⟨hchain, hshown, hsettled⟩ := h.reorgs hfit hre
    rw [Call.left, show (Committer.reorg _ c).result = .ok () from hr]
    exact .inl ⟨htidy, hchain, hshown, _, _, hsettled, List.prefix_rfl, hshown⟩
  | @failed e _ plan hcall hpois htrail =>
    subst hcall
    refine .inr ⟨hpois, ⟨e, rfl⟩, ?_⟩
    rcases htrail with hg | ⟨v', hre⟩
    · obtain ⟨-, -, v₀, bs₀, hsettled, hpre, hshown⟩ :=
        Shown.grows h.chain h.shown .nil hg h.stored
      rw [List.append_nil] at hpre
      exact ⟨v₀, bs₀, hsettled, List.prefix_iff_eq_take.mp hpre ▸ h.chain.take _, hshown⟩
    · obtain ⟨hchain, hshown, hsettled⟩ := h.reorgs hfit hre
      exact ⟨v', _, hsettled, hchain, hshown⟩

/-- A call that restores no checkpoint keeps a committer and its chain together. -/
theorem Held.call {c : Committer} {bs : List BlockToCommit} {call : Call} (h : Held c bs)
    (hfit : call.Fits bs c) (hshallow : call.Shallow) :
    Held (call.run c).state (call.chain bs c) := by
  rcases Bool.eq_false_or_eq_true c.poisoned with hpois | hpois
  · rw [call.state_of_poisoned hpois, Call.chain, if_pos hpois]
    exact h
  · rw [Call.chain, if_neg (by rw [hpois]; exact Bool.false_ne_true)]
    rcases (h.live hpois).call hfit hshallow with hlive | ⟨hpois', -, hstored⟩
    · exact hlive.held
    · exact ⟨hstored, fun hlive ↦ absurd (hpois'.symm.trans hlive) (by decide)⟩

end

end Plaine.Storage

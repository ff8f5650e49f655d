import Plaine.Storage.Unwind
import Plaine.Storage.Upkeep

/-!
# What the calls do

Each call of the committer by what it does to the view and to the database.  `Applied` follows
the view over blocks, `Grows` the view and the database over an extend: blocks, commits of the
view they have led to, and upkeep.  A reorg unwinds the view, applies its branch and commits it
once; a deep reorg restores the tables of a savepoint and then extends.
-/

namespace Plaine.Storage

open Plaine.Lib Plaine.Consensus

section

variable [Crypto]

/-- One block of `apply_block`, seen by the chain. -/
def AppliesOne (cfg : StoreConfig) (b : BlockToCommit) (v v' : View) : Prop :=
  ∃ readHeader t m t' m', t.view m = v ∧ t'.view m' = v' ∧ checkBlockInputs b = .ok () ∧
    applyBlock readHeader cfg b t m = .ok (t', m')

/-- Blocks applied one on the other. -/
inductive Applied (cfg : StoreConfig) (v : View) : List BlockToCommit → View → Prop
  | nil : Applied cfg v [] v
  | snoc {blocks : List BlockToCommit} {b : BlockToCommit} {v' v'' : View} :
      Applied cfg v blocks v' → AppliesOne cfg b v' v'' → Applied cfg v (blocks ++ [b]) v''

theorem Applied.trans {cfg : StoreConfig} {v v' v'' : View} {blocks blocks' : List BlockToCommit}
    (h : Applied cfg v blocks v') (h' : Applied cfg v' blocks' v'') :
    Applied cfg v (blocks ++ blocks') v'' := by
  induction h' with
  | nil => rwa [List.append_nil]
  | snoc _ happ ih =>
    rw [← List.append_assoc]
    exact .snoc ih happ

/-- What an extend does: blocks in turn, commits and upkeep. -/
inductive Grows (cfg : StoreConfig) (v : View) (db : Db) : List BlockToCommit → View → Db → Prop
  | refl : Grows cfg v db [] v db
  | block {blocks : List BlockToCommit} {b : BlockToCommit} {v' v'' : View} {db' : Db} :
      Grows cfg v db blocks v' db' → b.height = v'.core.hdrWatermark → AppliesOne cfg b v' v'' →
      Grows cfg v db (blocks ++ [b]) v'' db'
  | commit {blocks : List BlockToCommit} {v' : View} {db' : Db} {t : Tables} :
      Grows cfg v db blocks v' db' → t.settled = some v' →
      t.stateCkpt = db'.tables.stateCkpt → Grows cfg v db blocks v' (db'.commit t)
  | upkeep {blocks : List BlockToCommit} {v' : View} {db' db'' : Db} :
      Grows cfg v db blocks v' db' → db'.tables.settled = some v' → Committer.Upkeep cfg.stateCkptKeep db' db'' →
      Grows cfg v db blocks v' db''

/-- The core at a fork, once the blocks above it are rolled back. -/
def Core.rewound (fork : Nat) (k : Core) : Core :=
  { k with
    tip := { k.tip with height := fork }
    hdrWatermark := fork + 1
    bodyWatermark := fork + 1 }

/-- The view at a fork, once the blocks above it are rolled back. -/
def View.rewound (fork : Nat) (v : View) : View := { v with core := v.core.rewound fork }

/-- What a reorg does to the view: it unwinds to the fork and applies the branch. -/
structure Reorged (cfg : StoreConfig) (plan : ReorgPlan) (v v' : View) : Prop where
  checked : ∃ m replayFloor, m.core = v.core ∧ Committer.checkPlan m replayFloor plan = .ok ()
  unwound : ∃ t m t₁ m₁, t.view m = v ∧ rollbackHeights plan.rollback t m = (.ok t₁, m₁) ∧
    Applied cfg ((t₁.view m₁).rewound plan.forkHeight) plan.apply v'

/-- What a reorg does: a seal, the rows of the headers it overwrites, and one commit of the view
it leads to. -/
inductive Reorgs (cfg : StoreConfig) (plan : ReorgPlan) (v : View) (db flushed : Db) : View → Db → Prop
  | intro {v' : View} {db₁ db' : Db} {t : Tables} : Grows cfg v db [] v flushed →
      flushed.tables.settled = some v → Committer.Upkeep cfg.stateCkptKeep flushed db₁ →
      db₁.tables.stateCkpt = flushed.tables.stateCkpt → Reorged cfg plan v v' → t.settled = some v' →
      t.stateCkpt = db₁.tables.stateCkpt → Committer.Upkeep cfg.stateCkptKeep (db₁.commit t) db' →
      Reorgs cfg plan v db flushed v' db'

variable {cfg : StoreConfig} {v v' v'' : View} {db db' db'' : Db} {blocks blocks' : List BlockToCommit}

theorem Grows.trans (h : Grows cfg v db blocks v' db') (h' : Grows cfg v' db' blocks' v'' db'') :
    Grows cfg v db (blocks ++ blocks') v'' db'' := by
  induction h' with
  | refl => rwa [List.append_nil]
  | block _ hheight happ ih =>
    rw [← List.append_assoc]
    exact .block ih hheight happ
  | commit _ hview hckpt ih => exact .commit ih hview hckpt
  | upkeep _ hview hup ih => exact .upkeep ih hview hup

namespace Committer

open Prog

variable {c c' c'' : Committer} {b : BlockToCommit}

/-! ## Seals -/

omit [Crypto] in
theorem Seals.settled (hc : c.Tidy) (h : c.Seals db) : db.tables.settled = some c.view := by
  cases h with
  | idle hnone => exact (hc.atRest hnone).settled
  | @commit t _ ht hcore =>
    have htables : c.tables = t := by rw [tables, ht, Option.getD_some]
    rw [Tables.settled, Db.commit, Option.map_some, view, htables, Tables.view, Tables.view, hcore]

theorem Seals.grows (hc : c.Tidy) (h : c.Seals db) : Grows cfg c.view c.disk.db [] c.view db := by
  have hsettled := h.settled hc
  cases h with
  | idle hnone => exact .refl
  | @commit t _ ht hcore =>
    have htables : c.tables = t := by rw [tables, ht, Option.getD_some]
    exact .commit .refl hsettled (htables ▸ hc.stateCkpt)

theorem SealTrail.grows (hc : c.Tidy) {d : Disk} (h : c.SealTrail d) :
    Grows c.cfg c.view c.disk.db [] c.view d.db := by
  rcases h with h | ⟨db, hdb, hup⟩
  · exact h ▸ .refl
  · exact .upkeep (hdb.grows hc) (hdb.settled hc) hup

omit [Crypto] in
theorem Sealed.view (hc : c.Tidy) (h : c.Sealed c') : c'.view = c.view := by
  obtain ⟨db, hdb, hup⟩ := h.upkeep
  have hsettled := hup.settled
  rw [h.rest.settled, hdb.settled hc] at hsettled
  exact Option.some.inj hsettled

/-- What a call made of a committer by extending. -/
structure Grown (c : Committer) (blocks : List BlockToCommit) (c' : Committer) : Prop where
  grows : Grows c.cfg c.view c.disk.db blocks c'.view c'.disk.db
  tidy : c'.Tidy
  cfg : c'.cfg = c.cfg

theorem Grown.trans (h : c.Grown blocks c') (h' : c'.Grown blocks' c'') :
    c.Grown (blocks ++ blocks') c'' :=
  ⟨h.grows.trans (h.cfg ▸ h'.grows), h'.tidy, h'.cfg.trans h.cfg⟩

theorem Same.grown (h : Same c c') (hc : c.Tidy) : c.Grown [] c' :=
  ⟨by rw [h.view, h.db]; exact .refl, hc.same h, h.cfg⟩

theorem Sealed.grown (h : c.Sealed c') (hc : c.Tidy) : c.Grown [] c' := by
  obtain ⟨db, hdb, hup⟩ := h.upkeep
  refine ⟨?_, h.rest.tidy, h.cfg⟩
  rw [h.view hc]
  exact .upkeep (hdb.grows hc) (hdb.settled hc) hup

omit [Crypto] in
theorem Tended.view (hrest : c.AtRest) (h : c.Tended c') : c'.view = c.view := by
  have := h.upkeep.settled
  rw [h.rest.settled, hrest.settled] at this
  exact Option.some.inj this

theorem Tended.grown (hrest : c.AtRest) (h : c.Tended c') : c.Grown [] c' := by
  refine ⟨?_, h.rest.tidy, h.cfg⟩
  rw [h.view hrest]
  exact .upkeep .refl hrest.settled h.upkeep

/-! ## Extending -/

/-- The fields `apply_block` has nothing to do with. -/
theorem stateCkpt_applyBlock {readHeader : Nat → Option RawHeader} {cfg : StoreConfig}
    {t t' : Tables} {m m' : Meta} (haligned : b.deltas.map (·.addr) = b.undo.map (·.addr))
    (h : applyBlock readHeader cfg b t m = .ok (t', m')) : t'.stateCkpt = t.stateCkpt := by
  obtain ⟨_, _, _, _, _, heq, -, -⟩ := applyBlock_eq readHeader cfg t m
    haligned
  rw [h] at heq
  cases heq
  rfl

omit [Crypto] in
theorem aligned_of_checkBlockInputs (h : checkBlockInputs b = .ok ()) :
    b.deltas.map (·.addr) = b.undo.map (·.addr) := by
  simp only [checkBlockInputs, Except.bind_eq_ok, Except.require_eq_ok] at h
  obtain ⟨_, -, _, haligned, -⟩ := h
  exact haligned

/-- A block applied to what is open. -/
theorem applyTxn_spec (hc : c.Tidy) (hheight : b.height = c.info.hdrWatermark)
    (hinputs : checkBlockInputs b = .ok ()) :
    (applyTxn b).wp (fun _ ↦ False)
      (fun _ c' ↦ c.Grown [b] c' ∧ c'.poisoned = c.poisoned) (fun _ c' ↦ c' = c) c := by
  unfold applyTxn
  simp only [wp_bind, wp_peek, wp_lift, wp_alter, implies_true, and_true]
  rintro ⟨t, m⟩ happ
  have happ : applyBlock c.disk.readHeader c.cfg b c.tables c.info = .ok (t, m) := happ
  refine ⟨?_, ⟨?_, ?_, hc.replayFloor⟩, rfl⟩
  · exact .block .refl hheight ⟨_, _, _, t, m, rfl, rfl, hinputs, happ⟩
  · rintro ⟨⟩
  · exact (stateCkpt_applyBlock (aligned_of_checkBlockInputs hinputs) happ).trans hc.stateCkpt

/-- A block that is written is applied to what is open; one that is not leaves it alone. -/
theorem writeBlock_spec (hc : c.Tidy) (hheight : b.height = c.info.hdrWatermark) :
    (writeBlock b).wp (fun d ↦ d.db = c.disk.db)
      (fun _ c' ↦ c.Grown [b] c' ∧ c'.poisoned = c.poisoned) (fun _ c' ↦ c.Grown [] c') c := by
  have hsame : ∀ {c'}, Same c c' → c.Grown [] c' := fun h ↦ h.grown hc
  unfold writeBlock
  rw [wp_bind, wp_lift]
  refine ⟨fun _ hinputs ↦ ?_, fun _ _ ↦ hsame (refl_of Same c)⟩
  rw [wp_bind]
  refine (same_enterSegment (F := fun _ _ ↦ False) b c).imp (fun _ ↦ Same.trail)
    (fun _ c₁ h₁ ↦ ?_) fun _ _ h ↦ h.2.elim
  rw [wp_bind]
  refine ((same_writeHeader (F := fun _ _ ↦ False) b).wp_of_rel h₁).imp
    (fun _ ↦ Same.trail) (fun _ c₂ h₂ ↦ ?_) fun _ _ h ↦ h.2.elim
  rw [wp_bind]
  refine ((same_writeBody b).wp_of_rel h₂).imp (fun _ ↦ Same.trail)
    (fun _ c₃ h₃ ↦ ?_) fun _ _ h ↦ hsame h.1
  -- Opening the transaction does not show.
  rw [wp_bind, ensureTxn, wp_alter]
  set c₄ : Committer := { c₃ with txn := some (c₃.txn.getD c₃.disk.db.tables) } with hc₄
  have hgrown : c.Grown [] c₄ := by
    have h := hsame h₃
    exact ⟨h.grows, ⟨fun hnone ↦ (by cases hnone), h.tidy.stateCkpt, h.tidy.replayFloor⟩, h.cfg⟩
  have hwm : b.height = c₄.info.hdrWatermark :=
    hheight.trans (congrArg Core.hdrWatermark h₃.core).symm
  refine (applyTxn_spec hgrown.tidy hwm hinputs).imp
    (fun _ ↦ False.elim) (fun _ c' h ↦ ⟨hgrown.trans h.1, h.2.trans h₃.poisoned⟩) fun _ c' h ↦ ?_
  exact h ▸ hgrown

/-- What one block of an extend does. -/
theorem extendOne_spec (hc : c.Tidy) :
    (extendOne b).wp (fun d ↦ ∃ done v', done <+: [b] ∧
        Grows c.cfg c.view c.disk.db done v' d.db)
      (fun _ c' ↦ c.Grown [b] c' ∧ c'.poisoned = c.poisoned)
      (fun _ c' ↦ ∃ done, done <+: [b] ∧ c.Grown done c') c := by
  have hself : c.Grown [] c := (refl_of Same c).grown hc
  unfold extendOne
  rw [wp_bind, wp_peek, wp_bind, wp_require]
  refine ⟨fun hheight ↦ ?_, fun _ ↦ ⟨[], List.nil_prefix, hself⟩⟩
  rw [wp_bind, wp_lift]
  refine ⟨fun _ _ ↦ ?_, fun _ _ ↦ ⟨[], List.nil_prefix, hself⟩⟩
  rw [wp_bind, wp_onError]
  refine (writeBlock_spec hc hheight).imp
    (fun d hd ↦ ⟨[], c.view, List.nil_prefix, hd ▸ .refl⟩) (fun _ c₁ h₁ ↦ ?_) fun e c₁ h₁ ↦
    ⟨[], List.nil_prefix, h₁.grows, ⟨h₁.tidy.stored, h₁.tidy.stateCkpt, h₁.tidy.replayFloor⟩,
      h₁.cfg⟩
  obtain ⟨h₁, hpois⟩ := h₁
  rw [wp_bind, wp_alter, wp_bind, wp_peek]
  set c₂ : Committer := { c₁ with
    batchBlocks := c₁.batchBlocks + 1
    batchBytes := c₁.batchBytes + (headerBytes + b.body.length + bodyFrameBytes) }
  have h₂ : c.Grown [b] c₂ :=
    ⟨h₁.grows, ⟨h₁.tidy.stored, h₁.tidy.stateCkpt, h₁.tidy.replayFloor⟩, h₁.cfg⟩
  rw [wp_ite, wp_pure, wp_onError]
  refine ⟨fun _ ↦ ?_, fun _ ↦ ⟨h₂, hpois⟩⟩
  refine (sealBatch_spec h₂.tidy).imp (fun d hd ↦ ?_) (fun _ c₃ h₃ ↦ ?_) fun e c₃ h₃ ↦ ?_
  · exact ⟨[b], c₂.view, List.prefix_rfl, h₂.grows.trans (h₂.cfg ▸ hd.grows h₂.tidy)⟩
  · exact ⟨h₂.trans (h₃.grown h₂.tidy), h₃.poisoned.trans hpois⟩
  · obtain ⟨rfl, -⟩ := h₃
    exact ⟨[b], List.prefix_rfl, h₂.grows,
      ⟨h₂.tidy.stored, h₂.tidy.stateCkpt, h₂.tidy.replayFloor⟩, h₂.cfg⟩

/-- What an extend does, as far as it gets. -/
theorem extend_spec (hc : c.Tidy) (blocks : List BlockToCommit) :
    (extend blocks).wp (fun d ↦ ∃ done v', done <+: blocks ∧
        Grows c.cfg c.view c.disk.db done v' d.db)
      (fun _ c' ↦ c.Grown blocks c' ∧ c'.poisoned = c.poisoned)
      (fun _ c' ↦ ∃ done, done <+: blocks ∧ c.Grown done c') c := by
  have hself : c.Grown [] c := (refl_of Same c).grown hc
  unfold extend guard
  simp only [wp_bind, wp_peek, wp_require]
  refine ⟨fun _ ↦ ?_, fun _ ↦ ⟨[], List.nil_prefix, hself⟩⟩
  have hstart : [] ++ blocks = blocks ∧ c.Grown [] c ∧ c.poisoned = c.poisoned :=
    ⟨rfl, hself, rfl⟩
  refine wp_forEach (I := fun done l s ↦ done ++ l = blocks ∧ c.Grown done s ∧
    s.poisoned = c.poisoned) hstart (fun s hs ↦ ?_) ?_
  · rw [List.nil_append] at hs
    exact hs.2
  · rintro done b l s ⟨rfl, hgrown, hpois⟩
    refine (extendOne_spec hgrown.tidy).imp ?_ (fun _ s' h ↦ ⟨by simp, hgrown.trans h.1,
      h.2.trans hpois⟩) ?_
    · rintro d ⟨done', v', hpre, hgrows⟩
      refine ⟨done ++ done', v', ?_, hgrown.grows.trans (hgrown.cfg ▸ hgrows)⟩
      exact (List.prefix_append_right_inj done).mpr (hpre.trans (List.prefix_append [b] l))
    · rintro e s' ⟨done', hpre, h⟩
      refine ⟨done ++ done', ?_, hgrown.trans h⟩
      exact (List.prefix_append_right_inj done).mpr (hpre.trans (List.prefix_append [b] l))

/-! ## Reorgs -/

omit [Crypto] in
/-- Dropping hash rows leaves the rest alone. -/
theorem foldl_dropHash (prefixBytes : Nat) (rows : List (Nat × Hash32)) (t : Tables) (m : Meta) :
    ∃ hashIndex hashIndexFull n,
      rows.foldl (fun x row ↦ dropHash prefixBytes x.1 x.2 row) (t, m) =
        ({ t with hashIndex, hashIndexFull }, { m with hashIndexFullRows := n }) := by
  induction rows generalizing t m with
  | nil => exact ⟨_, _, _, rfl⟩
  | cons row rows ih =>
    obtain ⟨hi, hf, n, heq⟩ : ∃ hashIndex hashIndexFull n, dropHash prefixBytes t m row =
        ({ t with hashIndex, hashIndexFull }, { m with hashIndexFullRows := n }) := by
      unfold dropHash
      by_cases hrow : t.hashIndex.lookup (hashPrefixN row.2 prefixBytes) = some row.1
      · simp only [hrow, if_true]
        split
        · split
          · exact ⟨_, _, _, rfl⟩
          · exact ⟨_, _, m.hashIndexFullRows, rfl⟩
        · exact ⟨_, t.hashIndexFull, m.hashIndexFullRows, rfl⟩
      · simp only [hrow, if_false]
        split
        · split
          · exact ⟨t.hashIndex, _, _, rfl⟩
          · exact ⟨t.hashIndex, _, m.hashIndexFullRows, rfl⟩
        · exact ⟨t.hashIndex, t.hashIndexFull, m.hashIndexFullRows, rfl⟩
    rw [List.foldl_cons, heq]
    exact ih _ _

/-- The way down to the fork. -/
theorem rewindBranch_spec {forkHeight : Nat} {rollback : List Nat}
    {oldHashes : List (Nat × Hash32)} :
    (rewindBranch forkHeight rollback oldHashes).wp (fun _ ↦ False)
      (fun t c' ↦ SameDb c c' ∧ t.stateCkpt = c.disk.db.tables.stateCkpt ∧ ∃ t₁ m₁,
        rollbackHeights rollback { c.disk.db.tables with hdrUndo := ∅ } c.info = (.ok t₁, m₁) ∧
          t.view c'.info = (t₁.view m₁).rewound forkHeight)
      (fun _ c' ↦ SameDb c c') c := by
  unfold rewindBranch onMeta
  simp only [wp_bind, wp_peek]
  rcases hroll : rollbackHeights rollback { c.disk.db.tables with hdrUndo := ∅ } c.info with ⟨r, m₁⟩
  simp only [wp_bind, wp_alter, wp_lift]
  refine ⟨?_, fun _ _ ↦ ⟨rfl, rfl, rfl, rfl, rfl, rfl⟩⟩
  rintro t₁ rfl
  obtain ⟨hi, hf, n, heq⟩ := foldl_dropHash c.cfg.hashPrefixBytes oldHashes t₁ m₁
  rw [heq]
  simp only [wp_pure]
  exact ⟨⟨rfl, rfl, rfl, rfl, rfl, rfl⟩, (rollbackHeights_unwound hroll).stateCkpt, t₁, m₁, rfl,
    rfl⟩

/-- The blocks of a branch on the tables at the fork. -/
theorem applyBranch_spec {t : Tables} :
    (applyBranch blocks t).wp (fun d ↦ d.db = c.disk.db)
      (fun t' c' ↦ SameDb c c' ∧ t'.stateCkpt = t.stateCkpt ∧
        Applied c.cfg (t.view c.info) blocks (t'.view c'.info))
      (fun _ c' ↦ SameDb c c') c := by
  induction blocks generalizing t c with
  | nil =>
    rw [applyBranch, wp_pure]
    exact ⟨refl_of SameDb c, rfl, .nil⟩
  | cons b blocks ih =>
    rw [applyBranch, wp_bind, wp_lift]
    refine ⟨fun _ hinputs ↦ ?_, fun _ _ ↦ refl_of SameDb c⟩
    rw [wp_bind]
    refine (same_enterSegment (F := fun _ _ ↦ False) b c).imp (fun _ ↦ Same.trail)
      (fun _ c₁ h₁ ↦ ?_) fun _ _ h ↦ h.2.elim
    rw [wp_bind]
    refine ((same_writeBody b).wp_of_rel h₁).imp (fun _ ↦ Same.trail)
      (fun _ c₂ h₂ ↦ ?_) fun _ _ h ↦ h.1.toSameDb
    simp only [onMeta, wp_bind, wp_peek, wp_lift, wp_alter]
    refine ⟨?_, fun _ _ ↦ h₂.toSameDb⟩
    rintro ⟨t₁, m₁⟩ happ
    set c₃ : Committer := { c₂ with info := m₁ } with hc₃
    have h₃ : SameDb c c₃ := ⟨h₂.db, h₂.txn, h₂.cfg, h₂.mode, h₂.poisoned, h₂.replayFloor⟩
    have hview : t.view c₂.info = t.view c.info := by rw [Tables.view, Tables.view, h₂.core]
    have hone : AppliesOne c.cfg b (t.view c.info) (t₁.view c₃.info) :=
      ⟨_, t, c₂.info, t₁, m₁, hview, rfl, hinputs, h₂.cfg ▸ happ⟩
    refine (ih (c := c₃) (t := t₁)).imp (fun d hd ↦ hd.trans h₃.db) (fun t' c' h ↦ ?_)
      fun _ c' h ↦ trans_of SameDb h₃ h
    obtain ⟨hdb, hckpt, happs⟩ := h
    exact ⟨trans_of SameDb h₃ hdb,
      hckpt.trans (stateCkpt_applyBlock (aligned_of_checkBlockInputs hinputs) happ),
      (Applied.snoc .nil hone).trans ((show c₃.cfg = c.cfg from h₂.cfg) ▸ happs)⟩

/-- What committing a branch leads to, from a committer at rest. -/
def Moves (c : Committer) (forkHeight : Nat) (rollback : List Nat) (apply : List BlockToCommit)
    (v' : View) (db' : Db) : Prop :=
  (∃ t m t₁ m₁, t.view m = c.view ∧ rollbackHeights rollback t m = (.ok t₁, m₁) ∧
    Applied c.cfg ((t₁.view m₁).rewound forkHeight) apply v') ∧
  ∃ t, t.settled = some v' ∧ t.stateCkpt = c.disk.db.tables.stateCkpt ∧
    Upkeep c.cfg.stateCkptKeep (c.disk.db.commit t) db'

variable {forkHeight : Nat} {rollback : List Nat} {oldHashes : List (Nat × Hash32)}

theorem commitBranch_spec (hc : c.AtRest) :
    (commitBranch forkHeight rollback oldHashes blocks).wp
      (fun d ↦ d.db = c.disk.db ∨ ∃ v', c.Moves forkHeight rollback blocks v' d.db)
      (fun _ c' ↦ c.Moves forkHeight rollback blocks c'.view c'.disk.db ∧ c'.AtRest ∧
        c'.cfg = c.cfg)
      (fun _ c' ↦ c'.poisoned = c.poisoned ∧ c'.cfg = c.cfg ∧
        (c'.disk.db = c.disk.db ∨ ∃ v', c.Moves forkHeight rollback blocks v' c'.disk.db)) c := by
  unfold commitBranch
  rw [wp_bind]
  refine rewindBranch_spec.imp (fun _ ↦ False.elim) (fun t c₁ h ↦ ?_)
    fun _ c' h ↦ ⟨h.poisoned, h.cfg, .inl h.db⟩
  obtain ⟨h₁, hckpt₁, t₁, m₁, hroll, hview₁⟩ := h
  rw [wp_bind]
  refine applyBranch_spec.imp (fun d hd ↦ .inl (hd.trans h₁.db)) (fun t₂ c₂ h ↦ ?_)
    fun _ c' h ↦ ?_
  rotate_left
  · have h := trans_of SameDb h₁ h
    exact ⟨h.poisoned, h.cfg, .inl h.db⟩
  obtain ⟨h₂, hckpt₂, happs⟩ := h
  have h₂ : SameDb c c₂ := trans_of SameDb h₁ h₂
  rw [hview₁, h₁.cfg] at happs
  rw [wp_bind]
  refine (same_barrier (F := fun _ _ ↦ False) c₂).imp
    (fun d hd ↦ .inl ((Same.trail hd).trans h₂.db)) (fun _ c₃ h₃ ↦ ?_) fun _ _ h ↦ h.2.elim
  have hcore : c₃.info.core = c₂.info.core := h₃.core
  have h₃ : SameDb c c₃ := trans_of SameDb h₂ h₃.toSameDb
  rw [wp_bind, wp_peek, wp_bind, onDb, onDisk, wp_write]
  -- The committed tables show the branch.
  set t₃ : Tables := { t₂ with info := some c₃.info } with ht₃
  set c₄ : Committer :=
    { c₃ with disk := { c₃.disk with db := c₃.disk.db.commit t₃ } } with hc₄
  have hsettled : t₃.settled = some (t₂.view c₃.info) := rfl
  have hckpt : t₃.stateCkpt = c.disk.db.tables.stateCkpt := hckpt₂.trans hckpt₁
  have hview : t₂.view c₂.info = t₂.view c₃.info := by rw [Tables.view, Tables.view, hcore]
  have hdb : c₄.disk.db = c.disk.db.commit t₃ := by rw [hc₄, h₃.db]
  have hrest : c₄.AtRest := by
    refine ⟨h₃.txn.trans hc.txn, ⟨c₃.info, rfl, rfl⟩, ?_⟩
    rw [lowestCheckpoint, hdb]
    show c₃.replayFloor = t₃.stateCkpt.keys.min?.getD 0
    rw [h₃.replayFloor, hc.replayFloor, lowestCheckpoint, hckpt]
  have hunwound : ∃ t m t₁ m₁, t.view m = c.view ∧ rollbackHeights rollback t m = (.ok t₁, m₁) ∧
      Applied c.cfg ((t₁.view m₁).rewound forkHeight) blocks (t₂.view c₃.info) := by
    refine ⟨_, _, t₁, m₁, ?_, hroll, hview ▸ happs⟩
    rw [view, tables, hc.txn]
    rfl
  have hmoves : ∀ {db'}, Upkeep c.cfg.stateCkptKeep c₄.disk.db db' →
      c.Moves forkHeight rollback blocks (t₂.view c₃.info) db' :=
    fun hup ↦ ⟨hunwound, t₃, hsettled, hckpt, hdb ▸ hup⟩
  have hview₄ : c₄.view = t₂.view c₃.info := by
    have := hrest.settled
    rw [hdb] at this
    exact (Option.some.inj (hsettled.symm.trans this)).symm
  refine ⟨.inr ⟨_, hmoves .refl⟩, ?_⟩
  have htend : TendsUnlessPoisoned (do
      maybeCheckpoint
      maybeRebuildIndex) := .bind tends_maybeCheckpoint fun _ ↦ tends_maybeRebuildIndex
  refine (htend c₄).imp (fun d hd ↦ ?_) (fun _ c' ht ↦ ?_) fun _ c' ht ↦ ?_
  · obtain ⟨c', ht, hd⟩ := hd
    have ht := ht hrest
    exact .inr ⟨_, hmoves (hd ▸ (h₃.cfg ▸ ht.upkeep))⟩
  · have ht := ht hrest
    have hsame : c'.view = t₂.view c₃.info := by
      have := ht.upkeep.settled
      rw [ht.rest.settled, hrest.settled, hview₄] at this
      exact Option.some.inj this
    exact ⟨hsame ▸ hmoves (h₃.cfg ▸ ht.upkeep), ht.rest, ht.cfg.trans h₃.cfg⟩
  · have ht := ht.1 hrest
    have hup := ht.upkeep
    exact ⟨ht.poisoned.trans h₃.poisoned, ht.cfg.trans h₃.cfg, .inr ⟨_, hmoves (h₃.cfg ▸ hup)⟩⟩

/-- What is at rest moves on where upkeep leads. -/
theorem Tended.moves (h : c.Tended c') (hview : c'.view = c.view)
    (hm : c'.Moves forkHeight rollback blocks v' db') :
    Upkeep c.cfg.stateCkptKeep c.disk.db c'.disk.db ∧
      (∃ t m t₁ m₁, t.view m = c.view ∧ rollbackHeights rollback t m = (.ok t₁, m₁) ∧
        Applied c.cfg ((t₁.view m₁).rewound forkHeight) blocks v') ∧
      ∃ t, t.settled = some v' ∧ t.stateCkpt = c'.disk.db.tables.stateCkpt ∧
        Upkeep c.cfg.stateCkptKeep (c'.disk.db.commit t) db' := by
  obtain ⟨hun, t, hsettled, hckpt, hup⟩ := hm
  rw [hview, h.cfg] at hun
  exact ⟨h.upkeep, hun, t, hsettled, hckpt, h.cfg ▸ hup⟩

variable {plan : ReorgPlan}

/-- The database once what is open is flushed. -/
def flushed (c : Committer) : Db := (flush c).state.disk.db

/-- Where a reorg may be cut short, or fail: before its commit, or after it. -/
def ReorgTrail (c : Committer) (plan : ReorgPlan) (db : Db) : Prop :=
  Grows c.cfg c.view c.disk.db [] c.view db ∨
    ∃ v', Reorgs c.cfg plan c.view c.disk.db c.flushed v' db

/-- Two committers whose databases list the same checkpoints. -/
def SameRows (c c' : Committer) : Prop :=
  c'.disk.db.tables.stateCkpt = c.disk.db.tables.stateCkpt

instance : IsPreorder Committer SameRows where
  refl _ := rfl
  trans _ _ _ h h' := Eq.trans h' h

omit [Crypto] in
theorem sameRows_writeHdrUndo {F : StoreError → Committer → Prop} (first last : Nat) :
    Within disk SameRows F (writeHdrUndo first last) :=
  .ite (.pure _) (.bind .peek fun _ ↦ .write fun _ ↦ rfl)

omit [Crypto] in
theorem sameRows_overwriteHeaders {F : StoreError → Committer → Prop}
    (apply : List BlockToCommit) : Within disk SameRows F (overwriteHeaders apply) := by
  have hrows : ∀ {c c' : Committer}, Same c c' → SameRows c c' := fun h ↦
    congrArg (fun db : Db ↦ db.tables.stateCkpt) h.db
  refine fun c ↦ (same_overwriteHeaders apply c).imp (fun _ hd ↦ ?_) (fun _ _ h ↦ hrows h)
    fun _ _ h ↦ ⟨hrows h.1, h.2⟩
  obtain ⟨c', h, hd⟩ := hd
  exact ⟨c', hrows h, hd⟩

/-- What a reorg does. -/
theorem reorg_spec (hc : c.Tidy) (plan : ReorgPlan) :
    (reorg plan).wp (fun d ↦ c.ReorgTrail plan d.db)
      (fun _ c' ↦ Reorgs c.cfg plan c.view c.disk.db c.flushed c'.view c'.disk.db ∧
        c'.Tidy ∧ c'.cfg = c.cfg ∧ c'.poisoned = false)
      (fun _ c' ↦ c.Grown [] c' ∧ c'.poisoned = c.poisoned ∨
        c'.poisoned = true ∧ c'.cfg = c.cfg ∧ c.ReorgTrail plan c'.disk.db) c := by
  have hself : c.Grown [] c := (refl_of Same c).grown hc
  unfold reorg guard
  simp only [wp_bind, wp_peek, wp_require]
  refine ⟨fun _ ↦ ?_, fun _ ↦ .inl ⟨hself, trivial⟩⟩
  refine ((sealBatch_spec hc).and wp_self).imp (fun d hd ↦ .inl (hd.1.grows hc))
    (fun _ c₁ h₁ ↦ ?_) fun _ c' h ↦ .inl (by
      obtain ⟨⟨rfl, -⟩, -⟩ := h
      exact ⟨hself, rfl⟩)
  obtain ⟨h₁, -, hflushed⟩ := h₁
  have hflushed : c.flushed = c₁.disk.db := congrArg (·.disk.db) hflushed.symm
  have hgrown₁ := h₁.grown hc
  rw [wp_bind, wp_peek, wp_bind, wp_lift]
  refine ⟨fun _ hchecked ↦ ?_, fun _ _ ↦ .inl ⟨hgrown₁, h₁.poisoned⟩⟩
  rw [wp_bind, wp_alter, wp_bind]
  set c₂ : Committer := { c₁ with poisoned := true } with hc₂
  have hrest₂ : c₂.AtRest := ⟨h₁.rest.txn, h₁.rest.stored, h₁.rest.replayFloor⟩
  have hview₁ : c₁.view = c.view := h₁.view hc
  have hview₂ : c₂.view = c.view := hview₁
  have hgrows₁ := hgrown₁.grows
  rw [hview₁] at hgrows₁
  have hcfg₂ : c₂.cfg = c.cfg := h₁.cfg
  -- From the poisoned committer at rest on, every database is one the trail allows.
  have hbefore : ∀ {c' db}, c₂.Tended c' → c'.disk.db = db → c.ReorgTrail plan db := by
    intro c' db ht hdb
    refine .inl (.upkeep hgrows₁ ?_ (hdb ▸ (hcfg₂ ▸ ht.upkeep)))
    exact hview₂ ▸ hrest₂.settled
  have htrail : ∀ {d : Disk}, (∃ c', Tends c₂ c' ∧ c'.disk = d) ∧
      (∃ c', SameRows c₂ c' ∧ c'.disk = d) → c.ReorgTrail plan d.db := by
    rintro d ⟨⟨c', ht, hd⟩, -⟩
    exact hbefore (ht hrest₂) (congrArg Disk.db hd)
  have hafter : ∀ {c' v' db}, c₂.Tended c' → SameRows c₂ c' →
      c'.Moves plan.forkHeight plan.rollback plan.apply v' db →
      Reorgs c.cfg plan c.view c.disk.db c.flushed v' db := by
    intro c' v' db ht hrows hm
    have hview := ht.view hrest₂
    obtain ⟨hup, hun, t, hsettled, hckpt, hup'⟩ := ht.moves hview hm
    rw [hcfg₂] at hup hup' hun
    have hs₂ : c₂.disk.db.tables.settled = some c.view := hview₂ ▸ hrest₂.settled
    rw [hflushed]
    refine .intro hgrows₁ hs₂ hup hrows ⟨⟨c₁.info, _, ?_, hchecked⟩, hview₂ ▸ hun⟩ hsettled
      hckpt hup'
    exact congrArg View.core hview₂
  unfold reorgDestructive
  rw [wp_bind]
  refine ((tends_writeHdrUndo (F := fun _ _ ↦ False) _ _ c₂).and
    (sameRows_writeHdrUndo (F := fun _ _ ↦ False) _ _ c₂)).imp
    (fun _ ↦ htrail)
    (fun _ c₃ h ↦ ?_) fun _ _ h ↦ h.1.2.elim
  obtain ⟨h₃, hrows₃⟩ := h
  rw [wp_bind]
  refine (((tends_of_same (same_overwriteHeaders (F := fun _ _ ↦ False) _)).wp_of_rel h₃).and
    ((sameRows_overwriteHeaders (F := fun _ _ ↦ False) _).wp_of_rel hrows₃)).imp
    (fun _ ↦ htrail)
    (fun _ c₄ h ↦ ?_) fun _ _ h ↦ h.1.2.elim
  obtain ⟨h₄, hrows₄⟩ := h
  simp only [wp_bind, wp_peek, onMeta, wp_alter]
  set c₅ : Committer := { c₄ with
    info := { c₄.info with bodyAppendOffset := c₄.disk.bodyAppendFor (plan.forkHeight + 1) } }
  have hsame : Same c₄ c₅ := ⟨⟨rfl, rfl, rfl, rfl, rfl, rfl⟩, rfl⟩
  have h₅ : Tends c₂ c₅ := trans_of Tends h₄ hsame.tends
  have ht₅ := h₅ hrest₂
  refine (commitBranch_spec ht₅.rest).imp (fun d hd ↦ ?_) (fun _ c' h ↦ ?_) fun _ c' h ↦ ?_
  · rcases hd with hd | ⟨v', hd⟩
    · exact hbefore ht₅ hd.symm
    · exact .inr ⟨v', hafter ht₅ hrows₄ hd⟩
  · obtain ⟨hm, hrest, hcfg⟩ := h
    rw [wp_alter]
    refine ⟨hafter ht₅ hrows₄ hm, ⟨fun _ ↦ hrest.stored, hrest.tidy.stateCkpt, hrest.replayFloor⟩, ?_,
      rfl⟩
    exact hcfg.trans (ht₅.cfg.trans hcfg₂)
  · obtain ⟨hp, hcfg, hdb⟩ := h
    refine .inr ⟨hp.trans ht₅.poisoned, hcfg.trans (ht₅.cfg.trans hcfg₂), ?_⟩
    rcases hdb with hd | ⟨v', hd⟩
    · exact hbefore ht₅ hd.symm
    · exact .inr ⟨v', hafter ht₅ hrows₄ hd⟩

/-! ## Deep reorgs -/

/-- What restoring a checkpoint does: a seal, and the tables of the savepoint for the database's,
but for the row that names it. -/
inductive Restores (cfg : StoreConfig) (rewindTo : Nat) (v : View) (db flushed : Db) : Tables → Db → Prop
  | intro {id : Nat} {saved : Tables} : Grows cfg v db [] v flushed →
      flushed.tables.settled = some v → flushed.tables.stateCkpt.lookup rewindTo = some id →
      flushed.savepoints.lookup id = some saved →
      Restores cfg rewindTo v db flushed saved (flushed.restoreSavepoint id
        { saved with stateCkpt := saved.stateCkpt.insert rewindTo id })

variable {deep : DeepReorgPlan}

theorem restoreCheckpoint_spec (deep : DeepReorgPlan) (hc : c.Tidy) :
    (restoreCheckpoint deep).wp
      (fun d ↦ Grows c.cfg c.view c.disk.db [] c.view d.db ∨
        ∃ saved, Restores c.cfg deep.rewindTo c.view c.disk.db c.flushed saved d.db)
      (fun _ c' ↦ c'.AtRest ∧ c'.cfg = c.cfg ∧ c'.poisoned = c.poisoned ∧
        ∃ saved, Restores c.cfg deep.rewindTo c.view c.disk.db c.flushed saved c'.disk.db ∧
          saved.settled = some c'.view)
      (fun _ c' ↦ c.Grown [] c' ∧ c'.poisoned = c.poisoned ∨
        c'.cfg = c.cfg ∧ ∃ saved, saved.info = none ∧
          Restores c.cfg deep.rewindTo c.view c.disk.db c.flushed saved c'.disk.db) c := by
  have hself : c.Grown [] c := (refl_of Same c).grown hc
  unfold restoreCheckpoint guard
  simp only [wp_bind, wp_peek, wp_require]
  refine ⟨fun _ ↦ ?_, fun _ ↦ .inl ⟨hself, trivial⟩⟩
  refine ((sealBatch_spec hc).and wp_self).imp (fun d hd ↦ .inl (hd.1.grows hc))
    (fun _ c₁ h₁ ↦ ?_) fun _ c' h ↦ .inl (by
      obtain ⟨⟨rfl, -⟩, -⟩ := h
      exact ⟨hself, rfl⟩)
  obtain ⟨h₁, -, hflushed⟩ := h₁
  have hflushed : c.flushed = c₁.disk.db := congrArg (·.disk.db) hflushed.symm
  have hgrown₁ : c.Grown [] c₁ ∧ c₁.poisoned = c.poisoned := ⟨h₁.grown hc, h₁.poisoned⟩
  have hview₁ : c₁.view = c.view := h₁.view hc
  have hgrows₁ := hgrown₁.1.grows
  rw [hview₁] at hgrows₁
  have hsettled₁ : c₁.disk.db.tables.settled = some c.view := hview₁ ▸ h₁.rest.settled
  simp only [wp_bind, wp_peek, wp_require, wp_lift, onDb, onMeta, onDisk, refreshReplayFloor,
    wp_alter, wp_write]
  refine ⟨fun _ ↦ ⟨fun _ ↦ ⟨fun _ ↦ ⟨fun id hid ↦ ⟨fun saved hsaved ↦ ?_, fun _ _ ↦ .inl hgrown₁⟩,
    fun _ _ ↦ .inl hgrown₁⟩, fun _ ↦ .inl hgrown₁⟩, fun _ ↦ .inl hgrown₁⟩, fun _ ↦ .inl hgrown₁⟩
  rw [Except.ofOption_eq_ok] at hid hsaved
  have hres : Restores c.cfg deep.rewindTo c.view c.disk.db c.flushed saved
      (c₁.disk.db.restoreSavepoint id
        { saved with stateCkpt := saved.stateCkpt.insert deep.rewindTo id }) := by
    rw [hflushed]
    exact .intro hgrows₁ hsettled₁ hid hsaved
  refine ⟨.inr ⟨saved, hres⟩, fun m hm ↦ ?_, fun e hm ↦ ?_⟩
  · rw [Except.ofOption_eq_ok] at hm
    refine ⟨⟨h₁.rest.txn, ⟨m, hm, rfl⟩, rfl⟩, h₁.cfg, h₁.poisoned, saved, hres, ?_⟩
    rw [Tables.settled, hm, Option.map_some]
    simp only [Committer.view, Committer.tables, h₁.rest.txn, Option.getD_none]
    rfl
  · refine .inr ⟨h₁.cfg, saved, ?_, hres⟩
    cases hinfo : saved.info with
    | none => rfl
    | some m =>
      rw [hinfo] at hm
      cases hm

/-- What a deep reorg does once its checkpoint is restored: it extends. -/
theorem replay_spec (hc : c.Tidy) :
    (do
      let c ← peek
      alter fun c ↦ { c with mode := .ibd }
      extend blocks
      extend blocks'
      sealBatch true
      alter fun d ↦ { d with mode := c.mode } : Op Unit).wp
      (fun d ↦ ∃ done v', done <+: blocks ++ blocks' ∧
        Grows c.cfg c.view c.disk.db done v' d.db)
      (fun _ c' ↦ c.Grown (blocks ++ blocks') c' ∧ c'.poisoned = c.poisoned)
      (fun _ c' ↦ ∃ done, done <+: blocks ++ blocks' ∧ c.Grown done c') c := by
  rw [wp_bind, wp_peek, wp_bind, wp_alter, wp_bind]
  set c₁ : Committer := { c with mode := .ibd }
  have hc₁ : c₁.Tidy := ⟨hc.stored, hc.stateCkpt, hc.replayFloor⟩
  have hmode : ∀ {done c'}, c₁.Grown done c' → c.Grown done c' :=
    fun h ↦ ⟨h.grows, h.tidy, h.cfg⟩
  refine (extend_spec hc₁ _).imp (fun d hd ↦ ?_) (fun _ c₂ h ↦ ?_) fun _ c' h ↦ ?_
  · obtain ⟨done, v', hpre, hg⟩ := hd
    exact ⟨done, v', hpre.trans (List.prefix_append _ _), hg⟩
  rotate_left
  · obtain ⟨done, hpre, hg⟩ := h
    exact ⟨done, hpre.trans (List.prefix_append _ _), hmode hg⟩
  obtain ⟨h₂, hpois₂⟩ := h
  rw [wp_bind]
  refine (extend_spec h₂.tidy _).imp (fun d hd ↦ ?_) (fun _ c₃ h ↦ ?_) fun _ c' h ↦ ?_
  · obtain ⟨done, v', hpre, hg⟩ := hd
    exact ⟨blocks ++ done, v', (List.prefix_append_right_inj blocks).mpr hpre,
      h₂.grows.trans (h₂.cfg ▸ hg)⟩
  rotate_left
  · obtain ⟨done, hpre, hg⟩ := h
    exact ⟨blocks ++ done, (List.prefix_append_right_inj blocks).mpr hpre, hmode (h₂.trans hg)⟩
  obtain ⟨h₃, hpois₃⟩ := h
  have h₃ := h₂.trans h₃
  rw [wp_bind]
  refine (sealBatch_spec h₃.tidy).imp (fun d hd ↦ ?_) (fun _ c₄ h₄ ↦ ?_) fun _ c' h ↦ ?_
  · have hg := h₃.grows.trans (h₃.cfg ▸ hd.grows h₃.tidy)
    rw [List.append_nil] at hg
    exact ⟨_, _, List.prefix_rfl, hg⟩
  · have hg := h₃.trans (h₄.grown h₃.tidy)
    rw [List.append_nil] at hg
    rw [wp_alter]
    refine ⟨⟨hg.grows, ⟨hg.tidy.stored, hg.tidy.stateCkpt, hg.tidy.replayFloor⟩, hg.cfg⟩, ?_⟩
    exact h₄.poisoned.trans (hpois₃.trans hpois₂)
  · obtain ⟨rfl, -⟩ := h
    exact ⟨_, List.prefix_rfl, hmode h₃⟩

/-- What a deep reorg does: it restores a checkpoint and extends what that has led to. -/
theorem deepReorg_spec (hc : c.Tidy) :
    (deepReorg deep).wp
      (fun d ↦ Grows c.cfg c.view c.disk.db [] c.view d.db ∨
        ∃ saved db, Restores c.cfg deep.rewindTo c.view c.disk.db c.flushed saved db ∧
          (d.db = db ∨ ∃ v done v', saved.settled = some v ∧ done <+: deep.replay ++ deep.apply ∧
            Grows c.cfg v db done v' d.db))
      (fun _ c' ↦ c'.Tidy ∧ c'.cfg = c.cfg ∧ c'.poisoned = c.poisoned ∧
        ∃ saved db v,
          Restores c.cfg deep.rewindTo c.view c.disk.db c.flushed saved db ∧
          saved.settled = some v ∧
          Grows c.cfg v db (deep.replay ++ deep.apply) c'.view c'.disk.db)
      (fun _ c' ↦ c.Grown [] c' ∧ c'.poisoned = c.poisoned ∨ c'.cfg = c.cfg ∧
        ∃ saved db, Restores c.cfg deep.rewindTo c.view c.disk.db c.flushed saved db ∧
          (saved.info = none ∧ c'.disk.db = db ∨ c'.Tidy ∧
            ∃ v done, saved.settled = some v ∧ done <+: deep.replay ++ deep.apply ∧
              Grows c.cfg v db done c'.view c'.disk.db)) c := by
  unfold deepReorg
  rw [wp_bind]
  refine (restoreCheckpoint_spec deep hc).imp (fun d hd ↦ ?_) (fun _ c₁ h ↦ ?_) fun _ c' h ↦ ?_
  · rcases hd with hd | ⟨saved, hd⟩
    · exact .inl hd
    · exact .inr ⟨saved, d.db, hd, .inl rfl⟩
  · obtain ⟨hrest, hcfg, hpois, saved, hres, hsettled⟩ := h
    refine (replay_spec hrest.tidy).imp (fun d hd ↦ ?_) (fun _ c' h ↦ ?_) fun _ c' h ↦ ?_
    · obtain ⟨done, v', hpre, hg⟩ := hd
      exact .inr ⟨saved, _, hres, .inr ⟨_, done, v', hsettled, hpre, hcfg ▸ hg⟩⟩
    · obtain ⟨hg, hpois'⟩ := h
      exact ⟨hg.tidy, hg.cfg.trans hcfg, hpois'.trans hpois, saved, _, _, hres, hsettled,
        hcfg ▸ hg.grows⟩
    · obtain ⟨done, hpre, hg⟩ := h
      exact .inr ⟨hg.cfg.trans hcfg, saved, _, hres, .inr ⟨hg.tidy, _, done, hsettled, hpre,
        hcfg ▸ hg.grows⟩⟩
  · rcases h with h | ⟨hcfg, saved, hnone, h⟩
    · exact .inl h
    · exact .inr ⟨hcfg, saved, c'.disk.db, h, .inl ⟨hnone, rfl⟩⟩

end Committer

end

end Plaine.Storage

import Mathlib.Order.Defs.Unbundled
import Plaine.Storage.Committer

/-!
# What the chain does not decide

Of the tables and the metadata the chain decides a view: the accounts, the undo rows, the tip
with its watermarks, the supply, the fingerprint, the chainwork samples and the transaction index.
Writing and syncing files leaves the view and the database alone, and so does what a seal sees to
after its commit: a checkpoint, pruning and the hash index, but for the savepoints and the rows
that name them.
-/

namespace Plaine.Storage

open Plaine.Lib Plaine.Consensus

/-- What the chain decides of the metadata. -/
structure Core where
  tip : TipRef
  hdrWatermark : Nat
  bodyWatermark : Nat
  undoFloor : Nat
  issued : Nat
  fingerprint : Hash32
  txindexFrom : Option Nat

/-- The core of the metadata. -/
def Meta.core (m : Meta) : Core :=
  ⟨m.tip, m.hdrWatermark, m.bodyWatermark, m.undoFloor, m.issued, m.fingerprint, m.txindexFrom⟩

/-- What the chain decides of the tables and the metadata. -/
structure View where
  state : AList fun _ : Address ↦ Account
  undo : AList fun _ : Nat ↦ Bytes
  chainworkCkpt : AList fun _ : Nat ↦ Arr 32
  txindex : AList fun _ : Arr 16 ↦ Nat × Nat
  core : Core

/-- The view of tables with their metadata. -/
def Tables.view (t : Tables) (m : Meta) : View :=
  ⟨t.state, t.undo, t.chainworkCkpt, t.txindex, m.core⟩

/-- The view of tables with the metadata stored in them. -/
def Tables.settled (t : Tables) : Option View := t.info.map t.view

namespace Committer

open Prog

/-- The tables that are open: those of the transaction, if there is one. -/
def tables (c : Committer) : Tables := c.txn.getD c.disk.db.tables

/-- What is open, seen by the chain. -/
def view (c : Committer) : View := c.tables.view c.info

/-! ## Files -/

/-- Two committers that differ in the files and the metadata. -/
structure SameDb (c c' : Committer) : Prop where
  db : c'.disk.db = c.disk.db
  txn : c'.txn = c.txn
  cfg : c'.cfg = c.cfg
  mode : c'.mode = c.mode
  poisoned : c'.poisoned = c.poisoned
  replayFloor : c'.replayFloor = c.replayFloor

instance : IsPreorder Committer SameDb where
  refl _ := ⟨rfl, rfl, rfl, rfl, rfl, rfl⟩
  trans _ _ _ h h' :=
    ⟨h'.db.trans h.db, h'.txn.trans h.txn, h'.cfg.trans h.cfg, h'.mode.trans h.mode,
      h'.poisoned.trans h.poisoned, h'.replayFloor.trans h.replayFloor⟩

/-- Two committers that differ in the files, and in what is kept of them. -/
structure Same (c c' : Committer) : Prop extends SameDb c c' where
  core : c'.info.core = c.info.core

instance : IsPreorder Committer Same where
  refl c := ⟨refl_of SameDb c, rfl⟩
  trans _ _ _ h h' := ⟨trans_of SameDb h.toSameDb h'.toSameDb, h'.core.trans h.core⟩

variable {c c' : Committer} {F : StoreError → Committer → Prop}

/-- A disk written on the way holds the same database. -/
theorem Same.trail {d : Disk} (h : ∃ c', Same c c' ∧ c'.disk = d) : d.db = c.disk.db := by
  obtain ⟨c', hsame, rfl⟩ := h
  exact hsame.db

theorem Same.tables (h : Same c c') : c'.tables = c.tables := by
  rw [Committer.tables, Committer.tables, h.txn, h.db]

theorem Same.view (h : Same c c') : c'.view = c.view := by
  rw [Committer.view, Committer.view, h.tables, Tables.view, Tables.view, h.core]

/-- A write to the files. -/
theorem same_onDisk {f : Disk → Disk} (h : ∀ d, (f d).db = d.db) :
    Within disk Same F (onDisk f) :=
  .write fun c ↦ ⟨⟨h c.disk, rfl, rfl, rfl, rfl, rfl⟩, rfl⟩

theorem same_onMeta {f : Meta → Meta} (h : ∀ m, (f m).core = m.core) :
    Within disk Same F (onMeta f) :=
  .alter fun c ↦ ⟨⟨rfl, rfl, rfl, rfl, rfl, rfl⟩, h c.info⟩

theorem same_syncHdr : Within disk Same F syncHdr := by
  refine .bind .peek fun c ↦ .ite ?_ (.pure _)
  have hdone : Within disk Same F (alter fun c ↦ { c with dirtyHdr := false } : Op Unit) :=
    .alter fun _ ↦ ⟨⟨rfl, rfl, rfl, rfl, rfl, rfl⟩, rfl⟩
  split
  · exact .bind (same_onDisk fun _ ↦ rfl) fun _ ↦ hdone
  · exact hdone

theorem same_syncBody : Within disk Same F syncBody := by
  refine .bind .peek fun c ↦ .ite ?_ (.pure _)
  have hdone : Within disk Same F (alter fun c ↦ { c with dirtyBody := false } : Op Unit) :=
    .alter fun _ ↦ ⟨⟨rfl, rfl, rfl, rfl, rfl, rfl⟩, rfl⟩
  split
  · exact .bind (same_onDisk fun _ ↦ rfl) fun _ ↦ .bind (same_onDisk fun _ ↦ rfl) fun _ ↦
      .bind (same_onMeta fun _ ↦ rfl) fun _ ↦ hdone
  · exact hdone

theorem same_barrier : Within disk Same F barrier := .bind same_syncHdr fun _ ↦ same_syncBody

theorem same_ensureSegments (seg : Nat) : Within disk Same F (ensureSegments seg) := by
  have hset : ∀ s, Within disk Same F (alter fun c ↦ { c with seg := s } : Op Unit) :=
    fun s ↦ .alter fun _ ↦ ⟨⟨rfl, rfl, rfl, rfl, rfl, rfl⟩, rfl⟩
  have hcreate : Within disk Same F (do
      onDisk fun d ↦ { d with hdr := Disk.create d.hdr seg }
      onDisk fun d ↦ { d with body := Disk.create d.body seg }
      onDisk fun d ↦ { d with bidx := Disk.create d.bidx seg }
      alter fun c ↦ { c with seg := some seg }) :=
    .bind (same_onDisk fun _ ↦ rfl) fun _ ↦ .bind (same_onDisk fun _ ↦ rfl) fun _ ↦
      .bind (same_onDisk fun _ ↦ rfl) fun _ ↦ hset _
  refine .bind .peek fun _ ↦ .ite (.ite ?_ hcreate) (.pure _)
  exact .bind same_barrier fun _ ↦ .bind (hset _) fun _ ↦ hcreate

theorem same_enterSegment (b : BlockToCommit) : Within disk Same F (enterSegment b) := by
  refine .bind .peek fun _ ↦ .bind (same_ensureSegments _) fun _ ↦ .ite ?_ (.pure _)
  exact same_onMeta fun _ ↦ rfl

theorem same_writeHeader (b : BlockToCommit) : Within disk Same F (writeHeader b) :=
  .bind (same_onDisk fun _ ↦ rfl) fun _ ↦ .alter fun _ ↦ ⟨⟨rfl, rfl, rfl, rfl, rfl, rfl⟩, rfl⟩

theorem same_writeBody (b : BlockToCommit) :
    Within disk Same (fun _ _ ↦ True) (writeBody b) :=
  .bind .peek fun _ ↦ .bind (.require fun _ _ ↦ trivial) fun _ ↦ .bind (same_onDisk fun _ ↦ rfl) fun _ ↦
    .bind (same_onDisk fun _ ↦ rfl) fun _ ↦ .bind (same_onMeta fun _ ↦ rfl) fun _ ↦
      .alter fun _ ↦ ⟨⟨rfl, rfl, rfl, rfl, rfl, rfl⟩, rfl⟩

theorem same_overwriteHeaders (apply : List BlockToCommit) :
    Within disk Same F (overwriteHeaders apply) :=
  .bind (.forEach (fun _ ↦ .bind (same_ensureSegments _) fun _ ↦ same_writeHeader _) apply)
    fun _ ↦ same_syncHdr

/-! ## The database -/

/-- What a seal may do to the database besides its commit: bookkeeping of the tables, a
savepoint, a row that names it with the oldest rows dropped, and with their savepoints. -/
inductive Upkeep (keep : Nat) (db : Db) : Db → Prop
  | refl : Upkeep keep db db
  | store {db' : Db} {t : Tables} : Upkeep keep db db' → t.settled = db'.tables.settled →
      t.stateCkpt = db'.tables.stateCkpt → Upkeep keep db (db'.commit t)
  | savepoint {db' : Db} : Upkeep keep db db' → Upkeep keep db db'.persistentSavepoint.2
  | row {db' : Db} {m : Meta} : Upkeep keep db db' → db'.tables.info = some m →
      0 < m.hdrWatermark → (∀ h ∈ db'.tables.stateCkpt, h < m.tip.height) →
      Upkeep keep db (db'.persistentSavepoint.2.commit
        (withCheckpoint keep m.tip.height db'.nextSavepoint db'.tables).1)
  | checkpoint {db' : Db} {m : Meta} : Upkeep keep db db' → db'.tables.info = some m →
      0 < m.hdrWatermark → (∀ h ∈ db'.tables.stateCkpt, h < m.tip.height) →
      Upkeep keep db
        ((withCheckpoint keep m.tip.height db'.nextSavepoint db'.tables).2.foldl
          Db.deletePersistentSavepoint (db'.persistentSavepoint.2.commit
            (withCheckpoint keep m.tip.height db'.nextSavepoint db'.tables).1))

theorem tables_foldl_deletePersistentSavepoint (ids : List Nat) (db : Db) :
    (ids.foldl Db.deletePersistentSavepoint db).tables = db.tables := by
  induction ids generalizing db with
  | nil => rfl
  | cons id ids ih => exact ih _

/-- Upkeep does not show. -/
theorem Upkeep.settled {keep : Nat} {db db' : Db} (h : Upkeep keep db db') :
    db'.tables.settled = db.tables.settled := by
  induction h with
  | refl => rfl
  | store _ heq _ ih => exact heq.trans ih
  | savepoint _ ih => exact ih
  | row _ _ _ _ ih => exact ih
  | checkpoint _ _ _ _ ih =>
    rw [tables_foldl_deletePersistentSavepoint]
    exact ih

theorem Upkeep.trans {keep : Nat} {db db' db'' : Db} (h : Upkeep keep db db')
    (h' : Upkeep keep db' db'') : Upkeep keep db db'' := by
  induction h' with
  | refl => exact h
  | store _ hview hckpt ih => exact .store ih hview hckpt
  | savepoint _ ih => exact .savepoint ih
  | row _ hm hpos habove ih => exact .row ih hm hpos habove
  | checkpoint _ hm hpos habove ih => exact .checkpoint ih hm hpos habove

/-- Nothing is open, and the metadata stored are those in memory. -/
structure AtRest (c : Committer) : Prop where
  txn : c.txn = none
  stored : ∃ m, c.disk.db.tables.info = some m ∧ m.core = c.info.core
  replayFloor : c.replayFloor = lowestCheckpoint c.disk.db.tables

theorem AtRest.settled (h : c.AtRest) : c.disk.db.tables.settled = some c.view := by
  obtain ⟨m, hm, hcore⟩ := h.stored
  rw [Tables.settled, hm, view, tables, h.txn]
  show some (Tables.view _ m) = _
  rw [Tables.view, hcore]
  rfl

/-- A committer at rest after upkeep. -/
structure Tended (c c' : Committer) : Prop where
  rest : c'.AtRest
  upkeep : Upkeep c.cfg.stateCkptKeep c.disk.db c'.disk.db
  cfg : c'.cfg = c.cfg
  mode : c'.mode = c.mode
  poisoned : c'.poisoned = c.poisoned
  core : c'.info.core = c.info.core

/-- Upkeep of a committer, as long as it is at rest. -/
def Tends (c c' : Committer) : Prop := c.AtRest → Tended c c'

instance : IsPreorder Committer Tends where
  refl _ hrest := ⟨hrest, .refl, rfl, rfl, rfl, rfl⟩
  trans _ _ _ h h' hrest := by
    have h := h hrest
    have h' := h' h.rest
    exact ⟨h'.rest, h.upkeep.trans (h.cfg ▸ h'.upkeep), h'.cfg.trans h.cfg, h'.mode.trans h.mode,
      h'.poisoned.trans h.poisoned, h'.core.trans h.core⟩

/-- Upkeep that leaves the stored metadata alone. -/
theorem AtRest.tended (h : c.AtRest) {db' : Db} (hup : Upkeep c.cfg.stateCkptKeep c.disk.db db')
    (hinfo : db'.tables.info = c.disk.db.tables.info) :
    c.Tended { c with
      disk := { c.disk with db := db' }
      replayFloor := lowestCheckpoint db'.tables } := by
  refine ⟨⟨h.txn, ?_, rfl⟩, hup, rfl, rfl, rfl, rfl⟩
  rw [hinfo]
  exact h.stored

/-- A checkpoint that is due lies above every row there is. -/
theorem lt_of_checkpointDue {interval tip : Nat} {t : Tables} (hinterval : interval ≠ 0)
    (hdue : checkpointDue interval tip t ≠ false) {h : Nat} (hh : h ∈ t.stateCkpt) : h < tip := by
  have hh : h ∈ t.stateCkpt.keys := hh
  unfold checkpointDue at hdue
  split at hdue
  case h_1 top htop =>
    have hle : h ≤ top := (List.max?_eq_some_iff.mp htop).2 h hh
    have := of_decide_eq_true (Bool.eq_true_of_not_eq_false hdue)
    omega
  case h_2 hnone =>
    rw [List.max?_eq_none_iff.mp hnone] at hh
    cases hh

theorem tends_maybeCheckpoint : Within disk Tends F maybeCheckpoint := by
  intro c
  unfold maybeCheckpoint onDb onDisk refreshReplayFloor
  simp only [wp_bind, wp_peek, wp_ite, wp_alter, wp_write, wp_pure, not_or]
  refine ⟨fun _ ↦ refl_of Tends c, ?_⟩
  rintro ⟨hinterval, hpos, hdue⟩
  have hup : c.AtRest →
      Upkeep c.cfg.stateCkptKeep c.disk.db (c.disk.db.persistentSavepoint.2.commit
        (withCheckpoint c.cfg.stateCkptKeep c.info.tip.height c.disk.db.nextSavepoint
          c.disk.db.tables).1) ∧
      Upkeep c.cfg.stateCkptKeep c.disk.db
        ((withCheckpoint c.cfg.stateCkptKeep c.info.tip.height c.disk.db.nextSavepoint
          c.disk.db.tables).2.foldl Db.deletePersistentSavepoint
            (c.disk.db.persistentSavepoint.2.commit (withCheckpoint c.cfg.stateCkptKeep
              c.info.tip.height c.disk.db.nextSavepoint c.disk.db.tables).1)) := by
    intro hrest
    obtain ⟨m, hm, hcore⟩ := hrest.stored
    have htip : m.tip = c.info.tip := congrArg Core.tip hcore
    have hwm : m.hdrWatermark = c.info.hdrWatermark := congrArg Core.hdrWatermark hcore
    have habove : ∀ h ∈ c.disk.db.tables.stateCkpt, h < m.tip.height :=
      fun h ↦ htip ▸ lt_of_checkpointDue hinterval hdue
    rw [← htip]
    exact ⟨.row .refl hm (by omega) habove, .checkpoint .refl hm (by omega) habove⟩
  refine ⟨⟨_, fun hrest ↦ hrest.tended (.savepoint .refl) rfl, rfl⟩,
    ⟨_, fun hrest ↦ hrest.tended (hup hrest).1 rfl, rfl⟩, fun _ ↦ ?_, fun hnone ↦ ?_⟩
  · have hckpt := fun hrest : c.AtRest ↦ hrest.tended (hup hrest).2 (by
      rw [tables_foldl_deletePersistentSavepoint]
      rfl)
    exact ⟨⟨_, hckpt, rfl⟩, hckpt⟩
  · exact fun hrest ↦ hrest.tended (hup hrest).1 rfl

/-- Storing the metadata in memory, with other tables that show the same. -/
theorem AtRest.store (h : c.AtRest) {t : Tables} {m : Meta} (hcore : m.core = c.info.core)
    (hview : ∀ m, t.view m = c.disk.db.tables.view m) (hckpt : t.stateCkpt = c.disk.db.tables.stateCkpt) :
    c.Tended { c with
      disk := { c.disk with db := c.disk.db.commit { t with info := some m } }
      info := m } := by
  obtain ⟨m₀, hm₀, hcore₀⟩ := h.stored
  have hup : Upkeep c.cfg.stateCkptKeep c.disk.db
      (c.disk.db.commit { t with info := some m }) := by
    refine .store .refl ?_ hckpt
    rw [h.settled, Tables.settled, Option.map_some, view, tables, h.txn]
    show some (t.view m) = some _
    rw [hview, Tables.view, hcore]
    rfl
  refine ⟨⟨h.txn, ⟨m, rfl, rfl⟩, h.replayFloor.trans ?_⟩, hup, rfl, rfl, rfl, hcore⟩
  show lowestCheckpoint c.disk.db.tables = lowestCheckpoint { t with info := some m }
  rw [lowestCheckpoint, lowestCheckpoint, hckpt]

/-- A write to the files of a committer at rest. -/
theorem tends_onDisk {f : Disk → Disk} (h : ∀ d, (f d).db = d.db) :
    Within disk Tends F (onDisk f) :=
  .write fun c hrest ↦ ⟨⟨hrest.txn, (h c.disk).symm ▸ hrest.stored,
    (h c.disk).symm ▸ hrest.replayFloor⟩, (h c.disk).symm ▸ .refl, rfl, rfl, rfl, rfl⟩

/-- Upkeep that fails on a poisoned committer only. -/
def TendsUnlessPoisoned (p : Op Unit) : Prop := Within disk Tends (fun _ c ↦ c.poisoned = true) p

/-- What leaves the database alone leaves a committer at rest. -/
theorem Same.tends (h : Same c c') : Tends c c' := fun hrest ↦
  ⟨⟨h.txn.trans hrest.txn, by rw [h.db, h.core]; exact hrest.stored,
    by rw [h.replayFloor, h.db, hrest.replayFloor]⟩, h.db ▸ .refl, h.cfg, h.mode, h.poisoned,
    h.core⟩

theorem tends_of_same {α : Type} {p : Op α} (h : Within disk Same F p) :
    Within disk Tends F p := by
  refine fun c ↦ (h c).imp (fun _ hd ↦ ?_) (fun _ _ hs ↦ hs.tends) fun _ _ hs ↦ ⟨hs.1.tends, hs.2⟩
  obtain ⟨c', hs, hd⟩ := hd
  exact ⟨c', hs.tends, hd⟩

/-- The rows saved before the headers are overwritten. -/
theorem tends_writeHdrUndo (first last : Nat) : Within disk Tends F (writeHdrUndo first last) := by
  refine .ite (.pure _) ?_
  intro c
  simp only [wp_bind, wp_peek, onDb, onDisk, wp_write]
  have hstored : Tends c { c with
      disk := { c.disk with
        db := c.disk.db.commit { c.disk.db.tables with
          hdrUndo := (hdrUndoRows c.disk first last).foldl (fun m row ↦ m.insert row.1 row.2)
            c.disk.db.tables.hdrUndo } } } := fun hrest ↦
    ⟨⟨hrest.txn, hrest.stored, hrest.replayFloor⟩, .store .refl rfl rfl, rfl, rfl, rfl, rfl⟩
  exact ⟨⟨_, hstored, rfl⟩, hstored⟩

theorem tends_guard : TendsUnlessPoisoned guard := fun c ↦
  wp_bind.mpr (wp_peek.mpr (wp_require.mpr
    ⟨fun _ ↦ refl_of Tends c, fun h ↦ ⟨refl_of Tends c, Bool.eq_true_of_not_eq_false h⟩⟩))

theorem tends_pruneTo (floor : Nat) : TendsUnlessPoisoned (pruneTo floor) := by
  refine .bind tends_guard fun _ ↦ ?_
  have hunlink : ∀ l, TendsUnlessPoisoned (forEach (fun s ↦ do
      onDisk fun d ↦ { d with body := d.body.erase s }
      onDisk fun d ↦ { d with bidx := d.bidx.erase s }) l) :=
    .forEach fun s ↦ .bind (tends_onDisk fun _ ↦ rfl) fun _ ↦ tends_onDisk fun _ ↦ rfl
  intro c
  simp only [wp_bind, wp_peek, wp_ite, wp_pure, onMeta, onDb, onDisk, wp_alter, wp_write]
  refine ⟨fun _ ↦ refl_of Tends c, fun _ ↦ ?_⟩
  -- The floor is stored before the first file goes.
  have hstored : Tends c { c with
      disk := { c.disk with
        db := c.disk.db.commit { c.disk.db.tables with
          info := some { c.info with pruneFloor := segFirstHeight (segOf floor) } } }
      info := { c.info with pruneFloor := segFirstHeight (segOf floor) } } :=
    fun hrest ↦ hrest.store rfl (fun _ ↦ rfl) rfl
  exact ⟨⟨_, hstored, rfl⟩, (hunlink _).wp_of_rel hstored⟩

theorem tends_maybePrune : TendsUnlessPoisoned maybePrune :=
  .bind .peek fun _ ↦ .ite (tends_pruneTo _) (.pure _)

section

variable [Crypto]

/-- Rebuilding the hash index leaves the rest alone. -/
theorem foldl_reindexHeight (readHeader : Nat → Option RawHeader) (prefixBytes : Nat)
    (heights : List Nat) (t : Tables) (m : Meta) :
    ∃ hashIndex hashIndexFull n,
      heights.foldl (fun x h ↦ reindexHeight readHeader prefixBytes x.1 x.2 h) (t, m) =
        ({ t with hashIndex, hashIndexFull }, { m with hashIndexFullRows := n }) := by
  induction heights generalizing t m with
  | nil => exact ⟨_, _, _, rfl⟩
  | cons h heights ih =>
    obtain ⟨hi, hf, n, heq⟩ : ∃ hashIndex hashIndexFull n,
        reindexHeight readHeader prefixBytes t m h =
          ({ t with hashIndex, hashIndexFull }, { m with hashIndexFullRows := n }) := by
      unfold reindexHeight
      dsimp only
      split
      · exact ⟨t.hashIndex, t.hashIndexFull, m.hashIndexFullRows, rfl⟩
      split
      · exact ⟨t.hashIndex, _, _, rfl⟩
      · exact ⟨_, t.hashIndexFull, m.hashIndexFullRows, rfl⟩
    rw [List.foldl_cons, heq]
    exact ih _ _

theorem tends_reindex : Within disk Tends F reindex := by
  intro c
  unfold reindex onDb onDisk onMeta
  simp only [wp_bind, wp_peek]
  obtain ⟨hi, hf, n, heq⟩ := foldl_reindexHeight c.disk.readHeader c.cfg.hashPrefixBytes
    (List.range c.info.hdrWatermark)
    { c.disk.db.tables with hashIndex := ∅, hashIndexFull := ∅ }
    { c.info with hashIndexFullRows := 0 }
  rw [heq]
  simp only [wp_bind, wp_peek, wp_alter, wp_write]
  have hstored := fun hrest : c.AtRest ↦ hrest.store
    (t := { c.disk.db.tables with hashIndex := hi, hashIndexFull := hf })
    (m := { c.info with hashIndexFullRows := n, indexState := 0, staleIndexCount := 0 })
    rfl (fun _ ↦ rfl) rfl
  exact ⟨⟨_, hstored, rfl⟩, hstored⟩

theorem tends_maybeRebuildIndex : TendsUnlessPoisoned maybeRebuildIndex :=
  .bind .peek fun _ ↦ .ite (.pure _) (.bind tends_guard fun _ ↦ tends_reindex)

end

/-! ## Seals -/

/-- A committer between two calls. -/
structure Tidy (c : Committer) : Prop where
  stored : c.txn = none → ∃ m, c.disk.db.tables.info = some m ∧ m.core = c.info.core
  stateCkpt : c.tables.stateCkpt = c.disk.db.tables.stateCkpt
  replayFloor : c.replayFloor = lowestCheckpoint c.disk.db.tables

theorem Tidy.same (h : c.Tidy) (hsame : Same c c') : c'.Tidy where
  stored hnone := by
    rw [hsame.db, hsame.core]
    exact h.stored (hsame.txn ▸ hnone)
  stateCkpt := by rw [hsame.tables, hsame.db, h.stateCkpt]
  replayFloor := by rw [hsame.replayFloor, hsame.db, h.replayFloor]

theorem AtRest.tidy (h : c.AtRest) : c.Tidy where
  stored _ := h.stored
  stateCkpt := by rw [tables, h.txn, Option.getD_none]
  replayFloor := h.replayFloor

theorem Tidy.atRest (h : c.Tidy) (hnone : c.txn = none) : c.AtRest :=
  ⟨hnone, h.stored hnone, h.replayFloor⟩

/-- The database once what is open is committed. -/
inductive Seals (c : Committer) : Db → Prop
  | idle : c.txn = none → Seals c c.disk.db
  | commit {t : Tables} {m : Meta} : c.txn = some t → m.core = c.info.core →
      Seals c (c.disk.db.commit { t with info := some m })

/-- A committer after a seal: its database is the one sealed, and what upkeep made of it. -/
structure Sealed (c c' : Committer) : Prop where
  rest : c'.AtRest
  upkeep : ∃ db, c.Seals db ∧ Upkeep c.cfg.stateCkptKeep db c'.disk.db
  cfg : c'.cfg = c.cfg
  mode : c'.mode = c.mode
  poisoned : c'.poisoned = c.poisoned
  core : c'.info.core = c.info.core

theorem Sealed.tended {c'' : Committer} (h : c.Sealed c') (ht : c'.Tended c'') : c.Sealed c'' where
  rest := ht.rest
  upkeep := by
    obtain ⟨db, hdb, hup⟩ := h.upkeep
    exact ⟨db, hdb, hup.trans (h.cfg ▸ ht.upkeep)⟩
  cfg := ht.cfg.trans h.cfg
  mode := ht.mode.trans h.mode
  poisoned := ht.poisoned.trans h.poisoned
  core := ht.core.trans h.core

/-- What a seal may be cut short at: before its commit, or after it. -/
def SealTrail (c : Committer) (d : Disk) : Prop :=
  d.db = c.disk.db ∨ ∃ db, c.Seals db ∧ Upkeep c.cfg.stateCkptKeep db d.db

section

variable [Crypto]

/-- What is seen to after the commit. -/
theorem tends_publish : TendsUnlessPoisoned (do
    maybeCheckpoint
    maybePrune
    maybeRebuildIndex) :=
  .bind tends_maybeCheckpoint fun _ ↦ .bind tends_maybePrune fun _ ↦ tends_maybeRebuildIndex

/-- A seal commits what is open, and fails on a poisoned committer only. -/
theorem sealBatch_spec (hc : c.Tidy) : (sealBatch true).wp c.SealTrail (fun _ ↦ c.Sealed)
    (fun _ c' ↦ c' = c ∧ c.poisoned = true) c := by
  unfold sealBatch guard
  simp only [wp_bind, wp_peek, wp_ite, wp_pure, wp_require, if_true]
  refine ⟨fun hok ↦ ⟨fun hidle ↦ ?_, fun _ ↦ ?_⟩, fun hbad ↦ ⟨trivial, Bool.eq_true_of_not_eq_false hbad⟩⟩
  · exact ⟨hc.atRest (Option.isNone_iff_eq_none.mp hidle.1), ⟨_,
      .idle (Option.isNone_iff_eq_none.mp hidle.1), .refl⟩, rfl, rfl, rfl, rfl⟩
  refine (same_barrier (F := fun _ _ ↦ False) c).imp
    (fun d hd ↦ .inl (Same.trail hd)) (fun _ c₁ hsame ↦ ?_) fun _ _ h ↦ h.2.elim
  have hfinish : ∀ c₂, c.Sealed c₂ → (do
      maybeCheckpoint
      maybePrune
      maybeRebuildIndex : Op Unit).wp c.SealTrail (fun _ ↦ c.Sealed)
      (fun _ c' ↦ c' = c ∧ c.poisoned = true) c₂ := by
    intro c₂ hc₂
    refine (tends_publish c₂).imp (fun d hd ↦ .inr ?_)
      (fun _ c' ht ↦ hc₂.tended (ht hc₂.rest)) fun _ c' h ↦ ?_
    · obtain ⟨c', ht, hd⟩ := hd
      exact hd ▸ (hc₂.tended (ht hc₂.rest)).upkeep
    · have := (hc₂.tended (h.1 hc₂.rest)).poisoned
      rw [h.2, hok] at this
      cases this
  rw [wp_bind, wp_peek]
  split
  case h_1 t ht =>
    have ht : c.txn = some t := hsame.txn ▸ ht
    have hdb : c.Seals (c₁.disk.db.commit { t with info := some c₁.info }) :=
      hsame.db ▸ .commit ht hsame.core
    have hckpt := hc.stateCkpt
    rw [tables, ht, Option.getD_some] at hckpt
    rw [wp_bind, onDb, onDisk, wp_write]
    refine ⟨.inr ⟨_, hdb, .refl⟩, ?_⟩
    rw [wp_bind, wp_alter, wp_bind, wp_alter]
    refine hfinish _ ?_
    refine ⟨⟨rfl, ⟨_, rfl, rfl⟩, ?_⟩, ⟨_, hdb, .refl⟩, hsame.cfg, hsame.mode, hsame.poisoned,
      hsame.core⟩
    show c₁.replayFloor = lowestCheckpoint { t with info := some c₁.info }
    rw [hsame.replayFloor, hc.replayFloor, lowestCheckpoint, lowestCheckpoint, hckpt]
  case h_2 hnone =>
    have hnone : c.txn = none := hsame.txn ▸ hnone
    have hrest := (hc.same hsame).atRest (hsame.txn.trans hnone)
    rw [wp_bind, wp_alter]
    refine hfinish _ ?_
    exact ⟨⟨hrest.txn, hrest.stored, hrest.replayFloor⟩, ⟨_, .idle hnone, hsame.db ▸ .refl⟩,
      hsame.cfg, hsame.mode, hsame.poisoned, hsame.core⟩

end

end Committer

end Plaine.Storage

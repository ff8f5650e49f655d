import Plaine.Lib.Table
import Plaine.Storage.Calls

/-!
# Between two calls

Between two calls of a committer that may go on, no header file has a write pending but the one that
is open, and that one only while it is marked dirty; and the header undo log is empty: in the tables
committed, in those that are open, and in every savepoint, since a checkpoint that is restored brings
its log back.

Files are followed first, then the database.  A reorg breaks the second half and mends it with its
commit; where it fails on the way, it leaves a committer that is poisoned.
-/

namespace Plaine.Storage

open Plaine.Lib Plaine.Consensus

/-- Files without pending writes. -/
def Synced (files : AList fun _ : Nat ↦ Seg) : Prop := ∀ seg s, files.lookup seg = some s → s.pending = []

namespace Disk

variable {files : AList fun _ : Nat ↦ Seg} {seg seg' : Nat} {s : Seg} {g : Seg → Seg}

/-- A file after a change of one file. -/
theorem lookup_update_eq_some (h : (update files seg g).lookup seg' = some s) :
    seg' = seg ∧ (∃ t, files.lookup seg = some t ∧ s = g t) ∨
      seg' ≠ seg ∧ files.lookup seg' = some s := by
  unfold update at h
  split at h
  case h_1 t ht =>
    rcases eq_or_ne seg' seg with rfl | hne
    · rw [AList.lookup_insert] at h
      exact .inl ⟨rfl, t, ht, (Option.some.inj h).symm⟩
    · rw [AList.lookup_insert_ne hne] at h
      exact .inr ⟨hne, h⟩
  case h_2 hnone =>
    refine .inr ⟨?_, h⟩
    rintro rfl
    cases hnone.symm.trans h

theorem lookup_create_eq_some (h : (create files seg).lookup seg' = some s) :
    files.lookup seg' = some s ∨ s = .empty := by
  unfold create at h
  split at h
  case isTrue => exact .inl h
  case isFalse =>
    rcases eq_or_ne seg' seg with rfl | hne
    · rw [AList.lookup_insert] at h
      exact .inr (Option.some.inj h).symm
    · rw [AList.lookup_insert_ne hne] at h
      exact .inl h

end Disk

namespace Synced

variable {files : AList fun _ : Nat ↦ Seg}

theorem create (h : Synced files) (seg : Nat) : Synced (Disk.create files seg) := by
  intro seg' s hs
  rcases Disk.lookup_create_eq_some hs with hs | rfl
  · exact h seg' s hs
  · rfl

theorem sync (h : Synced files) (seg : Nat) : Synced (Disk.update files seg .sync) := by
  intro seg' s hs
  rcases Disk.lookup_update_eq_some hs with ⟨-, t, -, rfl⟩ | ⟨-, hs⟩
  · rfl
  · exact h seg' s hs

end Synced

namespace Committer

open Prog

variable {c c' : Committer} {F : StoreError → Committer → Prop}

/-! ## Files -/

/-- Only the file that is open may have a write pending, while it is dirty. -/
def OpenDirty (c : Committer) : Prop := ∀ seg s, c.disk.hdr.lookup seg = some s →
  s.pending = [] ∨ c.seg = some seg ∧ c.dirtyHdr = true

theorem OpenDirty.of_synced (h : Synced c.disk.hdr) : c.OpenDirty := fun seg s hs ↦ .inl (h seg s hs)

/-- Without an open file there is none. -/
theorem OpenDirty.synced_of_seg_none (h : c.OpenDirty) (hseg : c.seg = none) : Synced c.disk.hdr := by
  intro seg s hs
  refine (h seg s hs).resolve_right ?_
  rintro ⟨hopen, -⟩
  cases hseg.symm.trans hopen

theorem OpenDirty.synced_of_clean (h : c.OpenDirty) (hclean : c.dirtyHdr ≠ true) : Synced c.disk.hdr := by
  intro seg s hs
  exact (h seg s hs).resolve_right fun hdirty ↦ hclean hdirty.2

/-- Steps on the files that leave none pending that was not. -/
structure Syncs (c c' : Committer) : Prop extends SameDb c c' where
  synced : Synced c.disk.hdr → Synced c'.disk.hdr

instance : IsPreorder Committer Syncs where
  refl c := ⟨refl_of SameDb c, id⟩
  trans _ _ _ h h' := ⟨trans_of SameDb h.toSameDb h'.toSameDb, h'.synced ∘ h.synced⟩

/-- Steps on the files. -/
structure Files (c c' : Committer) : Prop extends SameDb c c' where
  openDirty : c.OpenDirty → c'.OpenDirty

instance : IsPreorder Committer Files where
  refl c := ⟨refl_of SameDb c, id⟩
  trans _ _ _ h h' := ⟨trans_of SameDb h.toSameDb h'.toSameDb, h'.openDirty ∘ h.openDirty⟩

/-- A write to the other files. -/
theorem syncs_onDisk {f : Disk → Disk} (hhdr : ∀ d, (f d).hdr = d.hdr) (hdb : ∀ d, (f d).db = d.db) :
    Within disk Syncs F (onDisk f) :=
  .write fun c ↦ ⟨⟨hdb c.disk, rfl, rfl, rfl, rfl, rfl⟩, fun h ↦ by
    show Synced (f c.disk).hdr
    rwa [hhdr]⟩

theorem files_onDisk {f : Disk → Disk} (hhdr : ∀ d, (f d).hdr = d.hdr) (hdb : ∀ d, (f d).db = d.db) :
    Within disk Files F (onDisk f) :=
  .write fun c ↦ ⟨⟨hdb c.disk, rfl, rfl, rfl, rfl, rfl⟩, fun h seg s hs ↦ by
    refine h seg s ?_
    rwa [← hhdr]⟩

theorem files_onMeta (f : Meta → Meta) : Within disk Files F (onMeta f) :=
  .alter fun _ ↦ ⟨⟨rfl, rfl, rfl, rfl, rfl, rfl⟩, fun h ↦ h⟩

theorem syncs_syncBody : Within disk Syncs F syncBody := by
  refine .bind .peek fun c ↦ .ite ?_ (.pure _)
  have hdone : Within disk Syncs F (alter fun c ↦ { c with dirtyBody := false } : Op Unit) :=
    .alter fun _ ↦ ⟨⟨rfl, rfl, rfl, rfl, rfl, rfl⟩, id⟩
  split
  · exact .bind (syncs_onDisk (fun _ ↦ rfl) fun _ ↦ rfl) fun _ ↦
      .bind (syncs_onDisk (fun _ ↦ rfl) fun _ ↦ rfl) fun _ ↦
        .bind (.alter fun _ ↦ ⟨⟨rfl, rfl, rfl, rfl, rfl, rfl⟩, id⟩) fun _ ↦ hdone
  · exact hdone

theorem files_syncBody : Within disk Files F syncBody := by
  refine .bind .peek fun c ↦ .ite ?_ (.pure _)
  have hdone : Within disk Files F (alter fun c ↦ { c with dirtyBody := false } : Op Unit) :=
    .alter fun _ ↦ ⟨⟨rfl, rfl, rfl, rfl, rfl, rfl⟩, fun h ↦ h⟩
  split
  · exact .bind (files_onDisk (fun _ ↦ rfl) fun _ ↦ rfl) fun _ ↦
      .bind (files_onDisk (fun _ ↦ rfl) fun _ ↦ rfl) fun _ ↦ .bind (files_onMeta _) fun _ ↦ hdone
  · exact hdone

/-- After a sync of the open header file no header write is pending. -/
theorem syncHdr_spec (c : Committer) : syncHdr.wp (fun d ↦ ∃ c', Files c c' ∧ c'.disk = d)
    (fun _ c' ↦ Files c c' ∧ (c.OpenDirty → Synced c'.disk.hdr)) (fun e c' ↦ Files c c' ∧ F e c') c := by
  unfold syncHdr onDisk
  rw [wp_bind, wp_peek, wp_ite, wp_pure]
  refine ⟨fun _ ↦ ?_, fun hclean ↦ ⟨refl_of Files c, fun h ↦ h.synced_of_clean hclean⟩⟩
  cases hseg : c.seg with
  | none =>
    simp only [wp_alter]
    have hsynced : c.OpenDirty → Synced c.disk.hdr := fun h ↦ h.synced_of_seg_none hseg
    exact ⟨⟨⟨rfl, rfl, rfl, rfl, rfl, rfl⟩, fun h ↦ .of_synced (hsynced h)⟩, hsynced⟩
  | some seg =>
    simp only [wp_bind, wp_write, wp_alter]
    have hsynced : c.OpenDirty → Synced (Disk.update c.disk.hdr seg .sync) := by
      intro h seg' s hs
      rcases Disk.lookup_update_eq_some hs with ⟨-, t, -, rfl⟩ | ⟨hne, hs⟩
      · rfl
      · refine (h seg' s hs).resolve_right ?_
        rintro ⟨hopen, -⟩
        exact hne (Option.some.inj (hopen.symm.trans hseg))
    have hfiles (dirty : Bool) : Files c { c with
        disk := { c.disk with hdr := Disk.update c.disk.hdr seg .sync }
        dirtyHdr := dirty } :=
      ⟨⟨rfl, rfl, rfl, rfl, rfl, rfl⟩, fun h ↦ .of_synced (hsynced h)⟩
    exact ⟨⟨_, hfiles c.dirtyHdr, rfl⟩, hfiles false, hsynced⟩

/-- What comes after a sync. -/
theorem barrier_spec (c : Committer) : barrier.wp (fun d ↦ ∃ c', Files c c' ∧ c'.disk = d)
    (fun _ c' ↦ Files c c' ∧ (c.OpenDirty → Synced c'.disk.hdr)) (fun e c' ↦ Files c c' ∧ F e c') c := by
  unfold barrier
  rw [wp_bind]
  refine (syncHdr_spec c).imp (fun _ ↦ id) (fun _ c₁ h₁ ↦ ?_) fun _ _ ↦ id
  refine ((files_syncBody.wp_of_rel h₁.1).and (syncs_syncBody (F := F) c₁)).imp (fun _ h ↦ h.1)
    (fun _ c₂ h₂ ↦ ⟨h₂.1, fun h ↦ h₂.2.synced (h₁.2 h)⟩) fun _ _ h ↦ h.1

theorem files_barrier : Within disk Files F barrier := fun c ↦
  (barrier_spec c).imp (fun _ ↦ id) (fun _ _ h ↦ h.1) fun _ _ ↦ id

/-- A segment is entered once the one before is synced. -/
theorem ensureSegments_files (seg : Nat) (c : Committer) :
    (ensureSegments seg).wp (fun d ↦ ∃ c', Files c c' ∧ c'.disk = d)
      (fun _ c' ↦ Files c c' ∧ c'.seg = some seg) (fun e c' ↦ Files c c' ∧ F e c') c := by
  unfold ensureSegments
  rw [wp_bind, wp_peek, wp_ite, wp_pure]
  refine ⟨fun _ ↦ ?_, fun hsame ↦ ⟨refl_of Files c, not_not.mp hsame⟩⟩
  -- Nothing is pending when the new files are created.
  have hcreate (c₁ : Committer) (hsame : SameDb c c₁) (hsynced : c.OpenDirty → Synced c₁.disk.hdr) :
      (do
        onDisk fun d ↦ { d with hdr := Disk.create d.hdr seg }
        onDisk fun d ↦ { d with body := Disk.create d.body seg }
        onDisk fun d ↦ { d with bidx := Disk.create d.bidx seg }
        alter fun c ↦ { c with seg := some seg } : Op Unit).wp
      (fun d ↦ ∃ c', Files c c' ∧ c'.disk = d) (fun _ c' ↦ Files c c' ∧ c'.seg = some seg)
      (fun e c' ↦ Files c c' ∧ F e c') c₁ := by
    have hfiles (body bidx : AList fun _ : Nat ↦ Seg) (open' : Option Nat) : Files c { c₁ with
        disk := { c₁.disk with hdr := Disk.create c₁.disk.hdr seg, body, bidx }
        seg := open' } :=
      ⟨⟨hsame.db, hsame.txn, hsame.cfg, hsame.mode, hsame.poisoned, hsame.replayFloor⟩,
        fun h ↦ .of_synced ((hsynced h).create seg)⟩
    simp only [onDisk, wp_bind, wp_write, wp_alter]
    exact ⟨⟨_, hfiles _ _ c₁.seg, rfl⟩, ⟨_, hfiles _ _ c₁.seg, rfl⟩, ⟨_, hfiles _ _ c₁.seg, rfl⟩,
      hfiles _ _ _, trivial⟩
  dsimp only
  rw [wp_ite, wp_bind]
  refine ⟨fun _ ↦ ?_, fun hnone ↦ ?_⟩
  · refine (barrier_spec c).imp (fun _ ↦ id) (fun _ c₁ h₁ ↦ ?_) fun _ _ ↦ id
    rw [wp_bind, wp_alter]
    have hsame := h₁.1.toSameDb
    exact hcreate _ ⟨hsame.db, hsame.txn, hsame.cfg, hsame.mode, hsame.poisoned, hsame.replayFloor⟩ h₁.2
  · exact hcreate c (refl_of SameDb c) fun h ↦
      h.synced_of_seg_none (Option.not_isSome_iff_eq_none.mp hnone)

/-- The header write after that. -/
theorem files_writeHeader {b : BlockToCommit} (hfiles : Files c c') (hseg : c'.seg = some (segOf b.height)) :
    (writeHeader b).wp (fun d ↦ ∃ c', Files c c' ∧ c'.disk = d) (fun _ ↦ Files c)
      (fun e c' ↦ Files c c' ∧ F e c') c' := by
  unfold writeHeader onDisk
  rw [wp_bind, wp_write, wp_alter]
  have hwritten : Files c' { c' with
      disk := { c'.disk with
        hdr := Disk.update c'.disk.hdr (segOf b.height) fun s ↦ s.write (hdrOffset b.height) b.header.bytes }
      dirtyHdr := true } := by
    refine ⟨⟨rfl, rfl, rfl, rfl, rfl, rfl⟩, fun h seg s hs ↦ ?_⟩
    rcases Disk.lookup_update_eq_some hs with ⟨rfl, -⟩ | ⟨-, hs⟩
    · exact .inr ⟨hseg, rfl⟩
    · exact (h seg s hs).imp_right fun hopen ↦ ⟨hopen.1, rfl⟩
  exact ⟨⟨_, trans_of Files hfiles hwritten, rfl⟩, trans_of Files hfiles hwritten⟩

theorem enterSegment_files (b : BlockToCommit) (c : Committer) :
    (enterSegment b).wp (fun d ↦ ∃ c', Files c c' ∧ c'.disk = d)
      (fun _ c' ↦ Files c c' ∧ c'.seg = some (segOf b.height)) (fun e c' ↦ Files c c' ∧ F e c') c := by
  unfold enterSegment
  rw [wp_bind, wp_peek, wp_bind]
  refine (ensureSegments_files (segOf b.height) c).imp (fun _ ↦ id) (fun _ c₁ h₁ ↦ ?_) fun _ _ ↦ id
  rw [wp_ite, wp_pure, onMeta, wp_alter]
  have hsame := h₁.1.toSameDb
  exact ⟨fun _ ↦ ⟨⟨⟨hsame.db, hsame.txn, hsame.cfg, hsame.mode, hsame.poisoned, hsame.replayFloor⟩,
    h₁.1.openDirty⟩, h₁.2⟩, fun _ ↦ h₁⟩

theorem files_enterSegment (b : BlockToCommit) : Within disk Files F (enterSegment b) := fun c ↦
  (enterSegment_files b c).imp (fun _ ↦ id) (fun _ _ h ↦ h.1) fun _ _ ↦ id

theorem files_writeBody (b : BlockToCommit) : Within disk Files (fun _ _ ↦ True) (writeBody b) :=
  .bind .peek fun _ ↦ .bind (.require fun _ _ ↦ trivial) fun _ ↦
    .bind (files_onDisk (fun _ ↦ rfl) fun _ ↦ rfl) fun _ ↦
      .bind (files_onDisk (fun _ ↦ rfl) fun _ ↦ rfl) fun _ ↦ .bind (files_onMeta _) fun _ ↦
        .alter fun _ ↦ ⟨⟨rfl, rfl, rfl, rfl, rfl, rfl⟩, fun h ↦ h⟩

theorem files_overwriteHeaders (branch : List BlockToCommit) :
    Within disk Files F (overwriteHeaders branch) := by
  refine .bind (.forEach (fun b c ↦ ?_) branch) fun _ c ↦
    (syncHdr_spec c).imp (fun _ ↦ id) (fun _ _ h ↦ h.1) fun _ _ ↦ id
  rw [wp_bind]
  exact (ensureSegments_files (segOf b.height) c).imp (fun _ ↦ id)
    (fun _ _ h ↦ files_writeHeader h.1 h.2) fun _ _ ↦ id

end Committer

/-! ## The database -/

section

variable [Crypto]

theorem hdrUndo_applyDelta (t : Tables) (m : Meta) (d : StateDelta) (u : UndoRec) :
    (applyDelta t m d u).1.hdrUndo = t.hdrUndo := by
  unfold applyDelta
  dsimp only
  split <;> rfl

theorem hdrUndo_applyDeltas {rows : List (StateDelta × UndoRec)} {t t' : Tables} {m m' : Meta}
    (h : applyDeltas rows t m = .ok (t', m')) : t'.hdrUndo = t.hdrUndo := by
  induction rows generalizing t m with
  | nil =>
    cases h
    rfl
  | cons row rows ih =>
    obtain ⟨d, u⟩ := row
    rw [applyDeltas] at h
    split at h
    case isTrue => cases h
    case isFalse => exact (ih h).trans (hdrUndo_applyDelta t m d u)

/-- A block leaves the log alone. -/
theorem hdrUndo_applyBlock {readHeader : Nat → Option RawHeader} {cfg : StoreConfig}
    {b : BlockToCommit} {t t' : Tables} {m m' : Meta}
    (h : applyBlock readHeader cfg b t m = .ok (t', m')) : t'.hdrUndo = t.hdrUndo := by
  unfold applyBlock at h
  obtain ⟨⟨t₁, m₁⟩, hdeltas, h⟩ := Except.bind_eq_ok.mp h
  obtain rfl := congrArg Prod.fst (Except.ok.inj h)
  have hhash (t : Tables) (m : Meta) :
      (putHash readHeader cfg.hashPrefixBytes b t m).1.hdrUndo = t.hdrUndo := by
    unfold putHash
    dsimp only
    split
    · rfl
    · split
      · rfl
      · split <;> rfl
  have hchainwork (t : Tables) : (putChainwork b t).hdrUndo = t.hdrUndo := by
    unfold putChainwork
    split <;> rfl
  have htxids (t : Tables) (m : Meta) : (putTxids cfg.txindex b t m).1.hdrUndo = t.hdrUndo := by
    unfold putTxids
    split
    · split <;> rfl
    · rfl
  refine (htxids _ _).trans ((hchainwork _).trans ((hhash _ _).trans ?_))
  have hundo : (putUndo b t₁).hdrUndo = t₁.hdrUndo := rfl
  exact hundo.trans (hdrUndo_applyDeltas hdeltas)

theorem hdrUndo_rollbackHeights {heights : List Nat} {t t' : Tables} {m m' : Meta}
    (h : rollbackHeights heights t m = (.ok t', m')) : t'.hdrUndo = t.hdrUndo := by
  induction heights generalizing t m with
  | nil =>
    cases h
    rfl
  | cons k heights ih =>
    obtain ⟨t₁, m₁, hone, hrest⟩ := rollbackHeights_cons_eq_ok.mp h
    obtain ⟨_, _, _, -, -, -, _, _, _, -, -, rfl, -⟩ := rollbackHeight_eq_ok.mp hone
    have hrest := ih hrest
    exact hrest

omit [Crypto] in
theorem hdrUndo_foldl_dropHash (prefixBytes : Nat) (rows : List (Nat × Hash32)) (x : Tables × Meta) :
    (rows.foldl (fun x row ↦ Committer.dropHash prefixBytes x.1 x.2 row) x).1.hdrUndo =
      x.1.hdrUndo := by
  induction rows generalizing x with
  | nil => rfl
  | cons row rows ih =>
    refine (ih _).trans ?_
    unfold Committer.dropHash
    dsimp only
    split_ifs <;> rfl

end

/-- A database without a log, in the tables or in a savepoint. -/
structure Db.Unlogged (db : Db) : Prop where
  tables : db.tables.hdrUndo = ∅
  savepoints : ∀ id t, db.savepoints.lookup id = some t → t.hdrUndo = ∅

namespace Db.Unlogged

variable {db : Db} {t : Tables}

theorem commit (h : db.Unlogged) (ht : t.hdrUndo = ∅) : (db.commit t).Unlogged := ⟨ht, h.savepoints⟩

theorem persistentSavepoint (h : db.Unlogged) : db.persistentSavepoint.2.Unlogged := by
  refine ⟨h.tables, fun id t ht ↦ ?_⟩
  have ht : (db.savepoints.insert db.nextSavepoint db.tables).lookup id = some t := ht
  rcases eq_or_ne id db.nextSavepoint with rfl | hne
  · rw [AList.lookup_insert] at ht
    exact Option.some.inj ht ▸ h.tables
  · rw [AList.lookup_insert_ne hne] at ht
    exact h.savepoints id t ht

theorem deleteSavepoints (h : db.Unlogged) (ids : List Nat) :
    (ids.foldl Db.deletePersistentSavepoint db).Unlogged := by
  induction ids generalizing db with
  | nil => exact h
  | cons id ids ih =>
    refine ih ⟨h.tables, fun id' t ht ↦ ?_⟩
    have ht : (db.savepoints.erase id).lookup id' = some t := ht
    rcases eq_or_ne id' id with rfl | hne
    · rw [AList.lookup_erase] at ht
      cases ht
    · rw [AList.lookup_erase_ne hne] at ht
      exact h.savepoints id' t ht

theorem restoreSavepoint (h : db.Unlogged) (id : Nat) (ht : t.hdrUndo = ∅) :
    (db.restoreSavepoint id t).Unlogged := by
  refine ⟨ht, fun id' t' ht' ↦ ?_⟩
  have hlook : ((db.savepoints.keys.filter (id < ·)).foldl (fun m k ↦ m.erase k) db.savepoints).lookup
      id' = some t' := ht'
  rw [AList.lookup_foldl_erase] at hlook
  split at hlook
  case isTrue => cases hlook
  case isFalse => exact h.savepoints id' t' hlook

end Db.Unlogged

namespace Committer

open Prog

variable {c c' : Committer} {F : StoreError → Committer → Prop}

/-- A committer between two calls, while it may go on. -/
structure Quiet (c : Committer) : Prop where
  openDirty : c.OpenDirty
  db : c.disk.db.Unlogged
  txn : ∀ t, c.txn = some t → t.hdrUndo = ∅

/-- The tables that are open hold no log. -/
theorem Quiet.tables (h : c.Quiet) : c.tables.hdrUndo = ∅ := by
  unfold Committer.tables
  cases htxn : c.txn with
  | none => exact h.db.tables
  | some t => exact h.txn t htxn

/-- Steps that leave a committer quiet, and a poisoned one poisoned. -/
structure Quiets (c c' : Committer) : Prop where
  quiet : c.Quiet → c'.Quiet
  poisoned : c.poisoned = true → c'.poisoned = true

instance : IsPreorder Committer Quiets where
  refl _ := ⟨id, id⟩
  trans _ _ _ h h' := ⟨h'.quiet ∘ h.quiet, h'.poisoned ∘ h.poisoned⟩

theorem Files.quiets (h : Files c c') : Quiets c c' where
  quiet hc := ⟨h.openDirty hc.openDirty, h.db ▸ hc.db, fun t ht ↦ hc.txn t (h.txn ▸ ht)⟩
  poisoned hc := h.poisoned.trans hc

theorem quiets_of_files {α : Type} {p : Op α} (h : Within disk Files F p) : Within disk Quiets F p := by
  refine fun c ↦ (h c).imp ?_ (fun _ _ hs ↦ hs.quiets) fun _ _ hs ↦ ⟨hs.1.quiets, hs.2⟩
  rintro d ⟨c', hs, hd⟩
  exact ⟨c', hs.quiets, hd⟩

/-- A change of the database and of the metadata. -/
theorem Quiet.setDb (h : c.Quiet) {db : Db} (hdb : db.Unlogged) :
    ({ c with disk := { c.disk with db } } : Committer).Quiet := ⟨h.openDirty, hdb, h.txn⟩

theorem quiets_onMeta (f : Meta → Meta) : Within disk Quiets F (onMeta f) :=
  quiets_of_files (files_onMeta f)

theorem quiets_onDb {f : Db → Db} (h : ∀ db : Db, db.Unlogged → (f db).Unlogged) :
    Within disk Quiets F (onDb f) :=
  .write fun _ ↦ ⟨fun hc ↦ hc.setDb (h _ hc.db), id⟩

theorem quiets_refreshReplayFloor : Within disk Quiets F refreshReplayFloor :=
  .alter fun _ ↦ ⟨fun hc ↦ ⟨hc.openDirty, hc.db, hc.txn⟩, id⟩

theorem quiets_guard : Within disk Quiets (fun _ _ ↦ True) guard :=
  .bind .peek fun _ ↦ .require fun _ _ ↦ trivial

theorem quiets_maybeCheckpoint : Within disk Quiets F maybeCheckpoint := by
  intro c
  unfold maybeCheckpoint onDb onDisk refreshReplayFloor
  simp only [wp_bind, wp_peek, wp_ite, wp_alter, wp_write, wp_pure]
  refine ⟨fun _ ↦ refl_of Quiets c, fun _ ↦ ?_⟩
  have hrow (h : c.Quiet) : (c.disk.db.persistentSavepoint.2.commit (withCheckpoint
      c.cfg.stateCkptKeep c.info.tip.height c.disk.db.nextSavepoint c.disk.db.tables).1).Unlogged :=
    h.db.persistentSavepoint.commit h.db.tables
  have hdb {db : Db} (h : c.Quiet → db.Unlogged) :
      Quiets c { c with disk := { c.disk with db } } := ⟨fun hc ↦ hc.setDb (h hc), id⟩
  refine ⟨⟨_, hdb fun h ↦ h.db.persistentSavepoint, rfl⟩, ⟨_, hdb hrow, rfl⟩, fun _ ↦ ?_, fun _ ↦ ?_⟩
  · have hdrop := hdb fun h ↦ (hrow h).deleteSavepoints (withCheckpoint c.cfg.stateCkptKeep
      c.info.tip.height c.disk.db.nextSavepoint c.disk.db.tables).2
    exact ⟨⟨_, hdrop, rfl⟩, fun h ↦ ⟨h.openDirty, (hdrop.quiet h).db, h.txn⟩, id⟩
  · exact ⟨fun h ↦ ⟨h.openDirty, hrow h, h.txn⟩, id⟩

theorem quiets_pruneTo (floor : Nat) : Within disk Quiets (fun _ _ ↦ True) (pruneTo floor) := by
  refine .bind quiets_guard fun _ ↦ .bind .peek fun _ ↦ .ite (.pure _) ?_
  refine .bind (quiets_onMeta _) fun _ ↦ .bind .peek fun _ ↦
    .bind (quiets_onDb fun db hdb ↦ hdb.commit hdb.tables) fun _ ↦ .forEach (fun s ↦ ?_) _
  exact quiets_of_files (.bind (files_onDisk (fun _ ↦ rfl) fun _ ↦ rfl) fun _ ↦
    files_onDisk (fun _ ↦ rfl) fun _ ↦ rfl)

theorem quiets_maybePrune : Within disk Quiets (fun _ _ ↦ True) maybePrune :=
  .bind .peek fun _ ↦ .ite (quiets_pruneTo _) (.pure _)

theorem quiets_ensureTxn : Within disk Quiets F ensureTxn := by
  refine .alter fun c ↦ ⟨fun h ↦ ⟨h.openDirty, h.db, fun t ht ↦ ?_⟩, id⟩
  exact Option.some.inj ht ▸ h.tables

/-- Poisoning on an error. -/
theorem quiets_onError_poison {p : Op Unit} (h : Within disk Quiets (fun _ _ ↦ True) p) :
    Within disk Quiets (fun _ _ ↦ True) (p.onError poison) := fun c ↦
  wp_onError.mpr ((h c).imp (fun _ ↦ id) (fun _ _ ↦ id) fun _ _ hs ↦
    ⟨⟨fun hc ↦ ⟨(hs.1.quiet hc).openDirty, (hs.1.quiet hc).db, (hs.1.quiet hc).txn⟩, fun _ ↦ rfl⟩,
      trivial⟩)

section

variable [Crypto]

theorem quiets_reindex : Within disk Quiets F reindex := by
  intro c
  unfold reindex onDb onDisk onMeta
  simp only [wp_bind, wp_peek]
  obtain ⟨hi, hf, n, heq⟩ := foldl_reindexHeight c.disk.readHeader c.cfg.hashPrefixBytes
    (List.range c.info.hdrWatermark)
    { c.disk.db.tables with hashIndex := ∅, hashIndexFull := ∅ }
    { c.info with hashIndexFullRows := 0 }
  rw [heq]
  simp only [wp_bind, wp_peek, wp_alter, wp_write]
  have hstored : Quiets c { c with
      disk := { c.disk with db := c.disk.db.commit { c.disk.db.tables with
        hashIndex := hi
        hashIndexFull := hf
        info := some { c.info with hashIndexFullRows := n, indexState := 0, staleIndexCount := 0 } } }
      info := { c.info with hashIndexFullRows := n, indexState := 0, staleIndexCount := 0 } } :=
    ⟨fun h ↦ ⟨h.openDirty, h.db.commit h.db.tables, h.txn⟩, id⟩
  exact ⟨⟨_, hstored, rfl⟩, hstored⟩

theorem quiets_maybeRebuildIndex : Within disk Quiets (fun _ _ ↦ True) maybeRebuildIndex :=
  .bind .peek fun _ ↦ .ite (.pure _) (.bind quiets_guard fun _ ↦ quiets_reindex)

/-! ## Calls -/

theorem quiets_sealBatch (publish : Bool) : Within disk Quiets (fun _ _ ↦ True) (sealBatch publish) := by
  refine .bind quiets_guard fun _ ↦ .bind .peek fun c ↦ .ite (.pure _) ?_
  refine .bind (quiets_of_files files_barrier) fun _ ↦ ?_
  have hend : Within disk Quiets (fun _ _ ↦ True) (do
      alter fun c ↦ { c with batchBlocks := 0, batchBytes := 0 }
      if publish then
        maybeCheckpoint
        maybePrune
        maybeRebuildIndex : Op Unit) :=
    .bind (.alter fun _ ↦ ⟨fun h ↦ ⟨h.openDirty, h.db, h.txn⟩, id⟩) fun _ ↦
      .ite (.bind quiets_maybeCheckpoint fun _ ↦ .bind quiets_maybePrune fun _ ↦
        quiets_maybeRebuildIndex) (.pure _)
  intro c
  rw [wp_bind, wp_peek]
  cases htxn : c.txn with
  | none => exact hend c
  | some t =>
    dsimp only
    rw [wp_bind, onDb, onDisk, wp_write, wp_bind, wp_alter]
    have hstored (h : c.Quiet) : (c.disk.db.commit { t with info := some c.info }).Unlogged :=
      h.db.commit (h.txn t htxn)
    refine ⟨⟨_, ⟨fun h ↦ h.setDb (hstored h), id⟩, rfl⟩, hend.wp_of_rel ⟨fun h ↦ ?_, id⟩⟩
    refine ⟨h.openDirty, hstored h, fun t' ht' ↦ ?_⟩
    cases ht'

theorem quiets_applyTxn (b : BlockToCommit) : Within disk Quiets (fun _ _ ↦ True) (applyTxn b) := by
  intro c
  unfold applyTxn
  rw [wp_bind, wp_peek, wp_bind, wp_lift]
  refine ⟨fun x hx ↦ ?_, fun e _ ↦ ⟨refl_of Quiets c, trivial⟩⟩
  rw [wp_alter]
  refine ⟨fun h ↦ ⟨h.openDirty, h.db, fun t ht ↦ ?_⟩, id⟩
  obtain rfl : x.1 = t := Option.some.inj ht
  exact (hdrUndo_applyBlock hx).trans h.tables

theorem quiets_writeBlock (b : BlockToCommit) : Within disk Quiets (fun _ _ ↦ True) (writeBlock b) := by
  have hheader : Within disk Files (fun _ _ ↦ True) (do
      enterSegment b
      writeHeader b) := by
    intro c
    rw [wp_bind]
    exact (enterSegment_files b c).imp (fun _ ↦ id) (fun _ _ h ↦ files_writeHeader h.1 h.2) fun _ _ ↦ id
  have hrest : Within disk Quiets (fun _ _ ↦ True) (do
      writeBody b
      ensureTxn
      applyTxn b) :=
    .bind (quiets_of_files (files_writeBody b)) fun _ ↦ .bind quiets_ensureTxn fun _ ↦ quiets_applyTxn b
  refine .bind (.lift fun _ _ _ ↦ trivial) fun _ ↦ ?_
  intro c
  have h := (Within.bind (quiets_of_files hheader) fun _ ↦ hrest) c
  rw [wp_bind, wp_bind] at h
  rw [wp_bind]
  exact h.imp (fun _ ↦ id) (fun _ _ h ↦ wp_bind.mpr h) fun _ _ ↦ id

theorem quiets_extendOne (b : BlockToCommit) : Within disk Quiets (fun _ _ ↦ True) (extendOne b) := by
  refine .bind .peek fun _ ↦ .bind (.require fun _ _ ↦ trivial) fun _ ↦
    .bind (.lift fun _ _ _ ↦ trivial) fun _ ↦ .bind (quiets_onError_poison (quiets_writeBlock b))
      fun _ ↦ .bind (.alter fun _ ↦ ⟨fun h ↦ ⟨h.openDirty, h.db, h.txn⟩, id⟩) fun _ ↦
        .bind .peek fun _ ↦ .ite (quiets_onError_poison (quiets_sealBatch true)) (.pure _)

theorem quiets_extend (blocks : List BlockToCommit) :
    Within disk Quiets (fun _ _ ↦ True) (extend blocks) :=
  .bind quiets_guard fun _ ↦ .forEach quiets_extendOne blocks

theorem quiets_setMode (mode : DurabilityMode) : Within disk Quiets (fun _ _ ↦ True) (setMode mode) :=
  .bind .peek fun _ ↦ .ite (.bind (quiets_sealBatch true) fun _ ↦
    .alter fun _ ↦ ⟨fun h ↦ ⟨h.openDirty, h.db, h.txn⟩, id⟩) (.pure _)

/-! ## Sealed -/

/-- Steps that leave the header mark as it is. -/
def Marked (c c' : Committer) : Prop := c'.dirtyHdr = c.dirtyHdr

instance : IsPreorder Committer Marked where
  refl _ := rfl
  trans _ _ _ h h' := h'.trans h

omit [Crypto] in
theorem marked_onDisk (f : Disk → Disk) : Within disk Marked F (onDisk f) := .write fun _ ↦ rfl

omit [Crypto] in
theorem marked_guard : Within disk Marked (fun _ _ ↦ True) guard :=
  .bind .peek fun _ ↦ .require fun _ _ ↦ trivial

omit [Crypto] in
theorem marked_syncBody : Within disk Marked F syncBody := by
  refine .bind .peek fun c ↦ .ite ?_ (.pure _)
  split
  · exact .bind (marked_onDisk _) fun _ ↦ .bind (marked_onDisk _) fun _ ↦
      .bind (.alter fun _ ↦ rfl) fun _ ↦ .alter fun _ ↦ rfl
  · exact .alter fun _ ↦ rfl

theorem marked_publish : Within disk Marked (fun _ _ ↦ True) (do
    maybeCheckpoint
    maybePrune
    maybeRebuildIndex : Op Unit) := by
  refine .bind (.bind .peek fun _ ↦ .ite (.pure _) ?_) fun _ ↦ .bind ?_ fun _ ↦ ?_
  · refine .bind (marked_onDisk _) fun _ ↦ .bind .peek fun _ ↦ .bind (marked_onDisk _) fun _ ↦ ?_
    exact .ite (.bind (marked_onDisk _) fun _ ↦ .alter fun _ ↦ rfl) (.alter fun _ ↦ rfl)
  · refine .bind .peek fun _ ↦ .ite (.bind marked_guard fun _ ↦ .bind .peek fun _ ↦
      .ite (.pure _) ?_) (.pure _)
    exact .bind (.alter fun _ ↦ rfl) fun _ ↦ .bind .peek fun _ ↦ .bind (marked_onDisk _) fun _ ↦
      .forEach (fun _ ↦ .bind (marked_onDisk _) fun _ ↦ marked_onDisk _) _
  · exact .bind .peek fun _ ↦ .ite (.pure _) (.bind marked_guard fun _ ↦ .bind .peek fun _ ↦
      .bind (.alter fun _ ↦ rfl) fun _ ↦ .bind .peek fun _ ↦ marked_onDisk _)

omit [Crypto] in
theorem barrier_clean (c : Committer) :
    barrier.wp (fun _ ↦ True) (fun _ c' ↦ c'.dirtyHdr = false) (fun _ _ ↦ True) c := by
  have hbody (c₁ : Committer) (h : c₁.dirtyHdr = false) : syncBody.wp (fun _ ↦ True)
      (fun _ c' ↦ c'.dirtyHdr = false) (fun _ _ ↦ True) c₁ :=
    (marked_syncBody (F := fun _ _ ↦ True) c₁).imp (fun _ _ ↦ trivial) (fun _ _ hm ↦ hm.trans h)
      fun _ _ _ ↦ trivial
  unfold barrier syncHdr
  rw [wp_bind, wp_bind, wp_peek, wp_ite, wp_pure]
  refine ⟨fun _ ↦ ?_, fun hclean ↦ hbody c (Bool.eq_false_of_not_eq_true hclean)⟩
  split
  · simp only [onDisk, wp_bind, wp_write, wp_alter, true_and]
    exact hbody _ rfl
  · rw [wp_alter]
    exact hbody _ rfl

/-- The header file is clean after a seal. -/
theorem sealBatch_clean (c : Committer) : (sealBatch true).wp (fun _ ↦ True)
    (fun _ c' ↦ c'.dirtyHdr = false) (fun _ _ ↦ True) c := by
  have hend := Within.bind (Within.alter (fun c ↦ rfl) : Within disk Marked (fun _ _ ↦ True)
    (alter fun c ↦ { c with batchBlocks := 0, batchBytes := 0 } : Op Unit)) fun _ ↦ marked_publish
  unfold sealBatch
  rw [wp_bind]
  refine (marked_guard c).imp (fun _ _ ↦ trivial) (fun _ c₀ _ ↦ ?_) fun _ _ _ ↦ trivial
  rw [wp_bind, wp_peek, wp_ite, wp_pure]
  refine ⟨fun hidle ↦ hidle.2.1, fun _ ↦ ?_⟩
  rw [wp_bind]
  refine (barrier_clean c₀).imp (fun _ _ ↦ trivial) (fun _ c₁ h₁ ↦ ?_) fun _ _ _ ↦ trivial
  have hrest {m : Op Unit} (hm : Within disk Marked (fun _ _ ↦ True) m) :
      m.wp (fun _ ↦ True) (fun _ c' ↦ c'.dirtyHdr = false) (fun _ _ ↦ True) c₁ :=
    (hm c₁).imp (fun _ _ ↦ trivial) (fun _ _ hmarked ↦ Eq.trans hmarked h₁) fun _ _ _ ↦ trivial
  refine hrest (.bind .peek fun c ↦ ?_)
  cases c.txn with
  | some t => exact .bind (marked_onDisk _) fun _ ↦ .bind (.alter fun _ ↦ rfl) fun _ ↦ hend
  | none => exact hend

/-- What a seal leaves. -/
theorem sealBatch_quiet (hc : c.Quiet) : (sealBatch true).wp (fun _ ↦ True)
    (fun _ c' ↦ c'.Quiet ∧ Synced c'.disk.hdr) (fun _ c' ↦ c'.Quiet) c := by
  refine ((quiets_sealBatch true c).and (sealBatch_clean c)).imp (fun _ _ ↦ trivial) ?_ ?_
  · rintro _ c' ⟨hq, hclean⟩
    have hquiet := hq.quiet hc
    exact ⟨hquiet, hquiet.openDirty.synced_of_clean (by rw [hclean]; exact Bool.false_ne_true)⟩
  · rintro _ c' ⟨hq, -⟩
    exact hq.1.quiet hc

/-! ## Reorgs -/

theorem applyBranch_files (blocks : List BlockToCommit) (t : Tables) (c : Committer) :
    (applyBranch blocks t).wp (fun _ ↦ True) (fun t' c' ↦ Files c c' ∧ t'.hdrUndo = t.hdrUndo)
      (fun _ c' ↦ Files c c') c := by
  induction blocks generalizing t c with
  | nil =>
    unfold applyBranch
    exact wp_pure.mpr ⟨refl_of Files c, rfl⟩
  | cons b blocks ih =>
    unfold applyBranch
    rw [wp_bind, wp_lift]
    refine ⟨fun _ _ ↦ ?_, fun _ _ ↦ refl_of Files c⟩
    rw [wp_bind]
    refine (files_enterSegment (F := fun _ _ ↦ True) b c).imp (fun _ _ ↦ trivial) (fun _ c₁ h₁ ↦ ?_)
      fun _ _ h ↦ h.1
    rw [wp_bind]
    refine ((files_writeBody b).wp_of_rel h₁).imp (fun _ _ ↦ trivial) (fun _ c₂ h₂ ↦ ?_) fun _ _ h ↦ h.1
    rw [wp_bind, wp_peek, wp_bind, wp_lift]
    refine ⟨fun x hx ↦ ?_, fun _ _ ↦ h₂⟩
    rw [wp_bind]
    refine ((files_onMeta (F := fun _ _ ↦ True) _).wp_of_rel h₂).imp (fun _ _ ↦ trivial)
      (fun _ c₃ h₃ ↦ ?_) fun _ _ h ↦ h.1
    refine (ih x.1 c₃).imp (fun _ _ ↦ trivial) (fun t' c' h ↦ ?_) fun _ c' h ↦ trans_of Files h₃ h
    exact ⟨trans_of Files h₃ h.1, h.2.trans (hdrUndo_applyBlock hx)⟩

theorem rewindBranch_files (forkHeight : Nat) (rollback : List Nat) (oldHashes : List (Nat × Hash32))
    (c : Committer) : (rewindBranch forkHeight rollback oldHashes).wp (fun _ ↦ True)
      (fun t c' ↦ Files c c' ∧ t.hdrUndo = ∅) (fun _ c' ↦ Files c c') c := by
  unfold rewindBranch
  rw [wp_bind, wp_peek]
  rcases hroll : rollbackHeights rollback { c.disk.db.tables with hdrUndo := ∅ } c.info with ⟨r, m⟩
  simp only [wp_bind, onMeta, wp_alter, wp_lift, wp_pure]
  have hfiles (m : Meta) : Files c { c with info := m } :=
    ⟨⟨rfl, rfl, rfl, rfl, rfl, rfl⟩, fun h ↦ h⟩
  refine ⟨fun t ht ↦ ⟨hfiles _, ?_⟩, fun _ _ ↦ hfiles _⟩
  rw [hdrUndo_foldl_dropHash]
  exact hdrUndo_rollbackHeights (ht ▸ hroll)

/-- The branch is committed without a log. -/
theorem commitBranch_quiet (forkHeight : Nat) (rollback : List Nat) (oldHashes : List (Nat × Hash32))
    (apply : List BlockToCommit) (hpois : c.poisoned = true) (hopen : c.OpenDirty)
    (hsaved : ∀ id t, c.disk.db.savepoints.lookup id = some t → t.hdrUndo = ∅)
    (htxn : ∀ t, c.txn = some t → t.hdrUndo = ∅) :
    (commitBranch forkHeight rollback oldHashes apply).wp (fun _ ↦ True) (fun _ c' ↦ c'.Quiet)
      (fun _ c' ↦ c'.poisoned = true) c := by
  unfold commitBranch
  rw [wp_bind]
  refine (rewindBranch_files forkHeight rollback oldHashes c).imp (fun _ ↦ id) (fun t c₁ h₁ ↦ ?_)
    fun _ _ h ↦ h.poisoned.trans hpois
  rw [wp_bind]
  refine (applyBranch_files apply t c₁).imp (fun _ ↦ id) (fun t c₂ h₂ ↦ ?_)
    fun _ _ h ↦ h.poisoned.trans (h₁.1.poisoned.trans hpois)
  rw [wp_bind]
  have hfiles := trans_of Files h₁.1 h₂.1
  refine ((files_barrier (F := fun _ _ ↦ True)).wp_of_rel hfiles).imp (fun _ _ ↦ trivial)
    (fun _ c₃ h₃ ↦ ?_) fun _ _ h ↦ h.1.poisoned.trans hpois
  simp only [wp_bind, wp_peek, onDb, onDisk, wp_write, true_and]
  have hquiet : ({ c₃ with disk := { c₃.disk with
      db := c₃.disk.db.commit { t with info := some c₃.info } } } : Committer).Quiet := by
    refine ⟨h₃.openDirty hopen, ⟨h₂.2.trans h₁.2, fun id t' ht' ↦ hsaved id t' ?_⟩, fun t' ht' ↦
      htxn t' (h₃.txn ▸ ht')⟩
    rw [← h₃.db]
    exact ht'
  have hend := (Within.bind quiets_maybeCheckpoint fun _ ↦ quiets_maybeRebuildIndex).wp_of_rel
    (refl_of Quiets ({ c₃ with disk := { c₃.disk with
      db := c₃.disk.db.commit { t with info := some c₃.info } } } : Committer))
  exact wp_bind.mp (hend.imp (fun _ _ ↦ trivial) (fun _ _ h ↦ h.quiet hquiet)
    fun _ _ h ↦ h.1.poisoned (h₃.poisoned.trans hpois))

omit [Crypto] in
/-- The rows saved before the headers are overwritten. -/
theorem writeHdrUndo_spec (first last : Nat) (c : Committer) :
    (writeHdrUndo first last).wp (fun _ ↦ True)
      (fun _ c' ↦ ∃ t : Tables, c' = { c with disk := { c.disk with db := c.disk.db.commit t } } ∧
        t.hdrUndo = if last < first then c.disk.db.tables.hdrUndo
          else (hdrUndoRows c.disk first last).foldl (fun m row ↦ m.insert row.1 row.2)
            c.disk.db.tables.hdrUndo) (fun _ _ ↦ False) c := by
  unfold writeHdrUndo
  rw [wp_ite, wp_pure]
  refine ⟨fun hlt ↦ ⟨c.disk.db.tables, rfl, (if_pos hlt).symm⟩, fun hle ↦ ?_⟩
  simp only [wp_bind, wp_peek, onDb, onDisk, wp_write, true_and]
  exact ⟨_, rfl, (if_neg hle).symm⟩

/-- A reorg leaves a quiet committer, or one that is poisoned. -/
theorem reorg_quiet (plan : ReorgPlan) (hc : c.Quiet) : (reorg plan).wp (fun _ ↦ True)
    (fun _ c' ↦ c'.Quiet) (fun _ c' ↦ c'.poisoned = true ∨ c'.Quiet) c := by
  unfold reorg
  rw [wp_bind]
  refine (quiets_guard c).imp (fun _ _ ↦ trivial) (fun _ c₀ h₀ ↦ ?_) fun _ _ h ↦ .inr (h.1.quiet hc)
  rw [wp_bind]
  refine (sealBatch_quiet (h₀.quiet hc)).imp (fun _ ↦ id) (fun _ c₁ h₁ ↦ ?_) fun _ _ h ↦ .inr h
  rw [wp_bind, wp_peek, wp_bind, wp_lift]
  refine ⟨fun _ _ ↦ ?_, fun _ _ ↦ .inr h₁.1⟩
  rw [wp_bind, wp_alter, wp_bind]
  unfold reorgDestructive
  rw [wp_bind]
  refine (writeHdrUndo_spec _ _ _).imp (fun _ ↦ id) ?_ fun _ _ h ↦ h.elim
  rintro _ _ ⟨t, rfl, -⟩
  rw [wp_bind]
  refine (files_overwriteHeaders (F := fun _ _ ↦ False) plan.apply _).imp (fun _ _ ↦ trivial)
    (fun _ c₂ h₂ ↦ ?_) fun _ _ h ↦ h.2.elim
  rw [wp_bind, wp_peek, wp_bind]
  refine ((files_onMeta (F := fun _ _ ↦ False) _).wp_of_rel h₂).imp (fun _ _ ↦ trivial)
    (fun _ c₃ h₃ ↦ ?_) fun _ _ h ↦ h.2.elim
  refine (commitBranch_quiet _ _ _ _ h₃.poisoned (h₃.openDirty h₁.1.openDirty) ?_ ?_).imp
    (fun _ ↦ id) (fun _ c₄ h₄ ↦ ?_) fun _ _ h ↦ Or.inl h
  · rw [h₃.db]
    exact h₁.1.db.savepoints
  · rw [h₃.txn]
    exact h₁.1.txn
  · exact wp_alter.mpr ⟨h₄.openDirty, h₄.db, h₄.txn⟩

/-- A checkpoint is restored without a log. -/
theorem restoreCheckpoint_quiet (plan : DeepReorgPlan) (hc : c.Quiet) :
    (restoreCheckpoint plan).wp (fun _ ↦ True) (fun _ c' ↦ c'.Quiet) (fun _ c' ↦ c'.Quiet) c := by
  unfold restoreCheckpoint
  rw [wp_bind]
  refine (quiets_guard c).imp (fun _ _ ↦ trivial) (fun _ c₀ h₀ ↦ ?_) fun _ _ h ↦ h.1.quiet hc
  rw [wp_bind]
  refine (sealBatch_quiet (h₀.quiet hc)).imp (fun _ ↦ id) ?_ fun _ _ h ↦ h
  rintro _ c₁ ⟨hquiet, hsynced⟩
  simp only [wp_bind, wp_peek, wp_require, wp_lift, onDb, onDisk, wp_write, onMeta, wp_alter,
    refreshReplayFloor, true_and]
  refine ⟨fun _ ↦ ⟨fun _ ↦ ⟨fun _ ↦ ⟨fun id _ ↦ ⟨fun saved hsaved ↦ ?_, fun _ _ ↦ hquiet⟩,
    fun _ _ ↦ hquiet⟩, fun _ ↦ hquiet⟩, fun _ ↦ hquiet⟩, fun _ ↦ hquiet⟩
  have hsaved : saved.hdrUndo = ∅ :=
    hquiet.db.savepoints id saved (Except.ofOption_eq_ok.mp hsaved)
  have hrestored : (c₁.disk.db.restoreSavepoint id
      { saved with stateCkpt := saved.stateCkpt.insert plan.rewindTo id }).Unlogged :=
    hquiet.db.restoreSavepoint id hsaved
  refine ⟨fun m _ ↦ ?_, fun _ _ ↦ hquiet.setDb hrestored⟩
  exact ⟨.of_synced hsynced, hrestored, hquiet.txn⟩

theorem deepReorg_quiet (plan : DeepReorgPlan) (hc : c.Quiet) :
    (deepReorg plan).wp (fun _ ↦ True) (fun _ c' ↦ c'.Quiet) (fun _ c' ↦ c'.Quiet) c := by
  unfold deepReorg
  rw [wp_bind]
  refine (restoreCheckpoint_quiet plan hc).imp (fun _ ↦ id) (fun _ c₁ h₁ ↦ ?_) fun _ _ ↦ id
  rw [wp_bind, wp_peek]
  have hset (mode : DurabilityMode) : Within disk Quiets (fun _ _ ↦ True)
      (alter fun c ↦ { c with mode } : Op Unit) :=
    .alter fun _ ↦ ⟨fun h ↦ ⟨h.openDirty, h.db, h.txn⟩, id⟩
  have hrest := Within.bind (hset .ibd) fun _ ↦ .bind (quiets_extend plan.replay) fun _ ↦
    .bind (quiets_extend plan.apply) fun _ ↦ .bind (quiets_sealBatch true) fun _ ↦ hset c₁.mode
  exact (hrest c₁).imp (fun _ _ ↦ trivial) (fun _ _ h ↦ h.quiet h₁) fun _ _ h ↦ h.1.quiet h₁

end

end Committer

/-! ## Runs -/

section

variable [Crypto]

/-- Every call leaves a quiet committer, or one that is poisoned. -/
theorem Call.quiet (call : Call) {c : Committer} (hc : c.Quiet) :
    (call.run c).state.poisoned = true ∨ (call.run c).state.Quiet := by
  have hwithin {p : Op Unit} (h : Prog.Within Committer.disk Committer.Quiets (fun _ _ ↦ True) p) :
      (p c).state.poisoned = true ∨ (p c).state.Quiet := by
    rcases (h c).cases with ⟨_, -, hq⟩ | ⟨_, -, hq, -⟩
    · exact .inr (hq.quiet hc)
    · exact .inr (hq.quiet hc)
  cases call with
  | extend blocks => exact hwithin (Committer.quiets_extend blocks)
  | reorg plan =>
    rcases (Committer.reorg_quiet plan hc).cases with ⟨_, -, h⟩ | ⟨_, -, h⟩
    · exact .inr h
    · exact h
  | deepReorg plan =>
    rcases (Committer.deepReorg_quiet plan hc).cases with ⟨_, -, h⟩ | ⟨_, -, h⟩
    · exact .inr h
    · exact .inr h
  | flush => exact hwithin (Committer.quiets_sealBatch true)
  | setMode mode => exact hwithin (Committer.quiets_setMode mode)
  | pruneTo floor => exact hwithin (Committer.quiets_pruneTo floor)

/-- The committers that calls lead to, whatever their blocks, from an empty directory. -/
inductive Ran (cfg : StoreConfig) : Committer → Prop
  | fresh : Ran cfg (.fresh cfg)
  | call {c : Committer} (call : Call) : Ran cfg c → Ran cfg (call.run c).state

/-- Between two calls a committer is quiet, or poisoned. -/
theorem Ran.quiet {cfg : StoreConfig} {c : Committer} (h : Ran cfg c) :
    c.poisoned = true ∨ c.Quiet := by
  induction h with
  | fresh =>
    refine .inr ⟨fun seg s hs ↦ ?_, ⟨rfl, fun id t ht ↦ ?_⟩, fun t ht ↦ ?_⟩
    · cases hs
    · cases ht
    · cases ht
  | @call c call _ ih =>
    rcases ih with hpois | hquiet
    · exact .inl ((congrArg Committer.poisoned (call.state_of_poisoned hpois)).trans hpois)
    · exact call.quiet hquiet

end

end Plaine.Storage

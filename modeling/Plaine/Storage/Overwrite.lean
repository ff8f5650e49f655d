import Plaine.Storage.HdrUndo
import Plaine.Storage.InStep
import Plaine.Storage.Quiet

/-!
# Overwriting headers

What a reorg may have done to the header files when it is cut short: the files it found, with
headers of its branch written over them, some of these on the platter and some not.  The undo log
holds what was there, since no file had a write pending and the log was empty when the reorg began;
both hold between any two calls.
-/

namespace Plaine.Storage

open Plaine.Lib Plaine.Consensus

/-- The header write of a block. -/
def BlockToCommit.headerWrite (b : BlockToCommit) : Write := ⟨hdrOffset b.height, b.header.bytes⟩

/-- A byte of a segment that a header of a branch is written over. -/
def Overwrites (branch : List BlockToCommit) (seg x : Nat) : Prop :=
  ∃ b ∈ branch, segOf b.height = seg ∧ b.headerWrite.Covers x

/-- A header file after headers of a branch were written over it. -/
structure Seg.Overwritten (branch : List BlockToCommit) (seg : Nat) (f : File) (s : Seg) : Prop where
  len_le : f.len ≤ s.durable.len
  pending : ∀ w ∈ s.pending, ∃ b ∈ branch, segOf b.height = seg ∧ b.headerWrite = w
  byte : ∀ x < f.len, ¬Overwrites branch seg x → s.durable.byte x = f.byte x

/-- Header files after headers of a branch were written over them. -/
def Overwritten (branch : List BlockToCommit) (old files : AList fun _ : Nat ↦ Seg) : Prop :=
  ∀ seg s, old.lookup seg = some s →
    ∃ s', files.lookup seg = some s' ∧ s'.Overwritten branch seg s.file

variable {branch : List BlockToCommit} {b : BlockToCommit} {seg x : Nat} {f : File} {s s' : Seg}
  {old files : AList fun _ : Nat ↦ Seg}

namespace Seg.Overwritten

theorem refl (hs : s.pending = []) : s.Overwritten branch seg s.file where
  len_le := (congrArg File.len (file_of_pending_nil hs)).le
  pending w hw := by
    rw [hs] at hw
    cases hw
  byte x hx hno := by rw [file_of_pending_nil hs]

/-- Where nothing of the branch goes, no write is pending. -/
theorem not_covers (h : s.Overwritten branch seg f) (hno : ¬Overwrites branch seg x) :
    ∀ w ∈ s.pending, ¬w.Covers x := by
  rintro w hw hcov
  obtain ⟨b, hb, hseg, rfl⟩ := h.pending w hw
  exact hno ⟨b, hb, hseg, hcov⟩

theorem sync (h : s.Overwritten branch seg f) : s.sync.Overwritten branch seg f where
  len_le := h.len_le.trans durable_len_le
  pending w hw := by cases hw
  byte x hx hno := by
    rw [durable_sync, file_byte (hx.trans_le h.len_le) (h.not_covers hno)]
    exact h.byte x hx hno

theorem write (h : s.Overwritten branch (segOf b.height) f) (hb : b ∈ branch) :
    (s.write (hdrOffset b.height) b.header.bytes).Overwritten branch (segOf b.height) f where
  len_le := h.len_le
  pending w hw := by
    rcases List.mem_append.mp hw with hw | hw
    · exact h.pending w hw
    · exact ⟨b, hb, rfl, (List.mem_singleton.mp hw).symm⟩
  byte := h.byte

/-- What a crash leaves: no shorter, and as it was where nothing of the branch goes. -/
theorem survives (h : s.Overwritten branch seg f) (hs : s.Survives s') :
    f.len ≤ s'.file.len ∧ ∀ x < f.len, ¬Overwrites branch seg x → s'.file.byte x = f.byte x := by
  obtain ⟨hnil, hlen, -, hbyte⟩ := hs
  rw [file_of_pending_nil hnil]
  refine ⟨h.len_le.trans hlen, fun x hx hno ↦ ?_⟩
  rw [hbyte x (hx.trans_le h.len_le) (h.not_covers hno)]
  exact h.byte x hx hno

end Seg.Overwritten

namespace Overwritten

theorem create (h : Overwritten branch old files) (seg : Nat) :
    Overwritten branch old (Disk.create files seg) := by
  intro seg' s hs
  obtain ⟨s', hs', how⟩ := h seg' s hs
  refine ⟨s', ?_, how⟩
  unfold Disk.create
  split
  case isTrue => exact hs'
  case isFalse hnone =>
    rw [AList.lookup_insert_ne, hs']
    rintro rfl
    exact hnone (Option.isSome_iff_exists.mpr ⟨s', hs'⟩)

/-- A change of one file. -/
theorem update (h : Overwritten branch old files) {g : Seg → Seg}
    (hg : ∀ (f : File) (s : Seg), s.Overwritten branch seg f → (g s).Overwritten branch seg f) :
    Overwritten branch old (Disk.update files seg g) := by
  intro seg' s hs
  obtain ⟨s', hs', how⟩ := h seg' s hs
  unfold Disk.update
  split
  case h_1 t ht =>
    rcases eq_or_ne seg' seg with rfl | hne
    · rw [hs'] at ht
      obtain rfl := Option.some.inj ht
      exact ⟨_, AList.lookup_insert _, hg _ _ how⟩
    · exact ⟨s', by rw [AList.lookup_insert_ne hne, hs'], how⟩
  case h_2 => exact ⟨s', hs', how⟩

end Overwritten

namespace Committer

open Prog

variable {F : StoreError → Committer → Prop}

/-- Steps that write nothing over the old headers but headers of a branch. -/
def Overwriting (branch : List BlockToCommit) (old : AList fun _ : Nat ↦ Seg) (c c' : Committer) :
    Prop := Overwritten branch old c.disk.hdr → Overwritten branch old c'.disk.hdr

instance : IsPreorder Committer (Overwriting branch old) where
  refl _ h := h
  trans _ _ _ h h' hold := h' (h hold)

theorem overwriting_of_hdr_eq {g : Disk → Disk} (h : ∀ d, (g d).hdr = d.hdr) :
    Within disk (Overwriting branch old) F (onDisk g) :=
  .write fun c hold ↦ by
    show Overwritten branch old (g c.disk).hdr
    rwa [h]

theorem overwriting_alter {g : Committer → Committer} (h : ∀ c, (g c).disk = c.disk) :
    Within disk (Overwriting branch old) F (alter g) :=
  .alter fun c hold ↦ by
    show Overwritten branch old (g c).disk.hdr
    rwa [h]

theorem overwriting_syncHdr : Within disk (Overwriting branch old) F syncHdr := by
  refine .bind .peek fun c ↦ .ite ?_ (.pure _)
  have hdone : Within disk (Overwriting branch old) F
      (alter fun c ↦ { c with dirtyHdr := false } : Op Unit) := overwriting_alter fun _ ↦ rfl
  split
  · exact .bind (.write fun c hold ↦ hold.update fun _ _ hs ↦ hs.sync) fun _ ↦ hdone
  · exact hdone

theorem overwriting_syncBody : Within disk (Overwriting branch old) F syncBody := by
  refine .bind .peek fun c ↦ .ite ?_ (.pure _)
  have hdone : Within disk (Overwriting branch old) F
      (alter fun c ↦ { c with dirtyBody := false } : Op Unit) := overwriting_alter fun _ ↦ rfl
  split
  · exact .bind (overwriting_of_hdr_eq fun _ ↦ rfl) fun _ ↦ .bind (overwriting_of_hdr_eq fun _ ↦ rfl)
      fun _ ↦ .bind (overwriting_alter fun _ ↦ rfl) fun _ ↦ hdone
  · exact hdone

theorem overwriting_ensureSegments (seg : Nat) :
    Within disk (Overwriting branch old) F (ensureSegments seg) := by
  have hcreate : Within disk (Overwriting branch old) F (do
      onDisk fun d ↦ { d with hdr := Disk.create d.hdr seg }
      onDisk fun d ↦ { d with body := Disk.create d.body seg }
      onDisk fun d ↦ { d with bidx := Disk.create d.bidx seg }
      alter fun c ↦ { c with seg := some seg }) :=
    .bind (.write fun c hold ↦ hold.create seg) fun _ ↦ .bind (overwriting_of_hdr_eq fun _ ↦ rfl)
      fun _ ↦ .bind (overwriting_of_hdr_eq fun _ ↦ rfl) fun _ ↦ overwriting_alter fun _ ↦ rfl
  refine .bind .peek fun _ ↦ .ite (.ite ?_ hcreate) (.pure _)
  exact .bind (.bind overwriting_syncHdr fun _ ↦ overwriting_syncBody) fun _ ↦
    .bind (overwriting_alter fun _ ↦ rfl) fun _ ↦ hcreate

/-- Overwriting the headers of a branch, at whatever write it is cut short. -/
theorem overwriting_overwriteHeaders (branch : List BlockToCommit) :
    Within disk (Overwriting branch old) F (overwriteHeaders branch) := by
  refine .bind (.forEach_mem fun b hb ↦ ?_) fun _ ↦ overwriting_syncHdr
  refine .bind (overwriting_ensureSegments _) fun _ ↦ .bind ?_ fun _ ↦ overwriting_alter fun _ ↦ rfl
  exact .write fun c hold ↦ hold.update fun _ _ hs ↦ hs.write hb

end Committer

/-! ## The log -/

namespace Disk

variable {d d' : Disk} {rows : List (Nat × Bytes)} {first last h : Nat}

/-- What a crash leaves of overwritten files. -/
theorem Survives.overwritten (hs : d.Survives d') (hold : Overwritten branch old d.hdr) :
    Longer old d'.hdr ∧ ∀ seg x, ¬Overwrites branch seg x → AgreesAt old d'.hdr seg x := by
  constructor
  · intro seg s hlook
    obtain ⟨t, ht, how⟩ := hold seg s hlook
    obtain ⟨t', ht', hsurv⟩ := hs.hdr seg t ht
    exact ⟨t', ht', (how.survives hsurv).1⟩
  · intro seg x hno s t' hlook ht' hx
    obtain ⟨t, ht, how⟩ := hold seg s hlook
    obtain ⟨t'', ht'', hsurv⟩ := hs.hdr seg t ht
    obtain rfl := Option.some.inj (ht'.symm.trans ht'')
    exact (how.survives hsurv).2 x hx hno

/-- A byte of a header that a branch goes over is of a header of the branch at this height. -/
theorem exists_height_eq (hover : Overwrites branch (segOf h) x) (hx : hdrOffset h ≤ x)
    (hx' : x < hdrOffset h + headerBytes) : ∃ b ∈ branch, b.height = h := by
  obtain ⟨b, hb, hseg, hcov⟩ := hover
  refine ⟨b, hb, ?_⟩
  by_contra hne
  have hlen : b.header.bytes.length = headerBytes := b.header.length_eq
  have hcov' : hdrOffset b.height ≤ x ∧ x < hdrOffset b.height + headerBytes := by
    rw [← hlen]
    exact hcov
  rcases hdrOffset_disjoint hne hseg with hlt | hlt
  · exact absurd (hlt.trans hx) (Nat.not_le.mpr hcov'.2)
  · exact absurd (hlt.trans hcov'.1) (Nat.not_le.mpr hx')

/-- The log puts every header back that the branch went over. -/
theorem readHeader_rewriteSectors {d₀ : Disk} {y : RawHeader} (hs : d.Survives d')
    (hold : Overwritten branch d₀.hdr d.hdr)
    (hrows : ∀ row, row ∈ d'.undoEntries ↔ first ≤ last ∧ row ∈ Committer.hdrUndoRows d₀ first last)
    (hbranch : ∀ b ∈ branch, b.height = h → first ≤ h ∧ h ≤ last) (hy : d₀.readHeader h = some y) :
    d'.replayHdrUndo.readHeader h = some y := by
  obtain ⟨hlonger, hagrees⟩ := hs.overwritten hold
  have hsaved : ∀ row ∈ d'.undoEntries, SavedFrom d₀.hdr row := fun row hrow ↦
    (savedFrom_of_mem ((hrows row).mp hrow).2).1
  have hall (x : Nat) (hx : hdrOffset h ≤ x) (hx' : x < hdrOffset h + headerBytes) :
      AgreesAt d₀.hdr d'.replayHdrUndo.hdr (segOf h) x := by
    intro s s' hlook hlook' hlen
    rw [hdr_replayHdrUndo] at hlook'
    refine agreesAt_rewriteSectors hsaved hlonger ?_ s s' hlook hlook' hlen
    by_cases hover : Overwrites branch (segOf h) x
    · obtain ⟨b, hb, hheight⟩ := exists_height_eq hover hx hx'
      obtain ⟨hfirst, hlast⟩ := hbranch b hb hheight
      obtain ⟨row, hrow, hputs⟩ := exists_puts hfirst hlast hlook hx hx' hlen
      exact .inr ⟨row, (hrows row).mpr ⟨hfirst.trans hlast, hrow⟩, hputs⟩
    · exact .inl (hagrees _ x hover)
  refine readHeader_of_agreesAt ?_ hall hy
  rw [hdr_replayHdrUndo]
  exact hlonger.rewriteSectors _

end Disk

section

variable [Crypto]

namespace Committer

open Prog

/-- A committer whose reorg has sealed what was open. -/
def sealedBy (c : Committer) : Committer := (sealBatch true c).state

/-- A committer whose reorg has saved the sectors it is going to overwrite. -/
def savedBy (plan : ReorgPlan) (c : Committer) : Committer :=
  (writeHdrUndo (plan.forkHeight + 1)
    (min (plan.forkHeight + plan.apply.length) c.sealedBy.info.tip.height)
    { c.sealedBy with poisoned := true }).state

variable {c : Committer} {plan : ReorgPlan}

end Committer

omit [Crypto] in
/-- The heights of a plan that is checked. -/
theorem PlanFacts.height_le {plan : ReorgPlan} {tip undoFloor : Nat} (h : PlanFacts plan tip undoFloor)
    {b : BlockToCommit} (hb : b ∈ plan.apply) :
    plan.forkHeight + 1 ≤ b.height ∧ b.height ≤ plan.forkHeight + plan.apply.length := by
  obtain ⟨done, rest, hsplit⟩ := List.append_of_mem hb
  have hheight := h.height done b ⟨rest, by rw [hsplit, List.append_assoc, List.singleton_append]⟩
  have hlen : plan.apply.length = done.length + (rest.length + 1) := by
    rw [hsplit, List.length_append, List.length_cons]
  omega

/-- Wherever the header writes of a reorg are cut short, and whatever of them reached the platter,
replaying the undo log brings back every header there was up to the old tip.  Replaying it again
changes nothing: the log is empty then, and where a replay broke off before that, its entries come to
the same over what it did. -/
theorem replayHdrUndo_spec {cfg : StoreConfig} {c : Committer} (h : Ran cfg c) {plan : ReorgPlan}
    (hseal : (Committer.sealBatch true c).result = .ok ())
    (hplan : Committer.checkPlan c.sealedBy.info c.sealedBy.replayFloor plan = .ok ()) :
    ∀ d ∈ (c.savedBy plan).disk :: (Committer.overwriteHeaders plan.apply (c.savedBy plan)).trail,
      ∀ d', d.Survives d' →
        (∀ k ≤ c.sealedBy.info.tip.height, ∀ y, c.sealedBy.disk.readHeader k = some y →
          d'.replayHdrUndo.readHeader k = some y) ∧
        d'.replayHdrUndo.replayHdrUndo = d'.replayHdrUndo ∧
        ∀ done, done <+: d'.undoEntries → ∀ seg,
          (Disk.rewriteSectors d'.undoEntries (Disk.rewriteSectors done d'.hdr)).lookup seg =
            d'.replayHdrUndo.hdr.lookup seg := by
  have hquiet : c.sealedBy.Quiet ∧ Synced c.sealedBy.disk.hdr := by
    rcases h.quiet with hpois | hquiet
    · have hrefused : (Committer.sealBatch true).wp (fun _ ↦ True) (fun _ _ ↦ False) (fun _ _ ↦ True) c := by
        simp [Committer.sealBatch, Committer.guard, hpois]
      rcases hrefused.cases with ⟨_, -, hfalse⟩ | ⟨e, hres, -⟩
      · exact hfalse.elim
      · cases hseal.symm.trans hres
    · rcases (Committer.sealBatch_quiet hquiet).cases with ⟨_, -, h⟩ | ⟨e, hres, -⟩
      · exact h
      · cases hseal.symm.trans hres
  obtain ⟨hquiet, hsynced⟩ := hquiet
  have hfacts := planFacts hplan
  obtain ⟨t, hsaved, hlog⟩ : ∃ t : Tables,
      c.savedBy plan = { c.sealedBy with
        disk := { c.sealedBy.disk with db := c.sealedBy.disk.db.commit t }
        poisoned := true } ∧
      t.hdrUndo = if min (plan.forkHeight + plan.apply.length) c.sealedBy.info.tip.height <
          plan.forkHeight + 1 then ∅
        else (Committer.hdrUndoRows c.sealedBy.disk (plan.forkHeight + 1)
          (min (plan.forkHeight + plan.apply.length) c.sealedBy.info.tip.height)).foldl
            (fun m row ↦ m.insert row.1 row.2) ∅ := by
    have hspec := Committer.writeHdrUndo_spec (plan.forkHeight + 1)
      (min (plan.forkHeight + plan.apply.length) c.sealedBy.info.tip.height)
      { c.sealedBy with poisoned := true }
    rw [show ({ c.sealedBy with poisoned := true } : Committer).disk = c.sealedBy.disk from rfl,
      hquiet.db.tables] at hspec
    rcases hspec.cases with ⟨_, -, h⟩ | ⟨_, -, h⟩
    · exact h
    · exact h.elim
  have hhdr : (c.savedBy plan).disk.hdr = c.sealedBy.disk.hdr := by rw [hsaved]
  have hstart : Overwritten plan.apply c.sealedBy.disk.hdr (c.savedBy plan).disk.hdr := by
    rw [hhdr]
    exact fun seg s hs ↦ ⟨s, hs, .refl (hsynced seg s hs)⟩
  intro d hd d' hsurv
  obtain ⟨hold, hdb⟩ : Overwritten plan.apply c.sealedBy.disk.hdr d.hdr ∧
      d.db = (c.savedBy plan).disk.db := by
    rcases List.mem_cons.mp hd with rfl | hd
    · exact ⟨hstart, rfl⟩
    · obtain ⟨c', hover, rfl⟩ :=
        (Committer.overwriting_overwriteHeaders (F := fun _ _ ↦ True) plan.apply (c.savedBy plan)).1 d hd
      exact ⟨hover hstart,
        Committer.Same.trail ((Committer.same_overwriteHeaders (F := fun _ _ ↦ True) plan.apply
          (c.savedBy plan)).1 _ hd)⟩
  have hlog' : d'.db.tables.hdrUndo = t.hdrUndo := by rw [hsurv.db, hdb, hsaved]; rfl
  have hrows (row : Nat × Bytes) : row ∈ d'.undoEntries ↔
      plan.forkHeight + 1 ≤ min (plan.forkHeight + plan.apply.length) c.sealedBy.info.tip.height ∧
        row ∈ Committer.hdrUndoRows c.sealedBy.disk (plan.forkHeight + 1)
          (min (plan.forkHeight + plan.apply.length) c.sealedBy.info.tip.height) := by
    rw [hlog] at hlog'
    split at hlog'
    case isTrue hlt =>
      rw [Disk.undoEntries, hlog']
      constructor
      · intro hrow
        cases hrow
      · intro hrow
        exact absurd hrow.1 (Nat.not_le.mpr hlt)
    case isFalse hle =>
      rw [Disk.mem_undoEntries hlog']
      exact ⟨fun hrow ↦ ⟨Nat.not_lt.mp hle, hrow⟩, fun hrow ↦ hrow.2⟩
  refine ⟨fun k hk y hy ↦ ?_, ?_, fun done hpre seg ↦ ?_⟩
  · refine Disk.readHeader_rewriteSectors hsurv hold hrows (fun b hb hheight ↦ ?_) hy
    obtain ⟨hlow, hhigh⟩ := hfacts.height_le hb
    exact hheight ▸ ⟨hlow, le_min hhigh (hheight ▸ hk)⟩
  · conv_lhs => rw [Disk.replayHdrUndo, if_pos d'.undoEntries_replayHdrUndo]
  · rw [Disk.hdr_replayHdrUndo]
    refine Disk.lookup_rewriteSectors_again hpre (Disk.pairwise_undoEntries fun row hrow ↦ ?_) d'.hdr seg
    exact (Disk.savedFrom_of_mem ((hrows row).mp hrow).2).2.1

end

namespace Scene

/-- A file whose pending writes reached the platter as noise. -/
def torn (s : Seg) : Seg where
  durable := ⟨s.durable.len, fun i ↦
    if s.pending.any fun w ↦ decide (w.Covers i) then 255 else s.durable.byte i⟩
  pending := []

theorem survives_torn (s : Seg) : s.Survives (torn s) := by
  have hlen : s.durable.len ≤ s.file.len := Seg.durable_len_le
  refine ⟨rfl, le_rfl, hlen, fun i _ hno ↦ if_neg ?_⟩
  intro hany
  obtain ⟨w, hw, hcov⟩ := List.any_eq_true.mp hany
  exact hno w hw (of_decide_eq_true hcov)

/-- The disk after the first header write of the reorg. -/
def cutShort : Disk :=
  letI := crypto
  (Committer.overwriteHeaders switch.apply (started.savedBy switch)).trail.headD .empty

/-- What a crash may leave of it. -/
def crashed : Disk := { cutShort with hdr := Disk.update cutShort.hdr 0 torn }

theorem survives_crashed : cutShort.Survives crashed := by
  have hkeys : cutShort.hdr.keys = [0] := by decide +kernel
  refine ⟨fun seg s hs ↦ ⟨torn s, ?_, survives_torn s⟩, rfl⟩
  have hmem : seg ∈ cutShort.hdr.keys :=
    AList.lookup_isSome.mp (Option.isSome_iff_exists.mpr ⟨s, hs⟩)
  rw [hkeys] at hmem
  obtain rfl := List.mem_singleton.mp hmem
  show (Disk.update cutShort.hdr 0 torn).lookup 0 = some (torn s)
  unfold Disk.update
  rw [hs]
  exact AList.lookup_insert _

end Scene

/-- The sample's reorg, cut short in its first header write: the old header is lost, and comes back. -/
theorem replayHdrUndo_spec_crashed : letI := Scene.crypto
    Scene.crashed.readHeader 1 ≠ some Scene.first.header ∧
      Scene.crashed.replayHdrUndo.readHeader 1 = some Scene.first.header := by
  let _ := Scene.crypto
  have hfacts : (Committer.sealBatch true Scene.started).result.isOk = true ∧
      (Committer.checkPlan Scene.started.sealedBy.info Scene.started.sealedBy.replayFloor
        Scene.switch).isOk = true ∧
      (Committer.overwriteHeaders Scene.switch.apply
        (Scene.started.savedBy Scene.switch)).trail.isEmpty = false ∧
      1 ≤ Scene.started.sealedBy.info.tip.height ∧
      Scene.started.sealedBy.disk.readHeader 1 = some Scene.first.header ∧
      Scene.crashed.readHeader 1 ≠ some Scene.first.header := by decide +kernel
  obtain ⟨hseal, hplan, hne, htip, hheader, hlost⟩ := hfacts
  have hok {e : Except StoreError Unit} (h : e.isOk = true) : e = .ok () := by
    cases e with
    | ok _ => rfl
    | error _ => cases h
  have hran : Ran Scene.config Scene.started := .call (.extend [Scene.genesis, Scene.first]) .fresh
  have hmem : Scene.cutShort ∈ (Committer.overwriteHeaders Scene.switch.apply
      (Scene.started.savedBy Scene.switch)).trail := by
    unfold Scene.cutShort
    cases htrail : (Committer.overwriteHeaders Scene.switch.apply
      (Scene.started.savedBy Scene.switch)).trail with
    | nil =>
      rw [htrail] at hne
      cases hne
    | cons d rest => exact List.mem_cons_self
  have h := replayHdrUndo_spec hran (hok hseal) (hok hplan) Scene.cutShort
    (List.mem_cons_of_mem _ hmem) Scene.crashed Scene.survives_crashed
  exact ⟨hlost, h.1 1 htip _ hheader⟩

end Plaine.Storage

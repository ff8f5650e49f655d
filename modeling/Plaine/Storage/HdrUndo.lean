import Plaine.Lib.Table
import Plaine.Storage.Headers

/-!
# The header undo log

Before a reorg overwrites headers it saves the sectors they lie in, whole ones, since a header may
straddle two.  The writes that follow may be cut short anywhere, and a write that was not synced may
leave anything where it went.  `replay_hdr_undo` puts the sectors back: every byte that could have
been written is a byte of a saved sector, or lies past the old tip.
-/

namespace Plaine.Storage

open Plaine.Lib Plaine.Consensus

namespace Disk

/-! ## Replaying -/

/-- One entry of the log: its sector is written back and synced. -/
def rewriteSector (files : AList fun _ : Nat ↦ Seg) (row : Nat × Bytes) : AList fun _ : Nat ↦ Seg :=
  update (create files (row.1 / 2 ^ 32)) (row.1 / 2 ^ 32) fun s ↦
    (s.write (row.1 % 2 ^ 32 * sector) row.2).sync

/-- The loop of `replay_hdr_undo` over the files. -/
def rewriteSectors (rows : List (Nat × Bytes)) (files : AList fun _ : Nat ↦ Seg) :
    AList fun _ : Nat ↦ Seg := rows.foldl rewriteSector files

/-- The entries of the log, by their keys. -/
def undoEntries (d : Disk) : List (Nat × Bytes) :=
  (d.db.tables.hdrUndo.entries.map fun e ↦ (e.1, e.2)).insertionSort fun a b ↦ a.1 ≤ b.1

/-- What `replay_hdr_undo` returns: the first height it may have changed, and how many sectors it
wrote. -/
def replayReport (rows : List (Nat × Bytes)) : Option (Nat × Nat) :=
  if rows = [] then none
  else some (rows.foldl (fun first row ↦ min first (segFirstHeight (row.1 / 2 ^ 32) +
    row.1 % 2 ^ 32 * sector / headerBytes)) u64Max, rows.length)

/-- `replay_hdr_undo`. -/
def replayHdrUndo (d : Disk) : Disk :=
  if d.undoEntries = [] then d
  else { d with
    hdr := rewriteSectors d.undoEntries d.hdr
    db := d.db.commit { d.db.tables with
      hdrUndo := d.undoEntries.foldl (fun m row ↦ m.erase row.1) d.db.tables.hdrUndo } }

/-- What a crash may leave of a disk: of every header file what may survive of it, and the database as
it was committed last. -/
structure Survives (d d' : Disk) : Prop where
  hdr : ∀ seg s, d.hdr.lookup seg = some s → ∃ s', d'.hdr.lookup seg = some s' ∧ s.Survives s'
  db : d'.db = d.db

variable {files files' : AList fun _ : Nat ↦ Seg} {seg x : Nat} {s : Seg} {row : Nat × Bytes}
  {rows : List (Nat × Bytes)} {d d' : Disk}

theorem lookup_rewriteSector (files : AList fun _ : Nat ↦ Seg) (row : Nat × Bytes) (seg : Nat) :
    (rewriteSector files row).lookup seg = if seg = row.1 / 2 ^ 32 then
        some ((((files.lookup seg).getD .empty).write (row.1 % 2 ^ 32 * sector) row.2).sync)
      else files.lookup seg := by
  unfold rewriteSector update create
  split_ifs with hsome heq heq
  · subst heq
    obtain ⟨s, hs⟩ := Option.isSome_iff_exists.mp hsome
    simp only [hs, AList.lookup_insert, Option.getD_some]
  · obtain ⟨s, hs⟩ := Option.isSome_iff_exists.mp hsome
    simp only [hs, AList.lookup_insert_ne heq]
  · subst heq
    have hnone := Option.not_isSome_iff_eq_none.mp hsome
    simp only [AList.lookup_insert, hnone, Option.getD_none]
  · simp only [AList.lookup_insert, AList.lookup_insert_ne heq]

/-! ## Agreeing with the old files -/

/-- Every file is there, and no shorter. -/
def Longer (old files : AList fun _ : Nat ↦ Seg) : Prop :=
  ∀ seg s, old.lookup seg = some s → ∃ s', files.lookup seg = some s' ∧ s.file.len ≤ s'.file.len

/-- A byte of a file is what it was. -/
def AgreesAt (old files : AList fun _ : Nat ↦ Seg) (seg x : Nat) : Prop :=
  ∀ s s', old.lookup seg = some s → files.lookup seg = some s' → x < s.file.len →
    s'.file.byte x = s.file.byte x

/-- An entry that was read from the old files. -/
def SavedFrom (old : AList fun _ : Nat ↦ Seg) (row : Nat × Bytes) : Prop :=
  row.2 ≠ [] ∧ ∃ s, old.lookup (row.1 / 2 ^ 32) = some s ∧
    row.1 % 2 ^ 32 * sector + row.2.length ≤ s.file.len ∧
      row.2 = s.file.read (row.1 % 2 ^ 32 * sector) row.2.length

/-- The bytes an entry puts back. -/
def Puts (row : Nat × Bytes) (seg x : Nat) : Prop :=
  seg = row.1 / 2 ^ 32 ∧ (⟨row.1 % 2 ^ 32 * sector, row.2⟩ : Write).Covers x

variable {old : AList fun _ : Nat ↦ Seg}

theorem Longer.rewriteSector (h : Longer old files) (row : Nat × Bytes) :
    Longer old (rewriteSector files row) := by
  intro seg s hs
  obtain ⟨s', hs', hle⟩ := h seg s hs
  rw [lookup_rewriteSector]
  split
  case isTrue =>
    refine ⟨_, rfl, ?_⟩
    rw [hs', Option.getD_some, Seg.file_sync, Seg.file_write]
    exact hle.trans File.le_len_write
  case isFalse => exact ⟨s', hs', hle⟩

/-- An entry that was saved puts back what was there, and leaves what agrees. -/
theorem AgreesAt.rewriteSector (hrow : SavedFrom old row) (hlonger : Longer old files)
    (h : AgreesAt old files seg x ∨ Puts row seg x) : AgreesAt old (rewriteSector files row) seg x := by
  intro s s' hs hs' hx
  rw [lookup_rewriteSector] at hs'
  obtain ⟨f, hf, hle⟩ := hlonger seg s hs
  split at hs'
  case isFalse hne =>
    rcases h with h | h
    · exact h s s' hs hs' hx
    · exact absurd h.1 hne
  case isTrue heq =>
    obtain rfl := Option.some.inj hs'
    rw [hf, Option.getD_some, Seg.file_sync, Seg.file_write]
    obtain ⟨-, s₀, hs₀, hend, hdata⟩ := hrow
    rw [← heq, hs] at hs₀
    obtain rfl := Option.some.inj hs₀
    by_cases hcov : (⟨row.1 % 2 ^ 32 * sector, row.2⟩ : Write).Covers x
    · obtain ⟨i, rfl⟩ := Nat.exists_eq_add_of_le hcov.1
      have hi : i < row.2.length := Nat.add_lt_add_iff_left.mp hcov.2
      rw [File.byte_write hi]
      have hread : row.2[i]? = some (s.file.byte (row.1 % 2 ^ 32 * sector + i)) := by
        rw [hdata]
        exact File.getElem?_read hi hx
      exact Option.some.inj ((List.getElem?_eq_getElem hi).symm.trans hread)
    · rw [File.byte_write_of_not_covers hcov (hx.trans_le hle)]
      rcases h with h | h
      · exact h s f hs hf hx
      · exact absurd h.2 hcov

theorem Longer.rewriteSectors (h : Longer old files) (rows : List (Nat × Bytes)) :
    Longer old (rewriteSectors rows files) := by
  induction rows generalizing files with
  | nil => exact h
  | cons row rows ih => exact ih (h.rewriteSector row)

/-- The whole log. -/
theorem agreesAt_rewriteSectors (hrows : ∀ row ∈ rows, SavedFrom old row) (hlonger : Longer old files)
    (h : AgreesAt old files seg x ∨ ∃ row ∈ rows, Puts row seg x) :
    AgreesAt old (rewriteSectors rows files) seg x := by
  induction rows generalizing files with
  | nil =>
    refine h.resolve_right ?_
    rintro ⟨row, hrow, -⟩
    cases hrow
  | cons row rows ih =>
    have hrow := hrows row List.mem_cons_self
    refine ih (fun r hr ↦ hrows r (List.mem_cons_of_mem _ hr)) (hlonger.rewriteSector row) ?_
    rcases h with h | ⟨r, hr, hputs⟩
    · exact .inl (AgreesAt.rewriteSector hrow hlonger (.inl h))
    · rcases List.mem_cons.mp hr with rfl | hr
      · exact .inl (AgreesAt.rewriteSector hrow hlonger (.inr hputs))
      · exact .inr ⟨r, hr, hputs⟩

/-- A header all of whose bytes agree. -/
theorem readHeader_of_agreesAt {h : Nat} {y : RawHeader} (hlonger : Longer d.hdr d'.hdr)
    (hagrees : ∀ x, hdrOffset h ≤ x → x < hdrOffset h + headerBytes → AgreesAt d.hdr d'.hdr (segOf h) x)
    (hy : d.readHeader h = some y) : d'.readHeader h = some y := by
  rw [readHeader_eq_some] at hy ⊢
  have hlen : (pread d.hdr (segOf h) (hdrOffset h) headerBytes).length = headerBytes := by
    rw [hy]
    exact y.length_eq
  rw [← hy]
  unfold pread at hlen ⊢
  cases hs : d.hdr.lookup (segOf h) with
  | none =>
    rw [hs] at hlen
    cases hlen
  | some s =>
    obtain ⟨s', hs', hle⟩ := hlonger _ s hs
    rw [hs, Option.map_some, Option.getD_some, File.length_read] at hlen
    rw [hs', Option.map_some, Option.getD_some, Option.map_some, Option.getD_some]
    have hend : hdrOffset h + headerBytes ≤ s.file.len := by
      have hpos : 0 < headerBytes := by decide
      omega
    refine File.read_congr (hend.trans hle) hend fun x h₁ h₂ ↦ ?_
    exact hagrees x h₁ h₂ s s' hs hs' (h₂.trans_le hend)

/-! ## The sectors saved -/

/-- The first sector saved of a segment, and the one after the last. -/
def firstSector (first seg : Nat) : Nat := hdrOffset (max first (segFirstHeight seg)) / sector
def endSector (last seg : Nat) : Nat :=
  (hdrOffset (min (segFirstHeight seg + segBlocks - 1) last) + headerBytes + sector - 1) / sector

theorem mem_sectorsOf {f : File} {a b : Nat} {row : Nat × Bytes} :
    row ∈ Committer.sectorsOf f (a * sector) (b * sector) ↔
      (a ≤ row.1 ∧ row.1 < b) ∧ row.2 = f.read (row.1 * sector) sector ∧ row.2 ≠ [] := by
  have hpos : 0 < sector := by decide
  obtain ⟨i, data⟩ := row
  rw [Committer.sectorsOf, Nat.mul_div_cancel _ hpos, ← Nat.sub_mul, Nat.mul_div_cancel _ hpos,
    List.mem_filter, List.mem_map]
  simp only [List.mem_range'_1, Prod.mk.injEq, decide_eq_true_eq]
  constructor
  · rintro ⟨⟨j, ⟨hle, hlt⟩, rfl, rfl⟩, hne⟩
    exact ⟨⟨hle, by omega⟩, rfl, hne⟩
  · rintro ⟨⟨hle, hlt⟩, rfl, hne⟩
    exact ⟨⟨i, ⟨hle, by omega⟩, rfl, rfl⟩, hne⟩

/-- A row of the log. -/
theorem mem_hdrUndoRows {first last : Nat} {row : Nat × Bytes} :
    row ∈ Committer.hdrUndoRows d first last ↔ ∃ seg s i, (segOf first ≤ seg ∧ seg ≤ segOf last) ∧
      d.hdr.lookup seg = some s ∧ (firstSector first seg ≤ i ∧ i < endSector last seg) ∧
        row = (seg * 2 ^ 32 + i, s.file.read (i * sector) sector) ∧ row.2 ≠ [] := by
  rw [Committer.hdrUndoRows, List.mem_flatMap]
  refine exists_congr fun seg ↦ ?_
  have hseg : seg ∈ List.range' (segOf first) (segOf last + 1 - segOf first) ↔
      segOf first ≤ seg ∧ seg ≤ segOf last := by
    rw [List.mem_range'_1]
    omega
  rw [hseg]
  cases hs : d.hdr.lookup seg with
  | none => simp
  | some s =>
    dsimp only
    rw [List.mem_map]
    constructor
    · rintro ⟨hbounds, r, hr, rfl⟩
      obtain ⟨hi, hdata, hne⟩ := mem_sectorsOf.mp hr
      exact ⟨s, r.1, hbounds, rfl, hi, by rw [← hdata], hne⟩
    · rintro ⟨s', i, hbounds, hs', hi, rfl, hne⟩
      obtain rfl := Option.some.inj hs'
      exact ⟨hbounds, (i, _), mem_sectorsOf.mpr ⟨hi, rfl, hne⟩, rfl⟩

theorem endSector_lt (last seg : Nat) : endSector last seg < 2 ^ 32 := by
  have hlt := slotOf_lt (min (segFirstHeight seg + segBlocks - 1) last)
  have hslot : hdrOffset (min (segFirstHeight seg + segBlocks - 1) last) ≤ segBlocks * headerBytes :=
    Nat.mul_le_mul_right _ hlt.le
  have hseg : segBlocks * headerBytes = 540672 := by decide
  have hbytes : headerBytes = 132 := rfl
  have hsector : sector = 4096 := rfl
  rw [endSector, hsector]
  omega

/-- The segment and the sector of a key. -/
theorem key_eq (seg : Nat) {i : Nat} (h : i < 2 ^ 32) :
    (seg * 2 ^ 32 + i) / 2 ^ 32 = seg ∧ (seg * 2 ^ 32 + i) % 2 ^ 32 = i := by
  constructor
  · rw [Nat.mul_comm, Nat.mul_add_div (Nat.two_pow_pos 32), Nat.div_eq_of_lt h, Nat.add_zero]
  · rw [Nat.mul_comm, Nat.mul_add_mod, Nat.mod_eq_of_lt h]

/-- What a row of the log was read from. -/
theorem savedFrom_of_mem {first last : Nat} {row : Nat × Bytes}
    (h : row ∈ Committer.hdrUndoRows d first last) : SavedFrom d.hdr row ∧ row.2.length ≤ sector ∧
      row.2 = pread d.hdr (row.1 / 2 ^ 32) (row.1 % 2 ^ 32 * sector) sector := by
  obtain ⟨seg, s, i, -, hs, ⟨-, hi⟩, rfl, hne⟩ := mem_hdrUndoRows.mp h
  obtain ⟨hkey, hsector⟩ := key_eq seg (hi.trans (endSector_lt last seg))
  dsimp only at hne
  have hlen : (s.file.read (i * sector) sector).length = min sector (s.file.len - i * sector) :=
    File.length_read
  have hpos : 0 < (s.file.read (i * sector) sector).length := List.length_pos_iff.mpr hne
  unfold SavedFrom
  dsimp only
  rw [hkey, hsector, hlen]
  refine ⟨⟨hne, s, hs, by omega, ?_⟩, Nat.min_le_left _ _, ?_⟩
  · rw [File.read, File.read, Nat.min_assoc, Nat.min_self]
  · rw [pread, hs, Option.map_some, Option.getD_some]

/-- Offsets grow with the heights of a segment. -/
theorem hdrOffset_le {h k : Nat} (hle : h ≤ k) (hseg : segOf h = segOf k) :
    hdrOffset h ≤ hdrOffset k := by
  have hh := segFirstHeight_add_slotOf h
  have hk := segFirstHeight_add_slotOf k
  rw [hseg] at hh
  exact Nat.mul_le_mul_right _ (by omega)

/-- Every byte of a header in the range is in a sector that is saved. -/
theorem exists_puts {first last h : Nat} (hfirst : first ≤ h) (hlast : h ≤ last)
    (hs : d.hdr.lookup (segOf h) = some s) (hx : hdrOffset h ≤ x)
    (hx' : x < hdrOffset h + headerBytes) (hlen : x < s.file.len) :
    ∃ row ∈ Committer.hdrUndoRows d first last, Puts row (segOf h) x := by
  have hheight := segFirstHeight_add_slotOf h
  have hslot := slotOf_lt h
  have hmin : segOf (max first (segFirstHeight (segOf h))) = segOf h := by
    refine le_antisymm (segOf_mono (max_le hfirst (by omega))) ?_
    have hown : segOf (segFirstHeight (segOf h)) = segOf h := by
      have := segOf_add (s := segOf h) segBlocks_pos
      rwa [Nat.add_zero] at this
    exact hown.symm.le.trans (segOf_mono (le_max_right _ _))
  have hmax : segOf (min (segFirstHeight (segOf h) + segBlocks - 1) last) = segOf h := by
    refine le_antisymm ?_ (segOf_mono (le_min (by omega) hlast))
    have hown : segOf (segFirstHeight (segOf h) + (segBlocks - 1)) = segOf h :=
      segOf_add (by have := segBlocks_pos; omega)
    rw [Nat.add_sub_assoc segBlocks_pos]
    exact (segOf_mono (min_le_left _ _)).trans hown.le
  have hlow := hdrOffset_le (max_le hfirst (by omega : segFirstHeight (segOf h) ≤ h)) hmin
  have hhigh := hdrOffset_le
    (le_min (by omega : h ≤ segFirstHeight (segOf h) + segBlocks - 1) hlast) hmax.symm
  have hsector : sector = 4096 := rfl
  have hi : firstSector first (segOf h) ≤ x / sector ∧ x / sector < endSector last (segOf h) := by
    rw [firstSector, endSector]
    constructor
    · exact Nat.div_le_div_right (hlow.trans hx)
    · rw [hsector]
      omega
  have hcov : x / sector * sector ≤ x ∧ x < x / sector * sector + sector := by
    rw [hsector]
    omega
  have hread : (s.file.read (x / sector * sector) sector).length =
      min sector (s.file.len - x / sector * sector) := File.length_read
  refine ⟨_, mem_hdrUndoRows.mpr ⟨segOf h, s, x / sector, ⟨segOf_mono hfirst, segOf_mono hlast⟩, hs,
    hi, rfl, ?_⟩, ?_⟩
  · intro hnil
    dsimp only at hnil
    rw [hnil, List.length_nil] at hread
    omega
  · obtain ⟨hkey, hmod⟩ := key_eq (segOf h) (hi.2.trans (endSector_lt last (segOf h)))
    unfold Puts Write.Covers Write.stop
    dsimp only
    rw [hkey, hmod, hread]
    exact ⟨rfl, hcov.1, by omega⟩

/-! ## Twice -/

/-- A file that holds what an entry would write. -/
def Holds (files : AList fun _ : Nat ↦ Seg) (row : Nat × Bytes) : Prop :=
  ∃ f : File, files.lookup (row.1 / 2 ^ 32) = some ⟨f, []⟩ ∧
    f.write ⟨row.1 % 2 ^ 32 * sector, row.2⟩ = f

/-- Entries that do not touch each other. -/
def Apart (row row' : Nat × Bytes) : Prop :=
  row.1 / 2 ^ 32 = row'.1 / 2 ^ 32 →
    (⟨row.1 % 2 ^ 32 * sector, row.2⟩ : Write).stop ≤ row'.1 % 2 ^ 32 * sector ∨
      (⟨row'.1 % 2 ^ 32 * sector, row'.2⟩ : Write).stop ≤ row.1 % 2 ^ 32 * sector

/-- What an entry would write is there after it is written. -/
theorem holds_rewriteSector (files : AList fun _ : Nat ↦ Seg) (row : Nat × Bytes) :
    Holds (rewriteSector files row) row := by
  refine ⟨_, by rw [lookup_rewriteSector, if_pos rfl]; rfl, ?_⟩
  rw [Seg.file_write, File.write_write]

/-- It stays there when another entry is written. -/
theorem Holds.rewriteSector {row' : Nat × Bytes} (h : Holds files row) (hapart : Apart row row') :
    Holds (rewriteSector files row') row := by
  obtain ⟨f, hf, hwrite⟩ := h
  rw [Holds, lookup_rewriteSector]
  split
  case isFalse => exact ⟨f, hf, hwrite⟩
  case isTrue heq =>
    refine ⟨_, rfl, ?_⟩
    rw [hf, Option.getD_some, Seg.file_write, Seg.file_of_pending_nil rfl]
    rw [File.write_comm (hapart heq).symm, hwrite]

/-- Writing what is there changes nothing. -/
theorem Holds.lookup_rewriteSector (h : Holds files row) (seg : Nat) :
    (Disk.rewriteSector files row).lookup seg = files.lookup seg := by
  obtain ⟨f, hf, hwrite⟩ := h
  rw [Disk.lookup_rewriteSector]
  split
  case isFalse => rfl
  case isTrue heq =>
    rw [heq, hf, Option.getD_some, Option.some.injEq]
    show (⟨(Seg.write ⟨f, []⟩ _ _).file, []⟩ : Seg) = _
    rw [Seg.file_write, Seg.file_of_pending_nil rfl, hwrite]

theorem lookup_rewriteSectors_congr (h : ∀ seg, files.lookup seg = files'.lookup seg)
    (rows : List (Nat × Bytes)) (seg : Nat) :
    (rewriteSectors rows files).lookup seg = (rewriteSectors rows files').lookup seg := by
  induction rows generalizing files files' with
  | nil => exact h seg
  | cons row rows ih =>
    refine ih fun seg ↦ ?_
    rw [lookup_rewriteSector, lookup_rewriteSector, h]

theorem Holds.congr (h : Holds files row) (heq : ∀ seg, files'.lookup seg = files.lookup seg) :
    Holds files' row := by
  obtain ⟨f, hf, hwrite⟩ := h
  exact ⟨f, (heq _).trans hf, hwrite⟩

/-- Entries that are there already. -/
theorem lookup_rewriteSectors_of_holds (h : ∀ row ∈ rows, Holds files row) (seg : Nat) :
    (rewriteSectors rows files).lookup seg = files.lookup seg := by
  induction rows generalizing files with
  | nil => rfl
  | cons row rows ih =>
    have hrow := (h row List.mem_cons_self).lookup_rewriteSector
    rw [← hrow seg]
    exact ih fun r hr ↦ (h r (List.mem_cons_of_mem _ hr)).congr hrow

theorem holds_rewriteSectors (h : rows.Pairwise Apart) :
    ∀ row ∈ rows, Holds (rewriteSectors rows files) row := by
  have hkeep {rows : List (Nat × Bytes)} {row : Nat × Bytes} {files : AList fun _ : Nat ↦ Seg}
      (hrow : Holds files row) (hrows : ∀ r ∈ rows, Apart row r) :
      Holds (rewriteSectors rows files) row := by
    induction rows generalizing files with
    | nil => exact hrow
    | cons r rows ih =>
      exact ih (hrow.rewriteSector (hrows r List.mem_cons_self))
        fun q hq ↦ hrows q (List.mem_cons_of_mem _ hq)
  induction rows generalizing files with
  | nil =>
    intro row hrow
    cases hrow
  | cons r rows ih =>
    obtain ⟨hr, hrest⟩ := List.pairwise_cons.mp h
    intro row hrow
    rcases List.mem_cons.mp hrow with rfl | hrow
    · show Holds (rewriteSectors rows (rewriteSector files row)) row
      exact hkeep (holds_rewriteSector files row) hr
    · exact ih hrest row hrow

/-- A replay that broke off after some of the entries and begins again comes to the same. -/
theorem lookup_rewriteSectors_again {done : List (Nat × Bytes)} (hpre : done <+: rows)
    (h : rows.Pairwise Apart) (files : AList fun _ : Nat ↦ Seg) (seg : Nat) :
    (rewriteSectors rows (rewriteSectors done files)).lookup seg =
      (rewriteSectors rows files).lookup seg := by
  obtain ⟨rest, rfl⟩ := hpre
  have happend (files : AList fun _ : Nat ↦ Seg) : rewriteSectors (done ++ rest) files =
      rewriteSectors rest (rewriteSectors done files) := List.foldl_append
  rw [happend, happend]
  refine lookup_rewriteSectors_congr (fun seg ↦ ?_) rest seg
  exact lookup_rewriteSectors_of_holds
    (holds_rewriteSectors (h.sublist (List.sublist_append_left _ _))) seg

/-! ## The log -/

/-- The entries of a log that was empty before the rows were stored. -/
theorem mem_undoEntries {first last : Nat} {row : Nat × Bytes}
    (hlog : d'.db.tables.hdrUndo =
      (Committer.hdrUndoRows d first last).foldl (fun m row ↦ m.insert row.1 row.2) ∅) :
    row ∈ d'.undoEntries ↔ row ∈ Committer.hdrUndoRows d first last := by
  have hentry : row ∈ d'.undoEntries ↔ d'.db.tables.hdrUndo.lookup row.1 = some row.2 := by
    rw [undoEntries, List.mem_insertionSort, List.mem_map, ← Option.mem_def, AList.mem_lookup_iff]
    constructor
    · rintro ⟨e, he, rfl⟩
      exact he
    · intro he
      exact ⟨_, he, rfl⟩
  rw [hentry, hlog]
  constructor
  · intro hlook
    rcases AList.lookup_of_foldl_insert hlook with hnone | ⟨r, hr, hkey, hval⟩
    · cases hnone
    · exact Prod.ext hkey hval ▸ hr
  · intro hrow
    rw [AList.lookup_foldl_insert (fun r : Nat × Bytes ↦ r.1) fun r ↦ r.2]
    have hmem : row ∈ (Committer.hdrUndoRows d first last).filter (·.1 = row.1) :=
      List.mem_filter.mpr ⟨hrow, decide_eq_true rfl⟩
    obtain ⟨r, hr⟩ := Option.isSome_iff_exists.mp
      (List.getLast?_isSome.mpr (List.ne_nil_of_mem hmem))
    obtain ⟨hr', hkey⟩ := List.mem_filter.mp (List.mem_of_getLast? hr)
    rw [hr, Option.map_some, Option.some_or, (savedFrom_of_mem hr').2.2,
      (savedFrom_of_mem hrow).2.2, of_decide_eq_true hkey]

/-- The entries are of different sectors. -/
theorem pairwise_undoEntries (hrows : ∀ row ∈ d.undoEntries, row.2.length ≤ sector) :
    d.undoEntries.Pairwise Apart := by
  have hkeys : (d.undoEntries.map (·.1)).Nodup := by
    have hperm := (List.perm_insertionSort (fun a b : Nat × Bytes ↦ a.1 ≤ b.1)
      (d.db.tables.hdrUndo.entries.map fun e ↦ (e.1, e.2))).map (·.1)
    rw [undoEntries, hperm.nodup_iff, List.map_map]
    exact d.db.tables.hdrUndo.nodupKeys
  refine (List.pairwise_map.mp hkeys).imp_of_mem fun {row row'} hrow hrow' hne heq ↦ ?_
  have hlen := hrows row hrow
  have hlen' := hrows row' hrow'
  have hmod : row.1 % 2 ^ 32 ≠ row'.1 % 2 ^ 32 := by
    intro hmod
    refine hne ?_
    rw [← Nat.div_add_mod row.1 (2 ^ 32), ← Nat.div_add_mod row'.1 (2 ^ 32), heq, hmod]
  have hstep {a b : Nat} (hlt : a < b) : a * sector + sector ≤ b * sector := by
    rw [← Nat.succ_mul]
    exact Nat.mul_le_mul_right _ hlt
  unfold Write.stop
  dsimp only
  rcases Nat.lt_or_gt_of_ne hmod with hlt | hlt
  · have := hstep hlt
    exact .inl (by omega)
  · have := hstep hlt
    exact .inr (by omega)

theorem hdr_replayHdrUndo (d : Disk) : d.replayHdrUndo.hdr = rewriteSectors d.undoEntries d.hdr := by
  unfold replayHdrUndo
  split
  case isTrue hnil =>
    rw [hnil]
    rfl
  case isFalse => rfl

/-- The log is empty after a replay. -/
theorem undoEntries_replayHdrUndo (d : Disk) : d.replayHdrUndo.undoEntries = [] := by
  unfold replayHdrUndo
  split
  case isTrue hnil => exact hnil
  case isFalse =>
    refine List.eq_nil_iff_forall_not_mem.mpr fun row hrow ↦ ?_
    rw [undoEntries, List.mem_insertionSort, List.mem_map] at hrow
    obtain ⟨e, he, rfl⟩ := hrow
    have hlook := AList.mem_lookup_iff.mpr he
    simp only [Db.commit] at hlook
    have herase := AList.lookup_foldl_erase (d.undoEntries.map (·.1)) d.db.tables.hdrUndo e.1
    rw [List.foldl_map] at herase
    rw [herase] at hlook
    split at hlook
    case isTrue => cases hlook
    case isFalse hmem =>
      refine hmem (List.mem_map.mpr ⟨(e.1, e.2), ?_, rfl⟩)
      rw [undoEntries, List.mem_insertionSort, List.mem_map]
      exact ⟨e, AList.mem_lookup_iff.mp hlook, rfl⟩

end Disk

end Plaine.Storage

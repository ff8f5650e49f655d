import Plaine.Storage.Codec

/-!
# Files

A file is a length and its bytes; what lies past the end reads as zero.  A segment file on the
disk is what has reached the platter and the writes since the last sync.  A crash keeps the
bytes that no pending write covers, and leaves anything in the others, cut off at any length up
to the one the writes would have given the file.
-/

namespace Plaine.Storage

open Plaine.Lib

/-- A file. -/
@[ext]
structure File where
  len : Nat
  byte : Nat → UInt8

/-- A write at an offset. -/
structure Write where
  off : Nat
  data : Bytes

namespace Write

/-- The end of a write. -/
def stop (w : Write) : Nat := w.off + w.data.length

/-- Whether a write covers a position. -/
def Covers (w : Write) (i : Nat) : Prop := w.off ≤ i ∧ i < w.stop

instance (w : Write) (i : Nat) : Decidable (w.Covers i) :=
  inferInstanceAs (Decidable (_ ∧ _))

end Write

namespace File

/-- A new file. -/
def empty : File := ⟨0, fun _ ↦ 0⟩

/-- `posio::pread`: the bytes of a range, as many as there are. -/
def read (f : File) (off n : Nat) : Bytes :=
  (List.range (min n (f.len - off))).map fun i ↦ f.byte (off + i)

/-- `posio::pwrite_all`. -/
def write (f : File) (w : Write) : File where
  len := if w.data = [] then f.len else max f.len w.stop
  byte i := if w.Covers i then w.data.getD (i - w.off) 0 else if i < f.len then f.byte i else 0

/-- `File::set_len`. -/
def setLen (f : File) (n : Nat) : File where
  len := n
  byte i := if i < f.len then f.byte i else 0

variable {f g : File} {w : Write} {i off n : Nat}

@[simp] theorem length_read : (f.read off n).length = min n (f.len - off) := by simp [read]

theorem getElem?_read (h : i < n) (hi : off + i < f.len) :
    (f.read off n)[i]? = some (f.byte (off + i)) := by
  rw [read, List.getElem?_map, List.getElem?_range (by omega)]
  rfl

/-- Two files read alike where their bytes agree. -/
theorem read_congr (hn : off + n ≤ f.len) (hg : off + n ≤ g.len)
    (h : ∀ i, off ≤ i → i < off + n → f.byte i = g.byte i) : f.read off n = g.read off n := by
  rw [read, read, Nat.min_eq_left (by omega), Nat.min_eq_left (by omega)]
  refine List.map_congr_left fun i hi ↦ h (off + i) (by omega) ?_
  have := List.mem_range.mp hi
  omega

theorem le_len_write : f.len ≤ (f.write w).len := by
  unfold write
  dsimp only
  split
  · exact le_rfl
  · exact le_max_left _ _

theorem stop_le_len_write (h : w.data ≠ []) : w.stop ≤ (f.write w).len := by
  unfold write
  dsimp only
  rw [if_neg h]
  exact le_max_right _ _

/-- A write changes the positions it covers only. -/
theorem byte_write_of_not_covers (h : ¬w.Covers i) (hi : i < f.len) :
    (f.write w).byte i = f.byte i := by
  unfold write
  dsimp only
  rw [if_neg h, if_pos hi]

/-- What was written is there. -/
theorem byte_write (hi : i < w.data.length) : (f.write w).byte (w.off + i) = w.data[i] := by
  have hcov : w.Covers (w.off + i) := ⟨Nat.le_add_right _ _, Nat.add_lt_add_left hi _⟩
  unfold write
  dsimp only
  rw [if_pos hcov, Nat.add_sub_cancel_left, List.getD_eq_getElem?_getD, List.getElem?_eq_getElem hi,
    Option.getD_some]

/-- Writing the same again. -/
theorem write_write (f : File) (w : Write) : (f.write w).write w = f.write w := by
  have hlen : ((f.write w).write w).len = (f.write w).len := by
    unfold write
    dsimp only
    split
    · rfl
    · rw [Nat.max_assoc, Nat.max_self]
  refine File.ext hlen (funext fun i ↦ ?_)
  by_cases hcov : w.Covers i
  · simp [write, hcov]
  · have hzero : (f.write w).len ≤ i → (f.write w).byte i = 0 := fun hle ↦ by
      simp only [write, if_neg hcov]
      rw [if_neg (Nat.not_lt.mpr (le_len_write.trans hle))]
    show (if w.Covers i then _ else if i < (f.write w).len then (f.write w).byte i else 0) = _
    rw [if_neg hcov]
    split
    case isTrue => rfl
    case isFalse hge => exact (hzero (Nat.le_of_not_lt hge)).symm

/-- Writes that lie apart may come in any order. -/
theorem write_comm {w w' : Write} (h : w.stop ≤ w'.off ∨ w'.stop ≤ w.off) :
    (f.write w).write w' = (f.write w').write w := by
  have hlen : ((f.write w).write w').len = ((f.write w').write w).len := by
    unfold write
    dsimp only
    split_ifs
    · rfl
    · rfl
    · rfl
    · exact Nat.max_right_comm _ _ _
  refine File.ext hlen (funext fun i ↦ ?_)
  have hboth : ¬(w.Covers i ∧ w'.Covers i) := by
    rintro ⟨hw, hw'⟩
    unfold Write.Covers at hw hw'
    omega
  have hnone (w : Write) (hcov : ¬w.Covers i) : (f.write w).byte i = if i < f.len then f.byte i else 0 := by
    simp only [write, if_neg hcov]
  have hin (w : Write) (hcov : w.Covers i) : i < (f.write w).len := by
    refine hcov.2.trans_le (stop_le_len_write fun hnil ↦ ?_)
    have hstop := hcov.2
    rw [Write.stop, hnil] at hstop
    exact absurd hcov.1 (Nat.not_le.mpr hstop)
  show (if w'.Covers i then _ else if i < (f.write w).len then (f.write w).byte i else 0) =
    if w.Covers i then _ else if i < (f.write w').len then (f.write w').byte i else 0
  by_cases hw : w.Covers i
  · have hw' : ¬w'.Covers i := fun h' ↦ hboth ⟨hw, h'⟩
    rw [if_neg hw', if_pos hw, if_pos (hin w hw)]
    simp only [write, if_pos hw]
  · by_cases hw' : w'.Covers i
    · rw [if_pos hw', if_neg hw, if_pos (hin w' hw')]
      simp only [write, if_pos hw']
    · rw [if_neg hw', if_neg hw, hnone w hw, hnone w' hw']
      by_cases hi : i < f.len
      · rw [if_pos (hi.trans_le le_len_write), if_pos (hi.trans_le le_len_write)]
      · rw [if_neg hi, ite_self, ite_self]

end File

/-! ## Segment files -/

/-- A segment file on the disk. -/
structure Seg where
  durable : File
  pending : List Write

namespace Seg

/-- What the process reads. -/
def file (s : Seg) : File := s.pending.foldl File.write s.durable

/-- A new file. -/
def empty : Seg := ⟨.empty, []⟩

/-- `posio::pwrite_all` on the file. -/
def write (s : Seg) (off : Nat) (data : Bytes) : Seg :=
  { s with pending := s.pending ++ [⟨off, data⟩] }

/-- `posio::sync_data` on the file. -/
def sync (s : Seg) : Seg := ⟨s.file, []⟩

/-- `File::set_len` on the file, which has no pending writes then; the cut is taken to be
durable at once. -/
def setLen (s : Seg) (n : Nat) : Seg := ⟨s.file.setLen n, []⟩

/-- What a crash may leave of the file. -/
def Survives (s s' : Seg) : Prop :=
  s'.pending = [] ∧ s.durable.len ≤ s'.durable.len ∧ s'.durable.len ≤ s.file.len ∧
    ∀ i < s.durable.len, (∀ w ∈ s.pending, ¬w.Covers i) → s'.durable.byte i = s.durable.byte i

variable {s s' : Seg} {off : Nat} {data : Bytes}

@[simp] theorem file_write : (s.write off data).file = s.file.write ⟨off, data⟩ := by
  simp [file, write]

@[simp] theorem file_sync : s.sync.file = s.file := rfl

@[simp] theorem durable_sync : s.sync.durable = s.file := rfl

@[simp] theorem file_of_pending_nil (h : s.pending = []) : s.file = s.durable := by
  rw [file, h, List.foldl_nil]

/-- The file is no shorter than what has reached the platter. -/
theorem durable_len_le : s.durable.len ≤ s.file.len := by
  unfold file
  generalize s.durable = f
  induction s.pending generalizing f with
  | nil => exact le_rfl
  | cons w ws ih => exact File.le_len_write.trans (ih (f.write w))

/-- Where no pending write is, the process reads the platter. -/
theorem file_byte {i : Nat} (hi : i < s.durable.len) (h : ∀ w ∈ s.pending, ¬w.Covers i) :
    s.file.byte i = s.durable.byte i := by
  obtain ⟨f, ws⟩ := s
  dsimp only [file] at hi h ⊢
  induction ws generalizing f with
  | nil => rfl
  | cons w ws ih =>
    rw [List.foldl_cons, ih (f.write w) (hi.trans_le File.le_len_write)
      fun w hw ↦ h w (List.mem_cons_of_mem _ hw)]
    exact File.byte_write_of_not_covers (h w List.mem_cons_self) hi

end Seg

end Plaine.Storage

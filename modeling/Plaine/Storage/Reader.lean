import Plaine.Lib.Slices
import Plaine.Storage.Committer
import Plaine.Storage.Headers

/-!
# The reader

`reader.rs`, of what a commit has published: the tables, the metadata and the files, with the
ranges of headers that are known to be damaged.  What `headers_range` reads a segment at a time is
the headers one after the other.
-/

namespace Plaine.Storage

open Plaine.Lib Plaine.Consensus

/-- The errors of the reader. -/
inductive ReadError where
  | segmentDamaged (segment height firstHeight lastHeight : Nat)
  | unknownWhileDegraded (damagedFirst damagedLast : Nat)
  | badPlan (why : String)
deriving DecidableEq

/-- A range of heights, the last included. -/
abbrev Range : Type := Nat × Nat

/-- `Damage::header_at`. -/
def damageAt (damage : List Range) (height : Nat) : Option Range :=
  damage.find? fun r ↦ r.1 ≤ height ∧ height ≤ r.2

/-- `header_at`. -/
def headerAt (d : Disk) (m : Meta) (damage : List Range) (height : Nat) :
    Except ReadError (Option RawHeader) :=
  let seg := segOf height
  if m.hdrWatermark ≤ height then .ok none
  else
    match damageAt damage height with
    | some r => .error (.segmentDamaged seg height r.1 r.2)
    | none =>
      if d.hdr.lookup seg = none then
        .error (.segmentDamaged seg height (segFirstHeight seg) (segFirstHeight seg + segBlocks - 1))
      else
        match d.readHeader height with
        | some hdr => .ok (some hdr)
        | none => .error (.segmentDamaged seg height height height)

/-- `Damage::header_overlaps`. -/
def damageOverlaps (damage : List Range) (lo hi : Nat) : Option Range :=
  damage.find? fun r ↦ r.1 ≤ hi ∧ lo ≤ r.2

/-- The loop of `headers_range`, which reads a segment at a time. -/
def readSpans (d : Disk) (start n done : Nat) (out : Bytes) : Except ReadError (Nat × Bytes) :=
  if done < n then
    let h := start + done
    let seg := segOf h
    let inSeg := min (segBlocks - slotOf h) (n - done)
    if d.hdr.lookup seg = none then
      .error (.segmentDamaged seg h (segFirstHeight seg) (segFirstHeight seg + segBlocks - 1))
    else
      let got := Disk.pread d.hdr seg (hdrOffset h) (inSeg * headerBytes)
      if got.length < inSeg * headerBytes then
        let short := h + got.length / headerBytes
        .error (.segmentDamaged seg short short (start + n - 1))
      else readSpans d start n (done + inSeg) (out ++ got)
  else .ok (done, out)
termination_by n - done
decreasing_by
  have hslot := slotOf_lt (start + done)
  omega

/-- `headers_range`. -/
def headersRange (d : Disk) (m : Meta) (damage : List Range) (start count : Nat) :
    Except ReadError (Nat × Bytes) :=
  if maxHeadersPerMsg < count then .error (.badPlan "headers_range above MAX_HEADERS_PER_MSG")
  else if m.hdrWatermark ≤ start then .ok (0, [])
  else
    let n := min count (m.hdrWatermark - start)
    if n = 0 then .ok (0, [])
    else
      match damageOverlaps damage start (start + n - 1) with
      | some r => .error (.segmentDamaged (segOf (max r.1 start)) (max r.1 start) r.1 r.2)
      | none => readSpans d start n 0 []

section

variable [Crypto]

/-- A row of `header_by_hash`: the header there, if it has the hash. -/
def confirm (d : Disk) (m : Meta) (damage : List Range) (hash : Hash32) (row : Option Nat) :
    Except ReadError (Option (Nat × RawHeader)) :=
  match row with
  | none => .ok none
  | some height => do
    match ← headerAt d m damage height with
    | some hdr => return if headerHash hdr = hash then some (height, hdr) else none
    | none => return none

/-- `header_by_hash`. -/
def headerByHash (d : Disk) (prefixBytes : Nat) (t : Tables) (m : Meta) (damage : List Range)
    (hash : Hash32) : Except ReadError (Option (Nat × RawHeader)) := do
  match ← confirm d m damage hash (t.hashIndex.lookup (hashPrefixN hash prefixBytes)) with
  | some found => return some found
  | none =>
    let full ← if 0 < m.hashIndexFullRows then
      confirm d m damage hash (t.hashIndexFull.lookup hash) else .ok none
    match full with
    | some found => return some found
    | none =>
      if damage = [] then return none
      else .error (.unknownWhileDegraded ((damage.map Prod.fst).min?.getD 0)
        ((damage.map Prod.snd).max?.getD 0))

end

/-! ## Ranges of headers -/

/-- A range is its beginning, which is there in full, and the rest. -/
theorem File.read_add {f : File} {off a : Nat} (h : off + a ≤ f.len) (b : Nat) :
    f.read off (a + b) = f.read off a ++ f.read (off + a) b := by
  have hmin : min (a + b) (f.len - off) = a + min b (f.len - (off + a)) := by omega
  unfold File.read
  rw [hmin, Nat.min_eq_left (Nat.le_sub_of_add_le' h), List.range_add, List.map_append, List.map_map]
  refine congrArg _ (List.map_congr_left fun i _ ↦ ?_)
  rw [Function.comp_apply, Nat.add_assoc]

theorem length_flatMap_bytes (l : List RawHeader) :
    (l.flatMap Arr.bytes).length = l.length * headerBytes := by
  rw [List.length_flatMap, List.map_congr_left fun x _ ↦ x.length_eq, List.map_const',
    List.sum_replicate]
  rfl

namespace Disk

variable {d : Disk} {c : Nat → RawHeader} {h k n start done : Nat}

theorem pread_add {files : AList fun _ : Nat ↦ Seg} {seg off a : Nat}
    (hfull : (pread files seg off a).length = a) (b : Nat) :
    pread files seg off (a + b) = pread files seg off a ++ pread files seg (off + a) b := by
  rcases Nat.eq_zero_or_pos a with rfl | ha
  · have hnil : pread files seg off 0 = [] := List.eq_nil_of_length_eq_zero hfull
    rw [hnil, Nat.zero_add, Nat.add_zero, List.nil_append]
  · unfold pread at hfull ⊢
    cases hf : files.lookup seg with
    | none =>
      rw [hf] at hfull
      exact absurd hfull ha.ne
    | some s =>
      rw [hf, Option.map_some, Option.getD_some, File.length_read] at hfull
      exact File.read_add (by omega) b

/-- The next headers of a segment. -/
theorem segOf_add_of_slot (hslot : slotOf h + k < segBlocks) :
    segOf (h + k) = segOf h ∧ hdrOffset (h + k) = hdrOffset h + k * headerBytes := by
  have hh : h + k = segFirstHeight (segOf h) + (slotOf h + k) := by
    rw [← Nat.add_assoc, segFirstHeight_add_slotOf]
  constructor
  · rw [hh, segOf_add hslot]
  · unfold hdrOffset
    rw [hh, slotOf_add hslot, Nat.add_mul]

/-- The headers of a segment from one on. -/
theorem pread_span (hread : ∀ i < k, d.readHeader (h + i) = some (c (h + i)))
    (hslot : slotOf h + k ≤ segBlocks) :
    pread d.hdr (segOf h) (hdrOffset h) (k * headerBytes) =
      ((List.range' h k).map c).flatMap Arr.bytes := by
  induction k with
  | zero =>
    refine List.eq_nil_of_length_eq_zero (Nat.le_zero.mp ?_)
    unfold pread
    cases d.hdr.lookup (segOf h) with
    | none => exact le_rfl
    | some s =>
      rw [Option.map_some, Option.getD_some, File.length_read, Nat.zero_mul, Nat.zero_min]
  | succ k ih =>
    have hspan := ih (fun i hi ↦ hread i (Nat.lt_succ_of_lt hi)) (Nat.le_of_succ_le hslot)
    have hlast := readHeader_eq_some.mp (hread k (Nat.lt_succ_self k))
    obtain ⟨hseg, hoff⟩ := segOf_add_of_slot (h := h) (k := k) hslot
    have hfull : (pread d.hdr (segOf h) (hdrOffset h) (k * headerBytes)).length =
        k * headerBytes := by
      rw [hspan, length_flatMap_bytes, List.length_map, List.length_range']
    rw [hseg, hoff] at hlast
    rw [Nat.succ_mul, pread_add hfull, hspan, hlast, List.range'_1_concat, List.map_append,
      List.flatMap_append]
    exact congrArg _ (List.append_nil _).symm

theorem lookup_ne_none (hread : d.readHeader h = some (c h)) : d.hdr.lookup (segOf h) ≠ none := by
  intro hnone
  have hbytes := readHeader_eq_some.mp hread
  unfold pread at hbytes
  rw [hnone] at hbytes
  have hlen := (c h).length_eq
  rw [← hbytes] at hlen
  cases hlen

/-- The loop reads what is left of the range. -/
theorem readSpans_eq (hread : ∀ i < n, d.readHeader (start + i) = some (c (start + i)))
    (out : Bytes) (hdone : done ≤ n) :
    readSpans d start n done out =
      .ok (n, out ++ ((List.range' (start + done) (n - done)).map c).flatMap Arr.bytes) := by
  have hspan {done : Nat} (hlt : done < n) :
      pread d.hdr (segOf (start + done)) (hdrOffset (start + done))
          (min (segBlocks - slotOf (start + done)) (n - done) * headerBytes) =
        ((List.range' (start + done) (min (segBlocks - slotOf (start + done)) (n - done))).map
          c).flatMap Arr.bytes := by
    have hslot := slotOf_lt (start + done)
    refine pread_span (fun i hi ↦ ?_) (by omega)
    rw [Nat.add_assoc]
    exact hread (done + i) (by omega)
  fun_induction readSpans d start n done out with
  | case1 done out hlt h seg hnone => exact absurd hnone (lookup_ne_none (hread done hlt))
  | case2 done out hlt h seg inSeg hsome got hshort =>
    have hlen : got.length = inSeg * headerBytes := by
      have hlen := congrArg List.length (hspan hlt)
      rwa [length_flatMap_bytes, List.length_map, List.length_range'] at hlen
    exact absurd hlen hshort.ne
  | case3 done out hlt h seg inSeg hsome got hfull ih =>
    have hgot : got = ((List.range' (start + done) inSeg).map c).flatMap Arr.bytes := hspan hlt
    have hsum : n - done = inSeg + (n - (done + inSeg)) := by omega
    rw [ih (by omega), hgot, List.append_assoc, ← List.flatMap_append, ← List.map_append,
      ← Nat.add_assoc, List.range'_append_1, ← hsum]
  | case4 done out hlt =>
    obtain rfl : done = n := le_antisymm hdone (not_lt.mp hlt)
    rw [Nat.sub_self, List.range'_zero, List.map_nil, List.flatMap_nil, List.append_nil]

end Disk

/-- Without damage the reader has the headers of a range up to the watermark. -/
theorem headersRange_eq {d : Disk} {m : Meta} {c : Nat → RawHeader} {start count : Nat}
    (hread : ∀ h < m.hdrWatermark, d.readHeader h = some (c h)) (hcount : count ≤ maxHeadersPerMsg) :
    headersRange d m [] start count =
      .ok (min count (m.hdrWatermark - start),
        ((List.range' start (min count (m.hdrWatermark - start))).map c).flatMap Arr.bytes) := by
  unfold headersRange
  rw [if_neg (not_lt.mpr hcount)]
  split
  case isTrue hend =>
    rw [Nat.sub_eq_zero_of_le hend, Nat.min_zero]
    rfl
  case isFalse hlow =>
    dsimp only
    split
    case isTrue hzero =>
      rw [hzero]
      rfl
    case isFalse =>
      refine (Disk.readSpans_eq (fun i hi ↦ hread _ (by omega)) [] (Nat.zero_le _)).trans ?_
      rw [Nat.add_zero, Nat.sub_zero, List.nil_append]

/-- Headers are taken out of a buffer again. -/
theorem map_ofSlice (l : List RawHeader) :
    (List.range l.length).map (fun i ↦ Arr.ofSlice 132 (i * headerBytes) (l.flatMap Arr.bytes)) =
      l := by
  have hread : ∀ lo (x : RawHeader) (r : Bytes), lo + headerBytes ≤ (l.flatMap Arr.bytes).length →
      ((l.flatMap Arr.bytes).drop lo = x.bytes ++ r ↔
        Arr.ofSlice 132 lo (l.flatMap Arr.bytes) = x ∧
          (l.flatMap Arr.bytes).drop (lo + headerBytes) = r) :=
    fun _ _ _ ↦ Slices.drop_eq_bytes
  have hiff : (l.flatMap Arr.bytes).drop 0 = l.flatMap Arr.bytes ++ [] ↔ _ :=
    Slices.drop_eq_flatMap hread (by rw [length_flatMap_bytes, Nat.zero_add])
  simpa only [Nat.zero_add] using (hiff.mp (by rw [List.drop_zero, List.append_nil])).1

end Plaine.Storage

import Plaine.Consensus.Crypto
import Plaine.Lib.BigEndian
import Plaine.Lib.Capped

/-!
# Side headers and invalid blocks

`put_side_headers`, `mark_invalid_batch` and `clear_invalid_all` of `committer.rs`.  Each writes its
two tables and the counters of the metadata in one transaction; a row of the side header table is
kept decoded.  Side headers are removed from the lowest height on, invalid blocks in the order in
which they were marked.

A hash is put into the height index under every height it comes with, so the index names a row twice
if a hash comes with two.  The node reads both from the header, where the hash commits to the height.
-/

namespace Plaine.Storage

open Plaine.Lib Plaine.Consensus

/-- `HeaderStatus`. -/
inductive HeaderStatus where
  | validHeader
  | powOk
  | bodyOk
  | connected
deriving DecidableEq

/-- `InvalidReason`. -/
inductive InvalidReason where
  | badPow
  | badBits
  | badMtp
  | badMerkle
  | badTx
  | badParent
  | badCheckpoint
  | other
deriving DecidableEq

/-- `SideHeader`. -/
structure SideHeader where
  header : RawHeader
  height : UInt64
  status : HeaderStatus
deriving DecidableEq

/-- A row of `put_side_headers`. -/
structure SideRow where
  hash : Hash32
  hdr : RawHeader
  height : UInt64
  status : HeaderStatus
deriving DecidableEq

/-- `side_by_height_key`. -/
def sideByHeightKey (height : UInt64) (hash : Hash32) : Arr 40 :=
  ⟨beBytes height ++ hash.bytes, by rw [List.length_append, length_beBytes, hash.length_eq]⟩

/-- The hash in a key of the height index. -/
def sideOwner (k : Arr 40) (_ : Unit) : Hash32 := .ofSlice 32 8 k.bytes

/-- The hash in an entry of the order of marking. -/
def invalidOwner (_ : Nat) (hash : Hash32) : Hash32 := hash

/-- The caps of `StoreConfig`. -/
structure SideCaps where
  sideHeadersCap : Nat
  invalidCap : Nat
deriving DecidableEq

/-- The counters of `Meta`. -/
structure SideCounters where
  sideRows : Nat
  invalidNextSeq : Nat
  invalidRows : Nat
deriving DecidableEq

/-- The tables with the counters in memory, and the counters in the metadata table. -/
structure SideStore where
  side : Capped Hash32 SideHeader (Arr 40) Unit
  invalid : Capped Hash32 InvalidReason Nat Hash32
  invalidNextSeq : Nat
  stored : SideCounters

namespace SideStore

/-- A new store. -/
def empty : SideStore := ⟨.empty, .empty, 0, ⟨0, 0, 0⟩⟩

/-- `crate::meta::store`. -/
def store (s : SideStore) : SideStore :=
  { s with stored := ⟨s.side.count, s.invalidNextSeq, s.invalid.count⟩ }

/-- A row of `put_side_headers`. -/
def insertSide (s : SideStore) (r : SideRow) : SideStore :=
  { s with side := {
      rows := s.side.rows.insert r.hash ⟨r.hdr, r.height, r.status⟩
      index := s.side.index.insert (sideByHeightKey r.height r.hash) ()
      count := if (s.side.rows.lookup r.hash).isNone then s.side.count + 1 else s.side.count } }

def putSideHeaders (caps : SideCaps) (rows : List SideRow) (s : SideStore) : SideStore :=
  let s := rows.foldl insertSide s
  { s with side := s.side.evict caps.sideHeadersCap sideOwner }.store

/-- A row of `mark_invalid_batch`. -/
def insertInvalid (s : SideStore) (r : Hash32 × InvalidReason) : SideStore :=
  if (s.invalid.rows.lookup r.1).isNone then
    { s with
      invalid := {
        rows := s.invalid.rows.insert r.1 r.2
        index := s.invalid.index.insert s.invalidNextSeq r.1
        count := s.invalid.count + 1 }
      invalidNextSeq := s.invalidNextSeq + 1 }
  else { s with invalid := { s.invalid with rows := s.invalid.rows.insert r.1 r.2 } }

def markInvalidBatch (caps : SideCaps) (rows : List (Hash32 × InvalidReason)) (s : SideStore) :
    SideStore :=
  let s := rows.foldl insertInvalid s
  { s with invalid := s.invalid.evict caps.invalidCap invalidOwner }.store

/-- With the number of rows removed. -/
def clearInvalidAll (s : SideStore) : Nat × SideStore :=
  let n := s.invalid.rows.keys.length
  let rows := s.invalid.rows.keys.foldl (fun m k ↦ m.erase k) s.invalid.rows
  let index := s.invalid.index.keys.foldl (fun m k ↦ m.erase k) s.invalid.index
  (n, { s with invalid := ⟨rows, index, 0⟩ }.store)

/-- The counters after a start. -/
def reopen (s : SideStore) : SideStore :=
  { s with
    side := { s.side with count := s.stored.sideRows }
    invalid := { s.invalid with count := s.stored.invalidRows }
    invalidNextSeq := s.stored.invalidNextSeq }

end SideStore

inductive SideOp where
  | putSideHeaders (rows : List SideRow)
  | markInvalidBatch (rows : List (Hash32 × InvalidReason))
  | clearInvalidAll
  | reopen

/-- The rows of side headers in an operation. -/
def SideOp.sideRows : SideOp → List SideRow
  | .putSideHeaders rows => rows
  | _ => []

def SideStore.step (caps : SideCaps) (s : SideStore) : SideOp → SideStore
  | .putSideHeaders rows => s.putSideHeaders caps rows
  | .markInvalidBatch rows => s.markInvalidBatch caps rows
  | .clearInvalidAll => s.clearInvalidAll.2
  | .reopen => s.reopen

def SideStore.run (caps : SideCaps) (ops : List SideOp) : SideStore := ops.foldl (step caps) empty

/-! ## Keys -/

instance (n : Nat) : IsStrictTotalOrder (Arr n) (· < ·) where
  trichotomous a b h h' := ((Arr.lt_or_eq_or_gt a b).resolve_left h).resolve_right h'
  irrefl := Arr.lt_irrefl
  trans _ _ _ := Arr.lt_trans

theorem sideOwner_sideByHeightKey (height : UInt64) (hash : Hash32) (u : Unit) :
    sideOwner (sideByHeightKey height hash) u = hash := by
  have h := Arr.ofSlice_append hash (beBytes height) [] (length_beBytes height)
  rwa [List.append_nil] at h

/-- The keys are in the order of the heights. -/
theorem le_of_sideByHeightKey_lt {height height' : UInt64} {hash hash' : Hash32}
    (h : sideByHeightKey height hash < sideByHeightKey height' hash') : height ≤ height' := by
  by_contra hgt
  have hnum : ofBe (beBytes height') < ofBe (beBytes height) := by
    rw [ofBe_beBytes, ofBe_beBytes]
    exact Nat.lt_of_not_le hgt
  refine Arr.lt_irrefl _ (Arr.lt_trans h (Arr.lt_iff.mpr ?_))
  simp only [Arr.key, sideByHeightKey, List.map_append]
  exact append_lt_of_ofBe_lt (by rw [length_beBytes, length_beBytes]) hnum

/-! ## Counters -/

/-- What holds whatever is put: the counters count and keep to their caps, memory and table alike. -/
structure SideStore.Counts (caps : SideCaps) (s : SideStore) : Prop where
  side : s.side.Counted sideOwner
  side_le : s.side.count ≤ caps.sideHeadersCap
  stored : s.stored = ⟨s.side.count, s.invalidNextSeq, s.invalid.count⟩

variable {caps : SideCaps} {s : SideStore}

theorem insertSide_counted (h : s.side.Counted sideOwner) (r : SideRow) :
    (s.insertSide r).side.Counted sideOwner := by
  have hput := h.put (i := sideByHeightKey r.height r.hash) (b := ())
    (⟨r.hdr, r.height, r.status⟩ : SideHeader) fun _ _ ↦ rfl
  rwa [sideOwner_sideByHeightKey] at hput

theorem foldl_insertSide_counted (h : s.side.Counted sideOwner) (rows : List SideRow) :
    (rows.foldl SideStore.insertSide s).side.Counted sideOwner := by
  induction rows generalizing s with
  | nil => exact h
  | cons r rows ih => exact ih (insertSide_counted h r)

theorem foldl_insertInvalid_side (rows : List (Hash32 × InvalidReason)) (s : SideStore) :
    (rows.foldl SideStore.insertInvalid s).side = s.side := by
  induction rows generalizing s with
  | nil => rfl
  | cons r rows ih =>
    rw [List.foldl_cons, ih, SideStore.insertInvalid]
    split <;> rfl

theorem foldl_insertSide_invalid (rows : List SideRow) (s : SideStore) :
    (rows.foldl SideStore.insertSide s).invalid = s.invalid ∧
      (rows.foldl SideStore.insertSide s).invalidNextSeq = s.invalidNextSeq := by
  induction rows generalizing s with
  | nil => exact ⟨rfl, rfl⟩
  | cons r rows ih => exact ih (s.insertSide r)

theorem SideStore.reopen_eq (h : s.Counts caps) : s.reopen = s := by
  obtain ⟨side, invalid, next, stored⟩ := s
  have hstored := h.stored
  dsimp only at hstored
  subst hstored
  rfl

theorem SideStore.Counts.step (h : s.Counts caps) (op : SideOp) : (s.step caps op).Counts caps := by
  cases op with
  | putSideHeaders rows =>
    obtain ⟨hcounted, hle⟩ := @Capped.Counted.evict _ _ _ _ _ _ _ _ _ _ caps.sideHeadersCap
      (foldl_insertSide_counted h.side rows)
    exact ⟨hcounted, hle, rfl⟩
  | markInvalidBatch rows =>
    have hside := foldl_insertInvalid_side rows s
    refine ⟨?_, ?_, rfl⟩
    · show (rows.foldl SideStore.insertInvalid s).side.Counted sideOwner
      rw [hside]
      exact h.side
    · show (rows.foldl SideStore.insertInvalid s).side.count ≤ caps.sideHeadersCap
      rw [hside]
      exact h.side_le
  | clearInvalidAll => exact ⟨h.side, h.side_le, rfl⟩
  | reopen =>
    show s.reopen.Counts caps
    rwa [SideStore.reopen_eq h]

theorem SideStore.counts_run (caps : SideCaps) (ops : List SideOp) :
    (SideStore.run caps ops).Counts caps := by
  induction ops using List.reverseRecOn with
  | nil => exact ⟨.empty, Nat.zero_le _, rfl⟩
  | append_singleton ops op ih =>
    rw [SideStore.run, List.foldl_append]
    exact ih.step op

/-! ## Invalid blocks -/

/-- The blocks marked, the oldest first, each once. -/
def markInvalid (q : List Hash32) (hash : Hash32) : List Hash32 := if hash ∈ q then q else q ++ [hash]

/-- The queue of invalid blocks, which loses its oldest above the cap. -/
def invalidQueue (cap : Nat) (ops : List SideOp) : List Hash32 :=
  ops.foldl (fun q op ↦
    match op with
    | .markInvalidBatch rows =>
      let q := (rows.map Prod.fst).foldl markInvalid q
      q.drop (q.length - cap)
    | .clearInvalidAll => []
    | _ => q) []

/-- The tables hold the queue, numbered in its order. -/
def SideStore.Queued (q : List Hash32) (s : SideStore) : Prop :=
  ∃ L, s.invalid.Listing invalidOwner L ∧ L.map Prod.snd = q ∧ ∀ e ∈ L, e.1 < s.invalidNextSeq

variable {q : List Hash32}

theorem SideStore.Queued.insertInvalid (h : s.Queued q) (r : Hash32 × InvalidReason) :
    (s.insertInvalid r).Queued (markInvalid q r.1) := by
  obtain ⟨L, hL, rfl, hlt⟩ := h
  have hmem : r.1 ∈ s.invalid.rows ↔ r.1 ∈ L.map Prod.snd := (hL.rows r.1).trans List.mem_map.symm
  rw [SideStore.insertInvalid, markInvalid]
  by_cases hr : r.1 ∈ s.invalid.rows
  · have hsome : ¬(s.invalid.rows.lookup r.1).isNone = true := by
      rw [Option.isNone_iff_eq_none, AList.lookup_eq_none]
      exact not_not.mpr hr
    rw [if_neg hsome, if_pos (hmem.mp hr)]
    exact ⟨L, hL.overwrite hr r.2, rfl, hlt⟩
  · have hnone : (s.invalid.rows.lookup r.1).isNone = true :=
      Option.isNone_iff_eq_none.mpr (AList.lookup_eq_none.mpr hr)
    rw [if_pos hnone, if_neg (mt hmem.mpr hr)]
    refine ⟨L ++ [(s.invalidNextSeq, r.1)], ?_, List.map_append, fun e he ↦ ?_⟩
    · have hlast : Capped.Listing invalidOwner (L ++ []) s.invalid := by rwa [List.append_nil]
      exact hlast.insert (b := r.1) hr hlt (fun _ he ↦ absurd he List.not_mem_nil) r.2
    · rcases List.mem_append.mp he with hold | hnew
      · exact Nat.lt_succ_of_lt (hlt e hold)
      · rw [List.mem_singleton.mp hnew]
        exact Nat.lt_succ_self _

theorem SideStore.Queued.foldl_insertInvalid (h : s.Queued q) (rows : List (Hash32 × InvalidReason)) :
    (rows.foldl SideStore.insertInvalid s).Queued ((rows.map Prod.fst).foldl markInvalid q) := by
  induction rows generalizing s q with
  | nil => exact h
  | cons r rows ih => exact ih (h.insertInvalid r)

theorem SideStore.Queued.evict (h : s.Queued q) (cap : Nat) :
    SideStore.Queued (q.drop (q.length - cap))
      { s with invalid := s.invalid.evict cap invalidOwner } := by
  obtain ⟨L, hL, rfl, hlt⟩ := h
  refine ⟨_, (hL.evict cap).1, ?_, fun e he ↦ hlt e (List.mem_of_mem_drop he)⟩
  rw [List.map_drop, List.length_map]

theorem SideStore.queued_clear (s : SideStore) : s.clearInvalidAll.2.Queued [] := by
  have hnone {κ υ : Type} [DecidableEq κ] (m : AList fun _ : κ ↦ υ) (k : κ) :
      (m.keys.foldl (fun m k ↦ m.erase k) m).lookup k = none := by
    rw [AList.lookup_foldl_erase]
    split
    case isTrue => rfl
    case isFalse hk => exact AList.lookup_eq_none.mpr hk
  refine ⟨[], ⟨List.Pairwise.nil, fun i b ↦ ?_, List.nodup_nil, fun k ↦ ?_, rfl⟩, rfl,
    fun _ he ↦ absurd he List.not_mem_nil⟩
  · show (s.invalid.index.keys.foldl (fun m k ↦ m.erase k) s.invalid.index).lookup i = some b ↔ _
    rw [hnone]
    exact iff_of_false (fun h ↦ nomatch h) List.not_mem_nil
  · show k ∈ s.invalid.rows.keys.foldl (fun m k ↦ m.erase k) s.invalid.rows ↔ _
    rw [← AList.lookup_isSome, hnone]
    exact iff_of_false Bool.false_ne_true fun ⟨_, he, _⟩ ↦ absurd he List.not_mem_nil

/-- The tables hold the queue after every run. -/
theorem SideStore.queued_run (caps : SideCaps) (ops : List SideOp) :
    (SideStore.run caps ops).Queued (invalidQueue caps.invalidCap ops) := by
  induction ops using List.reverseRecOn with
  | nil => exact ⟨[], .empty, rfl, fun _ he ↦ absurd he List.not_mem_nil⟩
  | append_singleton ops op ih =>
    rw [SideStore.run, invalidQueue, List.foldl_append, List.foldl_append]
    have hcounts := SideStore.counts_run caps ops
    rw [SideStore.run] at ih hcounts
    rw [invalidQueue] at ih
    generalize ops.foldl (SideStore.step caps) SideStore.empty = s at ih hcounts
    cases op with
    | putSideHeaders rows =>
      obtain ⟨L, hL, hq, hlt⟩ := ih
      obtain ⟨hinvalid, hnext⟩ := foldl_insertSide_invalid rows s
      refine ⟨L, ?_, hq, fun e he ↦ ?_⟩
      · show (rows.foldl SideStore.insertSide s).invalid.Listing invalidOwner L
        rwa [hinvalid]
      · show e.1 < (rows.foldl SideStore.insertSide s).invalidNextSeq
        rw [hnext]
        exact hlt e he
    | markInvalidBatch rows => exact (ih.foldl_insertInvalid rows).evict caps.invalidCap
    | clearInvalidAll => exact s.queued_clear
    | reopen =>
      show s.reopen.Queued _
      rw [SideStore.reopen_eq hcounts]
      exact ih

/-! ## Side headers -/

/-- Every row has the height of its hash, and its entry under that height alone. -/
def SideStore.Indexed (heightOf : Hash32 → UInt64) (s : SideStore) : Prop :=
  ∃ L, s.side.Listing sideOwner L ∧
    (∀ e ∈ L, e.1 = sideByHeightKey (heightOf (sideOwner e.1 e.2)) (sideOwner e.1 e.2)) ∧
    ∀ hash row, s.side.rows.lookup hash = some row → row.height = heightOf hash

variable {heightOf : Hash32 → UInt64}

/-- A row that comes with the height of its hash joins the others, or replaces itself. -/
theorem SideStore.Indexed.insertSide (h : s.Indexed heightOf) {r : SideRow}
    (hr : r.height = heightOf r.hash) : (s.insertSide r).Indexed heightOf ∧
      ∀ hash, hash ∈ (s.insertSide r).side.rows ↔ hash = r.hash ∨ hash ∈ s.side.rows := by
  obtain ⟨L, hL, hkeys, hheights⟩ := h
  have hheights' : ∀ hash row, (s.insertSide r).side.rows.lookup hash = some row →
      row.height = heightOf hash := by
    intro hash row hrow
    rcases eq_or_ne hash r.hash with rfl | hne
    · rw [SideStore.insertSide, AList.lookup_insert] at hrow
      cases hrow
      exact hr
    · rw [SideStore.insertSide, AList.lookup_insert_ne hne] at hrow
      exact hheights hash row hrow
  refine ⟨?_, fun hash ↦ AList.mem_insert _⟩
  by_cases hmem : r.hash ∈ s.side.rows
  · -- The entry of a known hash is the one that is there.
    obtain ⟨e, he, howner⟩ := (hL.rows r.hash).mp hmem
    have hentry : (sideByHeightKey r.height r.hash, ()) ∈ L := by
      have hkey := hkeys e he
      rw [howner, ← hr] at hkey
      rwa [← hkey]
    have hsome : ¬(s.side.rows.lookup r.hash).isNone = true := by
      rw [Option.isNone_iff_eq_none, AList.lookup_eq_none]
      exact not_not.mpr hmem
    refine ⟨L, ?_, hkeys, hheights'⟩
    rw [SideStore.insertSide, if_neg hsome]
    exact (hL.overwrite hmem _).reenter hentry
  · have hnone : (s.side.rows.lookup r.hash).isNone = true :=
      Option.isNone_iff_eq_none.mpr (AList.lookup_eq_none.mpr hmem)
    have howner := sideOwner_sideByHeightKey r.height r.hash ()
    have hfresh : ∀ e ∈ L, e.1 ≠ sideByHeightKey r.height r.hash := by
      intro e he heq
      refine hmem ((hL.rows r.hash).mpr ⟨e, he, ?_⟩)
      rw [heq, howner]
    obtain ⟨L', hperm, hL'⟩ := hL.exists_insert (b := ()) (by rwa [howner]) hfresh
      (⟨r.hdr, r.height, r.status⟩ : SideHeader)
    refine ⟨L', ?_, fun e he ↦ ?_, hheights'⟩
    · rw [SideStore.insertSide, if_pos hnone]
      rwa [howner] at hL'
    · rcases List.mem_cons.mp (hperm.mem_iff.mp he) with rfl | hold
      · rw [howner, ← hr]
      · exact hkeys e hold

theorem SideStore.Indexed.foldl_insertSide (h : s.Indexed heightOf) {rows : List SideRow}
    (hrows : ∀ r ∈ rows, r.height = heightOf r.hash) : (rows.foldl SideStore.insertSide s).Indexed heightOf ∧
      ∀ hash, hash ∈ (rows.foldl SideStore.insertSide s).side.rows ↔
        (∃ r ∈ rows, r.hash = hash) ∨ hash ∈ s.side.rows := by
  induction rows generalizing s with
  | nil => exact ⟨h, fun hash ↦ by simp⟩
  | cons r rows ih =>
    obtain ⟨hr, hrest⟩ := List.forall_mem_cons.mp hrows
    obtain ⟨hstep, hmem⟩ := h.insertSide hr
    obtain ⟨hall, hmem'⟩ := ih hstep hrest
    refine ⟨hall, fun hash ↦ ?_⟩
    rw [List.foldl_cons, hmem', hmem, List.exists_mem_cons_iff, or_left_comm, ← or_assoc, eq_comm]

/-- What eviction leaves is as high as what it takes, and as much as the cap if it takes anything. -/
theorem SideStore.Indexed.evict (h : s.Indexed heightOf) (cap : Nat) :
    SideStore.Indexed heightOf { s with side := s.side.evict cap sideOwner } ∧
      ∀ hash ∈ s.side.rows, hash ∉ (s.side.evict cap sideOwner).rows →
        (s.side.evict cap sideOwner).count = cap ∧
        ∀ hash' ∈ (s.side.evict cap sideOwner).rows, heightOf hash ≤ heightOf hash' := by
  obtain ⟨L, hL, hkeys, hheights⟩ := h
  obtain ⟨hE, hsame⟩ := hL.evict cap
  have hmemE : ∀ hash row, (s.side.evict cap sideOwner).rows.lookup hash = some row →
      hash ∈ (s.side.evict cap sideOwner).rows := fun hash row hrow ↦
    AList.lookup_isSome.mp (by rw [hrow]; rfl)
  refine ⟨⟨_, hE, fun e he ↦ hkeys e (List.mem_of_mem_drop he), fun hash row hrow ↦ ?_⟩,
    fun hash hold hgone ↦ ?_⟩
  · rw [hsame hash (hmemE hash row hrow)] at hrow
    exact hheights hash row hrow
  · obtain ⟨e, he, rfl⟩ := (hL.rows hash).mp hold
    have hsplit := List.take_append_drop (L.length - cap) L
    have hhead : e ∈ L.take (L.length - cap) := by
      rw [← hsplit] at he
      refine (List.mem_append.mp he).resolve_right fun htail ↦ hgone ?_
      exact (hE.rows _).mpr ⟨e, htail, rfl⟩
    constructor
    · -- Something went, so there were more than the cap.
      have hpos := List.length_pos_of_mem hhead
      rw [hE.count, List.length_drop]
      rw [List.length_take] at hpos
      omega
    · intro hash' hkept
      obtain ⟨e', he', rfl⟩ := (hE.rows hash').mp hkept
      have hsorted := hL.sorted
      rw [← hsplit] at hsorted
      have hlt := (List.pairwise_append.mp hsorted).2.2 e hhead e' he'
      rw [hkeys e (List.mem_of_mem_take hhead), hkeys e' (List.mem_of_mem_drop he')] at hlt
      exact le_of_sideByHeightKey_lt hlt

/-- The index agrees with the rows after every run in which a hash comes with one height. -/
theorem SideStore.indexed_run {ops : List SideOp}
    (hops : ∀ op ∈ ops, ∀ r ∈ op.sideRows, r.height = heightOf r.hash) :
    (SideStore.run caps ops).Indexed heightOf := by
  induction ops using List.reverseRecOn with
  | nil =>
    exact ⟨[], .empty, fun _ he ↦ absurd he List.not_mem_nil, fun _ _ h ↦ nomatch h⟩
  | append_singleton ops op ih =>
    have ih := ih fun o ho ↦ hops o (List.mem_append_left _ ho)
    have hop := hops op (List.mem_append_right _ List.mem_cons_self)
    have hcounts := SideStore.counts_run caps ops
    rw [SideStore.run, List.foldl_append]
    rw [SideStore.run] at ih hcounts
    generalize ops.foldl (SideStore.step caps) SideStore.empty = s at ih hcounts
    cases op with
    | putSideHeaders rows => exact ((ih.foldl_insertSide hop).1.evict caps.sideHeadersCap).1
    | markInvalidBatch rows =>
      have hside := foldl_insertInvalid_side rows s
      unfold SideStore.Indexed
      show ∃ L, (rows.foldl SideStore.insertInvalid s).side.Listing sideOwner L ∧ _ ∧
        ∀ hash row, (rows.foldl SideStore.insertInvalid s).side.rows.lookup hash = some row → _
      rw [hside]
      exact ih
    | clearInvalidAll => exact ih
    | reopen =>
      show s.reopen.Indexed heightOf
      rwa [SideStore.reopen_eq hcounts]

theorem length_invalidQueue_le (cap : Nat) (ops : List SideOp) :
    (invalidQueue cap ops).length ≤ cap := by
  induction ops using List.reverseRecOn with
  | nil => exact Nat.zero_le cap
  | append_singleton ops op ih =>
    rw [invalidQueue, List.foldl_append]
    cases op with
    | putSideHeaders rows => exact ih
    | markInvalidBatch rows =>
      refine Eq.trans_le List.length_drop ?_
      omega
    | clearInvalidAll => exact Nat.zero_le cap
    | reopen => exact ih

/-- After every sequence of insertions and removals the stored counters are the numbers of rows and
within the caps; the invalid blocks are the queue of the marked ones, the oldest of which go first,
each with one number in its order; and if a hash always comes with one height, the height index has
each side header once, under its height, and a header that an insertion removes is at most as high as
every one it leaves, which are as many as the cap. -/
theorem sideTables_spec (caps : SideCaps) (ops : List SideOp) :
    ((SideStore.run caps ops).stored =
      ⟨(SideStore.run caps ops).side.rows.keys.length, (SideStore.run caps ops).invalidNextSeq,
        (SideStore.run caps ops).invalid.rows.keys.length⟩ ∧
      (SideStore.run caps ops).stored.sideRows ≤ caps.sideHeadersCap ∧
      (SideStore.run caps ops).stored.invalidRows ≤ caps.invalidCap) ∧
    ((∀ hash, hash ∈ (SideStore.run caps ops).invalid.rows ↔ hash ∈ invalidQueue caps.invalidCap ops) ∧
      ∃ seqs : List Nat, seqs.Pairwise (· < ·) ∧
        seqs.length = (invalidQueue caps.invalidCap ops).length ∧
        (invalidQueue caps.invalidCap ops).Nodup ∧
        ∀ i hash, (SideStore.run caps ops).invalid.index.lookup i = some hash ↔
          (i, hash) ∈ seqs.zip (invalidQueue caps.invalidCap ops)) ∧
    ∀ heightOf : Hash32 → UInt64, (∀ op ∈ ops, ∀ r ∈ op.sideRows, r.height = heightOf r.hash) →
      (∀ k, k ∈ (SideStore.run caps ops).side.index ↔
        ∃ hash row, (SideStore.run caps ops).side.rows.lookup hash = some row ∧
          sideByHeightKey row.height hash = k) ∧
      ∀ rows, (∀ r ∈ rows, r.height = heightOf r.hash) →
        ∀ hash, hash ∈ (SideStore.run caps ops).side.rows ∨ (∃ r ∈ rows, r.hash = hash) →
          hash ∉ (SideStore.run caps (ops ++ [.putSideHeaders rows])).side.rows →
          (SideStore.run caps (ops ++ [.putSideHeaders rows])).side.rows.keys.length =
            caps.sideHeadersCap ∧
          ∀ hash' ∈ (SideStore.run caps (ops ++ [.putSideHeaders rows])).side.rows,
            heightOf hash ≤ heightOf hash' := by
  have hcounts := SideStore.counts_run caps ops
  have hle := length_invalidQueue_le caps.invalidCap ops
  obtain ⟨L, hL, hq, -⟩ := SideStore.queued_run caps ops
  rw [← hq] at hle ⊢
  rw [List.length_map] at hle
  refine ⟨?_, ⟨fun hash ↦ ?_, L.map Prod.fst, ?_, ?_, ?_, fun i hash ↦ ?_⟩, ?_⟩
  · rw [hcounts.stored, ← hcounts.side.count, hL.length_rows, hL.count]
    exact ⟨rfl, hcounts.side_le, hle⟩
  · exact (hL.rows hash).trans List.mem_map.symm
  · exact List.pairwise_map.mpr hL.sorted
  · rw [List.length_map, List.length_map]
  · exact hL.owners
  · rw [← @List.zip_of_prod _ _ _ _ L rfl rfl]
    exact hL.index i hash
  · intro heightOf hops
    have hindexed := @SideStore.indexed_run caps _ _ hops
    refine ⟨fun k ↦ ?_, fun rows hrows hash hold hgone ↦ ?_⟩
    · obtain ⟨K, hK, hkeys, hheights⟩ := hindexed
      rw [← AList.lookup_isSome, Option.isSome_iff_exists]
      constructor
      · rintro ⟨u, hu⟩
        have hmem := (hK.index k u).mp hu
        have hrow := (hK.rows _).mpr ⟨_, hmem, rfl⟩
        obtain ⟨row, hrow⟩ := Option.isSome_iff_exists.mp (AList.lookup_isSome.mpr hrow)
        refine ⟨_, row, hrow, ?_⟩
        rw [hheights _ row hrow]
        exact (hkeys _ hmem).symm
      · rintro ⟨hash, row, hrow, rfl⟩
        obtain ⟨e, he, howner⟩ := (hK.rows hash).mp (AList.lookup_isSome.mp (by rw [hrow]; rfl))
        refine ⟨(), (hK.index _ _).mpr ?_⟩
        have hkey := hkeys e he
        rw [howner, ← hheights hash row hrow] at hkey
        rwa [← hkey]
    · have hstep : SideStore.run caps (ops ++ [.putSideHeaders rows]) =
          (SideStore.run caps ops).putSideHeaders caps rows := by
        rw [SideStore.run, List.foldl_append]
        rfl
      rw [hstep] at hgone ⊢
      obtain ⟨hput, hmem⟩ := hindexed.foldl_insertSide hrows
      obtain ⟨hcount, hlow⟩ := (hput.evict caps.sideHeadersCap).2 hash
        ((hmem hash).mpr hold.symm) hgone
      have hnumber := @Capped.Counted.evict _ _ _ _ _ _ _ _ _ _ caps.sideHeadersCap
        (foldl_insertSide_counted hcounts.side rows)
      exact ⟨hnumber.1.count.symm.trans hcount, hlow⟩

/-! ## A run -/

namespace SideSample

def hash (n : Nat) : Hash32 := .ofNat 32 n

def row (n : Nat) (height : UInt64) : SideRow := ⟨hash n, .zero 132, height, .powOk⟩

/-- Two headers in a table for two, and one of them again. -/
def ops : List SideOp := [.putSideHeaders [row 1 7, row 2 5, row 1 7]]

/-- And a third. -/
def third : List SideRow := [row 3 6]

def heightAt (h : Hash32) : UInt64 := if h = hash 1 then 7 else if h = hash 2 then 5 else 6

end SideSample

/-- The lowest of three headers goes. -/
theorem sideTables_spec_three :
    (SideStore.run ⟨2, 2⟩ (SideSample.ops ++ [.putSideHeaders SideSample.third])).side.rows.keys.length
        = 2 ∧
      ∀ hash' ∈ (SideStore.run ⟨2, 2⟩
        (SideSample.ops ++ [.putSideHeaders SideSample.third])).side.rows,
        SideSample.heightAt (SideSample.hash 2) ≤ SideSample.heightAt hash' := by
  have hfacts : (∀ op ∈ SideSample.ops, ∀ r ∈ op.sideRows,
        r.height = SideSample.heightAt r.hash) ∧
      (∀ r ∈ SideSample.third, r.height = SideSample.heightAt r.hash) ∧
      SideSample.hash 2 ∈ (SideStore.run ⟨2, 2⟩ (SideSample.ops)).side.rows ∧
      SideSample.hash 2 ∉ (SideStore.run ⟨2, 2⟩
        (SideSample.ops ++ [.putSideHeaders SideSample.third])).side.rows := by
    decide +kernel
  obtain ⟨hops, hrows, hold, hgone⟩ := hfacts
  exact ((sideTables_spec ⟨2, 2⟩ (SideSample.ops)).2.2 SideSample.heightAt hops).2 _ hrows _
    (.inl hold) hgone

/-- A hash put at two heights has two entries in the index and one row. -/
theorem sideTables_two_heights :
    (SideStore.run ⟨2, 2⟩ [.putSideHeaders [SideSample.row 1 5, SideSample.row 1 7]]).side.index.keys =
        [sideByHeightKey 7 (SideSample.hash 1), sideByHeightKey 5 (SideSample.hash 1)] ∧
      (SideStore.run ⟨2, 2⟩ [.putSideHeaders [SideSample.row 1 5, SideSample.row 1 7]]).side.rows.keys =
        [SideSample.hash 1] := by
  decide +kernel

end Plaine.Storage

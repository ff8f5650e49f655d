import Plaine.Lib.Crash
import Plaine.Storage.Tables

/-!
# The committer

`committer.rs`.  Blocks are written to the segment files and applied to the tables in one open
transaction, which a seal commits once the files are synced.  A reorg saves the header sectors
it is going to overwrite, overwrites them, and commits its transaction with the saved sectors
removed.

Left out are the file handle cache, receipts, damage found by the integrity check, body
anchors, header sweeps and the text of a poisoning.
-/

namespace Plaine.Storage

open Plaine.Lib Plaine.Consensus

/-- The disk: the segment files by number and the key-value store. -/
structure Disk where
  hdr : AList fun _ : Nat ↦ Seg
  body : AList fun _ : Nat ↦ Seg
  bidx : AList fun _ : Nat ↦ Seg
  db : Db

namespace Disk

/-- An empty data directory. -/
def empty : Disk := ⟨∅, ∅, ∅, .empty⟩

/-- `posio::open_rw_create`. -/
def create (files : AList fun _ : Nat ↦ Seg) (seg : Nat) : AList fun _ : Nat ↦ Seg :=
  if (files.lookup seg).isSome then files else files.insert seg .empty

/-- A change of a file that exists. -/
def update (files : AList fun _ : Nat ↦ Seg) (seg : Nat) (f : Seg → Seg) :
    AList fun _ : Nat ↦ Seg :=
  match files.lookup seg with
  | some s => files.insert seg (f s)
  | none => files

/-- `posio::pread` of a file, nothing if there is none. -/
def pread (files : AList fun _ : Nat ↦ Seg) (seg off n : Nat) : Bytes :=
  ((files.lookup seg).map fun s ↦ s.file.read off n).getD []

/-- `read_header`. -/
def readHeader (d : Disk) (h : Nat) : Option RawHeader :=
  let buf := pread d.hdr (segOf h) (hdrOffset h) headerBytes
  if hlen : buf.length = 132 then some ⟨buf, hlen⟩ else none

/-- `body_append_for`, and `body_append_at`. -/
def bodyAppendFor (d : Disk) (height : Nat) : Nat :=
  if height = 0 ∨ slotOf height = 0 then 0
  else
    let e := pread d.bidx (segOf (height - 1)) (bidxOffset (height - 1)) 8
    if e.length ≠ 8 then 0
    else
      let (off, len) := decodeBidx e
      if len = 0 then 0 else off + bodyFrameBytes + len

end Disk

/-- `Committer`. -/
structure Committer where
  disk : Disk
  cfg : StoreConfig
  info : Meta
  replayFloor : Nat
  mode : DurabilityMode
  seg : Option Nat
  txn : Option Tables
  batchBlocks : Nat
  batchBytes : Nat
  dirtyHdr : Bool
  dirtyBody : Bool
  poisoned : Bool

/-- A method of the committer. -/
abbrev Op (α : Type) : Type := Prog Committer Disk StoreError α

namespace Committer

open Prog

/-- A write to the disk. -/
def onDisk (f : Disk → Disk) : Op Unit := write Committer.disk fun c ↦ { c with disk := f c.disk }

/-- A commit of the key-value store. -/
def onDb (f : Db → Db) : Op Unit := onDisk fun d ↦ { d with db := f d.db }

/-- A change of the metadata in memory. -/
def onMeta (f : Meta → Meta) : Op Unit := alter fun c ↦ { c with info := f c.info }

/-- `guard`. -/
def guard : Op Unit := do
  let c ← peek
  require (c.poisoned = false) .poisoned

/-- `poison`. -/
def poison (_ : StoreError) (c : Committer) : Committer := { c with poisoned := true }

/-! ## Files -/

/-- The header file in `barrier` and `overwrite_headers`. -/
def syncHdr : Op Unit := do
  let c ← peek
  if c.dirtyHdr then
    match c.seg with
    | some s => onDisk fun d ↦ { d with hdr := Disk.update d.hdr s .sync }
    | none => pure ()
    alter fun c ↦ { c with dirtyHdr := false }

/-- The body file and its index in `barrier`. -/
def syncBody : Op Unit := do
  let c ← peek
  if c.dirtyBody then
    match c.seg with
    | some s =>
      onDisk fun d ↦ { d with body := Disk.update d.body s .sync }
      onDisk fun d ↦ { d with bidx := Disk.update d.bidx s .sync }
      onMeta fun m ↦ { m with bidxSealedThrough := s }
    | none => pure ()
    alter fun c ↦ { c with dirtyBody := false }

/-- `barrier`. -/
def barrier : Op Unit := do
  syncHdr
  syncBody

/-- `ensure_segments`. -/
def ensureSegments (seg : Nat) : Op Unit := do
  let c ← peek
  if c.seg ≠ some seg then
    if c.seg.isSome then
      barrier
      alter fun c ↦ { c with seg := none }
    onDisk fun d ↦ { d with hdr := Disk.create d.hdr seg }
    onDisk fun d ↦ { d with body := Disk.create d.body seg }
    onDisk fun d ↦ { d with bidx := Disk.create d.bidx seg }
    alter fun c ↦ { c with seg := some seg }

/-- The header write of `write_block` and `overwrite_headers`. -/
def writeHeader (b : BlockToCommit) : Op Unit := do
  onDisk fun d ↦ { d with
    hdr := Disk.update d.hdr (segOf b.height) fun s ↦ s.write (hdrOffset b.height) b.header.bytes }
  alter fun c ↦ { c with dirtyHdr := true }

/-- The opening of a block's segment, which starts the body frames of a new one over. -/
def enterSegment (b : BlockToCommit) : Op Unit := do
  let c ← peek
  ensureSegments (segOf b.height)
  if c.seg ≠ some (segOf b.height) ∧ slotOf b.height = 0 then
    onMeta fun m ↦ { m with bodyAppendOffset := 0 }

/-- `write_body`. -/
def writeBody (b : BlockToCommit) : Op Unit := do
  let c ← peek
  let off := c.info.bodyAppendOffset
  let stop := off + bodyFrameBytes + b.body.length
  require (stop ≤ u32Max) (.segmentOverflow (segOf b.height) stop)
  let frame := encodeFrameHeader b.body.length (crc32c b.body) ++ b.body
  onDisk fun d ↦ { d with
    body := Disk.update d.body (segOf b.height) fun s ↦ s.write off frame }
  onDisk fun d ↦ { d with
    bidx := Disk.update d.bidx (segOf b.height) fun s ↦
      s.write (bidxOffset b.height) (encodeBidx off b.body.length) }
  onMeta fun m ↦ { m with bodyAppendOffset := stop }
  alter fun c ↦ { c with dirtyBody := true }

/-! ## Checkpoints, pruning and the hash index -/

/-- The height of the lowest checkpoint. -/
def lowestCheckpoint (t : Tables) : Nat := t.stateCkpt.keys.min?.getD 0

/-- `refresh_replay_floor`. -/
def refreshReplayFloor : Op Unit := alter fun c ↦
  { c with replayFloor := lowestCheckpoint c.disk.db.tables }

/-- The rows past the keep limit, the lowest first. -/
def surplusCheckpoints (keep : Nat) (t : Tables) : List Nat :=
  let heights := t.stateCkpt.keys.insertionSort (· ≤ ·)
  heights.take (heights.length - max keep 1)

/-- The tables with a checkpoint more and without the rows past the keep limit, and the
savepoints these named. -/
def withCheckpoint (keep tip id : Nat) (t : Tables) : Tables × List Nat :=
  let t := { t with stateCkpt := t.stateCkpt.insert tip id }
  let surplus := surplusCheckpoints keep t
  ({ t with stateCkpt := surplus.foldl (fun m h ↦ m.erase h) t.stateCkpt },
    surplus.filterMap t.stateCkpt.lookup)

/-- Whether a tip is far enough above the highest checkpoint for another. -/
def checkpointDue (interval tip : Nat) (t : Tables) : Bool :=
  match t.stateCkpt.keys.max? with
  | some h => h + interval ≤ tip
  | none => true

/-- `maybe_checkpoint`. -/
def maybeCheckpoint : Op Unit := do
  let c ← peek
  let tip := c.info.tip.height
  if c.cfg.stateCkptInterval = 0 ∨ c.info.hdrWatermark = 0 ∨
      checkpointDue c.cfg.stateCkptInterval tip c.disk.db.tables = false then pure ()
  else
    let id := c.disk.db.nextSavepoint
    onDb fun db ↦ db.persistentSavepoint.2
    let c ← peek
    let (t, dropIds) := withCheckpoint c.cfg.stateCkptKeep tip id c.disk.db.tables
    onDb fun db ↦ db.commit t
    if dropIds ≠ [] then
      onDb fun db ↦ dropIds.foldl Db.deletePersistentSavepoint db
    refreshReplayFloor

/-- `prune_to`.  The bodies of a segment go file by file. -/
def pruneTo (floor : Nat) : Op Unit := do
  guard
  let c ← peek
  let targetSeg := segOf floor
  let fromSeg := segOf c.info.pruneFloor
  if targetSeg ≤ fromSeg then pure ()
  else
    onMeta fun m ↦ { m with pruneFloor := segFirstHeight targetSeg }
    let c ← peek
    onDb fun db ↦ db.commit { db.tables with info := some c.info }
    forEach (fun s ↦ do
      onDisk fun d ↦ { d with body := d.body.erase s }
      onDisk fun d ↦ { d with bidx := d.bidx.erase s }) (List.range' fromSeg (targetSeg - fromSeg))

/-- `maybe_prune`. -/
def maybePrune : Op Unit := do
  let c ← peek
  let retain := c.cfg.bodyRetainBlocks
  let target := c.info.tip.height - retain
  if c.cfg.prune ∧ retain + segBlocks ≤ c.info.tip.height ∧
      c.info.pruneFloor + segBlocks < target then
    pruneTo target

section

variable [Crypto]

/-- One height of `rebuild_hash_index`. -/
def reindexHeight (readHeader : Nat → Option RawHeader) (prefixBytes : Nat) (t : Tables) (m : Meta)
    (h : Nat) : Tables × Meta :=
  match readHeader h with
  | none => (t, m)
  | some hdr =>
    let p := hashPrefixN (headerHash hdr) prefixBytes
    if (t.hashIndex.lookup p).isSome then
      ({ t with hashIndexFull := t.hashIndexFull.insert (headerHash hdr) h },
        { m with hashIndexFullRows := m.hashIndexFullRows + 1 })
    else ({ t with hashIndex := t.hashIndex.insert p h }, m)

/-- `rebuild_hash_index` after its seal. -/
def reindex : Op Unit := do
  let c ← peek
  let (t, m) := (List.range c.info.hdrWatermark).foldl
    (fun x h ↦ reindexHeight c.disk.readHeader c.cfg.hashPrefixBytes x.1 x.2 h)
    ({ c.disk.db.tables with hashIndex := ∅, hashIndexFull := ∅ },
      { c.info with hashIndexFullRows := 0 })
  onMeta fun _ ↦ { m with indexState := 0, staleIndexCount := 0 }
  let c ← peek
  onDb fun db ↦ db.commit { t with info := some c.info }

/-- `maybe_rebuild_index`.  The seal that `rebuild_hash_index` starts with has nothing to do
here. -/
def maybeRebuildIndex : Op Unit := do
  let c ← peek
  if c.info.indexState = 0 ∧ c.info.staleIndexCount < staleIndexRebuildThreshold then pure ()
  else
    guard
    reindex

/-! ## Extending -/

/-- `seal`. -/
def sealBatch (publish : Bool) : Op Unit := do
  guard
  let c ← peek
  if c.txn.isNone ∧ c.dirtyHdr = false ∧ c.dirtyBody = false then pure ()
  else
    barrier
    let c ← peek
    match c.txn with
    | some t =>
      onDb fun db ↦ db.commit { t with info := some c.info }
      alter fun c ↦ { c with txn := none }
    | none => pure ()
    alter fun c ↦ { c with batchBlocks := 0, batchBytes := 0 }
    if publish then
      maybeCheckpoint
      maybePrune
      maybeRebuildIndex

/-- `ensure_txn`. -/
def ensureTxn : Op Unit := alter fun c ↦ { c with txn := some (c.txn.getD c.disk.db.tables) }

/-- `apply_block` on the open transaction. -/
def applyTxn (b : BlockToCommit) : Op Unit := do
  let c ← peek
  let (t, m) ← lift (applyBlock c.disk.readHeader c.cfg b (c.txn.getD c.disk.db.tables) c.info)
  alter fun c ↦ { c with txn := some t, info := m }

/-- `write_block`. -/
def writeBlock (b : BlockToCommit) : Op Unit := do
  lift (checkBlockInputs b)
  enterSegment b
  writeHeader b
  writeBody b
  ensureTxn
  applyTxn b

/-- One block of `extend`. -/
def extendOne (b : BlockToCommit) : Op Unit := do
  let c ← peek
  require (b.height = c.info.hdrWatermark)
    (.badPlan "extend must be contiguous with hdr_watermark")
  lift (checkBlockInputs b)
  (writeBlock b).onError poison
  alter fun c ↦ { c with
    batchBlocks := c.batchBlocks + 1
    batchBytes := c.batchBytes + (headerBytes + b.body.length + bodyFrameBytes) }
  let c ← peek
  let limit := match c.mode with
    | .tip => 1
    | .ibd => c.info.ibdBatchBlocks
  if limit ≤ c.batchBlocks ∨ maxBatchBytes ≤ c.batchBytes then
    (sealBatch true).onError poison

/-- `extend`. -/
def extend (blocks : List BlockToCommit) : Op Unit := do
  guard
  forEach extendOne blocks

/-- `flush`. -/
def flush : Op Unit := sealBatch true

/-- `set_mode`. -/
def setMode (m : DurabilityMode) : Op Unit := do
  let c ← peek
  if m ≠ c.mode then
    sealBatch true
    alter fun c ↦ { c with mode := m }

/-! ## Reorgs -/

/-- The checks `reorg` makes of the heights its plan rolls back. -/
def checkRollback (m : Meta) (replayFloor : Nat) (plan : ReorgPlan) : Except StoreError Unit :=
  match plan.rollback.getLast? with
  | some lowest => do
    Except.require (lowest = plan.forkHeight + 1 ∧ plan.rollback.head? = some m.tip.height)
      (.badPlan "rollback must cover fork_height+1..=tip")
    Except.require (m.undoFloor ≤ lowest) (.undoExhausted plan.forkHeight m.undoFloor replayFloor)
  | none =>
    Except.require (plan.forkHeight = m.tip.height)
      (.badPlan "empty rollback with fork below tip")

/-- The checks `reorg` makes of its plan. -/
def checkPlan (m : Meta) (replayFloor : Nat) (plan : ReorgPlan) : Except StoreError Unit := do
  Except.require (plan.rollback.length ≤ maxReorgDepth)
    (.badPlan "rollback deeper than MAX_REORG_DEPTH")
  Except.require (plan.rollback.IsChain (· > ·)) (.badPlan "rollback heights must be DESCENDING")
  checkRollback m replayFloor plan
  Except.require (plan.apply.head?.map (·.height) = some (plan.forkHeight + 1))
    (.badPlan "apply must start at fork_height+1")
  plan.apply.zipIdx.forM fun (b, i) ↦ do
    Except.require (b.height = plan.forkHeight + 1 + i)
      (.badPlan "apply heights must be contiguous ascending")
    checkBlockInputs b

/-- The sectors of a segment file from one offset up to another, as far as the file goes. -/
def sectorsOf (f : File) (start stop : Nat) : List (Nat × Bytes) :=
  (List.range' (start / sector) ((stop - start) / sector)).map (fun i ↦ (i, f.read (i * sector) sector))
    |>.filter (·.2 ≠ [])

/-- The rows of `write_hdr_undo`: whole sectors, since a header may straddle two. -/
def hdrUndoRows (d : Disk) (first last : Nat) : List (Nat × Bytes) :=
  (List.range' (segOf first) (segOf last + 1 - segOf first)).flatMap fun seg ↦
    let h := max first (segFirstHeight seg)
    let segLast := min (segFirstHeight seg + segBlocks - 1) last
    let start := hdrOffset h / sector * sector
    let stop := (hdrOffset segLast + headerBytes + sector - 1) / sector * sector
    match d.hdr.lookup seg with
    | some s => (sectorsOf s.file start stop).map fun row ↦ (seg * 2 ^ 32 + row.1, row.2)
    | none => []

/-- `write_hdr_undo`. -/
def writeHdrUndo (first last : Nat) : Op Unit := do
  if last < first then pure ()
  else
    let c ← peek
    let rows := hdrUndoRows c.disk first last
    onDb fun db ↦ db.commit { db.tables with
      hdrUndo := rows.foldl (fun m row ↦ m.insert row.1 row.2) db.tables.hdrUndo }

/-- `overwrite_headers`. -/
def overwriteHeaders (apply : List BlockToCommit) : Op Unit := do
  forEach (fun b ↦ do
    ensureSegments (segOf b.height)
    writeHeader b) apply
  syncHdr

/-- The hash rows of the blocks rolled back go. -/
def dropHash (prefixBytes : Nat) (t : Tables) (m : Meta) (row : Nat × Hash32) : Tables × Meta :=
  let p := hashPrefixN row.2 prefixBytes
  let t := if t.hashIndex.lookup p = some row.1 then
    { t with hashIndex := t.hashIndex.erase p } else t
  if 0 < m.hashIndexFullRows then
    ({ t with hashIndexFull := t.hashIndexFull.erase row.2 },
      if (t.hashIndexFull.lookup row.2).isSome then
        { m with hashIndexFullRows := m.hashIndexFullRows - 1 }
      else m)
  else (t, m)

/-- `commit_branch` up to the blocks: the tables and metadata at the fork. -/
def rewindBranch (forkHeight : Nat) (rollback : List Nat) (oldHashes : List (Nat × Hash32)) :
    Op Tables := do
  let c ← peek
  let (r, m) := rollbackHeights rollback { c.disk.db.tables with hdrUndo := ∅ } c.info
  onMeta fun _ ↦ m
  let t ← lift r
  let (t, m) := oldHashes.foldl (fun x row ↦ dropHash c.cfg.hashPrefixBytes x.1 x.2 row) (t, m)
  onMeta fun _ ↦ { m with
    staleIndexCount := m.staleIndexCount + rollback.length
    tip := { m.tip with height := forkHeight }
    hdrWatermark := forkHeight + 1
    bodyWatermark := forkHeight + 1 }
  return t

/-- The blocks of `commit_branch`. -/
def applyBranch : List BlockToCommit → Tables → Op Tables
  | [], t => pure t
  | b :: blocks, t => do
    lift (checkBlockInputs b)
    enterSegment b
    writeBody b
    let c ← peek
    let (t, m) ← lift (applyBlock c.disk.readHeader c.cfg b t c.info)
    onMeta fun _ ↦ m
    applyBranch blocks t

/-- `commit_branch`. -/
def commitBranch (forkHeight : Nat) (rollback : List Nat) (oldHashes : List (Nat × Hash32))
    (apply : List BlockToCommit) : Op Unit := do
  let t ← rewindBranch forkHeight rollback oldHashes
  let t ← applyBranch apply t
  barrier
  let c ← peek
  onDb fun db ↦ db.commit { t with info := some c.info }
  maybeCheckpoint
  maybeRebuildIndex

/-- `reorg_destructive`. -/
def reorgDestructive (plan : ReorgPlan) (oldTip : Nat) (oldHashes : List (Nat × Hash32)) :
    Op Unit := do
  writeHdrUndo (plan.forkHeight + 1) (min (plan.forkHeight + plan.apply.length) oldTip)
  overwriteHeaders plan.apply
  let c ← peek
  onMeta fun m ↦ { m with bodyAppendOffset := c.disk.bodyAppendFor (plan.forkHeight + 1) }
  commitBranch plan.forkHeight plan.rollback oldHashes plan.apply

/-- `reorg`. -/
def reorg (plan : ReorgPlan) : Op Unit := do
  guard
  sealBatch true
  let c ← peek
  lift (checkPlan c.info c.replayFloor plan)
  let oldHashes := plan.rollback.filterMap fun h ↦
    (c.disk.readHeader h).map fun hdr ↦ (h, headerHash hdr)
  -- The poison is armed before the first header is touched.
  alter fun c ↦ { c with poisoned := true }
  reorgDestructive plan c.info.tip.height oldHashes
  alter fun c ↦ { c with poisoned := false }

/-- `deep_reorg` up to the replay: the checkpoint is restored, and the metadata with it. -/
def restoreCheckpoint (plan : DeepReorgPlan) : Op Unit := do
  guard
  sealBatch true
  let c ← peek
  require (plan.rewindTo ≤ plan.forkHeight) (.badPlan "rewind_to must be <= fork_height")
  require (c.info.pruneFloor ≤ plan.rewindTo) (.forkBelowPruneFloor plan.forkHeight
    c.info.pruneFloor ((c.info.pruneFloor - plan.rewindTo) / 1440))
  require (plan.replay.length = plan.forkHeight - plan.rewindTo)
    (.badPlan "replay must cover rewind_to+1..=fork_height exactly")
  let id ← lift (Except.ofOption
    (.undoExhausted plan.forkHeight c.info.undoFloor c.replayFloor)
    (c.disk.db.tables.stateCkpt.lookup plan.rewindTo))
  let saved ← lift (Except.ofOption .invalidSavepoint (c.disk.db.savepoints.lookup id))
  onDb fun db ↦ db.restoreSavepoint id
    { saved with stateCkpt := saved.stateCkpt.insert plan.rewindTo id }
  let m ← lift (Except.ofOption (.badPlan "state checkpoint restored a store with no meta")
    saved.info)
  alter fun c ↦ { c with info := m, seg := none, dirtyHdr := false, dirtyBody := false }
  let c ← peek
  onMeta fun m ↦ { m with bodyAppendOffset := c.disk.bodyAppendFor (plan.rewindTo + 1) }
  refreshReplayFloor

/-- `deep_reorg`. -/
def deepReorg (plan : DeepReorgPlan) : Op Unit := do
  restoreCheckpoint plan
  let c ← peek
  alter fun c ↦ { c with mode := .ibd }
  extend plan.replay
  extend plan.apply
  sealBatch true
  alter fun d ↦ { d with mode := c.mode }

end

end Committer

end Plaine.Storage

import Plaine.Lib.Checked
import Plaine.Lib.Result
import Plaine.Storage.File

/-!
# Tables

`tables.rs`, `meta.rs` and what `committer.rs` does inside a transaction.  The key-value store
holds the committed tables and its savepoints; a commit replaces the tables as a whole.  The
metadata rows are one record.

The side header and invalid block tables are in a module of their own; the body anchor table is
read and written by functions that are not modelled, and left out.
-/

namespace Plaine.Storage

open Plaine.Lib Plaine.Consensus

/-- `TipRef`. -/
structure TipRef where
  hash : Hash32
  height : Nat
  chainwork : Arr 32
deriving DecidableEq, Inhabited

/-- `BlockToCommit`. -/
structure BlockToCommit where
  header : RawHeader
  hash : Hash32
  height : Nat
  body : Bytes
  deltas : List StateDelta
  undo : List UndoRec
  issuedDelta : U128
  chainwork : Arr 32
  txids : Option (List Hash32)
deriving DecidableEq

/-- `ReorgPlan`. -/
structure ReorgPlan where
  forkHeight : Nat
  rollback : List Nat
  apply : List BlockToCommit
deriving DecidableEq

/-- `DeepReorgPlan`. -/
structure DeepReorgPlan where
  forkHeight : Nat
  rewindTo : Nat
  replay : List BlockToCommit
  apply : List BlockToCommit
deriving DecidableEq

/-- `StoreError`. -/
inductive StoreError where
  | forkBelowPruneFloor (forkHeight pruneFloor daysDiscarded : Nat)
  | undoExhausted (requested undoFloor replayFloor : Nat)
  | stateBehindHeaders (headers state undoFloor : Nat)
  | segmentTruncated (segment expectedLen actualLen : Nat)
  | tipNotInSegments (watermark window : Nat) (metaTip segmentTip : Hash32)
  | emissionMismatch (storedMile formulaMile : Nat)
  | segmentOverflow (segment offset : Nat)
  | orphanSegments (hdrSegments bodySegments : Nat)
  | badPlan (why : String)
  | poisoned
  | invalidSavepoint
deriving DecidableEq

/-- `DurabilityMode`. -/
inductive DurabilityMode where
  | tip
  | ibd
deriving DecidableEq

/-- `StoreConfig`, but for the caches, the caps of the tables left out and the options of the
integrity check and the anchors. -/
structure StoreConfig where
  prune : Bool
  bodyRetainBlocks : Nat
  txindex : Bool
  stateCkptInterval : Nat
  stateCkptKeep : Nat
  ibdBatchBlocks : Nat
  hashPrefixBytes : Nat
deriving DecidableEq

/-- `Meta`, but for the schema and network, which never change, and the counters of the tables
left out. -/
structure Meta where
  tip : TipRef
  hdrWatermark : Nat
  bodyWatermark : Nat
  pruneFloor : Nat
  undoFloor : Nat
  issued : Nat
  fingerprint : Hash32
  indexState : Nat
  staleIndexCount : Nat
  txindexFrom : Option Nat
  ibdBatchBlocks : Nat
  bidxSealedThrough : Int
  hashIndexFullRows : Nat
  bodyAppendOffset : Nat
deriving DecidableEq

/-- `Meta::fresh`. -/
def Meta.fresh (pruneFloor ibdBatchBlocks : Nat) : Meta where
  tip := ⟨.zero 32, 0, .zero 32⟩
  hdrWatermark := 0
  bodyWatermark := 0
  pruneFloor
  undoFloor := 0
  issued := 0
  fingerprint := .zero 32
  indexState := 0
  staleIndexCount := 0
  txindexFrom := none
  ibdBatchBlocks
  bidxSealedThrough := -1
  hashIndexFullRows := 0
  bodyAppendOffset := 0

/-- The tables. -/
structure Tables where
  state : AList fun _ : Address ↦ Account
  undo : AList fun _ : Nat ↦ Bytes
  hashIndex : AList fun _ : Nat ↦ Nat
  hashIndexFull : AList fun _ : Hash32 ↦ Nat
  chainworkCkpt : AList fun _ : Nat ↦ Arr 32
  txindex : AList fun _ : Arr 16 ↦ Nat × Nat
  hdrUndo : AList fun _ : Nat ↦ Bytes
  stateCkpt : AList fun _ : Nat ↦ Nat
  info : Option Meta

/-- The tables of a new store, before its metadata are stored. -/
def Tables.empty : Tables := ⟨∅, ∅, ∅, ∅, ∅, ∅, ∅, ∅, none⟩

/-! ## The key-value store -/

/-- The key-value store: the committed tables and the persistent savepoints. -/
structure Db where
  tables : Tables
  savepoints : AList fun _ : Nat ↦ Tables
  nextSavepoint : Nat

namespace Db

/-- A new store. -/
def empty : Db := ⟨.empty, ∅, 0⟩

/-- `WriteTransaction::commit`. -/
def commit (db : Db) (t : Tables) : Db := { db with tables := t }

/-- `persistent_savepoint`, in a transaction of its own. -/
def persistentSavepoint (db : Db) : Nat × Db :=
  (db.nextSavepoint, { db with
    savepoints := db.savepoints.insert db.nextSavepoint db.tables
    nextSavepoint := db.nextSavepoint + 1 })

/-- `delete_persistent_savepoint`. -/
def deletePersistentSavepoint (db : Db) (id : Nat) : Db :=
  { db with savepoints := db.savepoints.erase id }

/-- `restore_savepoint`: later savepoints are gone. -/
def restoreSavepoint (db : Db) (id : Nat) (t : Tables) : Db :=
  { db with
    tables := t
    savepoints := (db.savepoints.keys.filter (id < ·)).foldl (fun m k ↦ m.erase k) db.savepoints }

end Db

/-! ## A block in a transaction -/

section

variable [Crypto]

/-- One delta with its undo record. -/
def applyDelta (t : Tables) (m : Meta) (d : StateDelta) (u : UndoRec) : Tables × Meta :=
  let fp := if u.existed then fpXor m.fingerprint (rowDigest u.addr u.prev) else m.fingerprint
  if d.next.isAbsent then
    ({ t with state := t.state.erase d.addr }, { m with fingerprint := fp })
  else
    ({ t with state := t.state.insert d.addr d.next },
      { m with fingerprint := fpXor fp (rowDigest d.addr d.next) })

/-- The state table in `apply_block`. -/
def applyDeltas : List (StateDelta × UndoRec) → Tables → Meta → Except StoreError (Tables × Meta)
  | [], t, m => .ok (t, m)
  | (d, u) :: rows, t, m =>
    if d.addr ≠ u.addr then .error (.badPlan "deltas and undo must be address-aligned")
    else
      let (t, m) := applyDelta t m d u
      applyDeltas rows t m

/-- The undo row in `apply_block`.  The row that fell off the ring goes. -/
def putUndo (b : BlockToCommit) (t : Tables) : Tables :=
  let undo := t.undo.insert b.height (encodeUndo b.undo b.issuedDelta)
  { t with undo := if undoRing ≤ b.height then undo.erase (b.height - undoRing) else undo }

/-- `incumbent_still_valid` of `apply_block`. -/
def incumbentStillValid (readHeader : Nat → Option RawHeader) (prefixBytes p h₀ : Nat) : Bool :=
  match readHeader h₀ with
  | some hdr => hashPrefixN (headerHash hdr) prefixBytes = p
  | none => false

/-- The hash index in `apply_block`: on a prefix clash the incumbent keeps the short index as
long as its header is still there. -/
def putHash (readHeader : Nat → Option RawHeader) (prefixBytes : Nat) (b : BlockToCommit)
    (t : Tables) (m : Meta) : Tables × Meta :=
  let p := hashPrefixN b.hash prefixBytes
  match t.hashIndex.lookup p with
  | none => ({ t with hashIndex := t.hashIndex.insert p b.height }, m)
  | some h₀ =>
    if h₀ = b.height then (t, m)
    else
      if incumbentStillValid readHeader prefixBytes p h₀ then
        ({ t with hashIndexFull := t.hashIndexFull.insert b.hash b.height },
          if (t.hashIndexFull.lookup b.hash).isNone then
            { m with hashIndexFullRows := m.hashIndexFullRows + 1 }
          else m)
      else ({ t with hashIndex := t.hashIndex.insert p b.height }, m)

/-- The chainwork sample in `apply_block`. -/
def putChainwork (b : BlockToCommit) (t : Tables) : Tables :=
  if b.height % 2 ^ chainworkCkptShift = 0 then
    { t with chainworkCkpt := t.chainworkCkpt.insert b.height b.chainwork }
  else t

/-- The transaction index in `apply_block`. -/
def putTxids (txindex : Bool) (b : BlockToCommit) (t : Tables) (m : Meta) : Tables × Meta :=
  match b.txids with
  | some ids =>
    if txindex then
      let put (tx : AList fun _ : Arr 16 ↦ Nat × Nat) (id : Hash32 × Nat) :
          AList fun _ : Arr 16 ↦ Nat × Nat :=
        tx.insert (.ofSlice 16 0 id.1.bytes) (b.height, id.2 % 2 ^ 16)
      ({ t with txindex := ids.zipIdx.foldl put t.txindex },
        { m with txindexFrom := m.txindexFrom.or (some b.height) })
    else (t, m)
  | none => (t, m)

/-- The metadata after a block. -/
def advanceMeta (b : BlockToCommit) (m : Meta) : Meta :=
  { m with
    issued := saturatingAdd u128Max m.issued b.issuedDelta.toNat
    tip := ⟨b.hash, b.height, b.chainwork⟩
    hdrWatermark := b.height + 1
    bodyWatermark := b.height + 1
    undoFloor := b.height + 1 - undoRing }

/-- `apply_block`. -/
def applyBlock (readHeader : Nat → Option RawHeader) (cfg : StoreConfig) (b : BlockToCommit)
    (t : Tables) (m : Meta) : Except StoreError (Tables × Meta) := do
  let (t, m) ← applyDeltas (b.deltas.zip b.undo) t m
  let t := putUndo b t
  let (t, m) := putHash readHeader cfg.hashPrefixBytes b t m
  let t := putChainwork b t
  let (t, m) := putTxids cfg.txindex b t m
  return (t, advanceMeta b m)

/-- The fingerprint in `rollback_height` without the row that is there, if there is one. -/
def fpWithout (state : AList fun _ : Address ↦ Account) (addr : Address) (fp : Hash32) : Hash32 :=
  match state.lookup addr with
  | some cur => fpXor fp (rowDigest addr cur)
  | none => fp

/-- One undo record in `rollback_height`. -/
def restoreRow (t : Tables) (m : Meta) (r : UndoRec) : Tables × Meta :=
  let fp := fpWithout t.state r.addr m.fingerprint
  if r.existed then
    ({ t with state := t.state.insert r.addr r.prev },
      { m with fingerprint := fpXor fp (rowDigest r.addr r.prev) })
  else ({ t with state := t.state.erase r.addr }, { m with fingerprint := fp })

/-- `rollback_height`. -/
def rollbackHeight (t : Tables) (m : Meta) (h : Nat) : Except StoreError (Tables × Meta) := do
  let blob ← Except.ofOption (.undoExhausted h m.undoFloor 0) (t.undo.lookup h)
  let (recs, issuedDelta) ← Except.ofOption (.badPlan "undo blob is malformed") (decodeUndo blob)
  let issued ← Except.ofOption (.emissionMismatch m.issued issuedDelta.toNat)
    (checkedSub m.issued issuedDelta.toNat)
  let (t, m) := recs.foldl (fun x r ↦ restoreRow x.1 x.2 r) (t, { m with issued })
  let t := { t with undo := t.undo.erase h }
  return (if h % 2 ^ chainworkCkptShift = 0 then
    { t with chainworkCkpt := t.chainworkCkpt.erase h } else t, m)

/-- A loop of `rollback_height`, with the metadata it leaves, also where it fails. -/
def rollbackHeights : List Nat → Tables → Meta → Except StoreError Tables × Meta
  | [], t, m => (.ok t, m)
  | h :: heights, t, m =>
    match rollbackHeight t m h with
    | .ok (t, m) => rollbackHeights heights t m
    | .error e => (.error e, m)

/-- `check_block_inputs`. -/
def checkBlockInputs (b : BlockToCommit) : Except StoreError Unit := do
  Except.require (b.deltas.length = b.undo.length) (.badPlan "deltas and undo must be paired")
  Except.require (b.deltas.map (·.addr) = b.undo.map (·.addr))
    (.badPlan "deltas and undo must be address-aligned")
  Except.require (b.body.length ≤ maxBodyBytes)
    (.badPlan "body exceeds MAX_BLOCK_BYTES - HEADER_BYTES")
  Except.require (b.body ≠ [])
    (.badPlan "body must be non-empty: len == 0 is the sidecar's absent sentinel")

end

end Plaine.Storage

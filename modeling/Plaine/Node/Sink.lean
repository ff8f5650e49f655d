import Plaine.Chain.Types
import Plaine.Storage.Committer

/-!
# The node's sink

`wire/store.rs` and the note index of `wire/rpcview.rs`.  The sink hands blocks to the committer,
keeps those that are not sealed yet in a ring, and tells the note index of each block.

What the reader publishes is what the committer has committed, since every publish follows its
commit.  Left out are the locks, the statistics, the sink's methods for side headers, invalid
blocks and anchors, whose tables are left out, and the pages of the note index.
-/

namespace Plaine.Node

open Plaine.Lib Plaine.Consensus Plaine.Storage
open Plaine.Chain (CommitBlock ReorgCommit DeepReorgCommit SinkError)

/-- `RING_MAX_BLOCKS`. -/
def ringMaxBlocks : Nat := 256

/-- `RING_MAX_BYTES`. -/
def ringMaxBytes : Nat := 24 * 1024 * 1024

/-- `Entry`. -/
structure Entry where
  height : Nat
  hash : Hash32
  header : RawHeader
  body : Bytes
  deltas : List (Address × Lib.Account)
  undo : List Chain.UndoRec
  issuedDelta : Nat

/-- `UnsealedInner`. -/
structure Unsealed where
  entries : List Entry
  byHash : AList fun _ : Hash32 ↦ Nat
  bytes : Nat

namespace Unsealed

/-- `UnsealedInner::default`, and `clear`. -/
def empty : Unsealed := ⟨[], ∅, 0⟩

/-- `UnsealedInner::push`. -/
def push (r : Unsealed) (e : Entry) : Unsealed where
  entries := r.entries ++ [e]
  byHash := r.byHash.insert e.hash r.entries.length
  bytes := r.bytes + e.body.length

/-- `UnsealedInner::reindex`. -/
def reindex (entries : List Entry) : Unsealed where
  entries
  byHash := entries.zipIdx.foldl (fun m e ↦ m.insert e.1.hash e.2) ∅
  bytes := (entries.map (·.body.length)).sum

/-- `UnsealedInner::prune`. -/
def prune (r : Unsealed) (watermark : Nat) : Unsealed :=
  if r.entries = [] then r else reindex (r.entries.filter (watermark ≤ ·.height))

/-- `UnsealedInner::at`: the latest entry at a height wins. -/
def atHeight (r : Unsealed) (height : Nat) : Option Entry :=
  r.entries.reverse.find? (·.height = height)

end Unsealed

/-! ## The note index -/

/-- `Note`. -/
structure Note where
  seq : Nat
  height : Nat
  txid : Hash32
  time : Nat
  encoding : UInt8
  payload : Bytes
deriving DecidableEq

section

variable [Crypto]

/-- One transaction in `NoteIndex::on_block`. -/
def noteTx (height : Nat) (notes : List Note) (record : Bytes) : List Note :=
  match decodeTx record with
  | .ok (.announcement a) =>
    match a.txid with
    | .ok txid => notes ++ [⟨notes.length, height, txid, 0, a.encoding, a.payload⟩]
    | .error _ => notes
  | _ => notes

/-- `NoteIndex::on_block`. -/
def onBlock (notes : List Note) (height : Nat) (body : Bytes) : List Note :=
  match BlockBody.parse body with
  | .ok b => b.records.foldl (noteTx height) notes
  | .error _ => notes

end

/-- `NoteIndex::rollback_above`. -/
def rollbackAbove (notes : List Note) (forkHeight : Nat) : List Note :=
  (notes.filter (·.height ≤ forkHeight)).zipIdx.map fun n ↦ { n.1 with seq := n.2 }

/-! ## The sink -/

/-- `work_be`. -/
def workBe (w : Work) : Arr 32 := .ofNat 32 w

/-- The deltas of `CommitSink::own`. -/
def ownDelta (d : Chain.StateDelta) : StateDelta := ⟨d.addr, .ofNat 128 d.balance, .ofNat d.nonce⟩

/-- The undo records of `CommitSink::own`. -/
def ownUndo (u : Chain.UndoRec) : UndoRec :=
  ⟨u.addr, .ofNat 128 u.prevBalance, .ofNat u.prevNonce, u.existed⟩

/-- `CommitSink::to_plan`. -/
def toPlan (b : CommitBlock) : BlockToCommit where
  header := b.headerRaw
  hash := b.hash
  height := b.height
  body := b.body
  deltas := b.deltas.map ownDelta
  undo := b.undo.map ownUndo
  issuedDelta := .ofNat 128 b.issuedDelta
  chainwork := workBe b.chainwork
  txids := if b.txids = [] then none else some b.txids

/-- The entry of `CommitSink::ring_push`. -/
def toEntry (b : CommitBlock) : Entry where
  height := b.height
  hash := b.hash
  header := b.headerRaw
  body := b.body
  deltas := b.deltas.map fun d ↦ (d.addr, d.acct)
  undo := b.undo
  issuedDelta := b.issuedDelta

/-- `storage_err`. -/
def storageErr : StoreError → SinkError
  | .badPlan why => .invalid why
  | .undoExhausted .. => .invalid "undo ring exhausted"
  | .forkBelowPruneFloor .. => .invalid "fork below the prune floor"
  | _ => .fatal "storage write failed"

/-- The fork height in `commit_reorg`.  A rollback down to height 0 overflows there. -/
def reorgFork (p : ReorgCommit) : Nat :=
  match p.rollback.getLast? with
  | some h => h - 1
  | none =>
    match p.apply.head? with
    | some b => b.height - 1
    | none => 0

/-- The fork height in `commit_deep_reorg`. -/
def deepReorgFork (p : DeepReorgCommit) : Nat :=
  match p.apply.head? with
  | some b => b.height - 1
  | none => p.rewindTo

/-- `CommitSink`. -/
structure CommitSink where
  committer : Committer
  ring : Unsealed
  notes : List Note

/-- A method of the sink. -/
abbrev SinkOp (α : Type) : Type := Prog CommitSink Disk SinkError α

namespace CommitSink

open Prog

/-- `CommitSink::new`, with an empty note index and an empty ring. -/
def new (c : Committer) : CommitSink := ⟨c, .empty, []⟩

/-- `StoreReader::hdr_watermark`. -/
def hdrWatermark (s : CommitSink) : Nat :=
  (s.committer.disk.db.tables.info.map (·.hdrWatermark)).getD 0

/-- A call of the committer. -/
def storage {α : Type} (op : Op α) : SinkOp α := fun s ↦
  let o := op s.committer
  ⟨o.trail, { s with committer := o.state }, o.result.mapError storageErr⟩

/-- A change of the ring. -/
def onRing (f : Unsealed → Unsealed) : SinkOp Unit := alter fun s ↦ { s with ring := f s.ring }

/-- A change of the note index. -/
def onNotes (f : List Note → List Note) : SinkOp Unit := alter fun s ↦ { s with notes := f s.notes }

/-- `after_write`. -/
def afterWrite : SinkOp Unit := do
  let s ← peek
  onRing (·.prune s.hdrWatermark)

variable [Crypto]

/-- `flush`. -/
def flush : SinkOp Unit := do
  storage Committer.flush
  afterWrite

/-- `enforce_bound`. -/
def enforceBound : SinkOp Unit := do
  let s ← peek
  if ringMaxBlocks ≤ s.ring.entries.length ∨ ringMaxBytes ≤ s.ring.bytes then
    storage Committer.flush

/-- `commit_block`. -/
def commitBlock (b : CommitBlock) : SinkOp Chain.TipRef := do
  enforceBound
  onRing (·.push (toEntry b))
  storage (Committer.extend [toPlan b])
  let s ← peek
  onNotes (onBlock · b.height b.body)
  afterWrite
  let tip := s.committer.info.tip
  return ⟨tip.height, tip.hash, (Header.ofRaw b.headerRaw).time.toNat, b.chainwork⟩

/-- The receipt of a reorg, and the note index: the branch is added, and what is above the fork
dropped. -/
def reorgDone (forkHeight : Nat) (apply : List CommitBlock) : SinkOp Chain.TipRef := do
  let s ← peek
  onNotes fun notes ↦ apply.foldl (fun notes b ↦ onBlock notes b.height b.body) notes
  onNotes (rollbackAbove · forkHeight)
  let tip := s.committer.info.tip
  return ⟨tip.height, tip.hash,
    (apply.getLast?.map fun b ↦ (Header.ofRaw b.headerRaw).time.toNat).getD 0,
    (apply.getLast?.map (·.chainwork)).getD 0⟩

/-- `commit_reorg`. -/
def commitReorg (p : ReorgCommit) : SinkOp Chain.TipRef := do
  storage Committer.flush
  onRing fun _ ↦ .empty
  storage (Committer.reorg ⟨reorgFork p, p.rollback, p.apply.map toPlan⟩)
  reorgDone (reorgFork p) p.apply

/-- `commit_deep_reorg`. -/
def commitDeepReorg (p : DeepReorgCommit) : SinkOp Chain.TipRef := do
  storage Committer.flush
  onRing fun _ ↦ .empty
  storage (Committer.deepReorg ⟨deepReorgFork p, p.rewindTo, [], p.apply.map toPlan⟩)
  reorgDone (deepReorgFork p) p.apply

/-- The genesis block of an empty store, as the node writes it when it starts. -/
def start (genesis : BlockToCommit) (c : Committer) : Except StoreError Unit × CommitSink :=
  let o := (do
    Committer.extend [genesis]
    Committer.flush : Op Unit) c
  (o.result, .new o.state)

end CommitSink

end Plaine.Node

import Plaine.Chain.Reorg

/-!
# The store in memory

`mock.rs`: the crate's own `Store` and `Sink`, kept in tables.  What its tests inject (a
commit told to fail, side headers hidden, a tip that lags) and its counters are left out.
-/

namespace Plaine.Chain

open Plaine.Lib Plaine.Consensus

variable [Crypto]

/-- `MemStore`. -/
structure MemStore where
  canonical : List HeaderRec
  chainwork : List Work
  bodies : AList fun _ : Hash32 ↦ Bytes
  side : AList fun _ : Hash32 ↦ HeaderRec
  accounts : AList fun _ : Address ↦ Account
  undo : AList fun _ : Nat ↦ List UndoRec
  snapshots : AList fun _ : Nat ↦ List (Address × Account)
  invalid : List Hash32
  anchorRecord : Option SignedCheckpoint
  undoWindow : Nat
  replayFloor : Nat
  snapshotInterval : Nat

namespace MemStore

/-- `MemStore::with_genesis`, with the work the genesis bits stand for. -/
def withGenesis (rec : HeaderRec) (body : Bytes) (params : ChainParams) : Option MemStore := do
  let target ← expandBits rec.bits params.powLimit
  return {
    canonical := [rec]
    chainwork := [workFromTarget target]
    bodies := AList.insert rec.hash body ∅
    side := ∅
    accounts := ∅
    undo := ∅
    snapshots := ∅
    invalid := []
    anchorRecord := none
    undoWindow := 256
    replayFloor := 0
    snapshotInterval := 0 }

/-- The height of the last canonical block. -/
def tipHeight (s : MemStore) : Nat := s.canonical.length - 1

/-- Keep the undo records of the last `undoWindow` heights. -/
def pruneUndo (s : MemStore) : MemStore :=
  let pruned := s.undo.keys.filter (· ≤ s.tipHeight - s.undoWindow)
  { s with undo := pruned.foldl (fun m h ↦ m.erase h) s.undo }

/-- `MemStore::set_undo_window`. -/
def setUndoWindow (s : MemStore) (n : Nat) : MemStore := { s with undoWindow := n }.pruneUndo

/-- `MemStore::set_snapshot_interval`. -/
def setSnapshotInterval (s : MemStore) (n : Nat) : MemStore := { s with snapshotInterval := n }

/-- `MemStore::evict_side_below`. -/
def evictSideBelow (s : MemStore) (height : Nat) : MemStore :=
  let evicted := s.side.entries.filter (·.2.height < height)
  { s with side := evicted.foldl (fun m e ↦ m.erase e.1) s.side }

/-- The rows of the account table. -/
def rows (s : MemStore) : List (Address × Account) := s.accounts.entries.map fun e ↦ (e.1, e.2)

/-- `MemStore::snapshot_now`. -/
def snapshotNow (s : MemStore) (height : Nat) : MemStore :=
  { s with snapshots := s.snapshots.insert height s.rows }

/-- The loop of `apply_commit` over the deltas. -/
def writeDeltas (accounts : AList fun _ : Address ↦ Account) (deltas : List StateDelta) :
    AList fun _ : Address ↦ Account :=
  deltas.foldl (fun m d ↦ if d.acct.isAbsent then m.erase d.addr else m.insert d.addr d.acct)
    accounts

/-- The loop of `rollback_one` over the undo records. -/
def writeUndo (accounts : AList fun _ : Address ↦ Account) (recs : List UndoRec) :
    AList fun _ : Address ↦ Account :=
  recs.foldl (fun m r ↦
    if !r.existed ∧ r.prev.isAbsent then m.erase r.addr else m.insert r.addr r.prev) accounts

/-- `MemStore::apply_commit`.  A height past the end would be out of bounds in the source. -/
def applyCommit (s : MemStore) (b : CommitBlock) : MemStore :=
  let rec' := HeaderRec.fromRaw b.headerRaw
  let s := { s with
    accounts := writeDeltas s.accounts b.deltas
    undo := s.undo.insert b.height b.undo
    bodies := s.bodies.insert b.hash b.body
    side := s.side.erase b.hash
    canonical := if b.height = s.canonical.length then s.canonical ++ [rec']
      else s.canonical.set b.height rec'
    chainwork := if b.height = s.canonical.length then s.chainwork ++ [b.chainwork]
      else s.chainwork.set b.height b.chainwork }
  let s := if 0 < s.snapshotInterval ∧ b.height % s.snapshotInterval = 0 then
    s.snapshotNow b.height else s
  s.pruneUndo

/-- Take the last canonical block off the chain and keep it as a side header. -/
def popTip (s : MemStore) : MemStore :=
  { s with
    side := match s.canonical.getLast? with
      | some rec => s.side.insert rec.hash rec
      | none => s.side
    canonical := s.canonical.dropLast
    chainwork := s.chainwork.dropLast }

/-- `MemStore::rollback_one`. -/
def rollbackOne (s : MemStore) (height : Nat) : Except SinkError MemStore := do
  let recs ← Except.ofOption (.invalid "undo records pruned for that height")
    (s.undo.lookup height)
  return { s with
    undo := s.undo.erase height
    accounts := writeUndo s.accounts recs }.popTip

/-- The rollback loop of `commit_reorg`: it stops where it fails, with what it has done. -/
def rollbackAll : List Nat → MemStore → Except SinkError Unit × MemStore
  | [], s => (.ok (), s)
  | h :: hs, s =>
    match s.rollbackOne h with
    | .error e => (.error e, s)
    | .ok s => rollbackAll hs s

/-- The loop of `commit_deep_reorg` that takes blocks off down to the snapshot. -/
def popTo (rewindTo : Nat) : Nat → MemStore → MemStore
  | 0, s => s
  | n + 1, s => if rewindTo + 1 < s.canonical.length then popTo rewindTo n s.popTip else s

/-- `Store::side_headers_from`. -/
def sideHeadersFrom (s : MemStore) (fromHeight max : Nat) : List HeaderRec :=
  let v := (s.side.entries.map (·.2)).filter (fromHeight ≤ ·.height)
  (v.insertionSort fun a b ↦
    a.height < b.height ∨ (a.height = b.height ∧ ¬b.hash < a.hash)).take max

/-- `Store::tip`. -/
def tip (s : MemStore) : TipRef :=
  match s.canonical.getLast?, s.chainwork.getLast? with
  | some rec, some work => ⟨s.tipHeight, rec.hash, rec.time, work⟩
  -- There is always a genesis block; the source would panic.
  | _, _ => ⟨0, zeroHash, 0, 0⟩

/-- `Store::checkpoint_at_or_below`. -/
def checkpointAtOrBelow (s : MemStore) (height : Nat) : Option Nat :=
  (s.snapshots.keys.filter (· ≤ height)).max?

instance : Store MemStore where
  tip := tip
  headerAt s height := s.canonical[height]?
  headerByHash s h := (s.canonical.find? (·.hash = h)).or (s.side.lookup h)
  bodyAt s height := s.canonical[height]?.bind fun rec ↦ s.bodies.lookup rec.hash
  bodyByHash s h := s.bodies.lookup h
  account s addr := (s.accounts.lookup addr).getD default
  undoAt s height := s.undo.lookup height
  replayFloor := replayFloor
  checkpointAtOrBelow := checkpointAtOrBelow
  stateSnapshot s height := s.snapshots.lookup height
  isInvalid s h := h ∈ s.invalid
  sideHeadersFrom := sideHeadersFrom

instance : Sink MemStore where
  commitBlock s b := (.ok (), s.applyCommit b)
  commitReorg s p :=
    match rollbackAll p.rollback s with
    | (.error e, s) => (.error e, s)
    | (.ok (), s) => (.ok (), p.apply.foldl applyCommit s)
  commitDeepReorg s p :=
    match s.snapshots.lookup p.rewindTo with
    | none => (.error (.invalid "no state snapshot at rewind_to"), s)
    | some rows =>
      let s := { s with accounts := rows.foldl (fun m row ↦ m.insert row.1 row.2) ∅ }
      let s := popTo p.rewindTo s.canonical.length s
      let above := s.undo.keys.filter (p.rewindTo < ·)
      let s := { s with undo := above.foldl (fun m h ↦ m.erase h) s.undo }
      (.ok (), p.apply.foldl applyCommit s)
  storeSideHeader s rec _ := (.ok (), { s with side := s.side.insert rec.hash rec })
  markInvalid s h := (.ok (), { s with invalid := h :: s.invalid })
  putAnchor s cp := (.ok (), { s with anchorRecord := some cp })

end MemStore

end Plaine.Chain

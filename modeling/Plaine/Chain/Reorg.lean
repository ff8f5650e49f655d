import Plaine.Chain.Body
import Plaine.Chain.Types

/-!
# Rewinding and validating a branch

`reorg.rs`.  `rewindToFork` takes an overlay over the tip state back to the fork, by undo
records when the store still holds them all, else from a state snapshot and a replay of the
blocks above it.  `validateBranch` then connects a branch block after block.
-/

namespace Plaine.Chain

open Plaine.Lib Plaine.Consensus

/-- `Base`. -/
inductive Base where
  | undoWindow
  | deepReplay (rewindTo : Nat)
deriving DecidableEq

variable [Crypto]

/-- The commit record of a validated block. -/
def commitBlockOf (r : HeaderRec) (height : Nat) (raw : Bytes) (v : ValidatedBlock)
    (chainwork : Work) : CommitBlock where
  headerRaw := r.raw
  hash := r.hash
  height := height
  body := raw
  deltas := v.deltas
  undo := v.undo
  issuedDelta := v.issuedDelta
  chainwork := chainwork
  txids := v.txids

/-- The coinbase of a stored body, when it has one that decodes. -/
def coinbaseOf (raw : Bytes) : Option CoinbaseTx :=
  match BlockBody.parse raw with
  | .error _ => none
  | .ok body =>
    match body.records.head?.map decodeTx with
    | some (.ok (.coinbase cb)) => some cb
    | _ => none

/-- One round of `build_ledger`, on the body read at height `h`. -/
def pushCoinbase (bodyAt : Nat → Option Bytes) (ledger : CoinbaseLedger) (h : Nat) :
    Except Reject CoinbaseLedger :=
  match (bodyAt h).bind coinbaseOf with
  | none => .ok ledger
  | some cb => do
    let credit ← (coinbaseCredit cb).mapError fun _ ↦ .arithmeticOverflow
    return ledger.push h cb.toAddr credit

/-- The heights `build_ledger` reads: the last maturity window up to `height`. -/
def ledgerWindow (height : Nat) : List Nat :=
  let start := height - (coinbaseMaturity - 1)
  List.range' start (height + 1 - start)

/-- The loop of `build_ledger`, over what `body_at` returns. -/
def ledgerFrom (bodyAt : Nat → Option Bytes) (height : Nat) : Except Reject CoinbaseLedger :=
  (ledgerWindow height).foldlM (pushCoinbase bodyAt) .new

variable {σ : Type} [Store σ]

/-- `build_ledger`. -/
def buildLedger (s : σ) (height : Nat) : Except Reject CoinbaseLedger :=
  ledgerFrom (Store.bodyAt s) height

/-- The heights from just above `lo` to `hi`. -/
def heightsAbove (lo hi : Nat) : List Nat := List.range' (lo + 1) (hi - lo)

/-- One round of the replay loop of `rewind_to_fork`. -/
def replayBlock (s : σ) (forkHeight : Nat) (params : ChainParams) (chainworkAt : Nat → Work)
    (acc : Overlay × List CommitBlock) (h : Nat) : Except Reject (Overlay × List CommitBlock) := do
  let resync := Reject.resyncRequired forkHeight (Store.replayFloor s)
  let raw ← Except.ofOption resync (Store.bodyAt s h)
  let r ← Except.ofOption resync (Store.headerAt s h)
  let (v, overlay, _) ←
    (validateBlockBody acc.1 .new r.header raw params .ourStore).mapError
      fun e ↦ .branchInvalid h r.hash e
  return (overlay, acc.2 ++ [commitBlockOf r h raw v (chainworkAt h)])

/-- The deep path of `rewind_to_fork`. -/
def deepRewind (s : σ) (overlay : Overlay) (forkHeight : Nat) (params : ChainParams)
    (chainworkAt : Nat → Work) : Except Reject (Nat × Overlay × List CommitBlock) := do
  let resync := Reject.resyncRequired forkHeight (Store.replayFloor s)
  let rewindTo ← Except.ofOption resync (Store.checkpointAtOrBelow s forkHeight)
  Except.require (Store.replayFloor s ≤ rewindTo) resync
  let snapshot ← Except.ofOption resync (Store.stateSnapshot s rewindTo)
  let (overlay, replayed) ← (heightsAbove rewindTo forkHeight).foldlM
    (replayBlock s forkHeight params chainworkAt) (overlay.seed snapshot, [])
  return (rewindTo, overlay, replayed)

/-- Whether the store holds every undo record above the fork. -/
def haveAllUndo (s : σ) (tipHeight forkHeight : Nat) : Bool :=
  (heightsAbove forkHeight tipHeight).all fun h ↦ (Store.undoAt s h).isSome

/-- The undo path of `rewind_to_fork`, from the tip down. -/
def undoRewind (s : σ) (overlay : Overlay) (tipHeight forkHeight : Nat) : Overlay :=
  (heightsAbove forkHeight tipHeight).reverse.foldl
    (fun o h ↦ o.applyUndo ((Store.undoAt s h).getD [])) overlay

/-- `rewind_to_fork`: the base taken, the overlay at the fork, the coinbase ledger there and
the blocks replayed on the way. -/
def rewindToFork (s : σ) (overlay : Overlay) (tipHeight forkHeight : Nat) (params : ChainParams)
    (chainworkAt : Nat → Work) :
    Except Reject (Base × Overlay × CoinbaseLedger × List CommitBlock) := do
  if haveAllUndo s tipHeight forkHeight then
    let ledger ← buildLedger s forkHeight
    return (.undoWindow, undoRewind s overlay tipHeight forkHeight, ledger, [])
  else
    let (rewindTo, overlay, replayed) ← deepRewind s overlay forkHeight params chainworkAt
    let ledger ← buildLedger s forkHeight
    return (.deepReplay rewindTo, overlay, ledger, replayed)

/-- `validate_branch`, from position `i` of the branch on: the commits, the nonces spent, and
the overlay and ledger left behind. -/
def validateBranch (params : ChainParams) (chainworkOf : Nat → Work) :
    Nat → List (HeaderRec × Bytes) → Overlay → CoinbaseLedger →
      Except Reject (List CommitBlock × List (Address × Nat) × Overlay × CoinbaseLedger)
  | _, [], o, l => .ok ([], [], o, l)
  | i, (r, raw) :: branch, o, l => do
    let (v, o, l) ← (validateBlockBody o l r.header raw params .untrusted).mapError
      fun e ↦ .branchInvalid r.height r.hash e
    let (out, spent, o, l) ← validateBranch params chainworkOf (i + 1) branch o l
    return (commitBlockOf r r.height raw v (chainworkOf i) :: out, v.spentNonces ++ spent, o, l)

omit σ [Store σ] in
/-- A validated branch is a validated first block and a validated rest. -/
theorem validateBranch_cons_eq_ok {params : ChainParams} {work : Nat → Work} {i : Nat}
    {r : HeaderRec} {raw : Bytes} {branch : List (HeaderRec × Bytes)} {o o'' : Overlay}
    {l l'' : CoinbaseLedger} {out : List CommitBlock} {spent : List (Address × Nat)} :
    validateBranch params work i ((r, raw) :: branch) o l = .ok (out, spent, o'', l'') ↔
      ∃ v o' l' out' spent',
        validateBlockBody o l r.header raw params .untrusted = .ok (v, o', l') ∧
        validateBranch params work (i + 1) branch o' l' = .ok (out', spent', o'', l'') ∧
        out = commitBlockOf r r.height raw v (work i) :: out' ∧
        spent = v.spentNonces ++ spent' := by
  simp only [validateBranch, Except.bind_eq_ok, Except.mapError_eq_ok, Prod.exists]
  constructor
  · rintro ⟨v, o', l', hv, out', spent', o₂, l₂, hb, h⟩
    cases h
    exact ⟨v, o', l', out', spent', hv, hb, rfl, rfl⟩
  · rintro ⟨v, o', l', out', spent', hv, hb, rfl, rfl⟩
    exact ⟨v, o', l', hv, out', spent', o'', l'', hb, rfl⟩

end Plaine.Chain

import Plaine.Consensus.Crypto
import Plaine.Lib.Checked
import Plaine.Lib.Result
import Mathlib.Data.List.Sort

/-!
# Consensus predicates

`rules.rs`: work, checkpoints, the reorg predicate, block time and maturity.  Work is a
number below `2 ^ 512` and a target one below `2 ^ 256`; `None` of the source's checked
operations, and any `expect` on it, is `none` here.
-/

namespace Plaine.Consensus

open Plaine.Lib

/-- `RuleError`. -/
inductive RuleError where
  | emptyCandidate
  | badForkPoint
  | nonContiguousCandidate
  | reorgTooDeep (depth cap : Nat)
  | checkpointShorteningAttack (height : Nat)
  | checkpointMismatch (height : Nat)
  | insufficientWork (depth : Nat)
  | timestampTooOld (mtp time : Nat)
  | timestampTooFarInFuture (time limit : Nat)
deriving DecidableEq

/-! ## Work -/

/-- `Work`. -/
abbrev Work := Nat

def workMax : Nat := 2 ^ 512 - 1

/-- `Work::checked_add`. -/
def Work.add (a b : Work) : Option Work := checkedAdd workMax a b

/-- `work_from_target`: the expected number of hashes to get below the target. -/
def workFromTarget (target : Nat) : Work := 2 ^ 256 / (target + 1)

/-- A target of 256 bits stands for at least one hash. -/
theorem workFromTarget_pos {target : Nat} (h : target < 2 ^ 256) : 0 < workFromTarget target :=
  Nat.div_pos (by omega) (Nat.succ_pos _)

/-! ## The chain a predicate reads -/

/-- `HeaderInfo`. -/
structure HeaderInfo where
  height : Nat
  hash : Hash32
  time : Nat
  target : Nat
deriving DecidableEq

/-- `ChainView`, the methods the predicates call. -/
structure ChainView where
  len : Nat
  headerAt : Nat → Option HeaderInfo
  cumulativeWork : Work

/-- `ChainView::tip`. -/
def ChainView.tip (view : ChainView) : Option HeaderInfo := view.headerAt (view.len - 1)

/-! ## Anchors and checkpoints -/

/-- `Anchor`. -/
structure Anchor where
  height : Nat
  hash : Hash32
deriving DecidableEq

/-- `ZERO_HASH`. -/
def zeroHash : Hash32 := Arr.zero 32

/-- `candidate_meets_anchor`. -/
def candidateMeetsAnchor (anchor : Anchor) (startHeight : Nat) (candidate : List HeaderInfo) :
    Bool :=
  anchor.height ≠ 0 ∧ anchor.hash ≠ zeroHash ∧ startHeight ≤ anchor.height ∧
    (candidate[anchor.height - startHeight]?).map (·.hash) = some anchor.hash

/-- `anchor_supersedes`. -/
def anchorSupersedes (current : Option Anchor) (candidate : Anchor) : Bool :=
  candidate.height ≠ 0 ∧ candidate.hash ≠ zeroHash ∧
    current.all fun cur ↦ cur.height < candidate.height

/-- `CheckpointSig`. -/
structure CheckpointSig where
  pubkey : Arr 32
  sig : Arr 64
deriving DecidableEq

/-- `SignedCheckpoint`. -/
structure SignedCheckpoint where
  height : Nat
  hash : Hash32
  sigs : List CheckpointSig
deriving DecidableEq

/-- The ASCII digits of a byte's two hexadecimal figures, `hex::encode`. -/
def hexByte (b : UInt8) : Bytes :=
  let digit (n : UInt8) : UInt8 := if n < 10 then 0x30 + n else 0x57 + n
  [digit (b / 16), digit (b % 16)]

/-- The ASCII digits of a decimal numeral. -/
def decimal (n : Nat) : Bytes :=
  (Nat.toDigits 10 n).map fun c ↦ UInt8.ofNat c.toNat

/-- `checkpoint_message`. -/
def checkpointMessage (height : Nat) (hash : Hash32) : Bytes :=
  checkpointMsgPrefix ++ decimal height ++ [0x7C] ++ hash.bytes.flatMap hexByte

section

variable [Crypto]

/-- The signature loop of `verify_checkpoint`: `tried` holds the keys already seen, `valid`
counts the votes found. -/
def countVotes (authorityKeys : List (Arr 32)) (threshold : Nat) (msg : Bytes) :
    List (Arr 32) → Nat → List CheckpointSig → Bool
  | _, _, [] => false
  | tried, valid, s :: sigs =>
    if s.pubkey ∉ authorityKeys ∨ s.pubkey ∈ tried then
      countVotes authorityKeys threshold msg tried valid sigs
    else if Crypto.validKey s.pubkey ∧ Crypto.verifyStrict s.pubkey msg s.sig then
      if threshold ≤ valid + 1 then true
      else countVotes authorityKeys threshold msg (s.pubkey :: tried) (valid + 1) sigs
    else countVotes authorityKeys threshold msg (s.pubkey :: tried) valid sigs

/-- `verify_checkpoint`. -/
def verifyCheckpoint (cp : SignedCheckpoint) (authorityKeys : List (Arr 32))
    (threshold : Nat) : Bool :=
  if authorityKeys = [] ∨ threshold = 0 ∨ authorityKeys.length < threshold then false
  else if authorityKeys.length < cp.sigs.length then false
  else if cp.hash = zeroHash then false
  else if checkpointSunsetHeight ≤ cp.height then false
  else countVotes authorityKeys threshold (checkpointMessage cp.height cp.hash) [] 0 cp.sigs

end

/-- `check_block_checkpoint`. -/
def checkBlockCheckpoint (checkpoints : List (Nat × Hash32)) (height : Nat) (hash : Hash32) :
    Except RuleError Unit :=
  Except.require (¬∃ cp ∈ checkpoints, cp.1 = height ∧ cp.2 ≠ hash) (.checkpointMismatch height)

/-- `CheckpointAdmission`. -/
inductive CheckpointAdmission where
  | admits
  | genesisImmutable
  | notHeldYet
  | hashConflict
deriving DecidableEq

/-- `checkpoint_admission`. -/
def checkpointAdmission (view : ChainView) (height : Nat) (hash : Hash32) :
    Option CheckpointAdmission :=
  if height = 0 then some .genesisImmutable
  else if view.len ≤ height then some .notHeldYet
  else do
    let held ← view.headerAt height
    return if held.hash = hash then .admits else .hashConflict

/-! ## The reorg predicate -/

/-- `tie_break_prefers_candidate`. -/
def tieBreakPrefersCandidate (depth : Nat) (candWork ourWork : Work)
    (candTip ourTip : HeaderInfo) : Bool :=
  depth = 1 ∧ candWork = ourWork ∧ candTip.height = ourTip.height ∧ candTip.hash < ourTip.hash

/-- `ReorgVerdict`. -/
inductive ReorgVerdict where
  | strictlyMoreWork
  | tieBreak
deriving DecidableEq

/-- `ReorgParams`. -/
structure ReorgParams where
  anchor : Option Anchor
  checkpoints : List (Nat × Hash32)
deriving DecidableEq

/-- The first height of `checkpoints` that `bad` picks, refused with `e`. -/
def refuseFirst (bad : Nat × Hash32 → Bool) (e : Nat → RuleError)
    (checkpoints : List (Nat × Hash32)) : Except RuleError Unit :=
  match checkpoints.find? bad with
  | none => .ok ()
  | some cp => .error (e cp.1)

theorem refuseFirst_eq_ok {bad : Nat × Hash32 → Bool} {e : Nat → RuleError}
    {checkpoints : List (Nat × Hash32)} {u : Unit} :
    refuseFirst bad e checkpoints = .ok u ↔ ∀ cp ∈ checkpoints, bad cp = false := by
  unfold refuseFirst
  cases h : checkpoints.find? bad with
  | none => simpa using h
  | some cp =>
    have := List.find?_some h
    have := List.mem_of_find?_eq_some h
    simp only [reduceCtorEq, false_iff, not_forall]
    exact ⟨cp, by assumption, by simp [*]⟩

/-- The checks of `evaluate_reorg_with_cap` on the shape of the candidate. -/
def reorgShape (view : ChainView) (startHeight : Nat) (candidate : List HeaderInfo) :
    Except RuleError Unit := do
  Except.require (candidate ≠ []) .emptyCandidate
  Except.require (startHeight ≠ 0 ∧ startHeight ≤ view.len) .badForkPoint
  Except.require (candidate.map (·.height) = List.range' startHeight candidate.length)
    .nonContiguousCandidate

/-- The checks of `evaluate_reorg_with_cap` on depth and checkpoints. -/
def reorgGuards (view : ChainView) (startHeight : Nat) (candidate : List HeaderInfo)
    (params : ReorgParams) (cap : Nat) : Except RuleError Unit := do
  let depth := view.len - startHeight
  -- Past the cap only a candidate that carries the last signed anchor is let through.
  Except.require (cap = 0 ∨ depth ≤ cap ∨
    params.anchor.any (candidateMeetsAnchor · startHeight candidate)) (.reorgTooDeep depth cap)
  let ourTipH := view.len - 1
  let newTipH := startHeight + candidate.length - 1
  refuseFirst (fun cp ↦ startHeight ≤ cp.1 ∧ cp.1 ≤ ourTipH ∧ newTipH < cp.1)
    .checkpointShorteningAttack params.checkpoints
  refuseFirst (fun cp ↦ startHeight ≤ cp.1 ∧ cp.1 ≤ newTipH ∧
    (candidate[cp.1 - startHeight]?).map (·.hash) ≠ some cp.2)
    .checkpointMismatch params.checkpoints

/-- The work loop of `evaluate_reorg_with_cap`. -/
def sumWork (targets : List Nat) : Option Work :=
  targets.foldlM (fun sum target ↦ Work.add sum (workFromTarget target)) 0

/-- The candidate's cumulative work: ours, less the discarded blocks, plus the added ones. -/
def candidateWork (view : ChainView) (startHeight : Nat) (candidate : List HeaderInfo) :
    Option Work := do
  let ours ← (List.range' startHeight (view.len - startHeight)).mapM view.headerAt
  let discarded ← sumWork (ours.map (·.target))
  let added ← sumWork (candidate.map (·.target))
  let kept ← checkedSub view.cumulativeWork discarded
  Work.add kept added

/-- `evaluate_reorg_with_cap`.  The outer `none` is a failed `expect`. -/
def evaluateReorgWithCap (view : ChainView) (startHeight : Nat) (candidate : List HeaderInfo)
    (params : ReorgParams) (cap : Nat) : Option (Except RuleError ReorgVerdict) :=
  match reorgShape view startHeight candidate with
  | .error e => some (.error e)
  | .ok () => do
    let ourTip ← view.tip
    match reorgGuards view startHeight candidate params cap with
    | .error e => return .error e
    | .ok () =>
      let candWork ← candidateWork view startHeight candidate
      let candTip ← candidate.getLast?
      let depth := view.len - startHeight
      return if view.cumulativeWork < candWork then .ok .strictlyMoreWork
        else if tieBreakPrefersCandidate depth candWork view.cumulativeWork candTip ourTip then
          .ok .tieBreak
        else .error (.insufficientWork depth)

/-! ## Time and maturity -/

/-- `median_time_past`. -/
def medianTimePast (times : List Nat) : Nat :=
  let window := times.drop (times.length - medianTimeSpan)
  (window.insertionSort (· ≤ ·)).getD (window.length / 2) 0

/-- `check_block_time`. -/
def checkBlockTime (mtp time localTime : Nat) : Except RuleError Unit := do
  Except.require (mtp < time) (.timestampTooOld mtp time)
  let limit := saturatingAdd u64Max localTime maxFutureDriftSecs
  Except.require (time ≤ limit) (.timestampTooFarInFuture time limit)

/-- `coinbase_is_mature`. -/
def coinbaseIsMature (coinbaseHeight spendHeight : Nat) : Bool :=
  coinbaseHeight ≤ spendHeight ∧ coinbaseMaturity ≤ spendHeight - coinbaseHeight

theorem coinbaseIsMature_eq_false {h n : Nat} :
    coinbaseIsMature h n = false ↔ n < h + coinbaseMaturity := by
  rw [coinbaseIsMature, decide_eq_false_iff_not]
  unfold coinbaseMaturity
  omega

/-- `spendable_balance`. -/
def spendableBalance (balance immature : Nat) : Nat := balance - immature

end Plaine.Consensus

import Plaine.Consensus.Asert
import Plaine.Consensus.Rules
import Plaine.Consensus.Tx

/-!
# Types and traits of the chain crate

`types.rs` and the refusals of `error.rs`.  Balances, nonces, heights, times and work are
natural numbers; every place where the source's integers could leave their range is an
explicit check in the function concerned.

`traits.rs`: what the chain crate asks of the store it reads and of the sink it writes to.
One state `σ` stands behind both.  A write returns the state it leaves, also when it
refuses.  Methods no modelled function calls are left out.
-/

namespace Plaine.Chain

open Plaine.Lib Plaine.Consensus

/-- `SourceId`. -/
abbrev SourceId := Nat

/-- `TipRef`. -/
structure TipRef where
  height : Nat
  hash : Hash32
  time : Nat
  chainwork : Work
deriving DecidableEq

section

variable [Crypto]

/-- `HeaderRec`: a header's bytes with their hash.  The source also caches the decoded
fields, which are read off the bytes here; the field `hash_eq` is what `from_raw`
guarantees. -/
structure HeaderRec where
  raw : RawHeader
  hash : Hash32
  hash_eq : hash = headerHash raw
deriving DecidableEq

namespace HeaderRec

/-- `HeaderRec::from_raw`. -/
def fromRaw (raw : RawHeader) : HeaderRec := ⟨raw, headerHash raw, rfl⟩

/-- `HeaderRec::header`. -/
def header (r : HeaderRec) : Header := Header.ofRaw r.raw

def height (r : HeaderRec) : Nat := r.header.height.toNat

def prevHash (r : HeaderRec) : Hash32 := r.header.prevHash

def time (r : HeaderRec) : Nat := r.header.time.toNat

def bits (r : HeaderRec) : UInt32 := r.header.bits

@[simp] theorem fromRaw_raw (r : HeaderRec) : fromRaw r.raw = r := by
  obtain ⟨raw, hash, rfl⟩ := r
  rfl

@[ext] theorem ext {r r' : HeaderRec} (h : r.raw = r'.raw) : r = r' := by
  rw [← fromRaw_raw r, ← fromRaw_raw r', h]

end HeaderRec

end

/-- `UndoRec`: what an account was before a block first wrote to it. -/
structure UndoRec where
  addr : Address
  prevBalance : Nat
  prevNonce : Nat
  existed : Bool
deriving DecidableEq

/-- The account an undo record restores. -/
def UndoRec.prev (r : UndoRec) : Account := ⟨r.prevBalance, r.prevNonce⟩

/-- `StateDelta`. -/
structure StateDelta where
  addr : Address
  balance : Nat
  nonce : Nat
deriving DecidableEq

/-- The account a delta writes. -/
def StateDelta.acct (d : StateDelta) : Account := ⟨d.balance, d.nonce⟩

/-- `CommitBlock`. -/
structure CommitBlock where
  headerRaw : RawHeader
  hash : Hash32
  height : Nat
  body : Bytes
  deltas : List StateDelta
  undo : List UndoRec
  issuedDelta : Nat
  chainwork : Work
  txids : List Hash32
deriving DecidableEq

/-- `ReorgCommit`. -/
structure ReorgCommit where
  rollback : List Nat
  apply : List CommitBlock
deriving DecidableEq

/-- `DeepReorgCommit`. -/
structure DeepReorgCommit where
  rewindTo : Nat
  apply : List CommitBlock
deriving DecidableEq

/-- `Trust`. -/
inductive Trust where
  | ourStore
  | untrusted
deriving DecidableEq

/-- `Reject`. -/
inductive Reject where
  | badHeaderLength (got : Nat)
  | extRootNotZero
  | authorNoteLen (got : Nat)
  | badVersion (got : Nat)
  | badBits (got : UInt32)
  | checkpointMismatch (height : Nat)
  | unknownParent (prev : Hash32)
  | heightNotParentPlusOne (got expected : Nat)
  | bitsNotAsert (got expected : UInt32)
  | asertAnchorUnavailable (height : Nat)
  | timestampTooOld (mtp time : Nat)
  | timestampTooFarInFuture (time limit : Nat)
  | forkTooDeep (depth cap : Nat)
  | insufficientClaimedWork
  | powInvalid (hash : Hash32)
  | budgetExhausted (source : SourceId)
  | duplicateFlood (source : SourceId) (count : Nat)
  | stagingFull (source : SourceId)
  | batchTooLong (got cap : Nat)
  | tooManySources (source : SourceId) (cap : Nat)
  | bodyNotAdmissible (hash : Hash32)
  | bodyAlreadyHeld (hash : Hash32)
  | bodyStructure (detail : String)
  | txRootMismatch
  | tx (index : Nat) (err : TxError)
  | badTransferSignature (index : Nat)
  | feeBelowFloor (index : Nat)
  | badNonce (index expected got : Nat)
  | insufficientBalance (index need have' : Nat)
  | arithmeticOverflow
  | rule (err : RuleError)
  | branchInvalid (height : Nat) (hash : Hash32) (cause : Reject)
  | resyncRequired (forkHeight replayFloor : Nat)
  | busy
  | sinkRefused (detail : String)
  | halted (detail : String)
  | bootInvariant (detail : String)
  | txKnown
  | txStale (next got : Nat)
  | nonceGapTooLarge (next got : Nat)
  | txTypeNotRelayable (typeByte : UInt8)
  | belowRelayFloor (fee floor : Nat)
  | replacementUnderpriced (need got : Nat)
  | poolFull
  | senderCap (cap : Nat)
  | txDecode
  | txTooLarge (got : Nat)
deriving DecidableEq

/-- `Permanence`. -/
inductive Permanence where
  | permanent
  | transient
deriving DecidableEq

namespace Reject

/-- `Reject::permanence`: permanent only for verdicts a header can never satisfy. -/
def permanence : Reject → Permanence
  | badHeaderLength _ | extRootNotZero | authorNoteLen _ | badVersion _ | badBits _
  | checkpointMismatch _ | heightNotParentPlusOne _ _ | bitsNotAsert _ _ | timestampTooOld _ _
  | powInvalid _ => .permanent
  | _ => .transient

/-- `Reject::why`. -/
def why : Reject → String
  | badHeaderLength _ => "header is not 132 bytes"
  | extRootNotZero => "ext_root is not zero"
  | authorNoteLen _ => "author_note_len out of range"
  | badVersion _ => "version bits are not 001"
  | badBits _ => "bits do not expand to a legal target"
  | checkpointMismatch _ => "checkpoint mismatch at this height"
  | unknownParent _ => "the chain does not hold the parent"
  | heightNotParentPlusOne _ _ => "height is not parent + 1"
  | bitsNotAsert _ _ => "bits are not ASERT(parent)"
  | asertAnchorUnavailable _ => "the ASERT anchor is unreachable"
  | timestampTooOld _ _ => "timestamp at or below the median time past"
  | timestampTooFarInFuture _ _ => "timestamp too far in the future"
  | forkTooDeep _ _ => "the branch forks deeper than the reorg cap"
  | insufficientClaimedWork => "the branch claims no more work than our tip"
  | powInvalid _ => "proof of work is invalid"
  | budgetExhausted _ => "this source has spent its ingest budget"
  | duplicateFlood _ _ => "this source is replaying known headers"
  | stagingFull _ => "this source's staging buffer is full"
  | batchTooLong _ _ => "the batch is longer than MAX_HEADERS_PER_MSG"
  | tooManySources _ _ => "the per-source table is full"
  | bodyNotAdmissible _ => "no PoW-verified header for this body"
  | bodyAlreadyHeld _ => "this body is already held"
  | bodyStructure _ => "the body does not parse"
  | txRootMismatch => "the body's merkle root is not the header's tx_root"
  | tx _ _ => "a transaction rule failed"
  | badTransferSignature _ => "a transfer signature failed"
  | feeBelowFloor _ => "a fee is below the consensus floor"
  | badNonce _ _ _ => "a transaction nonce is wrong"
  | insufficientBalance _ _ _ => "a sender cannot cover the outlay"
  | arithmeticOverflow => "arithmetic overflow"
  | rule _ => "the authoritative predicate refused the branch"
  | branchInvalid _ _ _ => "a candidate block failed body validation"
  | resyncRequired _ _ => "the fork point is below the replay floor"
  | busy => "storage is busy"
  | sinkRefused _ => "storage refused the write"
  | halted _ => "the manager is halted"
  | bootInvariant _ => "a boot invariant failed"
  | txKnown => "already in the pool"
  | txStale _ _ => "nonce below the sender's next"
  | nonceGapTooLarge _ _ => "nonce gap too large"
  | txTypeNotRelayable _ => "this transaction type is never relayed"
  | belowRelayFloor _ _ => "below the operator relay floor"
  | replacementUnderpriced _ _ => "replacement underpriced"
  | poolFull => "the mempool is full"
  | senderCap _ => "this sender holds the per-sender cap"
  | txDecode => "the transaction does not decode"
  | txTooLarge _ => "the transaction is too large"

end Reject

/-! ## Parameters -/

/-- `TX_COST_MILLI`. -/
def txCostMilli : Nat := 1000

/-- `MempoolParams`. -/
structure MempoolParams where
  maxTxs : Nat
  maxBytes : Nat
  maxNonceGap : Nat
  maxTxsPerSender : Nat
  ttlSecs : Nat
  relayFeeFloor : Nat
  ingressPerSource : Nat
  ingressGlobal : Nat
  reorgReinjectCap : Nat
deriving DecidableEq

/-- `saturating_mul` on `u64`. -/
def saturatingMul (a b : Nat) : Nat := min (a * b) u64Max

namespace MempoolParams

variable (p : MempoolParams)

/-- `MempoolParams::effective_per_sender`. -/
def effectivePerSender : Nat := min (p.maxNonceGap + 1) p.maxTxsPerSender

/-- `MempoolParams::ingress_source_rate_milli`. -/
def ingressSourceRateMilli : Nat := saturatingMul p.ingressPerSource txCostMilli

/-- `MempoolParams::ingress_source_burst_milli`. -/
def ingressSourceBurstMilli : Nat := p.ingressSourceRateMilli

/-- `MempoolParams::ingress_shared_rate_milli`. -/
def ingressSharedRateMilli : Nat := saturatingMul p.ingressGlobal txCostMilli / 2

/-- `MempoolParams::ingress_shared_burst_milli`. -/
def ingressSharedBurstMilli : Nat := p.ingressSharedRateMilli

/-- `MempoolParams::ingress_reserve_rate_milli`. -/
def ingressReserveRateMilli (maxPeers : Nat) : Nat := p.ingressSharedRateMilli / max maxPeers 1

/-- `MempoolParams::ingress_reserve_burst_milli`. -/
def ingressReserveBurstMilli (_ : MempoolParams) : Nat := 2 * txCostMilli

end MempoolParams

/-- `Profile`. -/
inductive Profile where
  | real
  | regtest
deriving DecidableEq

/-- `ChainParams`, the fields the modelled functions read. -/
structure ChainParams where
  profile : Profile
  network : Network
  powLimit : Nat
  asertAnchorInterval : Nat
  authorPubkey : Arr 32
  authorityKeys : List (Arr 32)
  checkpointThreshold : Nat
  maxReorgDepth : Nat
  powBudgetMicros : Nat
  powBudgetWindowMs : Nat
  powBudgetBurstMicros : Nat
  maxDuplicatesPerBatch : Nat
  duplicateWindowSecs : Nat
  maxPeers : Nat
  cpuPoolThreads : Nat
  childPowFailuresPerSource : Nat
  childQuotaWindowSecs : Nat
  maxSources : Nat
  maxSideHeaders : Nat
  maxStagedHeaders : Nat
  negativeCacheEntries : Nat
  mempool : MempoolParams
deriving DecidableEq

namespace ChainParams

variable (p : ChainParams)

/-- `ChainParams::default_pow_limit`. -/
def defaultPowLimit : Nat := 2 ^ 240 - 1

/-- `ChainParams::regtest_pow_limit`, the target of `0x207FFFFF`. -/
def regtestPowLimit : Nat := 0x7FFFFF * 2 ^ 232

/-- `ChainParams::profile_is_consistent`. -/
def profileIsConsistent : Bool :=
  match p.profile with
  | .real => p.powLimit = defaultPowLimit
  | .regtest => p.powLimit = regtestPowLimit

/-- `ChainParams::class_rate_micros_per_sec`. -/
def classRateMicrosPerSec : Nat := saturatingMul 250000 p.cpuPoolThreads

/-- `ChainParams::class_shared_rate_micros_per_sec`. -/
def classSharedRateMicrosPerSec : Nat := p.classRateMicrosPerSec / 2

/-- `ChainParams::class_shared_burst_micros`. -/
def classSharedBurstMicros : Nat := p.classSharedRateMicrosPerSec

/-- `ChainParams::class_reserve_rate_micros_per_sec`. -/
def classReserveRateMicrosPerSec : Nat := p.classSharedRateMicrosPerSec / max p.maxPeers 1

/-- `ChainParams::class_reserve_burst_micros`. -/
def classReserveBurstMicros (_ : ChainParams) (costMicros : Nat) : Nat :=
  saturatingMul costMicros 2

/-- `ChainParams::class_reserve_is_survivable`. -/
def classReserveIsSurvivable (costMicros : Nat) : Bool :=
  costMicros ≤ saturatingMul p.classReserveRateMicrosPerSec 30

/-- `ChainParams::class_aggregate_rate_micros_per_sec`. -/
def classAggregateRateMicrosPerSec : Nat :=
  saturatingAdd u64Max p.classSharedRateMicrosPerSec
    (saturatingMul p.classReserveRateMicrosPerSec p.maxSources)

end ChainParams

/-! ## Requests and reports -/

/-- `TxOrigin`. -/
inductive TxOrigin where
  | local
  | peer (source : SourceId)
deriving DecidableEq

/-- `Solicitation`. -/
inductive Solicitation where
  | unsolicited
  | solicitedIbd
  | solicitedSteady
deriving DecidableEq

/-- `Solicitation::charges_budget`. -/
def Solicitation.chargesBudget : Solicitation → Bool
  | .solicitedIbd => false
  | _ => true

/-- `Solicitation::charges_child_quota`. -/
def Solicitation.chargesChildQuota : Solicitation → Bool
  | .unsolicited => true
  | _ => false

/-- `Rejection`. -/
structure Rejection where
  hash : Hash32
  height : Nat
  repairFrom : Nat
  why : String
deriving DecidableEq

/-- `Held`. -/
structure Held where
  hash : Hash32
  height : Nat
deriving DecidableEq

/-- `Accepted`, the report of a header batch. -/
structure Accepted where
  connected : Nat
  duplicates : Nat
  rejected : Nat
  staged : Nat
  verifiedHeight : Nat
  firstRejection : Option Rejection
  firstHeld : Option Held
deriving DecidableEq

/-- `Progress`. -/
inductive Progress where
  | noChange
  | needBodies (hashes : List Hash32)
  | advanced (tip : TipRef) (rolledBack applied : Nat)
deriving DecidableEq

/-! ## The traits of storage -/

/-- `SinkError`. -/
inductive SinkError where
  | full
  | invalid (detail : String)
  | fatal (detail : String)
deriving DecidableEq

section

variable [Crypto]

/-- `Store`. -/
class Store (σ : Type) where
  tip : σ → TipRef
  headerAt : σ → Nat → Option HeaderRec
  headerByHash : σ → Hash32 → Option HeaderRec
  bodyAt : σ → Nat → Option Bytes
  bodyByHash : σ → Hash32 → Option Bytes
  account : σ → Address → Account
  undoAt : σ → Nat → Option (List UndoRec)
  replayFloor : σ → Nat
  checkpointAtOrBelow : σ → Nat → Option Nat
  stateSnapshot : σ → Nat → Option (List (Address × Account))
  isInvalid : σ → Hash32 → Bool
  sideHeadersFrom : σ → Nat → Nat → List HeaderRec

/-- `Sink`. -/
class Sink (σ : Type) where
  commitBlock : σ → CommitBlock → Except SinkError Unit × σ
  commitReorg : σ → ReorgCommit → Except SinkError Unit × σ
  commitDeepReorg : σ → DeepReorgCommit → Except SinkError Unit × σ
  storeSideHeader : σ → HeaderRec → Work → Except SinkError Unit × σ
  markInvalid : σ → Hash32 → Except SinkError Unit × σ
  putAnchor : σ → SignedCheckpoint → Except SinkError Unit × σ

end

end Plaine.Chain

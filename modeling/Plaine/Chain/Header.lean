import Plaine.Chain.Index
import Plaine.Chain.Types
import Plaine.Consensus.Asert

/-!
# Header intake

`gates.rs`, the checks a header passes before it is staged and the claim of work a staged run passes
before any proof of work is verified, and `header.rs`.  Each source has a staging area; a header that
passes the gates is staged there, and a run of staged headers that claims enough work is promoted into
the arena, its proofs of work checked one by one at the cost of the source's budget.

What is only reported to the observer is left out.
-/

namespace Plaine.Chain

open Plaine.Lib Plaine.Consensus

/-! ## The gates -/

/-- `s1_fixed_fields`.  The length is the type's. -/
def s1FixedFields (raw : RawHeader) (powLimit : Nat) : Except Reject Header := do
  let h := Header.ofRaw raw
  Except.require (h.extRoot = Arr.zero 32) .extRootNotZero
  Except.require (h.authorNoteLen.toNat ≤ authorNoteMaxBytes) (.authorNoteLen h.authorNoteLen.toNat)
  Except.require (h.version &&& 0xE0000000 = 0x20000000) (.badVersion h.version.toNat)
  Except.require ((expandBits h.bits powLimit).isSome) (.badBits h.bits)
  return h

/-- `s1b_checkpoint`. -/
def s1bCheckpoint (checkpoints : List (Nat × Hash32)) (height : Nat) (hash : Hash32) :
    Except Reject Unit :=
  (checkBlockCheckpoint checkpoints height hash).mapError fun _ ↦ .checkpointMismatch height

/-- `s2_height`. -/
def s2Height (childHeight parentHeight : Nat) : Except Reject Unit :=
  let expected := saturatingAdd u64Max parentHeight 1
  Except.require (childHeight = expected) (.heightNotParentPlusOne childHeight expected)

/-- `s3_bits`. -/
def s3Bits (got expected : UInt32) : Except Reject Unit :=
  Except.require (got = expected) (.bitsNotAsert got expected)

/-- `s4_time`. -/
def s4Time (ancestorTimes : List Nat) (time now : Nat) : Except Reject Unit :=
  (checkBlockTime (medianTimePast ancestorTimes) time now).mapError fun e ↦
    match e with
    | .timestampTooOld mtp time => .timestampTooOld mtp time
    | _ => .timestampTooFarInFuture time (saturatingAdd u64Max now maxFutureDriftSecs)

/-- `AnchorReach`. -/
inductive AnchorReach where
  | notReached
  | matches
  | contradicts
deriving DecidableEq

/-- `s5_fork_depth`.  A cap of 0 disables the gate; past the cap only a signed anchor the
branch does not contradict admits it. -/
def s5ForkDepth (tip : TipRef) (branchBaseHeight : Nat) (anchor : Option Anchor)
    (reach : AnchorReach) (params : ChainParams) : Except Reject Unit :=
  let cap := params.maxReorgDepth
  let depth := tip.height - branchBaseHeight
  Except.require (cap = 0 ∨ depth ≤ cap ∨ (anchor.isSome ∧ reach ≠ .contradicts))
    (.forkTooDeep depth cap)

/-- `s6_claimed_work`.  Equal work is enough only for a sibling of the tip with the lower
hash. -/
def s6ClaimedWork (candWork : Work) (candTipHash : Hash32) (candTipHeight depth : Nat)
    (tip : TipRef) : Except Reject Unit :=
  Except.require (tip.chainwork < candWork ∨
    (candWork = tip.chainwork ∧ depth = 1 ∧ candTipHeight = tip.height ∧ candTipHash < tip.hash))
    .insufficientClaimedWork

/-! ## Verification and budgets -/

/-- `PowVerifier`. -/
class PowVerifier where
  verify : RawHeader → Bool
  costMicros : Nat

/-- `WorkCache::work`.  The cache is a memo of this function. -/
def workOf (bits : UInt32) (powLimit : Nat) : Option Work :=
  (expandBits bits powLimit).map workFromTarget

/-- `NegativeCache`, the ring; the set beside it has the same elements. -/
structure NegativeCache where
  ring : List Hash32
  cap : Nat
deriving DecidableEq

namespace NegativeCache

/-- `NegativeCache::new`. -/
def new (cap : Nat) : NegativeCache := ⟨[], max cap 1⟩

/-- `NegativeCache::contains`. -/
def contains (c : NegativeCache) (h : Hash32) : Bool := h ∈ c.ring

/-- `NegativeCache::insert`. -/
def insert (c : NegativeCache) (h : Hash32) (p : Permanence) : NegativeCache :=
  if p ≠ .permanent ∨ c.contains h then c
  else { c with ring := (if c.cap ≤ c.ring.length then c.ring.drop 1 else c.ring) ++ [h] }

end NegativeCache

section

variable [Crypto]

/-- `Staged`. -/
structure Staged where
  hdr : HeaderRec
  cumWork : Work
  branchBaseHeight : Nat
deriving DecidableEq

/-- `SourceState`. -/
structure SourceState where
  staged : List Staged
  tokens : Nat
  lastMs : Nat
  reserveTokens : Nat
  reserveLastMs : Nat
  primed : Bool
  powFailures : Nat
  quotaEpoch : Nat
  quotaMs : Nat
deriving DecidableEq

namespace SourceState

/-- `SourceState::default`. -/
def empty : SourceState := ⟨[], 0, 0, 0, 0, false, 0, 0, 0⟩

/-- Whether the source has staged the header: its `staged_hashes`. -/
def holds (st : SourceState) (hash : Hash32) : Bool := st.staged.any (·.hdr.hash = hash)

/-- `SourceState::refill`. -/
def refill (st : SourceState) (params : ChainParams) (costMicros monoMs : Nat) : SourceState :=
  if ¬st.primed then
    { st with
      primed := true
      tokens := params.powBudgetBurstMicros
      reserveTokens := params.classReserveBurstMicros costMicros
      lastMs := monoMs
      reserveLastMs := monoMs
      quotaMs := monoMs }
  else
    let gain := saturatingMul (monoMs - st.lastMs) params.powBudgetMicros /
      max params.powBudgetWindowMs 1
    let st := if 0 < gain then
      { st with
        tokens := min (saturatingAdd u64Max st.tokens gain) params.powBudgetBurstMicros
        lastMs := monoMs }
      else st
    let gain := saturatingMul (monoMs - st.reserveLastMs) params.classReserveRateMicrosPerSec / 1000
    if 0 < gain then
      { st with
        reserveTokens := min (saturatingAdd u64Max st.reserveTokens gain)
          (params.classReserveBurstMicros costMicros)
        reserveLastMs := monoMs }
    else st

/-- `SourceState::roll_quota_epoch`. -/
def rollQuotaEpoch (st : SourceState) (epoch : Nat) (params : ChainParams) (monoMs : Nat) :
    SourceState :=
  if st.quotaEpoch ≠ epoch ∨
      saturatingMul params.childQuotaWindowSecs 1000 ≤ monoMs - st.quotaMs then
    { st with quotaEpoch := epoch, quotaMs := monoMs, powFailures := 0 }
  else st

/-- `SourceState::budgets_full`. -/
def budgetsFull (st : SourceState) (params : ChainParams) (costMicros : Nat) : Bool :=
  st.powFailures = 0 ∧ params.powBudgetBurstMicros ≤ st.tokens ∧
    params.classReserveBurstMicros costMicros ≤ st.reserveTokens

/-- `SourceState::owes_nothing`. -/
def owesNothing (st : SourceState) (params : ChainParams) (costMicros : Nat) : Bool :=
  st.staged.isEmpty ∧ st.budgetsFull params costMicros

end SourceState

/-- `Ingest`. -/
structure Ingest where
  neg : NegativeCache
  sources : AList fun _ : SourceId ↦ SourceState
  sharedTokens : Nat
  sharedLastMs : Nat
  sharedPrimed : Bool

namespace Ingest

/-- `Ingest::new`. -/
def new (params : ChainParams) : Ingest := ⟨.new params.negativeCacheEntries, ∅, 0, 0, false⟩

/-- The state of a source, the default one if there is none. -/
def source (ing : Ingest) (id : SourceId) : SourceState := (ing.sources.lookup id).getD .empty

/-- What a source has staged. -/
def stagedOf (ing : Ingest) (id : SourceId) : List Staged := (ing.source id).staged

/-- Replace the state of a source. -/
def setSource (ing : Ingest) (id : SourceId) (st : SourceState) : Ingest :=
  { ing with sources := ing.sources.insert id st }

/-- `Ingest::forget`. -/
def forget (ing : Ingest) (id : SourceId) : Ingest := { ing with sources := ing.sources.erase id }

/-- `Ingest::refill_shared`. -/
def refillShared (ing : Ingest) (params : ChainParams) (monoMs : Nat) : Ingest :=
  if ¬ing.sharedPrimed then
    { ing with
      sharedPrimed := true
      sharedTokens := params.classSharedBurstMicros
      sharedLastMs := monoMs }
  else
    let gain := saturatingMul (monoMs - ing.sharedLastMs) params.classSharedRateMicrosPerSec / 1000
    if 0 < gain then
      { ing with
        sharedTokens := min (saturatingAdd u64Max ing.sharedTokens gain)
          params.classSharedBurstMicros
        sharedLastMs := monoMs }
    else ing

/-- The eviction scan of `touch` refills every source it looks at. -/
def refillAll (ing : Ingest) (params : ChainParams) (cost monoMs : Nat) : Ingest :=
  ing.sources.keys.foldl
    (fun ing id ↦ ing.setSource id ((ing.source id).refill params cost monoMs)) ing

/-- The source `touch` evicts: an idle one before a parked one, never one that owes budget. -/
def victim (ing : Ingest) (params : ChainParams) (cost : Nat) : Option SourceId :=
  let idle := ing.sources.keys.filter fun id ↦ (ing.source id).owesNothing params cost
  let parked := ing.sources.keys.filter fun id ↦
    ¬(ing.source id).owesNothing params cost ∧ (ing.source id).budgetsFull params cost
  let least := (parked.map fun id ↦ (ing.stagedOf id).length).min?
  idle.min?.or (parked.filter fun id ↦ some (ing.stagedOf id).length = least).min?

/-- `Ingest::touch`.  The sources stay refilled also when the table is full. -/
def touch (ing : Ingest) (id : SourceId) (params : ChainParams) (cost monoMs : Nat) :
    Except Reject Unit × Ingest :=
  let enter (ing : Ingest) : Except Reject Unit × Ingest :=
    (.ok (), ing.setSource id ((ing.source id).refill params cost monoMs))
  if (ing.sources.lookup id).isNone ∧ params.maxSources ≤ ing.sources.keys.length then
    let ing := ing.refillAll params cost monoMs
    match ing.victim params cost with
    | some v => enter (ing.forget v)
    | none => (.error (.tooManySources id params.maxSources), ing)
  else enter ing

/-- `spend_class_budget`: the shared pool first, then the source's own reserve. -/
def spendClassBudget (ing : Ingest) (id : SourceId) (cost : Nat) : Option Ingest :=
  let st := ing.source id
  if st.tokens < cost then none
  else if cost ≤ ing.sharedTokens then
    some ({ ing with sharedTokens := ing.sharedTokens - cost }.setSource id
      { st with tokens := st.tokens - cost })
  else if cost ≤ st.reserveTokens then
    some (ing.setSource id
      { st with tokens := st.tokens - cost, reserveTokens := st.reserveTokens - cost })
  else none

end Ingest

/-- `IngestCtx`, but for the store and the verifier. -/
structure IngestCtx where
  checkpoints : List (Nat × Hash32)
  anchor : Option Anchor
  params : ChainParams
  now : Nat
  monoMs : Nat
  tip : TipRef
  genesisTime : Nat
  solicitation : Solicitation
  tipEpoch : Nat
  sideCapacity : Nat

/-! ## Ancestors of a staged header -/

/-- `Lite`: a node of the arena or a staged header. -/
structure Lite where
  height : Nat
  hash : Hash32
  prevHash : Hash32
  time : Nat
  bits : UInt32
  cumWork : Work
  branchBaseHeight : Nat
  arena : Option Nat
deriving DecidableEq

/-- The view of an arena node. -/
def liteOfNode (index : HeaderIndex) (i : Nat) : Lite :=
  let n := index.node i
  ⟨n.height, n.hash, zeroHash, n.time, n.bits, n.cumWork, n.branchBaseHeight, some i⟩

/-- The view of a staged header. -/
def liteOfStaged (s : Staged) : Lite :=
  ⟨s.hdr.height, s.hdr.hash, s.hdr.prevHash, s.hdr.time, s.hdr.bits, s.cumWork,
    s.branchBaseHeight, none⟩

/-- `find_parent`. -/
def findParent (index : HeaderIndex) (staged : List Staged) (hash : Hash32) : Option Lite :=
  match index.indexOf hash with
  | some i => some (liteOfNode index i)
  | none => (staged.reverse.find? (·.hdr.hash = hash)).map liteOfStaged

/-- `child_branch_base`. -/
def childBranchBase (index : HeaderIndex) (node : Lite) : Nat :=
  match node.arena with
  | some i => if index.isCanonical i then node.height else node.branchBaseHeight
  | none => node.branchBaseHeight

/-- `lite_parent`. -/
def liteParent (index : HeaderIndex) (staged : List Staged) (node : Lite) : Option Lite :=
  match node.arena with
  | some i => (index.prev i).map (liteOfNode index)
  | none => findParent index staged node.prevHash

/-- The loop of `ancestor_times`, the latest first. -/
def ancestorTimesFrom (index : HeaderIndex) (staged : List Staged) : Nat → Lite → List Nat
  | 0, _ => []
  | span + 1, cur =>
    cur.time :: match liteParent index staged cur with
      | some p => ancestorTimesFrom index staged span p
      | none => []

/-- `ancestor_times`. -/
def ancestorTimes (index : HeaderIndex) (staged : List Staged) (node : Lite) (span : Nat) :
    List Nat :=
  (ancestorTimesFrom index staged span node).reverse

/-- The loop of `ancestor_of`.  Each round goes down one height. -/
def climbTo (index : HeaderIndex) (staged : List Staged) (height : Nat) : Nat → Lite → Option Lite
  | 0, cur => if cur.height = height then some cur else none
  | fuel + 1, cur =>
    if height < cur.height then (liteParent index staged cur).bind (climbTo index staged height fuel)
    else if cur.height = height then some cur else none

/-- `ancestor_of`: at or below the branch base the canonical chain is read in place of the
links. -/
def ancestorOf (index : HeaderIndex) (staged : List Staged) (node : Lite) (height : Nat) :
    Option Lite :=
  if node.height < height then none
  else if height ≤ node.branchBaseHeight then
    index.canonical[height]?.map fun i ↦
      { liteOfNode index i with arena := index.indexOf (index.node i).hash }
  else climbTo index staged height (node.height - height) node

/-- `anchor_reach`. -/
def anchorReach (index : HeaderIndex) (staged : List Staged) (node : Lite) (anchor : Anchor) :
    AnchorReach :=
  if node.height < anchor.height then .notReached
  else
    match ancestorOf index staged node anchor.height with
    | none => .notReached
    | some a => if a.hash = anchor.hash then .matches else .contradicts

/-- `resolve_anchor`: bits, height and parent time of the ASERT anchor.  Genesis has no
parent; one is made up a block time before it. -/
def resolveAnchor (index : HeaderIndex) (staged : List Staged) (parent : Lite) (ctx : IngestCtx) :
    Except Reject (UInt32 × Nat × Nat) := do
  let ah := anchorHeightFor parent.height ctx.params.asertAnchorInterval
  let anchor ← Except.ofOption (.asertAnchorUnavailable ah) (ancestorOf index staged parent ah)
  let parentTime ←
    if ah = 0 then .ok (ctx.genesisTime - blockTimeSecs)
    else (Except.ofOption (.asertAnchorUnavailable ah)
      (ancestorOf index staged parent (ah - 1))).map (·.time)
  return (anchor.bits, anchor.height, parentTime)

/-! ## Staging -/

/-- `stage_one` up to the push: the staged header. -/
def stageHeader (index : HeaderIndex) (staged : List Staged) (ctx : IngestCtx) (raw : RawHeader) :
    Except Reject Staged := do
  let hdr ← s1FixedFields raw ctx.params.powLimit
  let rec' := HeaderRec.fromRaw raw
  s1bCheckpoint ctx.checkpoints hdr.height.toNat rec'.hash
  let parent ← Except.ofOption (.unknownParent hdr.prevHash) (findParent index staged hdr.prevHash)
  s2Height hdr.height.toNat parent.height
  let (bits, height, parentTime) ← resolveAnchor index staged parent ctx
  let expected ←
    (asertNextBits bits height parentTime parent.height parent.time ctx.params.powLimit).mapError
      fun _ ↦ .asertAnchorUnavailable height
  s3Bits hdr.bits expected
  s4Time (ancestorTimes index staged parent medianTimeSpan) hdr.time.toNat ctx.now
  let reach := match ctx.anchor with
    | none => .notReached
    | some a => anchorReach index staged parent a
  let base := childBranchBase index parent
  s5ForkDepth ctx.tip base ctx.anchor reach ctx.params
  let w ← Except.ofOption (.badBits hdr.bits) (workOf hdr.bits ctx.params.powLimit)
  let cumWork ← Except.ofOption .arithmeticOverflow (Work.add parent.cumWork w)
  return ⟨rec', cumWork, base⟩

/-- `stage_one`. -/
def stageOne (ing : Ingest) (index : HeaderIndex) (ctx : IngestCtx) (id : SourceId)
    (raw : RawHeader) : Except Reject Ingest := do
  let s ← stageHeader index (ing.stagedOf id) ctx raw
  Except.require ((ing.stagedOf id).length < ctx.params.maxStagedHeaders) (.stagingFull id)
  return ing.setSource id { ing.source id with staged := ing.stagedOf id ++ [s] }

/-! ## Promotion -/

variable [PowVerifier]

/-- The accumulators of `promote`. -/
structure Promotion where
  ing : Ingest
  index : HeaderIndex
  connectedOut : List HeaderRec
  connected : Nat
  consumed : Nat
  failed : Bool
  lost : Option Rejection

/-- The verdict on a header whose proof of work fails. -/
def powRejection (r : HeaderRec) : Rejection :=
  ⟨r.hash, r.height, r.height, (Reject.powInvalid r.hash).why⟩

/-- The verdict on a header whose parent is missing. -/
def orphanRejection (r : HeaderRec) : Rejection :=
  ⟨r.hash, r.height, r.height - 1, "parent was not stored"⟩

/-- The loop of `promote`. -/
def promoteLoop (ctx : IngestCtx) (id : SourceId) : List Staged → Promotion → Promotion
  | [], p => p
  | s :: staged, p =>
    if ctx.sideCapacity ≤ p.connected then p
    else
      let paid := if ctx.solicitation.chargesBudget then
        p.ing.spendClassBudget id PowVerifier.costMicros else some p.ing
      match paid with
      | none => p
      | some ing =>
        if PowVerifier.verify s.hdr.raw then
          match p.index.indexOf s.hdr.prevHash with
          | none => promoteLoop ctx id staged { p with
              ing
              consumed := p.consumed + 1
              lost := p.lost.or (some (orphanRejection s.hdr)) }
          | some parent => promoteLoop ctx id staged { p with
              ing
              index := (p.index.insert s.hdr parent s.cumWork true).2
              connectedOut := p.connectedOut ++ [s.hdr]
              connected := p.connected + 1
              consumed := p.consumed + 1 }
        else
          let st := ing.source id
          let powFailures := saturatingAdd (2 ^ 32 - 1) st.powFailures 1
          let neg := ing.neg.insert s.hdr.hash .permanent
          { p with
            ing := { ing.setSource id { st with powFailures } with neg }
            consumed := p.consumed + 1
            failed := true
            lost := p.lost.or (some (powRejection s.hdr)) }

/-- `promote` from the drain on: a bad proof of work taints the whole staged run. -/
def Promotion.drain (p : Promotion) (id : SourceId) : Promotion :=
  let st := p.ing.source id
  let staged := if p.failed then [] else st.staged.drop p.consumed
  { p with ing := p.ing.setSource id { st with staged } }

/-- The heaviest staged header, the lower hash breaking ties. -/
def terminalOf (staged : List Staged) : Option Staged :=
  staged.foldl (fun best s ↦
    match best with
    | none => some s
    | some b =>
      if s.cumWork < b.cumWork ∨ (s.cumWork = b.cumWork ∧ b.hdr.hash < s.hdr.hash) then some b
      else some s) none

/-- The lowest staged header, the first of them. -/
def lowestOf (staged : List Staged) : Option Staged :=
  staged.foldl (fun low s ↦
    match low with
    | none => some s
    | some l => if s.hdr.height < l.hdr.height then some s else some l) none

/-- `promote`, with what is held of the run when it claims too little work. -/
def promote (ing : Ingest) (index : HeaderIndex) (ctx : IngestCtx) (id : SourceId)
    (connectedOut : List HeaderRec) (lost : Option Rejection) (held : Option Held) :
    Promotion × Option Held :=
  let idle : Promotion := ⟨ing, index, connectedOut, 0, 0, false, lost⟩
  match terminalOf (ing.stagedOf id) with
  | none => (idle, held)
  | some t =>
    match s6ClaimedWork t.cumWork t.hdr.hash t.hdr.height (ctx.tip.height - t.branchBaseHeight)
        ctx.tip with
    | .error _ => (idle, held.or ((lowestOf (ing.stagedOf id)).map fun l ↦ ⟨l.hdr.hash, l.hdr.height⟩))
    | .ok () =>
      if ctx.solicitation.chargesChildQuota ∧
          ctx.params.childPowFailuresPerSource ≤ (ing.source id).powFailures then (idle, held)
      else ((promoteLoop ctx id (ing.stagedOf id) idle).drain id, held)

/-! ## Batches -/

/-- The accumulators of `submit_headers`. -/
structure Batch where
  ing : Ingest
  index : HeaderIndex
  connectedOut : List HeaderRec
  out : Accepted
  batchDups : Nat
  stagedFirst : Option Held

/-- Run `promote` on the accumulators. -/
def Batch.promote (b : Batch) (ctx : IngestCtx) (id : SourceId) : Batch :=
  let (p, held) := Chain.promote b.ing b.index ctx id b.connectedOut b.out.firstRejection
    b.out.firstHeld
  { b with
    ing := p.ing
    index := p.index
    connectedOut := p.connectedOut
    out := { b.out with
      connected := b.out.connected + p.connected
      firstRejection := p.lost
      firstHeld := held } }

/-- The verdict `submit_headers` reports on a header that was not staged. -/
def stageRejection (raw : RawHeader) (rej : Reject) : Rejection :=
  let height := (Header.ofRaw raw).height.toNat
  let repairFrom := match rej with
    | .unknownParent _ => height - 1
    | _ => height
  ⟨headerHash raw, height, repairFrom, rej.why⟩

/-- The arm of `submit_headers` for a header that is new to the node. -/
def Batch.stage (b : Batch) (ctx : IngestCtx) (id : SourceId) (raw : RawHeader) : Batch :=
  let b := if ctx.params.maxStagedHeaders ≤ (b.ing.stagedOf id).length then b.promote ctx id else b
  match stageOne b.ing b.index ctx id raw with
  | .ok ing =>
    { b with
      ing
      out := { b.out with staged := b.out.staged + 1 }
      stagedFirst := b.stagedFirst.or
        ((ing.stagedOf id).getLast?.map fun s ↦ ⟨s.hdr.hash, s.hdr.height⟩) }
  | .error rej =>
    { b with
      ing := { b.ing with neg := b.ing.neg.insert (headerHash raw) rej.permanence }
      out := { b.out with
        rejected := b.out.rejected + 1
        firstRejection := b.out.firstRejection.or (some (stageRejection raw rej)) } }

/-- The arm of `submit_headers` for a header the node has seen. -/
def Batch.duplicate (b : Batch) (id : SourceId) (hash : Hash32) : Batch :=
  let held := ((b.ing.stagedOf id).find? (·.hdr.hash = hash)).map fun s ↦
    (⟨hash, s.hdr.height⟩ : Held)
  { b with
    out := { b.out with
      firstHeld := b.out.firstHeld.or held
      duplicates := b.out.duplicates + 1 }
    batchDups := b.batchDups + 1 }

variable {σ : Type} [Store σ]

/-- Whether `submit_headers` takes a header for a duplicate. -/
def Batch.knows (b : Batch) (store : σ) (id : SourceId) (hash : Hash32) : Bool :=
  (b.ing.source id).holds hash || b.index.contains hash || b.ing.neg.contains hash ||
    Store.isInvalid store hash

/-- The loop of `submit_headers`. -/
def submitLoop (store : σ) (ctx : IngestCtx) (id : SourceId) : List RawHeader → Batch → Batch
  | [], b => b
  | raw :: raws, b =>
    if b.knows store id (headerHash raw) then
      let b := b.duplicate id (headerHash raw)
      if ctx.params.maxDuplicatesPerBatch < b.batchDups then b
      else submitLoop store ctx id raws b
    else submitLoop store ctx id raws (b.stage ctx id raw)

/-- `submit_headers`: the report, with the intake, the arena and the headers connected. -/
def submitHeaders (store : σ) (ing : Ingest) (index : HeaderIndex) (ctx : IngestCtx)
    (id : SourceId) (raws : List RawHeader) :
    Except Reject Accepted × Ingest × HeaderIndex × List HeaderRec :=
  let ing := ing.refillShared ctx.params ctx.monoMs
  match ing.touch id ctx.params PowVerifier.costMicros ctx.monoMs with
  | (.error e, ing) => (.error e, ing, index, [])
  | (.ok (), ing) =>
    let ing := ing.setSource id
      ((ing.source id).rollQuotaEpoch ctx.tipEpoch ctx.params ctx.monoMs)
    let start : Batch := ⟨ing, index, [], ⟨0, 0, 0, 0, index.tipHeight, none, none⟩, 0, none⟩
    let b := (submitLoop store ctx id raws start).promote ctx id
    let staged := b.ing.stagedOf id
    let held := b.stagedFirst.filter fun h ↦ (b.ing.source id).holds h.hash
    let top := (staged.getLast?.map (·.hdr.height)).getD 0
    (.ok { b.out with
      staged := staged.length
      firstHeld := b.out.firstHeld.or held
      verifiedHeight := max b.index.tipHeight top }, b.ing, b.index, b.connectedOut)

end

end Plaine.Chain

import Plaine.Chain.Header
import Plaine.Chain.Index
import Plaine.Chain.Mempool
import Plaine.Chain.Reorg
import Plaine.Chain.Types

/-!
# The chain manager

`manager.rs`, with the enforced checkpoints and the recovery anchor of `checkpoints.rs`.  `World` is
a manager with the store behind it.  Every public operation is a function on worlds; the clock's
readings are arguments.  An outer `none` is a panic of the source, a failed `expect`.

Observers and counters are left out.
-/

namespace Plaine.Chain

open Plaine.Lib Plaine.Consensus

/-! ## Checkpoints -/

/-- `CheckpointOutcome`. -/
inductive CheckpointOutcome where
  | unverified
  | genesisImmutable
  | notHeldYet
  | admitted
  | storedAsAnchor
  | anchorNotSuperseded
deriving DecidableEq

/-- `CheckpointReport`. -/
structure CheckpointReport where
  outcome : CheckpointOutcome
  anchorAdvanced : Bool
deriving DecidableEq

/-- `Checkpoints`. -/
structure Checkpoints where
  enforced : List (Nat × Hash32)
  anchor : Option Anchor
  anchorRecord : Option SignedCheckpoint
deriving DecidableEq

namespace Checkpoints

/-- `Checkpoints::new`. -/
def new : Checkpoints := ⟨[], none, none⟩

/-- `Checkpoints::install_anchor`. -/
def installAnchor (c : Checkpoints) (cp : SignedCheckpoint) : Bool × Checkpoints :=
  let cand : Anchor := ⟨cp.height, cp.hash⟩
  if anchorSupersedes c.anchor cand then
    (true, { c with anchor := some cand, anchorRecord := some cp })
  else (false, c)

/-- The order `sort_unstable` sorts the enforced pairs by. -/
def pairLe (a b : Nat × Hash32) : Prop := a.1 < b.1 ∨ (a.1 = b.1 ∧ ¬b.2 < a.2)

instance : DecidableRel pairLe := fun _ _ ↦ inferInstanceAs (Decidable (_ ∨ _))

/-- The `Admit` arm of `submit`, up to the anchor. -/
def enforce (c : Checkpoints) (cp : SignedCheckpoint) : Checkpoints :=
  if c.enforced.any (·.1 = cp.height) then c
  else { c with enforced := (c.enforced ++ [(cp.height, cp.hash)]).insertionSort pairLe }

section

variable [Crypto]

/-- `Checkpoints::load_anchor`. -/
def loadAnchor (c : Checkpoints) (cp : SignedCheckpoint) (params : ChainParams) :
    Bool × Checkpoints :=
  if verifyCheckpoint cp params.authorityKeys params.checkpointThreshold then c.installAnchor cp
  else (false, c)

/-- `Checkpoints::submit`.  The outer `none` is a failed `expect` of the view. -/
def submit (c : Checkpoints) (cp : SignedCheckpoint) (view : ChainView) (params : ChainParams) :
    Option (CheckpointReport × Checkpoints) :=
  if verifyCheckpoint cp params.authorityKeys params.checkpointThreshold then do
    match ← checkpointAdmission view cp.height cp.hash with
    | .genesisImmutable => return (⟨.genesisImmutable, false⟩, c)
    | .notHeldYet =>
      let (installed, c) := c.installAnchor cp
      return (⟨if installed then .notHeldYet else .anchorNotSuperseded, installed⟩, c)
    | .admits =>
      let (installed, c) := (c.enforce cp).installAnchor cp
      return (⟨.admitted, installed⟩, c)
    | .hashConflict =>
      let (installed, c) := c.installAnchor cp
      return (⟨if installed then .storedAsAnchor else .anchorNotSuperseded, installed⟩, c)
  else some (⟨.unverified, false⟩, c)

end

end Checkpoints

/-! ## The manager -/

/-- `WANTED_BODIES_CAP`. -/
def wantedBodiesCap : Nat := 512

section

variable [Crypto]

/-- `ChainManager`. -/
structure Manager where
  params : ChainParams
  index : HeaderIndex
  ingest : Ingest
  cps : Checkpoints
  pool : Mempool
  txIngress : Ingress
  tipEpoch : Nat
  bodies : AList fun _ : Hash32 ↦ Bytes
  sideRaws : AList fun _ : Hash32 ↦ RawHeader
  tipLedger : CoinbaseLedger
  halted : Option String
  genesisTime : Nat
  lastBranchFailure : Option Reject
  wantedBodies : List Hash32

/-- A manager and the store behind it. -/
structure World (σ : Type) where
  chain : Manager
  store : σ

/-! ## Boot -/

variable {σ : Type} [Store σ]

/-- The loop of `load_from_store` from height `h` on, up to the first header missing. -/
def loadChain (s : σ) (params : ChainParams) :
    Nat → Nat → Work → List Nat → HeaderIndex → Except Reject (List Nat × HeaderIndex)
  | 0, _, _, chain, index => .ok (chain, index)
  | n + 1, h, cum, chain, index =>
    match Store.headerAt s h with
    | none => .ok (chain, index)
    | some r => do
      let w ← Except.ofOption (.bootInvariant "stored bits are not a legal target")
        (workOf r.bits params.powLimit)
      let cum ← Except.ofOption (.bootInvariant "chainwork overflow on load") (Work.add cum w)
      let (idx, index) := index.insert r (chain.getLastD 0) cum true
      loadChain s params n (h + 1) cum (chain ++ [idx]) (index.setHaveBody idx)

/-- Put a header the store kept back into the arena, with the mark the store has on it. -/
def admitStored (s : σ) (params : ChainParams) (index : HeaderIndex) (r : HeaderRec) :
    Option (Nat × HeaderIndex) := do
  let parent ← index.indexOf r.prevHash
  let p := index.node parent
  if p.height + 1 = r.height then
    let w ← workOf r.bits params.powLimit
    let cum ← Work.add p.cumWork w
    let (idx, index) := index.insert r parent cum true
    return (idx, if Store.isInvalid s r.hash then index.setInvalidFlag idx else index)
  else none

/-- `rebuild_side_arena`; `restored` counts the headers put back. -/
def rebuildSideArena (s : σ) (params : ChainParams) :
    List HeaderRec → Nat → HeaderIndex → HeaderIndex
  | [], _, index => index
  | r :: rows, restored, index =>
    if params.maxSideHeaders ≤ restored then index
    else if index.contains r.hash then rebuildSideArena s params rows restored index
    else
      match admitStored s params index r with
      | none => rebuildSideArena s params rows restored index
      | some (_, index) => rebuildSideArena s params rows (restored + 1) index

/-- `load_from_store`: the genesis time, the arena and the tip's ledger. -/
def loadFromStore (s : σ) (params : ChainParams) :
    Except Reject (Nat × HeaderIndex × CoinbaseLedger) := do
  let genesis ← Except.ofOption (.bootInvariant "store holds no genesis") (Store.headerAt s 0)
  let gw ← Except.ofOption (.bootInvariant "genesis bits are not a legal target")
    (workOf genesis.bits params.powLimit)
  let (chain, index) ← loadChain s params (Store.tip s).height 1 gw [0]
    (.insertGenesis genesis gw)
  let rows := Store.sideHeadersFrom s 0 params.maxSideHeaders
  let index := rebuildSideArena s params rows 0 (index.setCanonical chain)
  let ledger ← buildLedger s index.tipHeight
  return (genesis.time, index, ledger)

variable [PowVerifier]

/-- The checks of `ChainManager::new` on its parameters. -/
def checkParams (params : ChainParams) : Except Reject Unit := do
  Except.require params.profileIsConsistent
    (.bootInvariant "ChainParams.profile does not match pow_limit")
  Except.require (params.classReserveIsSurvivable PowVerifier.costMicros)
    (.bootInvariant "class reserve below one interpreter call per 30 s")
  Except.require (params.maxSources ≤ params.maxPeers)
    (.bootInvariant "max_sources exceeds max_peers: the class reserve over-commits")
  Except.require (params.classAggregateRateMicrosPerSec ≤ params.classRateMicrosPerSec)
    (.bootInvariant "shared + max_sources x reserve exceeds the class cap")

/-- `ChainManager::new`. -/
def Manager.new (s : σ) (params : ChainParams) : Except Reject Manager := do
  checkParams params
  let (genesisTime, index, tipLedger) ← loadFromStore s params
  return {
    params, index, tipLedger, genesisTime
    ingest := .new params
    cps := .new
    pool := .new params.mempool
    txIngress := .new
    tipEpoch := 0
    bodies := ∅
    sideRaws := ∅
    halted := none
    lastBranchFailure := none
    wantedBodies := [] }

/-! ## Queries -/

namespace Manager

omit [PowVerifier]

variable (m : Manager) (s : σ)

/-- `ChainManager::tip`. -/
def tip : TipRef :=
  let n := m.index.tip
  ⟨n.height, n.hash, n.time, n.cumWork⟩

/-- `ChainManager::header_at`. -/
def headerAt (height : Nat) : Option HeaderRec :=
  (m.index.canonicalAt height).bind fun n ↦ Store.headerByHash s n.hash

/-- `ChainManager::body_bytes`. -/
def bodyBytes (hash : Hash32) : Option Bytes := (m.bodies.lookup hash).or (Store.bodyByHash s hash)

/-- `ChainManager::have_body`. -/
def haveBody (hash : Hash32) : Bool := (m.bodyBytes s hash).isSome

/-- `ChainManager::header_raw`. -/
def headerRaw (hash : Hash32) : Option RawHeader :=
  (m.sideRaws.lookup hash).or ((Store.headerByHash s hash).map (·.raw))

/-- An account with what of it can be spent in the next block. -/
def spendableOf (addr : Address) : Account × Nat :=
  let acct := Store.account s addr
  (acct, m.tipLedger.spendable addr acct.balance (m.index.tipHeight + 1))

/-- `readmit_persisted_header`. -/
def readmitPersistedHeader (hash : Hash32) : Option (Nat × HeaderIndex) := do
  let r ← Store.headerByHash s hash
  if r.hash = hash then admitStored s m.params m.index r else none

/-- `update_mempool`. -/
def updateMempool (now : Nat) (spent : List (Address × Nat))
    (disconnected : List (Nat × List Bytes)) : Manager :=
  let pool := m.pool.onBlockConnected spent (Store.account s)
  let pool := if disconnected = [] then pool
    else pool.onReorgReinject disconnected now (m.spendableOf s)
  { m with pool := pool.resplitAll (Store.account s) }

/-- `ChainManager::block_template`. -/
def blockTemplate : List Bytes :=
  m.pool.template (maxTxsPerBlock - 1) (maxBlockBytes - headerBytes - 4096)

end Manager

/-- `non_coinbase_bytes`. -/
def nonCoinbaseBytes (s : σ) (height : Nat) : List Bytes :=
  match (Store.bodyAt s height).map BlockBody.parse with
  | some (.ok body) => body.records.drop 1
  | _ => []

/-! ## Headers and bodies -/

variable [Sink σ]

namespace World

variable (w : World σ)

/-- `ingest_headers`. -/
def ingestHeaders (now monoMs : Nat) (source : SourceId) (raws : List RawHeader)
    (solicitation : Solicitation) : Except Reject Accepted × World σ :=
  let m := w.chain
  match m.halted with
  | some d => (.error (.halted d), w)
  | none =>
    if maxHeadersPerMsg < raws.length then
      (.error (.batchTooLong raws.length maxHeadersPerMsg), w)
    else
      let ctx : IngestCtx := {
        checkpoints := m.cps.enforced
        anchor := m.cps.anchor
        params := m.params
        now
        monoMs
        tip := m.tip
        genesisTime := m.genesisTime
        solicitation
        tipEpoch := m.tipEpoch
        sideCapacity := m.params.maxSideHeaders - m.sideRaws.keys.length }
      let (accepted, ingest, index, connected) :=
        submitHeaders w.store m.ingest m.index ctx source raws
      let m := { m with ingest, index }
      match accepted with
      | .error e => (.error e, { w with chain := m })
      | .ok accepted =>
        let cumWork (r : HeaderRec) : Work :=
          ((index.indexOf r.hash).map fun i ↦ (index.node i).cumWork).getD 0
        let sideRaws := connected.foldl (fun l r ↦ l.insert r.hash r.raw) m.sideRaws
        let store := connected.foldl (fun s r ↦ (Sink.storeSideHeader s r (cumWork r)).2) w.store
        (.ok accepted, ⟨{ m with sideRaws }, store⟩)

/-- `ChainManager::submit_block`. -/
def submitBlock (hash : Hash32) (body : Bytes) : Except Reject Unit × World σ :=
  let m := w.chain
  match m.halted with
  | some d => (.error (.halted d), w)
  | none =>
    let found := match m.index.indexOf hash with
      | some i => some (i, m.index)
      | none => m.readmitPersistedHeader w.store hash
    match found with
    | none => (.error (.bodyNotAdmissible hash), w)
    | some (idx, index) =>
      let w := { w with chain := { m with index } }
      let n := index.node idx
      if ¬n.powOk ∨ n.invalid then (.error (.bodyNotAdmissible hash), w)
      else if m.haveBody w.store hash then (.error (.bodyAlreadyHeld hash), w)
      else if maxBlockBytes < body.length + headerBytes then
        (.error (.bodyStructure "body over MAX_BLOCK_BYTES"), w)
      else (.ok (), { w with chain := { m with
        index := index.setHaveBody idx
        bodies := m.bodies.insert hash body } })

/-! ## Adopting a branch -/

/-- The branch of a plan: the header and the body of each of its blocks. -/
def branchOf (m : Manager) (s : σ) (apply : List Nat) : Except Reject (List (HeaderRec × Bytes)) :=
  apply.mapM fun i ↦ do
    let n := m.index.node i
    let raw ← Except.ofOption (.branchInvalid n.height n.hash (.bodyNotAdmissible n.hash))
      (m.headerRaw s n.hash)
    let body ← Except.ofOption (.bodyNotAdmissible n.hash) (m.bodyBytes s n.hash)
    return (HeaderRec.fromRaw raw, body)

/-- The verdict of the reorg predicate on a plan. -/
def judge (m : Manager) (plan : Plan) : Option (Except Reject ReorgVerdict) :=
  match plan.apply.mapM fun i ↦ Except.ofOption (.badBits (m.index.node i).bits)
      (headerInfoOf m.params.powLimit (m.index.node i)) with
  | .error e => some (.error e)
  | .ok candidate =>
    (evaluateReorgWithCap (arenaView m.index m.params.powLimit) (plan.forkHeight + 1) candidate
      ⟨m.cps.anchor, m.cps.enforced⟩ m.params.maxReorgDepth).map (·.mapError .rule)

/-- What `try_adopt` validates of a plan: the base, the commits and the nonces spent. -/
def validatePlan (m : Manager) (s : σ) (plan : Plan) :
    Except Reject (Base × List CommitBlock × List (Address × Nat)) := do
  let branch ← branchOf m s plan.apply
  let work (i : Nat) : Work := (plan.apply[i]?.map fun j ↦ (m.index.node j).cumWork).getD 0
  let chainworkAt (h : Nat) : Work := ((m.index.canonicalAt h).map (·.cumWork)).getD 0
  let (base, overlay, ledger, replayed) ← rewindToFork s (.new (Store.account s))
    m.index.tipHeight plan.forkHeight m.params chainworkAt
  let (commits, spent, _, _) ← validateBranch m.params work 0 branch overlay ledger
  return (base, replayed ++ commits, spent)

/-- The write of `try_adopt`. -/
def commitPlan (s : σ) (plan : Plan) (base : Base) (commits : List CommitBlock) :
    Except SinkError Unit × σ :=
  match base with
  | .deepReplay rewindTo => Sink.commitDeepReorg s ⟨rewindTo, commits⟩
  | .undoWindow =>
    match plan.rollback, commits with
    | [], [b] => Sink.commitBlock s b
    | rollback, commits => Sink.commitReorg s ⟨rollback, commits⟩

/-- `try_adopt` after a successful commit. -/
def adopted (m : Manager) (s : σ) (now best : Nat) (plan : Plan) (spent : List (Address × Nat))
    (disconnected : List (Nat × List Bytes)) : Except Reject Progress × World σ :=
  let hashes := plan.apply.map fun i ↦ (m.index.node i).hash
  let m := { m with
    index := m.index.setCanonical (m.index.ancestry best)
    tipEpoch := m.tipEpoch + 1
    bodies := hashes.foldl (fun l h ↦ l.erase h) m.bodies
    sideRaws := hashes.foldl (fun l h ↦ l.erase h) m.sideRaws }
  match buildLedger s m.index.tipHeight with
  | .error e => (.error e, ⟨m, s⟩)
  | .ok tipLedger =>
    let m := { m with tipLedger }.updateMempool s now spent disconnected
    (.ok (.advanced m.tip plan.rollback.length plan.apply.length), ⟨m, s⟩)

/-- `try_adopt`. -/
def tryAdopt (now best : Nat) (plan : Plan) : Option (Except Reject Progress × World σ) :=
  let m := w.chain
  match judge m plan with
  | none => none
  | some (.error e) => some (.error e, w)
  | some (.ok _) =>
    let disconnected := plan.rollback.map fun h ↦ (h, nonCoinbaseBytes w.store h)
    some <| match validatePlan m w.store plan with
    | .error e => (.error e, w)
    | .ok (base, commits, spent) =>
      match commitPlan w.store plan base commits with
      | (.ok (), store) => adopted m store now best plan spent disconnected
      | (.error .full, store) => (.error .busy, { w with store })
      | (.error (.invalid d), store) => (.error (.sinkRefused d), { w with store })
      | (.error (.fatal d), store) =>
        (.error (.halted d), ⟨{ m with halted := some d }, store⟩)

/-- `ChainManager::invalidate`. -/
def invalidate (hash : Hash32) : World σ :=
  match w.chain.index.indexOf hash with
  | none => w
  | some idx =>
    ⟨{ w.chain with index := w.chain.index.markInvalid idx }, (Sink.markInvalid w.store hash).2⟩

/-! ## Advancing -/

/-- The accumulators of `advance`. -/
structure Scan where
  refused : List Nat
  firstRefusal : Option Reject
  pending : List Hash32

/-- `skip_insert`. -/
def skipInsert (skip : List Nat) (i : Nat) : List Nat := if i ∈ skip then skip else i :: skip

/-- `settle`. -/
def settle (scan : Scan) : Except Reject Progress × World σ :=
  let w := { w with chain := { w.chain with wantedBodies := scan.pending } }
  if scan.pending ≠ [] then (.ok (.needBodies scan.pending), w)
  else
    match scan.firstRefusal with
    | some e => (.error e, w)
    | none => (.ok .noChange, w)

/-- The hashes of a plan's blocks whose bodies are missing. -/
def missingOf (apply : List Nat) : List Hash32 :=
  (apply.map fun i ↦ (w.chain.index.node i).hash).filter fun h ↦ !w.chain.haveBody w.store h

/-- Queue hashes up to the cap. -/
def queue (pending missing : List Hash32) : List Hash32 :=
  missing.foldl (fun l h ↦ if l.length < wantedBodiesCap ∧ h ∉ l then l ++ [h] else l) pending

/-- The blocks of a plan from the first body missing on. -/
def gapOf (apply : List Nat) : List Nat :=
  apply.dropWhile fun i ↦ w.chain.haveBody w.store (w.chain.index.node i).hash

/-- The arms of `advance` for what `try_adopt` returned: the answer, or the world and the
accumulators to go on with. -/
def afterAdopt (best : Nat) (scan : Scan) (result : Except Reject Progress) :
    (Except Reject Progress × World σ) ⊕ (World σ × Scan) :=
  let m := w.chain
  match result with
  | .ok p => .inl (.ok p, { w with chain := { m with wantedBodies := scan.pending } })
  | .error (.branchInvalid height hash cause) =>
    let failure := Reject.branchInvalid height hash cause
    -- A failing side branch is condemned; the same failure on the canonical chain is
    -- corruption, which the caller gets.
    if (m.index.indexOf hash).any fun i ↦ !m.index.isCanonical i then
      .inr (({ w with chain := { m with lastBranchFailure := some failure } } : World σ).invalidate
        hash, scan)
    else .inl (.error failure, w)
  | .error (.rule e) =>
    .inr ({ w with chain := { m with lastBranchFailure := some (.rule e) } }, { scan with
      refused := skipInsert scan.refused best
      firstRefusal := scan.firstRefusal.or (some (.rule e)) })
  | .error e => .inl (.error e, { w with chain := { m with wantedBodies := scan.pending } })

/-- The loop of `advance`.  A round either answers, or refuses or condemns a node that was
neither, so a fuel of the arena's size is enough. -/
def advanceLoop (now : Nat) : Nat → World σ → Scan → Option (Except Reject Progress × World σ)
  | 0, _, _ => none
  | fuel + 1, w, scan =>
    let index := w.chain.index
    let best := selectBestExcluding index scan.refused
    if best ∈ scan.refused then some (w.settle scan)
    else
      match planReorg index best with
      | none => some (w.settle scan)
      | some plan =>
        match w.gapOf plan.apply with
        | [] =>
          match w.tryAdopt now best plan with
          | none => none
          | some (result, w) =>
            match w.afterAdopt best scan result with
            | .inl answer => some answer
            | .inr (w, scan) => advanceLoop now fuel w scan
        | gap =>
          advanceLoop now fuel w { scan with
            refused := gap.foldl skipInsert scan.refused
            pending := queue scan.pending (w.missingOf plan.apply) }

/-- `ChainManager::advance`. -/
def advance (now : Nat) : Option (Except Reject Progress × World σ) :=
  match w.chain.halted with
  | some d => some (.error (.halted d), w)
  | none => advanceLoop now (w.chain.index.nodes.length + 1) w ⟨[], none, []⟩

/-! ## Transactions and checkpoints -/

/-- `ChainManager::submit_tx`. -/
def submitTx (now monoMs : Nat) (origin : TxOrigin) (raw : Bytes) :
    Except Reject Admitted × World σ :=
  let m := w.chain
  match m.halted with
  | some d => (.error (.halted d), w)
  | none =>
    let (admitted, txIngress) : Except Reject Unit × Ingress := match origin with
      | .local => (.ok (), m.txIngress)
      | .peer source => m.txIngress.admitSource source m.params monoMs
    let m := { m with txIngress }
    match admitted with
    | .error e => (.error e, { w with chain := m })
    | .ok () =>
      let (out, pool) := m.pool.submitVerified m.params.network raw (m.spendableOf w.store) now
        m.params.authorPubkey
      (out, { w with chain := { m with pool } })

/-- `ChainManager::submit_checkpoint`. -/
def submitCheckpoint (cp : SignedCheckpoint) : Option (CheckpointReport × World σ) := do
  let m := w.chain
  let (report, cps) ← m.cps.submit cp (arenaView m.index m.params.powLimit) m.params
  return (report, {
    chain := { m with cps }
    store := if report.anchorAdvanced then (Sink.putAnchor w.store cp).2 else w.store })

/-- `ChainManager::load_anchor`. -/
def loadAnchor (cp : SignedCheckpoint) : World σ :=
  { w with chain := { w.chain with cps := (w.chain.cps.loadAnchor cp w.chain.params).2 } }

/-- `ChainManager::forget_source`. -/
def forgetSource (source : SourceId) : World σ :=
  { w with chain := { w.chain with
    ingest := w.chain.ingest.forget source
    txIngress := w.chain.txIngress.forget source } }

end World

/-! ## Operations -/

/-- The operations on a running manager. -/
inductive Op where
  | submitHeaders (now monoMs : Nat) (source : SourceId) (raws : List RawHeader)
      (solicitation : Solicitation)
  | submitBlock (hash : Hash32) (body : Bytes)
  | advance (now : Nat)
  | submitTx (now monoMs : Nat) (origin : TxOrigin) (raw : Bytes)
  | submitCheckpoint (cp : SignedCheckpoint)
  | loadAnchor (cp : SignedCheckpoint)
  | forgetSource (source : SourceId)

/-- The world an operation leaves. -/
def Op.exec (w : World σ) : Op → Option (World σ)
  | submitHeaders now monoMs source raws solicitation =>
    some (w.ingestHeaders now monoMs source raws solicitation).2
  | submitBlock hash body => some (w.submitBlock hash body).2
  | advance now => (w.advance now).map (·.2)
  | submitTx now monoMs origin raw => some (w.submitTx now monoMs origin raw).2
  | submitCheckpoint cp => (w.submitCheckpoint cp).map (·.2)
  | loadAnchor cp => some (w.loadAnchor cp)
  | forgetSource source => some (w.forgetSource source)

end

end Plaine.Chain

import Plaine.Consensus.Codec
import Plaine.Lib.Fifo
import Plaine.P2p.BodyTrack

/-!
# The headers an engine knows

`sync/mod.rs`, what it keeps of headers: those that are staged, those that it handed to the chain
(`known`) and the tree of announced and staged ones.  A header that is in one of them is not taken
again.  The chain answers through `ValidatorSink` of `wire/net.rs`, in two cells that hold one
notice each until the next call to it: the lowest header that it holds without having connected it,
and the lowest height that it wants repaired.
-/

namespace Plaine.P2p

open Plaine.Lib Plaine.Consensus

/-- `FORK_HEADERS_MAX`. -/
def forkHeadersMax : Nat := 800

/-- `KNOWN_HEADERS_MAX`. -/
def knownHeadersMax : Nat := presyncLeadHeaders + forkHeadersMax

/-- `REJECT_CACHE_MAX`. -/
def rejectCacheMax : Nat := 65536

/-- `TRACKING_AUDIT_MS`. -/
def trackingAuditMs : Nat := 60000

/-- `WANTED_MAX`. -/
def wantedMax : Nat := bodyWindowHashes * 4

/-- `UNSOLICITED_HEADERS_MAX`. -/
def unsolicitedHeadersMax : Nat := 8

/-- `INV_HEADERS_ADMIT_MAX`. -/
def invHeadersAdmitMax : Nat := unsolicitedHeadersMax

/-! ## The sink -/

/-- `Held`. -/
structure Held where
  hash : Hash32
  height : Nat
deriving DecidableEq

/-- `Break`. -/
structure Break where
  height : Nat
  why : String
deriving DecidableEq

/-- What the chain made of a batch: the headers that it holds or refuses, and the one of each that
`Accepted` names. -/
structure Report where
  parked : List Hash32
  refused : List Hash32
  firstHeld : Option Held
  firstRejection : Option Break
deriving DecidableEq

/-- What is seen of the headers on their way. -/
inductive HeaderNote where
  | staged (h : HeaderRec)
  | checked (raw : RawHeader) (ok : Bool)
  /-- The sink is called. -/
  | called
  /-- The sink takes a header. -/
  | handed (h : HeaderRec)
  | report (r : Report)
  /-- The sink answers for the header it took. -/
  | answered
  | invalid (h : HeaderRec)
  | refusedAt (height : Nat)
deriving DecidableEq

/-- The cells of `ValidatorSink`. -/
structure Cells where
  refusal : Option Break
  held : Option Held
deriving DecidableEq

namespace Cells

/-- `ValidatorSink::new`. -/
def new : Cells := { refusal := none, held := none }

/-- `ValidatorSink::refuse`. -/
def refuse (c : Cells) (b : Break) : Cells :=
  match c.refusal with
  | some old => if old.height ≤ b.height then c else { c with refusal := some b }
  | none => { c with refusal := some b }

/-- `ValidatorSink::hold`. -/
def hold (c : Cells) (h : Held) : Cells :=
  match c.held with
  | some old => if old.height ≤ h.height then c else { c with held := some h }
  | none => { c with held := some h }

/-- `report_headers`. -/
def report (c : Cells) (r : Report) : Cells :=
  let c := r.firstHeld.elim c c.hold
  r.firstRejection.elim c c.refuse

end Cells

/-- `BitsRule`. -/
structure BitsRule where
  expectedBits : HeaderRec → Option UInt32
  expand : UInt32 → Option Hash32

/-- What a header meets: the clocks, the chain as it is seen, the budgets and the sink. -/
structure Around where
  now : Nat
  nowUnix : Nat
  tipHeight : Nat
  /-- `ChainView::header_by_hash`. -/
  header : Hash32 → Option HeaderRec
  anchor : Option Anchor
  verifyAllPow : Bool
  bits : BitsRule
  quarantined : Hash32 → Bool
  pow : RawHeader → Bool
  /-- The budgets let one more header be verified. -/
  affordable : Bool
  capacity : SinkCapacity
  /-- An error of the sink, but for a break that is in its cell. -/
  stop : Option SinkError
  /-- Reports that come in while the sink takes the header. -/
  during : List Report

namespace Cells

/-- What is seen of an error of the sink. -/
def stopNotes (h : HeaderRec) : SinkError → List HeaderNote
  | .full | .fatal _ => [.called]
  | .invalid _ => [.called, .invalid h]
  | .refusedAt height _ => [.called, .refusedAt height]

/-- `ValidatorSink::submit_headers` of one header. -/
def submit (c : Cells) (h : HeaderRec) (a : Around) :
    Except SinkError (Option Held) × Cells × List HeaderNote :=
  match c.refusal with
  | some b =>
    let e := SinkError.refusedAt b.height b.why
    (.error e, { c with refusal := none }, stopNotes h e)
  | none =>
    match a.stop with
    | some e => (.error e, c, stopNotes h e)
    | none =>
      -- the header is in the queue, and the chain may be done with it before the cell is read
      let c := a.during.foldl report c
      (.ok c.held, { c with held := none },
        .called :: .handed h :: (a.during.map .report ++ [.answered]))

end Cells

/-! ## The gates -/

/-- `Rejection`, of those that come before the sink. -/
inductive Rejection where
  | badShape (why : String)
  | notContiguous
  | unsolicitedAnswer
  | unknownParent (prev : Hash32)
  | badBits (expected got : UInt32)
  | timePast
  | timeFuture (bySecs : Int)
  | reorgTooDeep (depth : Nat)
deriving DecidableEq

/-- `Rejection::is_permanent`. -/
def Rejection.isPermanent : Rejection → Bool
  | .badShape _ | .notContiguous | .badBits _ _ | .timePast => true
  | .unsolicitedAnswer | .unknownParent _ | .timeFuture _ | .reorgTooDeep _ => false

/-- One header of `check_structure`, behind the one before it. -/
def checkShape [Crypto] (prev : Option HeaderRec) (raw : RawHeader) : Except Rejection HeaderRec := do
  let h := Header.ofRaw raw
  Except.require (h.extRoot = Arr.zero 32) (.badShape "ext_root is reserved and must be zero")
  Except.require (h.authorNoteLen.toNat ≤ authorNoteMaxBytes)
    (.badShape "author_note_len out of range")
  let r : HeaderRec :=
    { height := h.height.toNat
      hash := headerHash raw
      prevHash := h.prevHash
      time := h.time.toNat
      bits := h.bits
      target := Arr.zero 32
      raw }
  Except.require (prev.all fun p ↦ r.height = p.height + 1 ∧ r.prevHash = p.hash) .notContiguous
  return r

/-- The loop of `check_structure`. -/
def checkShapes [Crypto] (prev : Option HeaderRec) : List RawHeader → Except Rejection (List HeaderRec)
  | [] => .ok []
  | raw :: rest => do
    let r ← checkShape prev raw
    let rs ← checkShapes (some r) rest
    return r :: rs

/-- `check_structure`. -/
def checkStructure [Crypto] (raw : List RawHeader) (expectFirstParent : Option Hash32) :
    Except Rejection (List HeaderRec) := do
  Except.require (raw ≠ []) (.badShape "empty HEADERS batch")
  Except.require (raw.length ≤ maxHeadersPerMsg) (.badShape "HEADERS count over cap")
  let rs ← checkShapes none raw
  Except.require (expectFirstParent.all fun p ↦ rs.head?.all (·.prevHash = p)) .unsolicitedAnswer
  return rs

/-- `ContextParams`. -/
structure ContextParams where
  nowUnix : Nat
  mtp : Option Nat
  forkDepth : Nat
  branchContainsAnchor : Bool
deriving DecidableEq

/-- `check_context`, with the header as it leaves it. -/
def checkContext (rule : BitsRule) (parent h : HeaderRec) (p : ContextParams) :
    Except Rejection HeaderRec := do
  Except.require (h.prevHash = parent.hash) (.unknownParent h.prevHash)
  Except.require (h.height = parent.height + 1) .notContiguous
  (rule.expectedBits parent).forM fun expected ↦
    Except.require (h.bits = expected) (.badBits expected h.bits)
  match rule.expand h.bits with
  | none => throw (.badBits 0 h.bits)
  | some target =>
    Except.require (p.mtp.all (· < h.time)) .timePast
    let limit := saturatingAdd u64Max p.nowUnix maxFutureDriftSecs
    Except.require (h.time ≤ limit) (.timeFuture ((h.time : Int) - limit))
    Except.require (p.forkDepth ≤ maxReorgDepth ∨ p.branchContainsAnchor) (.reorgTooDeep p.forkDepth)
    return { h with target }

/-! ## The engine -/

/-- The header `note_committed` remembers. -/
structure CommittedHeader where
  hash : Hash32
  height : Nat
  from_ : PeerId
  at_ : Nat
deriving DecidableEq

/-- `SyncEngine`, what it keeps of headers. -/
structure SyncEngine where
  staging : Staging
  /-- `ForkTree`. -/
  tree : Fifo Hash32 HeaderRec
  known : Fifo Hash32 HeaderRec
  /-- `RejectCache`. -/
  reject : Fifo Hash32 Unit
  committed : Option CommittedHeader

/-- `Staging::staged_tip`. -/
def Staging.stagedTip (s : Staging) : Hash32 :=
  (s.queue.getLast?.map (·.record.hash)).getD s.verifiedTip

namespace SyncEngine

/-- `SyncEngine::new`. -/
def new (tipHeight : Nat) (tip : Hash32) (seed : UInt64) : SyncEngine where
  staging := Staging.new tipHeight tip seed
  tree := .empty
  known := .empty
  reject := .empty
  committed := none

variable (e : SyncEngine)

/-- `SyncEngine::deduplicates`. -/
def Deduplicates (h : Hash32) : Prop := h ∈ e.known.rows ∨ h ∈ e.tree.rows

instance (h : Hash32) : Decidable (e.Deduplicates h) :=
  inferInstanceAs (Decidable (h ∈ e.known.rows ∨ h ∈ e.tree.rows))

/-- `ForkTree::insert`. -/
def insertTree (r : HeaderRec) : SyncEngine :=
  { e with tree := e.tree.insert forkHeadersMax r.hash r }

/-- `ForkTree::truncate_from`. -/
def truncateTree (height : Nat) : SyncEngine :=
  { e with tree := e.tree.eraseWhere (height ≤ ·.height) }

/-- `RejectCache::insert`. -/
def insertReject (h : Hash32) : SyncEngine :=
  { e with reject := e.reject.insert rejectCacheMax h () }

/-- `Staging::truncate_from`. -/
def truncateStaging (height : Nat) : SyncEngine :=
  { e with staging := e.staging.truncateFrom height }

/-- `SyncEngine::remember`. -/
def remember (r : HeaderRec) : SyncEngine :=
  { e with known := e.known.insert knownHeadersMax r.hash r }

/-- `SyncEngine::forget_known_from`. -/
def forgetKnownFrom (height : Nat) : SyncEngine :=
  { e with known := e.known.eraseWhere (height ≤ ·.height) }

/-- `SyncEngine::forget_stale_known`. -/
def forgetStaleKnown (tipHeight : Nat) : SyncEngine :=
  let floor := tipHeight - maxReorgDepth
  if floor = 0 then e else { e with known := e.known.eraseWhere (·.height ≤ floor) }

/-- `SyncEngine::note_committed`. -/
def noteCommitted (hash : Hash32) (height : Nat) (from_ : PeerId) (now : Nat) : SyncEngine :=
  if e.committed.any (height ≤ ·.height) then e
  else { e with committed := some { hash, height, from_, at_ := now } }

/-- `SyncEngine::note_held`. -/
def noteHeld : Option Held → SyncEngine
  | none => e
  | some h =>
    { e with
      known := e.known.erase h.hash
      tree := e.tree.erase h.hash
      committed := e.committed.filter (·.hash ≠ h.hash) }

/-- `SyncEngine::repair_break`. -/
def repairBreak (height : Nat) : SyncEngine :=
  let e := (e.forgetKnownFrom height).truncateStaging height
  { e.truncateTree height with committed := none }

/-- The heights and hashes that `audit_commit` asks the chain for. -/
def suspects (tipHeight : Nat) : List (Nat × Hash32) :=
  let floor := tipHeight - maxReorgDepth
  let rows := (e.known.rows.entries.filter (floor < ·.2.height)).map fun row ↦ (row.2.height, row.1)
  (rows.mergeSort fun x y ↦ x.1 < y.1 ∨ x.1 = y.1 ∧ ¬y.2 < x.2).take wantedMax

/-- `SyncEngine::audit_commit`. -/
def auditCommit (a : Around) : SyncEngine :=
  match e.committed with
  | none => e
  | some c =>
    if ¬expired a.now c.at_ trackingAuditMs then e
    else if (a.header c.hash).isSome then { e with committed := none }
    else
      let missing := (e.suspects a.tipHeight).find? fun s ↦ (a.header s.2).isNone
      let height := (missing.map (·.1)).getD c.height
      { (e.forgetKnownFrom height).truncateTree height with committed := none }

/-- `SyncEngine::lookup`. -/
def lookup (a : Around) (h : Hash32) : Option HeaderRec :=
  (((e.staging.index.lookup h).or (e.known.lookup h)).or (e.tree.lookup h)).or (a.header h)

/-- The times that `mtp_for` collects, from `cur` back and no more than `n`. -/
def timesFrom (a : Around) : Nat → HeaderRec → Option (List Nat)
  | 0, _ => some []
  | n + 1, cur =>
    if n = 0 ∨ cur.height = 0 then some [cur.time]
    else do
      let parent ← e.lookup a cur.prevHash
      let times ← timesFrom a n parent
      return cur.time :: times

/-- `SyncEngine::mtp_for`. -/
def mtpFor (a : Around) (parent : HeaderRec) : Option Nat :=
  (e.timesFrom a medianTimeSpan parent).map medianTimePast

/-- `SyncEngine::branch_has_anchor`. -/
def branchHasAnchor (a : Around) (r : HeaderRec) : Bool :=
  a.anchor.any fun anchor ↦ anchor.height ≤ r.height ∧ (e.lookup a anchor.hash).isSome

/-- What `check_context` is told beside the header and its parent. -/
def contextParams (a : Around) (parent r : HeaderRec) : ContextParams where
  nowUnix := a.nowUnix
  mtp := e.mtpFor a parent
  forkDepth := a.tipHeight - parent.height
  branchContainsAnchor := e.branchHasAnchor a r

/-- What the gates of `on_headers` make of a header. -/
inductive Gated where
  /-- It goes on, as `check_context` leaves it. -/
  | passed (r : HeaderRec)
  /-- It is passed over. -/
  | skipped
  /-- The batch ends here. -/
  | ended (e : SyncEngine)

/-- The body of the loop of `on_headers`, up to what is done with a header that gets through. -/
def vet (r : HeaderRec) (a : Around) : Gated :=
  if r.hash ∈ e.reject.rows then .skipped
  else if r.hash ∈ e.known.rows ∨ r.hash ∈ e.staging.index ∨ (a.header r.hash).isSome then .skipped
  else if a.quarantined r.hash then .skipped
  else
    match e.lookup a r.prevHash with
    | none => .ended e
    | some parent =>
      match checkContext a.bits parent r (e.contextParams a parent r) with
      | .ok r => .passed r
      | .error rej => .ended (if rej.isPermanent then e.insertReject r.hash else e)

/-- `SyncEngine::admit_announced`, and whether the batch goes on. -/
def admitAnnounced (c : Cells) (peer : PeerId) (r : HeaderRec) (a : Around) :
    SyncEngine × Cells × List HeaderNote × Bool :=
  if r.hash ∈ e.tree.rows then (e, c, [], true)
  else if ¬a.affordable then (e, c, [], false)
  else
    let e := { e with staging := { e.staging with powCalls := e.staging.powCalls + 1 } }
    if ¬a.pow r.raw then (e.insertReject r.hash, c, [.checked r.raw false], false)
    else
      match c.submit r a with
      | (.ok held, c, notes) =>
        (((e.noteHeld held).insertTree r).noteCommitted r.hash r.height peer a.now, c,
          .checked r.raw true :: notes, true)
      | (.error (.refusedAt height _), c, notes) =>
        (e.repairBreak height, c, .checked r.raw true :: notes, false)
      | (.error _, c, notes) => (e, c, .checked r.raw true :: notes, false)

/-- The body of the loop of `on_headers`, and whether the batch goes on. -/
def deliver (c : Cells) (peer : PeerId) (isSync : Bool) (r : HeaderRec) (a : Around) :
    SyncEngine × Cells × List HeaderNote × Bool :=
  match e.vet r a with
  | .skipped => (e, c, [], true)
  | .ended e => (e, c, [], false)
  | .passed r =>
    if ¬isSync then e.admitAnnounced c peer r a
    else
      match e.staging.push r peer with
      | (_, false) => (e, c, [], false)
      | (staging, true) => ({ e with staging }.insertTree r, c, [.staged r], true)

/-- What `verify_pass` does with a header that was let through, and whether the pass goes on. -/
def commit (c : Cells) (h : HeaderRec) (from_ : PeerId) (a : Around) :
    SyncEngine × Cells × List HeaderNote × Bool :=
  match c.submit h a with
  | (.ok held, c, notes) =>
    let e := e.noteHeld held
    let e := { e with staging := e.staging.commitFront.1 }
    ((e.remember h).noteCommitted h.hash h.height from_ a.now, c, notes, true)
  | (.error (.invalid _), c, notes) =>
    ((e.truncateStaging h.height).truncateTree h.height, c, notes, false)
  | (.error (.refusedAt height _), c, notes) => (e.repairBreak height, c, notes, false)
  | (.error _, c, notes) => (e, c, notes, false)

/-- The body of the loop of `verify_pass`, and whether the pass goes on. -/
def verifyTurn (c : Cells) (a : Around) : SyncEngine × Cells × List HeaderNote × Bool :=
  if e.staging.queue = [] then (e, c, [], false)
  else if ¬a.capacity.admits headerBytes then (e, c, [], false)
  else if e.staging.frontCostsInterpreter a.anchor a.verifyAllPow ∧ ¬a.affordable then
    (e, c, [], false)
  else
    let (staging, outcome, calls) := e.staging.verifyStep a.pow a.anchor a.verifyAllPow
    let checks := calls.map fun call ↦ HeaderNote.checked call.1 call.2
    let e := { e with staging }
    match outcome with
    | .idle => (e, c, checks, false)
    | .verified h from_ | .fastForwarded h from_ =>
      let (e, c, notes, more) := e.commit c h from_ a
      (e, c, checks ++ notes, more)
    | .badPow h _ =>
      let e := ((e.insertReject h.hash).truncateStaging h.height).truncateTree h.height
      (e.forgetKnownFrom h.height, c, checks, false)
    | .anchorMismatch height got _ =>
      (((e.insertReject got).truncateStaging height).forgetKnownFrom height, c, checks, false)

/-! ## Calls -/

/-- The loop of `on_headers`, with what is around each header. -/
def deliverAll (peer : PeerId) (isSync : Bool) :
    SyncEngine → Cells → List HeaderRec → (Nat → Around) → SyncEngine × Cells × List HeaderNote
  | e, c, [], _ => (e, c, [])
  | e, c, r :: rs, around =>
    match e.deliver c peer isSync r (around 0) with
    | (e, c, notes, false) => (e, c, notes)
    | (e, c, notes, true) =>
      let (e, c, later) := deliverAll peer isSync e c rs fun i ↦ around (i + 1)
      (e, c, notes ++ later)

/-- `SyncEngine::on_headers`.  A peer that is not synced from may send a few headers unasked, and
of an answer only as many are looked at. -/
def onHeaders [Crypto] (c : Cells) (peer : PeerId) (isSync solicited frameAdmitted : Bool)
    (raw : List RawHeader) (around : Nat → Around) : SyncEngine × Cells × List HeaderNote :=
  if ¬frameAdmitted then (e, c, [])
  else if ¬isSync ∧ unsolicitedHeadersMax < raw.length ∧ ¬solicited then (e, c, [])
  else
    let raw := if ¬isSync ∧ unsolicitedHeadersMax < raw.length then raw.take invHeadersAdmitMax else raw
    let expect := if isSync ∧ e.staging.queue ≠ [] then some e.staging.stagedTip else none
    match checkStructure raw expect with
    | .error _ => (e, c, [])
    | .ok rs => deliverAll peer isSync e c rs around

/-- The loop of `verify_pass`, with what is around each turn. -/
def verifyLoop :
    Nat → SyncEngine → Cells → (Nat → Around) → SyncEngine × Cells × List HeaderNote
  | 0, e, c, _ => (e, c, [])
  | n + 1, e, c, around =>
    match e.verifyTurn c (around 0) with
    | (e, c, notes, false) => (e, c, notes)
    | (e, c, notes, true) =>
      let (e, c, later) := verifyLoop n e c fun i ↦ around (i + 1)
      (e, c, notes ++ later)

/-- `SyncEngine::verify_pass`.  A turn that goes on commits a header. -/
def verifyPass (c : Cells) (around : Nat → Around) : SyncEngine × Cells × List HeaderNote :=
  verifyLoop (e.staging.queue.length + 1) e c around

end SyncEngine

end Plaine.P2p

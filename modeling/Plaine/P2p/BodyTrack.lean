import Plaine.Consensus.Constants
import Plaine.Lib.Table
import Plaine.P2p.Staging

/-!
# The body track

`sync/body_track.rs`, and the parts of `sync/mod.rs` that pass heights: bodies are requested for the
headers that are wanted, kept until their height comes, and handed to the sink in that order.
-/

namespace Plaine.P2p

open Plaine.Lib Plaine.Consensus

/-! ## Constants -/

/-- `INBOX_BYTES`. -/
def inboxBytes : Nat := 2 * 1024 * 1024

/-- `BODY_TIMEOUT_MS`. -/
def bodyTimeoutMs : Nat := 20000

/-- `BODY_INFLIGHT_TAIL_MS`. -/
def bodyInflightTailMs : Nat := 60000

/-- `BODY_ATTEMPTS`. -/
def bodyAttempts : Nat := 3

/-- `HOL_TIMEOUT_MS`. -/
def holTimeoutMs : Nat := 30000

/-- `HOL_PARALLEL`. -/
def holParallel : Nat := 3

/-- `HOL_WINDOW_FREEZE`. -/
def holWindowFreeze : Nat := 64

/-- `BODY_STARVE_WIDEN_MS`. -/
def bodyStarveWidenMs : Nat := 120000

/-- `BODY_STARVE_REPORT_MS`. -/
def bodyStarveReportMs : Nat := 600000

/-- `BODY_UNAVAILABLE_RETRY_MS`. -/
def bodyUnavailableRetryMs : Nat := 60000

/-- `BODY_WINDOW_HASHES`. -/
def bodyWindowHashes : Nat := 128

/-- `BODY_WINDOW_BYTES`. -/
def bodyWindowBytes : Nat := 48 * 1024 * 1024

/-- `BODY_INFLIGHT_PER_PEER_MAX`. -/
def bodyInflightPerPeerMax : Nat := 16

/-- `READY_AHEAD_BLOCKS`. -/
def readyAheadBlocks : Nat := 16

/-- `READY_AHEAD_BYTES`. -/
def readyAheadBytes : Nat := 16 * 1024 * 1024

/-- `CHAIN_CATCHUP_MAX`. -/
def chainCatchupMax : Nat := 64

/-! ## The track -/

/-- `Mono::expired`: a clock of milliseconds. -/
def expired (now start deadline : Nat) : Bool := deadline ≤ now - start

/-- `BState`. -/
inductive BState where
  | idle
  | windowing
  | applying
  | starved
deriving DecidableEq

/-- `InFlight`. -/
structure InFlight where
  hash : Hash32
  height : Nat
  peer : PeerId
  since : Nat
  tried : List PeerId
  attempts : Nat
  escalated : Bool
  refused : Bool
deriving DecidableEq

/-- `Supplier`. -/
structure Supplier where
  id : PeerId
  horizon : Nat
deriving DecidableEq

/-- The values of `Condition` that the track says. -/
inductive BodyCondition where
  | bodiesUnappliable (applied ready missing : Nat)
  | bodyUnavailable (height : Nat)
deriving DecidableEq

/-- `BodyAction`. -/
inductive BodyAction where
  | request (peer : PeerId) (hashes : List Hash32)
  | deadlineMiss (peer : PeerId)
  | slotLost (peer : PeerId)
  | widenSuppliers
  | say (condition : BodyCondition)
deriving DecidableEq

/-- `BodyTrack`. -/
structure BodyTrack where
  state : BState
  applied : Nat
  inflight : List InFlight
  ready : AList fun _ : Nat ↦ Hash32 × Bytes
  readyBytes : Nat
  ewmaBytes : Nat
  holSince : Option Nat
  starvedSince : Option Nat
  unappliableSince : Option Nat
  lastUnappliable : Option Nat
  lastReport : Option Nat
  starved : List Hash32
  tail : List (Hash32 × Nat)
  requestsIssued : Nat

namespace BodyTrack

/-- `BodyTrack::new`. -/
def new (applied : Nat) : BodyTrack where
  state := .idle
  applied := applied
  inflight := []
  ready := ∅
  readyBytes := 0
  ewmaBytes := 20 * 1024
  holSince := none
  starvedSince := none
  unappliableSince := none
  lastUnappliable := none
  lastReport := none
  starved := []
  tail := []
  requestsIssued := 0

/-- `BodyTrack::per_peer_inflight`. -/
def perPeerInflight (b : BodyTrack) : Nat :=
  min (max (inboxBytes / max b.ewmaBytes 1) 1) bodyInflightPerPeerMax

/-- `BodyTrack::window_admits`. -/
def windowAdmits (b : BodyTrack) : Prop :=
  b.inflight.length < bodyWindowHashes ∧
    b.inflight.length * b.ewmaBytes + b.ewmaBytes ≤ bodyWindowBytes

instance (b : BodyTrack) : Decidable b.windowAdmits :=
  inferInstanceAs (Decidable (_ ∧ _))

/-- `BodyTrack::is_inflight`. -/
def isInflight (b : BodyTrack) (hash : Hash32) : Bool := b.inflight.any (·.hash = hash)

/-- `BodyTrack::ready_full`. -/
def readyFull (b : BodyTrack) : Bool :=
  readyAheadBlocks ≤ b.ready.entries.length || readyAheadBytes ≤ b.readyBytes

/-! ### Requests -/

/-- One pass over the suppliers in `schedule`, from the cursor on: the supplier that has a slot, and
the cursor behind it. -/
def place (b : BodyTrack) (suppliers : List Supplier) (perPeer height : Nat) (first : Bool) :
    Nat → Nat → Nat × Option Supplier
  | 0, cursor => (cursor, none)
  | tries + 1, cursor =>
    match suppliers[cursor % suppliers.length]? with
    | none => (cursor, none)
    | some s =>
      if first ∧ s.horizon < height then b.place suppliers perPeer height first tries (cursor + 1)
      else if b.inflight.countP (·.peer = s.id) < perPeer then (cursor + 1, some s)
      else b.place suppliers perPeer height first tries (cursor + 1)

/-- The loop of `schedule`: what is placed, in order. -/
def assign (b : BodyTrack) (suppliers : List Supplier) (perPeer ceiling now : Nat) :
    List (Nat × Hash32) → Nat → BodyTrack × List (PeerId × Hash32)
  | [], _ => (b, [])
  | (height, hash) :: wanted, cursor =>
    if ceiling < height then (b, [])
    else if ¬b.windowAdmits then (b, [])
    else if b.isInflight hash ∨ height ∈ b.ready then
      b.assign suppliers perPeer ceiling now wanted cursor
    else
      -- the suppliers that claim the height, then all of them
      let (cursor, placed) :=
        match b.place suppliers perPeer height true suppliers.length cursor with
        | (cursor, some s) => (cursor, some s)
        | (cursor, none) => b.place suppliers perPeer height false suppliers.length cursor
      match placed with
      | none => (b, [])
      | some s =>
        let f : InFlight :=
          { hash, height, peer := s.id, since := now, tried := [s.id], attempts := 0,
            escalated := false, refused := false }
        let (b, rest) := { b with inflight := b.inflight ++ [f] }.assign suppliers perPeer ceiling
          now wanted cursor
        (b, (s.id, hash) :: rest)

/-- `BodyTrack::schedule`. -/
def schedule (b : BodyTrack) (wanted : List (Nat × Hash32)) (suppliers : List Supplier)
    (now : Nat) : BodyTrack × List BodyAction :=
  if suppliers = [] ∨ wanted = [] then (b, [])
  else if b.readyFull then (b, [])
  else
    let ceiling :=
      if b.holSince.isSome then min (b.applied + holWindowFreeze) (b.applied + readyAheadBlocks)
      else b.applied + readyAheadBlocks
    let (b, assigned) := b.assign suppliers b.perPeerInflight ceiling now wanted 0
    let peers := (assigned.map (·.1)).dedup.mergeSort
    ({ b with
        requestsIssued := b.requestsIssued + assigned.length
        state := if b.inflight = [] then b.state else .windowing },
      peers.map fun peer ↦ .request peer ((assigned.filter (·.1 = peer)).map (·.2)))

/-- `BodyTrack::remember_requested`. -/
def rememberRequested (b : BodyTrack) (hash : Hash32) (now : Nat) : BodyTrack :=
  if b.tail.any (·.1 = hash) then b
  else
    let tail := b.tail ++ [(hash, now)]
    { b with tail := tail.drop (tail.length - bodyWindowHashes * 2) }

/-- `BodyTrack::take_from_tail`. -/
def takeFromTail (b : BodyTrack) (hash : Hash32) (now : Nat) : BodyTrack × Bool :=
  match b.tail.findIdx? fun (h, t) ↦ h = hash ∧ ¬expired now t bodyInflightTailMs with
  | some i => ({ b with tail := b.tail.eraseIdx i }, true)
  | none => (b, false)

/-- `BodyTrack::on_notfound`. -/
def onNotFound (b : BodyTrack) (hash : Hash32) (from_ : PeerId) (now : Nat) : BodyTrack × Bool :=
  match b.inflight.findIdx? fun f ↦ f.hash = hash ∧ f.peer = from_ with
  | some i =>
    ({ b with inflight := b.inflight.modify i fun f ↦
        { f with refused := true, since := now - bodyTimeoutMs } }, true)
  | none => (b, false)

/-- `BodyTrack::release_peer`. -/
def releasePeer (b : BodyTrack) (peer : PeerId) (now : Nat) : BodyTrack :=
  ((b.inflight.filter (·.peer = peer)).map (·.hash)).foldl (·.rememberRequested · now)
    { b with inflight := b.inflight.filter (·.peer ≠ peer) }

/-- `BodyTrack::clear_starvation`. -/
def clearStarvation (b : BodyTrack) (hash : Hash32) : BodyTrack :=
  let b := { b with starved := b.starved.filter (· ≠ hash) }
  if b.starved = [] then
    { b with
      starvedSince := none
      lastReport := none
      state := if b.state = .starved then .windowing else b.state }
  else b

/-! ### The clock -/

/-- One step of the retries in `tick`, which go from the last request to the first. -/
def retryOne (suppliers : List Supplier) (now : Nat) (f : InFlight)
    (r : BodyTrack × List BodyAction) : BodyTrack × List BodyAction :=
  let (b, out) := r
  if ¬expired now f.since bodyTimeoutMs then ({ b with inflight := f :: b.inflight }, out)
  else
    let out := if f.refused then out else out ++ [.deadlineMiss f.peer]
    let f := { f with refused := false, attempts := f.attempts + 1 }
    let next := (suppliers.find? fun s ↦ s.id ∉ f.tried ∧ f.height ≤ s.horizon).orElse fun _ ↦
      suppliers.find? fun s ↦ s.id ∉ f.tried
    match next with
    | some s =>
      ({ b with
          inflight := { f with peer := s.id, since := now, tried := f.tried ++ [s.id] } :: b.inflight
          requestsIssued := b.requestsIssued + 1 },
        out ++ [.request s.id [f.hash]])
    | none =>
      if bodyAttempts ≤ f.attempts then
        let b := b.rememberRequested f.hash now
        ({ b with
            starved := if f.hash ∈ b.starved then b.starved else b.starved ++ [f.hash]
            starvedSince := b.starvedSince.or (some now)
            state := .starved }, out)
      else
        ({ b with
            inflight := { f with since := now } :: b.inflight
            requestsIssued := b.requestsIssued + 1 },
          out ++ [.request f.peer [f.hash]])

/-- The request at the head of the line in `tick`, which goes to several suppliers at once. -/
def escalate (b : BodyTrack) (suppliers : List Supplier) (now : Nat) :
    BodyTrack × List BodyAction :=
  match b.holSince with
  | none => (b, [])
  | some since =>
    if ¬expired now since holTimeoutMs then (b, [])
    else
      match b.inflight.findIdx? (·.height = b.applied + 1) with
      | none => (b, [])
      | some i =>
        match b.inflight[i]? with
        | none => (b, [])
        | some f =>
          if f.escalated then (b, [])
          else
            let claiming := (suppliers.filter (f.height ≤ ·.horizon)).take holParallel
            let peers := (if claiming = [] then suppliers.take holParallel else claiming).map (·.id)
            ({ b with
                inflight := b.inflight.set i { f with escalated := true, since := now }
                requestsIssued := b.requestsIssued + peers.length },
              peers.map fun peer ↦ .request peer [f.hash])

/-- Since when, in `tick`, bodies cannot be applied. -/
def noteUnappliable (b : BodyTrack) (now : Nat) : BodyTrack :=
  let head := b.applied + 1
  if b.ready.entries ≠ [] ∧ head ∉ b.ready ∧ ¬b.inflight.any (·.height = head) then
    { b with unappliableSince := b.unappliableSince.or (some now) }
  else { b with unappliableSince := none, lastUnappliable := none }

/-- The report in `tick` of bodies that cannot be applied. -/
def reportUnappliable (b : BodyTrack) (now : Nat) : BodyTrack × List BodyAction :=
  let b := b.noteUnappliable now
  match b.unappliableSince with
  | none => (b, [])
  | some since =>
    if expired now since holTimeoutMs ∧
        b.lastUnappliable.all (expired now · bodyUnavailableRetryMs) then
      ({ b with lastUnappliable := some now },
        [.say (.bodiesUnappliable b.applied b.ready.entries.length (b.applied + 1)), .widenSuppliers])
    else (b, [])

/-- The report in `tick` of bodies that nobody has. -/
def reportStarved (b : BodyTrack) (now : Nat) : BodyTrack × List BodyAction :=
  match b.starvedSince with
  | none => (b, [])
  | some since =>
    let widen := if bodyStarveWidenMs ≤ now - since ∧ now - since < bodyStarveReportMs then
      [.widenSuppliers] else []
    if bodyStarveReportMs ≤ now - since ∧
        b.lastReport.all (expired now · bodyUnavailableRetryMs) then
      ({ b with lastReport := some now }, widen ++ [.say (.bodyUnavailable (b.applied + 1))])
    else (b, widen)

/-- `BodyTrack::tick`. -/
def tick (b : BodyTrack) (suppliers : List Supplier) (now : Nat) : BodyTrack × List BodyAction :=
  let (b, retried) := b.inflight.foldr (retryOne suppliers now) ({ b with inflight := [] }, [])
  let (b, escalated) := b.escalate suppliers now
  let (b, unappliable) := b.reportUnappliable now
  let (b, starved) := b.reportStarved now
  (b, retried ++ escalated ++ unappliable ++ starved)

/-! ### Bodies -/

/-- The request that `on_body` finds answered. -/
def takeRequest (b : BodyTrack) (hash : Hash32) (now : Nat) : BodyTrack × Bool :=
  match b.inflight.findIdx? (·.hash = hash) with
  | some i => ({ b with inflight := b.inflight.eraseIdx i }, true)
  | none => b.takeFromTail hash now

/-- `BodyTrack::on_body`. -/
def onBody (b : BodyTrack) (hash : Hash32) (bytes : Bytes) (height now : Nat) : BodyTrack × Bool :=
  let (b, known) := b.takeRequest hash now
  if height ≤ b.applied ∨ b.applied + readyAheadBlocks < height then (b, known)
  else
    let b := { b with ewmaBytes := (b.ewmaBytes * 7 + bytes.length) / 8 }
    if height ∈ b.ready then (b, known)
    else
      ({ b with
          readyBytes := b.readyBytes + bytes.length
          ready := b.ready.insert height (hash, bytes) }, known)

/-- `BodyTrack::note_chain_has`. -/
def noteChainHas (b : BodyTrack) (height : Nat) : BodyTrack × Bool :=
  if height ≤ b.applied then (b, false) else ({ b with applied := height }, true)

/-- A call to the closure of `drain_applicable`, and its answer. -/
structure Call where
  height : Nat
  hash : Hash32
  bytes : Bytes
  answer : Bool
deriving DecidableEq

/-- The loop of `drain_applicable`. -/
def drainLoop (apply : Nat → Hash32 → Bytes → Bool) : Nat → BodyTrack → BodyTrack × List Call
  | 0, b => (b, [])
  | fuel + 1, b =>
    let next := b.applied + 1
    match b.ready.lookup next with
    | none => (b, [])
    | some (hash, bytes) =>
      if apply next hash bytes then
        let (b, calls) := drainLoop apply fuel { b with
          ready := b.ready.erase next
          readyBytes := b.readyBytes - bytes.length
          applied := next
          holSince := none }
        (b, ⟨next, hash, bytes, true⟩ :: calls)
      else
        -- the body is put back
        ({ b with ready := (b.ready.erase next).insert next (hash, bytes) },
          [⟨next, hash, bytes, false⟩])

/-- A stale height in `drain_applicable`. -/
def dropReady (b : BodyTrack) (height : Nat) : BodyTrack :=
  match b.ready.lookup height with
  | none => b
  | some (_, bytes) =>
    { b with ready := b.ready.erase height, readyBytes := b.readyBytes - bytes.length }

/-- The end of `drain_applicable`. -/
def settle (b : BodyTrack) (now : Nat) : BodyTrack :=
  let head := decide (b.applied + 1 ∈ b.ready)
  let b :=
    if b.ready.entries ≠ [] ∧ !head then { b with holSince := b.holSince.or (some now) }
    else if head then { b with holSince := none }
    else b
  if b.inflight = [] ∧ b.ready.entries = [] then { b with state := .idle }
  else if b.ready.entries ≠ [] then { b with state := .applying }
  else b

/-- `BodyTrack::drain_applicable`: the loop looks once more than there are bodies. -/
def drainApplicable (b : BodyTrack) (apply : Nat → Hash32 → Bytes → Bool) (now : Nat) :
    BodyTrack × List Call :=
  let (b, calls) := drainLoop apply (b.ready.entries.length + 1) b
  (((b.ready.keys.filter (· ≤ b.applied)).foldl dropReady b).settle now, calls)

end BodyTrack

/-! ## What passes heights -/

/-- `SinkError`. -/
inductive SinkError where
  | full
  | invalid (why : String)
  | refusedAt (height : Nat) (why : String)
  | fatal (why : String)
deriving DecidableEq

/-- `SinkCapacity`. -/
structure SinkCapacity where
  blocks : Nat
  bytes : Nat
deriving DecidableEq

/-- `SinkCapacity::admits`. -/
def SinkCapacity.admits (c : SinkCapacity) (bytes : Nat) : Bool := 0 < c.blocks && bytes ≤ c.bytes

/-- The sink when a body comes to it: the room it shows, and what `submit_block` would answer. -/
structure SinkTurn where
  capacity : SinkCapacity
  answer : Except SinkError Unit
deriving DecidableEq

/-- The sinks at each hand-over of a drain. -/
abbrev Turns : Type := Nat → Hash32 → Bytes → SinkTurn

/-- What an answer to `submit_block` is taken for in `drain_bodies`. -/
def applies : Except SinkError Unit → Bool
  | .ok () => true
  | .error .full => false
  | .error (.invalid _) | .error (.refusedAt _ _) => true
  | .error (.fatal _) => false

namespace BodyTrack

/-- The closure of `Sync::drain_bodies`. -/
def applyBody (sink : Turns) (height : Nat) (hash : Hash32) (bytes : Bytes) : Bool :=
  (sink height hash bytes).capacity.admits bytes.length && applies (sink height hash bytes).answer

/-- `Sync::catch_up_to_the_chain`, with the heights that are passed. -/
def catchUp (has : Nat → Bool) : Nat → BodyTrack → BodyTrack × List Nat
  | 0, b => (b, [])
  | n + 1, b =>
    let next := b.applied + 1
    if ¬has next then (b, [])
    else
      match b.noteChainHas next with
      | (b, false) => (b, [])
      | (b, true) =>
        let (b, heights) := catchUp has n b
        (b, next :: heights)

end BodyTrack

end Plaine.P2p

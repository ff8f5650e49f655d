import Mathlib.Data.Finset.Basic
import Plaine.P2p.BodyTrack
import Plaine.P2p.Wire

/-!
# Transaction relay

`sync/tx_relay.rs`, and the part of `sync/mod.rs` that hands transactions to the pool: announced
transactions are requested, handed over when they come, and announced on.
-/

namespace Plaine.P2p

open Plaine.Lib Plaine.Consensus

/-! ## Constants -/

/-- `KNOWN_TX_PER_PEER`. -/
def knownTxPerPeer : Nat := 16384

/-- `SEEN_TX_GLOBAL`. -/
def seenTxGlobal : Nat := 65536

/-- `TX_POLL_MS`. -/
def txPollMs : Nat := 1000

/-- `INV_TX_PER_MSG`. -/
def invTxPerMsg : Nat := 64

/-- `INV_TXS_PER_MSG_MAX`. -/
def invTxsPerMsgMax : Nat := 512

/-- `TX_INFLIGHT_PER_PEER`. -/
def txInflightPerPeer : Nat := 32

/-- `TX_INFLIGHT_MAX`. -/
def txInflightMax : Nat := 512

/-- `TX_REQUEST_TIMEOUT_MS`. -/
def txRequestTimeoutMs : Nat := 60000

/-- `TX_ANNOUNCE_QUEUE_MAX`. -/
def txAnnounceQueueMax : Nat := 4096

/-! ## Sets of ids -/

/-- `IdSet`. -/
structure IdSet where
  set : Finset Hash32
  order : List Hash32
  cap : Nat
deriving DecidableEq

namespace IdSet

/-- `IdSet::with_cap`. -/
def withCap (cap : Nat) : IdSet := { set := ∅, order := [], cap }

/-- The loop in `insert` that drops the oldest. -/
def trim (cap : Nat) (set : Finset Hash32) : List Hash32 → Finset Hash32 × List Hash32
  | [] => (set, [])
  | old :: order =>
    if cap < (old :: order).length then trim cap (set.erase old) order else (set, old :: order)

/-- `IdSet::insert`. -/
def insert (s : IdSet) (h : Hash32) : IdSet × Bool :=
  if h ∈ s.set then (s, false)
  else
    let (set, order) := trim s.cap (Insert.insert h s.set) (s.order ++ [h])
    ({ s with set, order }, true)

end IdSet

/-! ## The relay -/

/-- The values of `Offence` that the relay charges. -/
inductive TxOffence where
  | unsolicitedBody
  | deadlineMiss
deriving DecidableEq

/-- The values of `Action` that the relay asks for. -/
inductive RelayAction where
  | send (peer : PeerId) (msg : Msg)
  | score (peer : PeerId) (offence : TxOffence)
deriving DecidableEq

/-- `InFlight` of a transaction. -/
structure TxInFlight where
  peer : PeerId
  since : Nat
deriving DecidableEq

/-- `TxRelay`. -/
structure TxRelay where
  seen : IdSet
  known : AList fun _ : PeerId ↦ IdSet
  inflight : AList fun _ : Hash32 ↦ TxInFlight
  pending : List Hash32
  lastPoll : Nat
  ingested : Nat
  announced : Nat
  requested : Nat
  timedOut : Nat
  unsolicited : Nat

namespace TxRelay

/-- `TxRelay::new`. -/
def new : TxRelay where
  seen := .withCap seenTxGlobal
  known := ∅
  inflight := ∅
  pending := []
  lastPoll := 0
  ingested := 0
  announced := 0
  requested := 0
  timedOut := 0
  unsolicited := 0

/-- `TxRelay::inflight_len`. -/
def inflightLen (r : TxRelay) : Nat := r.inflight.keys.length

/-- `TxRelay::peer_inflight`. -/
def peerInflight (r : TxRelay) (peer : PeerId) : Nat :=
  r.inflight.entries.countP (·.2.peer = peer)

/-- `TxRelay::is_requested_from`. -/
def isRequestedFrom (r : TxRelay) (txid : Hash32) (peer : PeerId) : Bool :=
  (r.inflight.lookup txid).any (·.peer = peer)

/-- `TxRelay::note_known`. -/
def noteKnown (r : TxRelay) (peer : PeerId) (txid : Hash32) : TxRelay :=
  { r with
    known := r.known.insert peer
      (((r.known.lookup peer).getD (.withCap knownTxPerPeer)).insert txid).1 }

/-- `TxRelay::peer_knows`. -/
def peerKnows (r : TxRelay) (peer : PeerId) (txid : Hash32) : Bool :=
  (r.known.lookup peer).any (txid ∈ ·.set)

/-- `TxRelay::queue_announce`. -/
def queueAnnounce (r : TxRelay) (txid : Hash32) : TxRelay :=
  if txid ∈ r.pending then r
  else
    let pending := r.pending ++ [txid]
    { r with pending := pending.drop (pending.length - txAnnounceQueueMax) }

/-- `TxRelay::on_peer_gone`. -/
def onPeerGone (r : TxRelay) (peer : PeerId) : TxRelay :=
  let others := (r.inflight.entries.filter (·.2.peer = peer)).map (·.1)
  { r with
    known := r.known.erase peer
    inflight := others.foldl (fun m k ↦ m.erase k) r.inflight }

/-- The loop of `on_announced`: the ids to ask for. -/
def wants (r : TxRelay) (peer : PeerId) : List Hash32 → List Hash32 → TxRelay × List Hash32
  | [], want => (r, want)
  | id :: ids, want =>
    let r := r.noteKnown peer id
    if id ∈ r.seen.set ∨ id ∈ r.inflight then r.wants peer ids want
    else if txInflightMax ≤ r.inflightLen ∨
        txInflightPerPeer ≤ r.peerInflight peer + want.length then (r, want)
    else r.wants peer ids (want ++ [id])

/-- `TxRelay::on_announced`. -/
def onAnnounced (r : TxRelay) (peer : PeerId) (txids : List Hash32) (now : Nat) :
    TxRelay × List RelayAction :=
  let (r, want) := r.wants peer (txids.take invTxsPerMsgMax) []
  if want = [] then (r, [])
  else
    ({ r with
        inflight := want.foldl (fun m id ↦ m.insert id { peer, since := now }) r.inflight
        requested := r.requested + want.length },
      [.send peer (.getData (want.map fun hash ↦ { kind := .tx, hash }))])

/-- `TxRelay::on_tx`. -/
def onTx (r : TxRelay) (peer : PeerId) (txid : Hash32) : TxRelay × List RelayAction × Bool :=
  let r := r.noteKnown peer txid
  if r.isRequestedFrom txid peer then
    let (seen, isNew) := r.seen.insert txid
    ({ r with inflight := r.inflight.erase txid, seen }, [], isNew)
  else ({ r with unsolicited := r.unsolicited + 1 }, [.score peer .unsolicitedBody], false)

/-- `TxRelay::on_accepted`. -/
def onAccepted (r : TxRelay) (txid : Hash32) : TxRelay :=
  { r with ingested := r.ingested + 1 }.queueAnnounce txid

/-- `TxRelay::on_not_found`. -/
def onNotFound (r : TxRelay) (peer : PeerId) (txid : Hash32) : TxRelay :=
  if r.isRequestedFrom txid peer then { r with inflight := r.inflight.erase txid } else r

/-! ### The clock -/

/-- The requests in `on_tick` that got no answer. -/
def dropStale (r : TxRelay) (now : Nat) : TxRelay × List RelayAction :=
  let stale := r.inflight.entries.filter (expired now ·.2.since txRequestTimeoutMs)
  ({ r with
      inflight := (stale.map (·.1)).foldl (fun m k ↦ m.erase k) r.inflight
      timedOut := r.timedOut + stale.length },
    stale.map (.score ·.2.peer .deadlineMiss))

/-- An id of the pool in `on_tick`. -/
def poll (r : TxRelay) (id : Hash32) : TxRelay :=
  let (seen, isNew) := r.seen.insert id
  if isNew then { r with seen }.queueAnnounce id else { r with seen }

/-- The loop of `on_tick` over the peers that are ready: whether one of them is told anything. -/
def announce (r : TxRelay) (batch : List Hash32) : List PeerId → TxRelay × List RelayAction × Bool
  | [] => (r, [], false)
  | peer :: ready =>
    let items := batch.filter (!r.peerKnows peer ·)
    if items = [] then r.announce batch ready
    else
      let (r, out, _) := (items.foldl (·.noteKnown peer ·) r).announce batch ready
      (r, .send peer (.inv (items.map fun hash ↦ { kind := .tx, hash })) :: out, true)

/-- `TxRelay::on_tick`. -/
def onTick (r : TxRelay) (now : Nat) (ready : List PeerId) (mempool : List Hash32) :
    TxRelay × List RelayAction :=
  let (r, late) := r.dropStale now
  let r :=
    if expired now r.lastPoll txPollMs then mempool.foldl poll { r with lastPoll := now } else r
  if r.pending = [] ∨ ready = [] then (r, late)
  else
    let batch := r.pending.take invTxPerMsg
    let (r, out, delivered) := r.announce batch ready
    ({ r with
        announced := if delivered then r.announced + batch.length else r.announced
        pending := r.pending.drop batch.length },
      late ++ out)

end TxRelay

/-! ## Events -/

/-- The values of `Event` that reach the relay, with the sink's answer to a transaction. -/
inductive RelayEvent where
  | announcedTx (peer : PeerId) (txids : List Hash32) (now : Nat)
  | tx (peer : PeerId) (txid : Hash32) (accepted : Bool)
  | notFoundTx (peer : PeerId) (txid : Hash32)
  | tick (now : Nat) (ready : List PeerId) (mempool : List Hash32)
  | disconnected (peer : PeerId)

namespace TxRelay

/-- One event, in `Sync::on_event` or `Sync::on_tick`. -/
def onEvent (r : TxRelay) : RelayEvent → TxRelay × List RelayAction
  | .announcedTx peer txids now => r.onAnnounced peer txids now
  | .tx peer txid accepted =>
    let (r, out, isNew) := r.onTx peer txid
    (if isNew ∧ accepted then r.onAccepted txid else r, out)
  | .notFoundTx peer txid => (r.onNotFound peer txid, [])
  | .tick now ready mempool => r.onTick now ready mempool
  | .disconnected peer => (r.onPeerGone peer, [])

/-- The transaction that an event hands to the sink. -/
def submits (r : TxRelay) : RelayEvent → Option Hash32
  | .tx peer txid _ => if (r.onTx peer txid).2.2 then some txid else none
  | _ => none

end TxRelay

end Plaine.P2p

import Plaine.P2p.RelayRun

/-!
# A transaction that the pool has no room for

The relay notes an id as seen before it has the answer of the pool, and whatever the answer is it
stays noted.  Until as many new ids have been seen as the set holds, the transaction is not asked
for again and not handed over again.
-/

namespace Plaine.P2p

open Plaine.Lib Plaine.Consensus

/-- A transaction comes, and the sink answers. -/
def RelayEvent.answered (peer : PeerId) (txid : Hash32) : Except SinkError Unit → RelayEvent
  | .ok () => .tx peer txid true
  | .error _ => .tx peer txid false

namespace TxRelay

variable {r r' : TxRelay} {peer : PeerId} {id : Hash32} {e : RelayEvent}

/-- An event leads to a request for the id. -/
def Asks (r : TxRelay) (e : RelayEvent) (id : Hash32) : Prop :=
  ∃ peer items, .send peer (.getData items) ∈ (r.onEvent e).2 ∧ id ∈ items.map (·.hash)

/-- What is seen is not asked for. -/
theorem not_asks_of_seen (h : id ∈ r.seen.set) (e : RelayEvent) : ¬r.Asks e id := by
  rintro ⟨peer, items, hsend, hid⟩
  cases e with
  | announcedTx peer' txids now =>
    obtain ⟨-, -, -, -, hasked, -⟩ := r.onAnnounced_spec peer' txids now
    rw [hasked peer items hsend] at hid
    exact (isNew_of_mem_firstNew hid).1 h
  | tx | notFoundTx | tick | disconnected =>
    exact not_getData_of_mem_onEvent (by rintro _ _ _ ⟨⟩) hsend

/-! ## The ids that are seen -/

/-- The ids that an event puts among those seen, new or not. -/
def recorded (r : TxRelay) : RelayEvent → List Hash32
  | .tx peer txid _ => if r.isRequestedFrom txid peer then [txid] else []
  | .tick now _ mempool => if expired now r.lastPoll txPollMs then mempool else []
  | .announcedTx _ _ _ | .notFoundTx _ _ | .disconnected _ => []

theorem Learns.seen_eq (h : Learns r r') : r'.seen = r.seen := by rw [h.1]

theorem Learns.isRequestedFrom_eq (h : Learns r r') (id : Hash32) (peer : PeerId) :
    r'.isRequestedFrom id peer = r.isRequestedFrom id peer := by
  rw [h.1]
  rfl

theorem foldl_poll_seen (h : r.Kept) (ids : List Hash32) :
    (ids.foldl poll r).seen.order = ids.foldl (remember seenTxGlobal) r.seen.order := by
  induction ids generalizing r with
  | nil => rfl
  | cons id ids ih =>
    have hpoll : (r.poll id).seen.order = remember seenTxGlobal r.seen.order id := by
      unfold poll
      rw [h.seen.insert_eq]
      dsimp only
      split
      case isTrue => rw [queueAnnounce_eq]
      case isFalse => rfl
    rw [List.foldl_cons, List.foldl_cons, ih (h.poll id), hpoll]

/-- What an event does to the ids that are seen. -/
theorem seen_onEvent (h : r.Kept) (e : RelayEvent) : (r.onEvent e).1.seen.order =
    (r.recorded e).foldl (remember seenTxGlobal) r.seen.order := by
  cases e with
  | announcedTx peer txids now =>
    obtain ⟨r₁, n, hlearns, heq, -⟩ := r.onAnnounced_spec peer txids now
    change (r.onAnnounced peer txids now).1.seen.order = _
    rw [heq]
    exact congrArg IdSet.order hlearns.seen_eq
  | tx peer txid accepted =>
    have hseen : (r.onTx peer txid).1.seen.order =
        (r.recorded (.tx peer txid accepted)).foldl (remember seenTxGlobal) r.seen.order := by
      unfold onTx recorded
      dsimp only
      rw [(learns_noteKnown r peer txid).isRequestedFrom_eq]
      split
      case isTrue => exact congrArg IdSet.order (congrArg Prod.fst (h.seen.insert_eq txid))
      case isFalse => rfl
    unfold onEvent
    dsimp only
    split
    case isTrue => rw [onAccepted_seen, hseen]
    case isFalse => exact hseen
  | notFoundTx peer txid =>
    change (r.onNotFound peer txid).seen.order = _
    unfold onNotFound
    split
    case isTrue => rfl
    case isFalse => rfl
  | tick now ready mempool =>
    have hstale : (r.dropStale now).1.Kept := h.dropStale now
    have hpoll : (r.dropStale now).1.lastPoll = r.lastPoll := rfl
    have hseen : (r.dropStale now).1.seen = r.seen := rfl
    change (r.onTick now ready mempool).1.seen.order = _
    unfold onTick recorded
    dsimp only
    rw [← hpoll, ← hseen]
    generalize (r.dropStale now).1 = r₁ at hstale
    generalize hpolled : (if expired now r₁.lastPoll txPollMs then
      mempool.foldl poll { r₁ with lastPoll := now } else r₁) = r₂
    have horder : r₂.seen.order = (if expired now r₁.lastPoll txPollMs then mempool else []).foldl
        (remember seenTxGlobal) r₁.seen.order := by
      subst hpolled
      split
      case isTrue =>
        have hkept : Kept { r₁ with lastPoll := now } := { hstale with }
        exact foldl_poll_seen hkept mempool
      case isFalse => rfl
    split
    case isTrue => exact horder
    case isFalse => exact (congrArg IdSet.order (learns_announce r₂ _ ready).seen_eq).trans horder
  | disconnected => rfl

/-- How many of the ids that events put among those seen are new. -/
def newIds (r : TxRelay) : List RelayEvent → Nat
  | [] => 0
  | e :: events =>
    countNew seenTxGlobal r.seen.order (r.recorded e) + (r.onEvent e).1.newIds events

/-- Events from any state. -/
def after (r : TxRelay) (events : List RelayEvent) : TxRelay :=
  events.foldl (fun r e ↦ (r.onEvent e).1) r

/-- An id stays among those seen while fewer new ones come than the set holds. -/
theorem within_after {k : Nat} (h : r.Kept) (hid : Within r.seen.order id k)
    {events : List RelayEvent} (hnew : k + r.newIds events < seenTxGlobal) :
    id ∈ (r.after events).seen.set := by
  induction events generalizing r k with
  | nil => exact h.seen.mem_iff.mpr hid.mem
  | cons e events ih =>
    rw [newIds, ← Nat.add_assoc] at hnew
    refine ih (h.onEvent e) ?_ hnew
    rw [seen_onEvent h]
    exact hid.foldl_remember (lt_of_le_of_lt (Nat.le_add_right _ _) hnew)

/-- What comes was asked for if it is new. -/
theorem isRequestedFrom_of_onTx (h : (r.onTx peer id).2.2 = true) :
    r.isRequestedFrom id peer = true := by
  rw [← (learns_noteKnown r peer id).isRequestedFrom_eq]
  by_contra hnot
  unfold onTx at h
  dsimp only at h
  rw [if_neg hnot] at h
  cases h

/-- What is handed over is the last that was seen. -/
theorem within_of_submits (h : r.Kept) (hsubmits : r.submits e = some id) :
    Within (r.onEvent e).1.seen.order id 0 := by
  have hnot : id ∉ r.seen.order := mt h.seen.mem_iff.mpr (submits_spec h hsubmits).1
  have hrecorded : r.recorded e = [id] := by
    cases e with
    | announcedTx | notFoundTx | tick | disconnected => cases hsubmits
    | tx peer txid accepted =>
      change (if (r.onTx peer txid).2.2 then some txid else none) = some id at hsubmits
      split at hsubmits
      case isTrue hnew =>
        cases hsubmits
        exact if_pos (isRequestedFrom_of_onTx hnew)
      case isFalse => cases hsubmits
  rw [seen_onEvent h, hrecorded]
  exact within_remember_self (by decide) hnot

/-! ## Refusals -/

/-- A transaction that is handed over when the sink has no room for it is not noted as seen, and so
it is asked for when a peer that may be asked announces it again, and handed over when it comes. -/
def HadAgain (r : TxRelay) (peer : PeerId) (id : Hash32) : Prop :=
  let r := (r.onEvent (.answered peer id (.error .full))).1
  id ∉ r.seen.set ∧ ∀ peer now, 0 < r.room peer →
    r.Asks (.announcedTx peer [id] now) id ∧ ∀ answer,
      (r.onEvent (.announcedTx peer [id] now)).1.submits (.answered peer id answer) = some id

/-- In no state of any run is a transaction had again that the sink has no room for.  It is seen, and
until as many new ids were seen as the set holds no event leads to a request for it or hands it
over. -/
theorem refused_is_seen (events : List RelayEvent) (peer : PeerId) (id : Hash32)
    (h : (run events).submits (.answered peer id (.error .full)) = some id) :
    ¬(run events).HadAgain peer id ∧
      let r := ((run events).onEvent (.answered peer id (.error .full))).1
      ∀ later, r.newIds later < seenTxGlobal → id ∈ (r.after later).seen.set ∧
        ∀ e, ¬(r.after later).Asks e id ∧ (r.after later).submits e ≠ some id := by
  have hkept := kept_run events
  have hkept' := hkept.onEvent (.answered peer id (.error .full))
  refine ⟨fun hagain ↦ hagain.1 (submits_spec hkept h).2, fun later hnew ↦ ?_⟩
  have hseen := within_after hkept' (within_of_submits hkept h) (by rwa [Nat.zero_add])
  refine ⟨hseen, fun e ↦ ⟨not_asks_of_seen hseen e, fun hsubmits ↦ ?_⟩⟩
  have hlater : ∀ l r, Kept r → (r.after l).Kept := by
    intro l
    induction l with
    | nil => exact fun r hr ↦ hr
    | cons e l ih => exact fun r hr ↦ ih _ (hr.onEvent e)
  exact (submits_spec (hlater later _ hkept') hsubmits).1 hseen

/-- A transaction that one peer announced, and that it sent when the sink had no room. -/
theorem refused_is_seen_once :
    (run [.announcedTx 0 [Arr.zero 32] 0]).submits
        (.answered 0 (Arr.zero 32) (.error .full)) = some (Arr.zero 32) ∧
      ¬(run [.announcedTx 0 [Arr.zero 32] 0]).HadAgain 0 (Arr.zero 32) :=
  ⟨by decide, (refused_is_seen [.announcedTx 0 [Arr.zero 32] 0] 0 (Arr.zero 32) (by decide)).1⟩

/-- Another peer announces it, and nothing is asked for. -/
theorem refused_not_asked : ¬∀ events peer id,
    (run events).submits (.answered peer id (.error .full)) = some id →
      (run events).HadAgain peer id := by
  intro h
  obtain ⟨-, hagain⟩ := h [.announcedTx 0 [Arr.zero 32] 0] 0 (Arr.zero 32) (by decide)
  obtain ⟨⟨peer, items, hsend, -⟩, -⟩ := hagain 1 0 (by decide)
  have hnone : ((run [.announcedTx 0 [Arr.zero 32] 0, .answered 0 (Arr.zero 32) (.error .full)]).onEvent
      (.announcedTx 1 [Arr.zero 32] 0)).2 = [] := by decide
  exact absurd (hnone ▸ hsend) List.not_mem_nil

end TxRelay

end Plaine.P2p

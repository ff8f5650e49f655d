import Plaine.Lib.Recent
import Plaine.Lib.Runs
import Plaine.P2p.TxRelay

/-!
# What the relay keeps

The sets of ids stay paired with their queues and within their bounds whatever happens.  The
requests stay within theirs exactly when no announcement brings more than there is room for: the
loop that admits ids does not count those it has admitted against the bound of all requests, nor
does it look for an id among them.
-/

namespace Plaine.P2p

open Plaine.Lib Plaine.Consensus

/-! ## Sets of ids -/

namespace IdSet

variable {bound : Nat} {s : IdSet} {h : Hash32}

/-- A set has the ids of its queue, which are no more than the bound. -/
structure Paired (bound : Nat) (s : IdSet) : Prop where
  cap : s.cap = bound
  nodup : s.order.Nodup
  set : s.set = s.order.toFinset
  length : s.order.length ≤ bound

theorem paired_withCap (cap : Nat) : (withCap cap).Paired cap :=
  ⟨rfl, List.nodup_nil, rfl, Nat.zero_le cap⟩

theorem Paired.mem_iff (hs : s.Paired bound) : h ∈ s.set ↔ h ∈ s.order := by
  rw [hs.set, List.mem_toFinset]

theorem Paired.card (hs : s.Paired bound) : s.set.card = s.order.length := by
  rw [hs.set, List.toFinset_card_of_nodup hs.nodup]

/-- The oldest are dropped from both. -/
theorem trim_eq {order : List Hash32} (hnodup : order.Nodup) :
    trim bound order.toFinset order =
      ((order.drop (order.length - bound)).toFinset, order.drop (order.length - bound)) := by
  induction order with
  | nil =>
    rw [List.drop_nil]
    rfl
  | cons old order ih =>
    obtain ⟨hold, hnodup⟩ := List.nodup_cons.mp hnodup
    rw [trim]
    split
    case isTrue hlt =>
      have herase : (old :: order).toFinset.erase old = order.toFinset := by
        rw [List.toFinset_cons]
        exact Finset.erase_insert (mt List.mem_toFinset.mp hold)
      rw [List.length_cons] at hlt ⊢
      rw [herase, ih hnodup, Nat.succ_sub (Nat.le_of_lt_succ hlt), List.drop_succ_cons]
    case isFalse hle =>
      rw [Nat.sub_eq_zero_of_le (not_lt.mp hle), List.drop_zero]

/-- An id goes where a queue of the last ids puts it. -/
theorem Paired.insert_eq (hs : s.Paired bound) (h : Hash32) :
    s.insert h = ({ s with
      set := (remember bound s.order h).toFinset
      order := remember bound s.order h }, decide (h ∉ s.set)) := by
  unfold insert
  by_cases hmem : h ∈ s.set
  · rw [if_pos hmem, remember_of_mem (hs.mem_iff.mp hmem), ← hs.set,
      decide_eq_false (not_not_intro hmem)]
  · have hnot : h ∉ s.order := mt hs.mem_iff.mpr hmem
    have happend : Insert.insert h s.set = (s.order ++ [h]).toFinset := by
      rw [hs.set, List.toFinset_append, List.toFinset_cons, List.toFinset_nil, Finset.union_comm]
      rfl
    have hnodup : (s.order ++ [h]).Nodup :=
      List.nodup_append_comm.mp (List.nodup_cons.mpr ⟨hnot, hs.nodup⟩)
    rw [if_neg hmem, happend, hs.cap, trim_eq hnodup, remember_of_notMem hnot,
      List.length_append, List.length_singleton, decide_eq_true hmem]

theorem Paired.insert (hs : s.Paired bound) (h : Hash32) : (s.insert h).1.Paired bound := by
  rw [hs.insert_eq]
  exact ⟨hs.cap, nodup_remember hs.nodup, rfl, length_remember_le hs.length⟩

theorem Paired.mem_insert_self (hs : s.Paired bound) (hbound : 0 < bound) (h : Hash32) :
    h ∈ (s.insert h).1.set := by
  rw [hs.insert_eq]
  exact List.mem_toFinset.mpr (mem_remember_self hbound)

end IdSet

/-! ## Every event -/

namespace TxRelay

variable {r r' : TxRelay} {peer : PeerId} {id : Hash32}

/-- Sets and queues are within their bounds, and so are the requests to one peer. -/
structure Kept (r : TxRelay) : Prop where
  seen : r.seen.Paired seenTxGlobal
  known : ∀ peer s, r.known.lookup peer = some s → s.Paired knownTxPerPeer
  nodup : r.pending.Nodup
  pending : r.pending.length ≤ txAnnounceQueueMax
  perPeer : ∀ peer, r.peerInflight peer ≤ txInflightPerPeer

theorem kept_new : Kept new where
  seen := IdSet.paired_withCap _
  known peer s h := by cases h
  nodup := List.nodup_nil
  pending := Nat.zero_le _
  perPeer _ := Nat.zero_le _

/-- Nothing changes but what peers know. -/
def Learns (r r' : TxRelay) : Prop := r' = { r with known := r'.known } ∧ (r.Kept → r'.Kept)

theorem Learns.refl (r : TxRelay) : Learns r r := ⟨rfl, id⟩

theorem Learns.trans {r'' : TxRelay} (h : Learns r r') (h' : Learns r' r'') : Learns r r'' := by
  refine ⟨?_, h'.2 ∘ h.2⟩
  rw [h'.1, h.1]

theorem learns_noteKnown (r : TxRelay) (peer : PeerId) (id : Hash32) :
    Learns r (r.noteKnown peer id) := by
  refine ⟨rfl, fun h ↦ { h with known := fun peer' s hs ↦ ?_ }⟩
  by_cases heq : peer' = peer
  · subst heq
    obtain rfl := Option.some.inj ((AList.lookup_insert _).symm.trans hs)
    refine IdSet.Paired.insert ?_ id
    cases hknown : r.known.lookup peer' with
    | none => exact IdSet.paired_withCap _
    | some s => exact h.known peer' s hknown
  · exact h.known peer' s ((AList.lookup_insert_ne heq).symm.trans hs)

theorem learns_foldl_noteKnown (r : TxRelay) (peer : PeerId) (ids : List Hash32) :
    Learns r (ids.foldl (·.noteKnown peer ·) r) := by
  induction ids generalizing r with
  | nil => exact .refl r
  | cons id ids ih => exact (learns_noteKnown r peer id).trans (ih _)

theorem learns_announce (r : TxRelay) (batch : List Hash32) (ready : List PeerId) :
    Learns r (r.announce batch ready).1 := by
  induction ready generalizing r with
  | nil => exact .refl r
  | cons peer ready ih =>
    rw [announce]
    split
    case isTrue => exact ih r
    case isFalse => exact (learns_foldl_noteKnown r peer _).trans (ih _)

theorem queueAnnounce_eq (r : TxRelay) (id : Hash32) :
    r.queueAnnounce id = { r with pending := remember txAnnounceQueueMax r.pending id } := by
  unfold queueAnnounce
  split
  case isTrue h => rw [remember_of_mem h]
  case isFalse h =>
    rw [remember_of_notMem h]
    dsimp only
    rw [List.length_append, List.length_singleton]

theorem Kept.queueAnnounce (h : r.Kept) (id : Hash32) : (r.queueAnnounce id).Kept := by
  rw [queueAnnounce_eq]
  exact { h with nodup := nodup_remember h.nodup, pending := length_remember_le h.pending }

theorem Kept.see (h : r.Kept) (id : Hash32) : Kept { r with seen := (r.seen.insert id).1 } :=
  { h with seen := h.seen.insert id }

/-- Requests that end are counted no more. -/
theorem Kept.release (h : r.Kept) {m : AList fun _ : Hash32 ↦ TxInFlight}
    (hm : m.entries.Sublist r.inflight.entries) : Kept { r with inflight := m } :=
  { h with perPeer := fun peer ↦ hm.countP_le.trans (h.perPeer peer) }

theorem entries_erase_sublist (m : AList fun _ : Hash32 ↦ TxInFlight) (id : Hash32) :
    (m.erase id).entries.Sublist m.entries :=
  List.kerase_sublist id m.entries

theorem entries_foldl_erase_sublist (ids : List Hash32) (m : AList fun _ : Hash32 ↦ TxInFlight) :
    (ids.foldl (fun m k ↦ m.erase k) m).entries.Sublist m.entries := by
  induction ids generalizing m with
  | nil => exact .refl _
  | cons id ids ih => exact (ih _).trans (entries_erase_sublist m id)

/-! ## Announcements -/

/-- The requests that an announcement of the peer may still open, by the bounds before it. -/
def room (r : TxRelay) (peer : PeerId) : Nat :=
  if r.inflightLen < txInflightMax then txInflightPerPeer - r.peerInflight peer else 0

/-- An id that is neither seen nor requested. -/
def IsNew (r : TxRelay) (id : Hash32) : Prop := id ∉ r.seen.set ∧ id ∉ r.inflight

instance (r : TxRelay) (id : Hash32) : Decidable (r.IsNew id) := inferInstanceAs (Decidable (_ ∧ _))

/-- The first new ids of an announcement, as many as there is room for. -/
def firstNew (r : TxRelay) (peer : PeerId) (txids : List Hash32) : List Hash32 :=
  ((txids.take invTxsPerMsgMax).filter (r.IsNew ·)).take (r.room peer)

theorem Learns.room_eq (h : Learns r r') (peer : PeerId) : r'.room peer = r.room peer := by
  rw [h.1]
  rfl

theorem Learns.isNew_iff (h : Learns r r') (id : Hash32) : r'.IsNew id ↔ r.IsNew id := by
  rw [h.1]
  rfl

/-- The loop over an announcement asks for new ids while there is room, whether it has them already
or not. -/
theorem wants_spec (r : TxRelay) (peer : PeerId) (ids want : List Hash32) :
    Learns r (r.wants peer ids want).1 ∧ (r.wants peer ids want).2 =
      want ++ (ids.filter (r.IsNew ·)).take (r.room peer - want.length) := by
  induction ids generalizing r want with
  | nil =>
    rw [List.filter_nil, List.take_nil, List.append_nil]
    exact ⟨.refl r, rfl⟩
  | cons id ids ih =>
    have hlearns := learns_noteKnown r peer id
    have hfilter : ids.filter ((r.noteKnown peer id).IsNew ·) = ids.filter (r.IsNew ·) :=
      List.filter_congr fun j _ ↦ decide_eq_decide.mpr (hlearns.isNew_iff j)
    rw [wants]
    split
    case isTrue hold =>
      obtain ⟨hih, hwant⟩ := ih (r.noteKnown peer id) want
      have hnot : ¬r.IsNew id := not_and_or.mpr (hold.imp not_not_intro not_not_intro)
      refine ⟨hlearns.trans hih, ?_⟩
      rw [hwant, hfilter, hlearns.room_eq, List.filter_cons_of_neg (by simpa using hnot)]
    case isFalse hnew =>
      have hid : r.IsNew id := not_or.mp hnew
      rw [List.filter_cons_of_pos (by simpa using hid)]
      split
      case isTrue hfull =>
        have hroom : r.room peer - want.length = 0 := by
          unfold room
          split
          case isTrue hlt => exact Nat.sub_eq_zero_of_le (by
            have hpeer := hfull.resolve_left (not_le.mpr hlt)
            exact Nat.sub_le_iff_le_add'.mpr hpeer)
          case isFalse => exact Nat.zero_sub _
        refine ⟨hlearns, ?_⟩
        rw [hroom, List.take_zero, List.append_nil]
      case isFalse hroom =>
        obtain ⟨hih, hwant⟩ := ih (r.noteKnown peer id) (want ++ [id])
        obtain ⟨hlt, hpeer⟩ := not_or.mp hroom
        replace hlt : r.inflightLen < txInflightMax := not_le.mp hlt
        replace hpeer : r.peerInflight peer + want.length < txInflightPerPeer := not_le.mp hpeer
        refine ⟨hlearns.trans hih, ?_⟩
        have hsucc : r.room peer - want.length = (r.room peer - (want ++ [id]).length) + 1 := by
          rw [room, if_pos hlt, List.length_append, List.length_singleton]
          omega
        rw [hwant, hfilter, hlearns.room_eq, hsucc, List.take_succ_cons, List.append_assoc]
        rfl

/-- What an announcement changes. -/
theorem onAnnounced_spec (r : TxRelay) (peer : PeerId) (txids : List Hash32) (now : Nat) :
    ∃ r₁ n, Learns r r₁ ∧ (r.onAnnounced peer txids now).1 = { r₁ with
        inflight := (r.firstNew peer txids).foldl
          (fun m id ↦ m.insert id { peer, since := now }) r.inflight
        requested := n } ∧
      (∀ peer' items, .send peer' (.getData items) ∈ (r.onAnnounced peer txids now).2 →
        items.map (·.hash) = r.firstNew peer txids) ∧
      (r.firstNew peer txids ≠ [] →
        ∃ items, .send peer (.getData items) ∈ (r.onAnnounced peer txids now).2) := by
  obtain ⟨hlearns, hwant⟩ := r.wants_spec peer (txids.take invTxsPerMsgMax) []
  rw [List.nil_append, List.length_nil, Nat.sub_zero] at hwant
  change _ = r.firstNew peer txids at hwant
  have hinflight : (r.wants peer (txids.take invTxsPerMsgMax) []).1.inflight = r.inflight := by
    rw [hlearns.1]
  unfold onAnnounced
  dsimp only
  rw [hwant, hinflight]
  split
  case isTrue hnil =>
    refine ⟨_, (r.wants peer (txids.take invTxsPerMsgMax) []).1.requested, hlearns, ?_, ?_,
      fun hne ↦ absurd hnil hne⟩
    · rw [hnil, List.foldl_nil, ← hinflight]
    · rintro peer' items h
      cases h
  case isFalse =>
    refine ⟨_, _, hlearns, rfl, ?_, fun _ ↦ ⟨_, List.mem_singleton_self _⟩⟩
    rintro peer' items h
    cases List.mem_singleton.mp h
    rw [List.map_map]
    exact List.map_id _

-- an id that is announced twice is asked for twice
example : (new.onAnnounced 0 [Arr.zero 32, Arr.zero 32] 0).2 =
    [.send 0 (.getData [⟨.tx, Arr.zero 32⟩, ⟨.tx, Arr.zero 32⟩])] := by decide

/-- Insertions make one more request each at most. -/
theorem countP_foldl_insert (ids : List Hash32) (f : TxInFlight) (peer : PeerId)
    (m : AList fun _ : Hash32 ↦ TxInFlight) :
    (ids.foldl (fun m id ↦ m.insert id f) m).entries.countP (·.2.peer = peer) ≤
      m.entries.countP (·.2.peer = peer) + if f.peer = peer then ids.length else 0 := by
  induction ids generalizing m with
  | nil => exact Nat.le_add_right _ _
  | cons id ids ih =>
    refine (ih _).trans ?_
    have hkerase := (List.kerase_sublist id m.entries).countP_le (p := (·.2.peer = peer))
    rw [AList.entries_insert, List.countP_cons, List.length_cons]
    simp only [decide_eq_true_eq]
    split <;> omega

/-- Ids that are new, each once, make one more request each. -/
theorem length_keys_foldl_insert {ids : List Hash32} {f : TxInFlight}
    {m : AList fun _ : Hash32 ↦ TxInFlight} (hnodup : ids.Nodup) (hnew : ∀ id ∈ ids, id ∉ m) :
    (ids.foldl (fun m id ↦ m.insert id f) m).keys.length = m.keys.length + ids.length := by
  induction ids generalizing m with
  | nil => rfl
  | cons id ids ih =>
    obtain ⟨hid, hnodup⟩ := List.nodup_cons.mp hnodup
    have hnone : (m.lookup id).isNone := by
      rw [Option.isNone_iff_eq_none, AList.lookup_eq_none]
      exact hnew id List.mem_cons_self
    rw [List.foldl_cons, ih hnodup, AList.length_keys_insert, if_pos hnone, List.length_cons]
    · omega
    · rintro j hj hmem
      rcases AList.mem_insert _ |>.mp hmem with rfl | hmem
      · exact hid hj
      · exact hnew j (List.mem_cons_of_mem _ hj) hmem

theorem isNew_of_mem_firstNew {txids : List Hash32} (h : id ∈ r.firstNew peer txids) :
    r.IsNew id :=
  of_decide_eq_true (List.mem_filter.mp (List.mem_of_mem_take h)).2

theorem length_firstNew_le (r : TxRelay) (peer : PeerId) (txids : List Hash32) :
    (r.firstNew peer txids).length ≤ txInflightPerPeer - r.peerInflight peer := by
  refine (List.length_take_le _ _).trans ?_
  unfold room
  split
  case isTrue => exact le_rfl
  case isFalse => exact Nat.zero_le _

theorem Kept.onAnnounced (h : r.Kept) (peer : PeerId) (txids : List Hash32) (now : Nat) :
    (r.onAnnounced peer txids now).1.Kept := by
  obtain ⟨r₁, n, hlearns, heq, -⟩ := r.onAnnounced_spec peer txids now
  have h₁ := hlearns.2 h
  rw [heq]
  refine { h₁ with perPeer := fun peer' ↦ (countP_foldl_insert _ _ peer' _).trans ?_ }
  have hpeer := h.perPeer peer'
  unfold peerInflight at hpeer
  split
  case isTrue hsame =>
    obtain rfl : peer = peer' := hsame
    have hlength := r.length_firstNew_le peer txids
    unfold peerInflight at hlength
    omega
  case isFalse => exact hpeer

/-! ## Steps -/

theorem Kept.dropStale (h : r.Kept) (now : Nat) : (r.dropStale now).1.Kept := by
  have hrelease := h.release (entries_foldl_erase_sublist
    ((r.inflight.entries.filter (expired now ·.2.since txRequestTimeoutMs)).map (·.1)) r.inflight)
  exact { hrelease with }

theorem Kept.poll (h : r.Kept) (id : Hash32) : (r.poll id).Kept := by
  unfold TxRelay.poll
  dsimp only
  split
  case isTrue => exact (h.see id).queueAnnounce id
  case isFalse => exact h.see id

theorem Kept.foldl_poll (h : r.Kept) (ids : List Hash32) : (ids.foldl TxRelay.poll r).Kept := by
  induction ids generalizing r with
  | nil => exact h
  | cons id ids ih => exact ih (h.poll id)

theorem poll_inflight (r : TxRelay) (id : Hash32) : (r.poll id).inflight = r.inflight := by
  unfold poll
  dsimp only
  split
  case isTrue => rw [queueAnnounce_eq]
  case isFalse => rfl

theorem foldl_poll_inflight (r : TxRelay) (ids : List Hash32) :
    (ids.foldl poll r).inflight = r.inflight := by
  induction ids generalizing r with
  | nil => rfl
  | cons id ids ih => exact (ih _).trans (poll_inflight r id)

/-- What an event that is not an announcement keeps: requests end, and none begins. -/
def Ends (r r' : TxRelay) : Prop :=
  (r.Kept → r'.Kept) ∧ r'.inflight.entries.Sublist r.inflight.entries

theorem Ends.inflightLen_le (h : Ends r r') : r'.inflightLen ≤ r.inflightLen :=
  (h.2.map Sigma.fst).length_le

theorem ends_onTick (r : TxRelay) (now : Nat) (ready : List PeerId) (mempool : List Hash32) :
    Ends r (r.onTick now ready mempool).1 := by
  have hstale : Ends r (r.dropStale now).1 :=
    ⟨fun h ↦ h.dropStale now, entries_foldl_erase_sublist _ _⟩
  unfold onTick
  dsimp only
  generalize (r.dropStale now).1 = r₁ at hstale
  generalize hpolled : (if expired now r₁.lastPoll txPollMs then
    mempool.foldl poll { r₁ with lastPoll := now } else r₁) = r₂
  have hends : Ends r r₂ := by
    subst hpolled
    split
    case isTrue =>
      refine ⟨fun h ↦ ?_, ?_⟩
      · have h₁ : Kept { r₁ with lastPoll := now } := { hstale.1 h with }
        exact h₁.foldl_poll mempool
      · rw [foldl_poll_inflight]
        exact hstale.2
    case isFalse => exact hstale
  split
  case isTrue => exact hends
  case isFalse =>
    obtain ⟨hrest, hkept⟩ := learns_announce r₂ (r₂.pending.take invTxPerMsg) ready
    refine ⟨fun h ↦ ?_, ?_⟩
    · have h₃ := hkept (hends.1 h)
      exact { h₃ with
        nodup := h₃.nodup.sublist (List.drop_sublist _ _)
        pending := (List.drop_sublist _ _).length_le.trans h₃.pending }
    · change ((r₂.announce (r₂.pending.take invTxPerMsg) ready).1).inflight.entries.Sublist _
      rw [hrest]
      exact hends.2

theorem ends_onPeerGone (r : TxRelay) (peer : PeerId) : Ends r (r.onPeerGone peer) := by
  have hsublist := entries_foldl_erase_sublist
    ((r.inflight.entries.filter (·.2.peer = peer)).map (·.1)) r.inflight
  refine ⟨fun h ↦ ?_, hsublist⟩
  refine { h.release hsublist with known := fun peer' s hs ↦ ?_ }
  by_cases heq : peer' = peer
  · subst heq
    cases (AList.lookup_erase (a := peer') (s := r.known)).symm.trans hs
  · exact h.known peer' s ((AList.lookup_erase_ne heq).symm.trans hs)

theorem ends_onNotFound (r : TxRelay) (peer : PeerId) (id : Hash32) :
    Ends r (r.onNotFound peer id) := by
  unfold onNotFound
  split
  case isTrue =>
    have hsublist := entries_erase_sublist r.inflight id
    exact ⟨fun h ↦ h.release hsublist, hsublist⟩
  case isFalse => exact ⟨fun h ↦ h, .refl _⟩

/-- A transaction that comes: if it was asked for it is seen now, and new when it was not seen
before. -/
theorem onTx_spec (r : TxRelay) (peer : PeerId) (id : Hash32) (h : r.Kept) :
    Ends r (r.onTx peer id).1 ∧
      ((r.onTx peer id).2.2 = true → id ∉ r.seen.set ∧ id ∈ (r.onTx peer id).1.seen.set) := by
  obtain ⟨hrest, hkept⟩ := learns_noteKnown r peer id
  unfold onTx
  dsimp only
  split
  case isTrue =>
    have hsublist := entries_erase_sublist r.inflight id
    refine ⟨⟨fun h ↦ ((hkept h).see id).release hsublist, hsublist⟩, fun hnew ↦ ?_⟩
    replace hnew : (r.seen.insert id).2 = true := hnew
    rw [h.seen.insert_eq] at hnew
    exact ⟨of_decide_eq_true hnew, h.seen.mem_insert_self (by decide) id⟩
  case isFalse =>
    exact ⟨⟨fun h ↦ { hkept h with }, .refl _⟩, fun hnew ↦ (by cases hnew)⟩

theorem ends_onAccepted (r : TxRelay) (id : Hash32) : Ends r (r.onAccepted id) := by
  refine ⟨fun h ↦ ?_, ?_⟩
  · have h₁ : Kept { r with ingested := r.ingested + 1 } := { h with }
    exact h₁.queueAnnounce id
  · unfold onAccepted
    rw [queueAnnounce_eq]

theorem onAccepted_seen (r : TxRelay) (id : Hash32) : (r.onAccepted id).seen = r.seen := by
  unfold onAccepted
  rw [queueAnnounce_eq]

theorem Ends.trans {r'' : TxRelay} (h : Ends r r') (h' : Ends r' r'') : Ends r r'' :=
  ⟨h'.1 ∘ h.1, h'.2.trans h.2⟩

theorem ends_tx (h : r.Kept) (peer : PeerId) (id : Hash32) (accepted : Bool) :
    Ends r (r.onEvent (.tx peer id accepted)).1 := by
  have hends := (r.onTx_spec peer id h).1
  unfold onEvent
  dsimp only
  split
  case isTrue => exact hends.trans (ends_onAccepted _ id)
  case isFalse => exact hends

theorem Kept.onEvent (h : r.Kept) (e : RelayEvent) : (r.onEvent e).1.Kept := by
  cases e with
  | announcedTx peer txids now => exact h.onAnnounced peer txids now
  | tx peer id accepted => exact (ends_tx h peer id accepted).1 h
  | notFoundTx peer id => exact (ends_onNotFound r peer id).1 h
  | tick now ready mempool => exact (ends_onTick r now ready mempool).1 h
  | disconnected peer => exact (ends_onPeerGone r peer).1 h

/-- What is handed over was not seen, and is seen then. -/
theorem submits_spec (h : r.Kept) {e : RelayEvent} (hsubmits : r.submits e = some id) :
    id ∉ r.seen.set ∧ id ∈ (r.onEvent e).1.seen.set := by
  cases e with
  | announcedTx | notFoundTx | tick | disconnected => cases hsubmits
  | tx peer txid accepted =>
    unfold submits at hsubmits
    dsimp only at hsubmits
    split at hsubmits
    case isFalse => cases hsubmits
    case isTrue hnew =>
      cases hsubmits
      obtain ⟨hnot, hseen⟩ := (r.onTx_spec peer id h).2 hnew
      refine ⟨hnot, ?_⟩
      unfold TxRelay.onEvent
      dsimp only
      split
      case isTrue => rwa [onAccepted_seen]
      case isFalse => exact hseen

/-! ## Requests -/

/-- An event asks for no transaction twice, and for none that is asked for. -/
def AsksOnce (r : TxRelay) (e : RelayEvent) : Prop :=
  ∀ peer items, .send peer (.getData items) ∈ (r.onEvent e).2 →
    (items.map (·.hash)).Nodup ∧ ∀ it ∈ items, it.hash ∉ r.inflight

/-- The first new ids of an announcement are there once each, and no more than there are requests
left. -/
def Fits (r : TxRelay) : RelayEvent → Prop
  | .announcedTx peer txids _ =>
    (r.firstNew peer txids).Nodup ∧
      r.inflightLen + (r.firstNew peer txids).length ≤ txInflightMax
  | _ => True

theorem not_getData_of_mem_announce {batch : List Hash32} {ready : List PeerId}
    {items : List InvItem} : .send peer (.getData items) ∉ (r.announce batch ready).2.1 := by
  induction ready generalizing r with
  | nil => exact List.not_mem_nil
  | cons peer' ready ih =>
    rw [announce]
    split
    case isTrue => exact ih
    case isFalse =>
      intro h
      rcases List.mem_cons.mp h with h | h
      · cases h
      · exact ih h

theorem not_getData_of_mem_onTick {now : Nat} {ready : List PeerId} {mempool : List Hash32}
    {items : List InvItem} : .send peer (.getData items) ∉ (r.onTick now ready mempool).2 := by
  have hlate : .send peer (.getData items) ∉ (r.dropStale now).2 := by
    intro h
    obtain ⟨f, -, hf⟩ := List.mem_map.mp h
    cases hf
  unfold onTick
  dsimp only
  generalize (if expired now (r.dropStale now).1.lastPoll txPollMs then
    mempool.foldl poll { (r.dropStale now).1 with lastPoll := now } else (r.dropStale now).1) = r₂
  split
  case isTrue => exact hlate
  case isFalse =>
    intro h
    exact (List.mem_append.mp h).elim hlate not_getData_of_mem_announce

/-- Only an announcement asks for anything. -/
theorem not_getData_of_mem_onEvent {e : RelayEvent} {items : List InvItem}
    (he : ∀ peer txids now, e ≠ .announcedTx peer txids now) :
    .send peer (.getData items) ∉ (r.onEvent e).2 := by
  intro h
  cases e with
  | announcedTx peer' txids now => exact absurd rfl (he peer' txids now)
  | tx peer' id accepted =>
    change _ ∈ (r.onTx peer' id).2.1 at h
    unfold onTx at h
    dsimp only at h
    split at h
    case isTrue => cases h
    case isFalse => cases List.mem_singleton.mp h
  | notFoundTx => cases h
  | tick now ready mempool => exact absurd h not_getData_of_mem_onTick
  | disconnected => cases h

theorem asksOnce_of_ends {e : RelayEvent} (he : ∀ peer txids now, e ≠ .announcedTx peer txids now) :
    r.AsksOnce e :=
  fun _ _ h ↦ absurd h (not_getData_of_mem_onEvent he)

/-- An event keeps to the bounds exactly when an announcement fits. -/
theorem fits_iff (h : r.Kept) (hle : r.inflightLen ≤ txInflightMax) (e : RelayEvent) :
    r.Fits e ↔ r.AsksOnce e ∧ (r.onEvent e).1.inflightLen ≤ txInflightMax := by
  have hends (hfits : r.Fits e) (hne : ∀ peer txids now, e ≠ .announcedTx peer txids now)
      (hends : Ends r (r.onEvent e).1) :
      r.Fits e ↔ r.AsksOnce e ∧ (r.onEvent e).1.inflightLen ≤ txInflightMax :=
    iff_of_true hfits ⟨asksOnce_of_ends hne, hends.inflightLen_le.trans hle⟩
  cases e with
  | tx peer id accepted => exact hends trivial (by rintro _ _ _ ⟨⟩) (ends_tx h peer id accepted)
  | notFoundTx peer id => exact hends trivial (by rintro _ _ _ ⟨⟩) (ends_onNotFound r peer id)
  | tick now ready mempool =>
    exact hends trivial (by rintro _ _ _ ⟨⟩) (ends_onTick r now ready mempool)
  | disconnected peer => exact hends trivial (by rintro _ _ _ ⟨⟩) (ends_onPeerGone r peer)
  | announcedTx peer txids now =>
    obtain ⟨r₁, n, -, heq, hasked, hsends⟩ := r.onAnnounced_spec peer txids now
    have hlength (hnodup : (r.firstNew peer txids).Nodup) :
        (r.onAnnounced peer txids now).1.inflightLen =
          r.inflightLen + (r.firstNew peer txids).length := by
      rw [heq]
      exact length_keys_foldl_insert hnodup fun id hid ↦ (isNew_of_mem_firstNew hid).2
    constructor
    · rintro ⟨hnodup, hroom⟩
      refine ⟨fun peer' items hsend ↦ ?_, (hlength hnodup).trans_le hroom⟩
      have hitems := hasked peer' items hsend
      refine ⟨hitems ▸ hnodup, fun it hit ↦ ?_⟩
      have hid : it.hash ∈ r.firstNew peer txids := hitems ▸ List.mem_map_of_mem hit
      exact (isNew_of_mem_firstNew hid).2
    · rintro ⟨honce, hroom⟩
      have hnodup : (r.firstNew peer txids).Nodup := by
        by_cases hnil : r.firstNew peer txids = []
        · rw [hnil]
          exact List.nodup_nil
        · obtain ⟨items, hsend⟩ := hsends hnil
          exact hasked peer items hsend ▸ (honce peer items hsend).1
      exact ⟨hnodup, (hlength hnodup).symm.trans_le hroom⟩

/-! ## Runs -/

/-- Any events, from the start. -/
def run (events : List RelayEvent) : TxRelay := events.foldl (fun r e ↦ (r.onEvent e).1) new

theorem run_concat (events : List RelayEvent) (e : RelayEvent) :
    run (events ++ [e]) = ((run events).onEvent e).1 := by
  rw [run, List.foldl_append, List.foldl_cons, List.foldl_nil, run]

theorem kept_run (events : List RelayEvent) : (run events).Kept := by
  induction events using List.reverseRecOn with
  | nil => exact kept_new
  | append_singleton events e ih =>
    rw [run_concat]
    exact ih.onEvent e

/-- The books of a run: requests within their bounds and one for a transaction, sets of ids with
their queues, and one hand-over while an id is remembered. -/
structure Books (events : List RelayEvent) : Prop where
  total : ∀ l, l <+: events → (run l).inflightLen ≤ txInflightMax
  perPeer : ∀ l, l <+: events → ∀ peer, (run l).peerInflight peer ≤ txInflightPerPeer
  once : ∀ l e, l ++ [e] <+: events → (run l).AsksOnce e
  seen : ∀ l, l <+: events → (run l).seen.Paired seenTxGlobal
  known : ∀ l, l <+: events → ∀ peer s, (run l).known.lookup peer = some s →
    s.Paired knownTxPerPeer
  pending : ∀ l, l <+: events →
    (run l).pending.Nodup ∧ (run l).pending.length ≤ txAnnounceQueueMax
  remembered : ∀ l e id, l ++ [e] <+: events → (run l).submits e = some id →
    id ∈ (run (l ++ [e])).seen.set
  handed : ∀ l e l' e' id, l ++ e :: l' ++ [e'] <+: events → (run l).submits e = some id →
    id ∈ (run (l ++ e :: l')).seen.set → (run (l ++ e :: l')).submits e' ≠ some id

/-- The books of a run are right exactly when each announcement fits. -/
theorem books_iff (events : List RelayEvent) :
    Books events ↔ Runs (fun r e ↦ (r.onEvent e).1) Fits new events := by
  constructor
  · rintro h l e rest rfl
    have hprefix : l ++ [e] <+: l ++ e :: rest := by
      refine ⟨rest, ?_⟩
      rw [List.append_assoc, List.cons_append, List.nil_append]
    refine (fits_iff (kept_run l) (h.total l (List.prefix_append _ _)) e).mpr
      ⟨h.once l e hprefix, ?_⟩
    rw [← run_concat]
    exact h.total _ hprefix
  · intro h
    have htotal : ∀ l, l <+: events → (run l).inflightLen ≤ txInflightMax := by
      intro l hl
      have hbounds := (h.of_prefix hl).keeps (P := fun r ↦ r.Kept ∧ r.inflightLen ≤ txInflightMax)
        ⟨kept_new, Nat.zero_le _⟩ fun r e hr hfits ↦
          ⟨hr.1.onEvent e, ((fits_iff hr.1 hr.2 e).mp hfits).2⟩
      exact hbounds.2
    exact {
      total := htotal
      perPeer := fun l _ ↦ (kept_run l).perPeer
      once := by
        rintro l e ⟨rest, rfl⟩
        have hl : l <+: l ++ [e] ++ rest := by
          rw [List.append_assoc]
          exact List.prefix_append _ _
        refine ((fits_iff (kept_run l) (htotal l hl) e).mp (h l e rest ?_)).1
        rw [List.append_assoc, List.cons_append, List.nil_append]
      seen := fun l _ ↦ (kept_run l).seen
      known := fun l _ ↦ (kept_run l).known
      pending := fun l _ ↦ ⟨(kept_run l).nodup, (kept_run l).pending⟩
      remembered := by
        intro l e id _ hsubmits
        rw [run_concat]
        exact (submits_spec (kept_run l) hsubmits).2
      handed := by
        intro l e l' e' id _ _ hseen hsubmits
        exact (submits_spec (kept_run _) hsubmits).1 hseen }

/-! ### A flood -/

/-- The `k` ids from `n` on. -/
def numbered (n k : Nat) : List Hash32 := (List.range' n k).map (Arr.ofNat 32)

theorem ofNat_inj {n m : Nat} (hn : n < 256 ^ 32) (hm : m < 256 ^ 32)
    (h : Arr.ofNat 32 n = Arr.ofNat 32 m) : n = m := by
  have hbytes : leBytes 32 n = leBytes 32 m := List.reverse_inj.mp (congrArg Arr.bytes h)
  rw [← ofLe_leBytes_of_lt hn, hbytes, ofLe_leBytes_of_lt hm]

theorem nodup_numbered {n k : Nat} (h : n + k ≤ 256 ^ 32) : (numbered n k).Nodup := by
  refine List.Nodup.map_on ?_ List.nodup_range'
  intro x hx y hy
  rw [List.mem_range'_1] at hx hy
  exact ofNat_inj (hx.2.trans_le h) (hy.2.trans_le h)

/-- The ids below `n` are requested, from peers below `p`. -/
structure Flooded (p n : Nat) (r : TxRelay) : Prop where
  seen : r.seen.set = ∅
  inflight : ∀ id ∈ r.inflight, ∃ m < n, id = Arr.ofNat 32 m
  peers : ∀ q, p ≤ q → r.peerInflight q = 0
  length : r.inflightLen = n

theorem flooded_new : Flooded 0 0 new where
  seen := rfl
  inflight id h := by cases h
  peers _ _ := rfl
  length := rfl

/-- While there is any room, all the next ids of an announcement are asked for. -/
theorem Flooded.firstNew_eq {p n k : Nat} (h : Flooded p n r) (hn : n < txInflightMax)
    (hk : k ≤ txInflightPerPeer) : r.firstNew p (numbered n k) = numbered n k := by
  have hlength : (numbered n k).length = k := by
    rw [numbered, List.length_map, List.length_range']
  have hroom : r.room p = txInflightPerPeer := by
    rw [room, h.length, if_pos hn, h.peers p le_rfl, Nat.sub_zero]
  have hnew : ∀ id ∈ numbered n k, r.IsNew id := by
    intro id hid
    obtain ⟨m, hm, rfl⟩ := List.mem_map.mp hid
    rw [List.mem_range'_1] at hm
    refine ⟨h.seen ▸ Finset.notMem_empty _, fun hmem ↦ ?_⟩
    obtain ⟨j, hj, heq⟩ := h.inflight _ hmem
    have hlt : n + k < 256 ^ 32 := (Nat.add_lt_add_of_lt_of_le hn hk).trans (by decide)
    have hjm : j < m := hj.trans_le hm.1
    exact hjm.ne' (ofNat_inj (hm.2.trans hlt) (hjm.trans (hm.2.trans hlt)) heq)
  rw [firstNew, List.take_of_length_le (hlength.trans_le (hk.trans (by decide))),
    List.filter_eq_self.mpr fun id hid ↦ decide_eq_true (hnew id hid), hroom,
    List.take_of_length_le (hlength.trans_le hk)]

theorem Flooded.onAnnounced {p n k : Nat} (h : Flooded p n r) (hn : n < txInflightMax)
    (hk : k ≤ txInflightPerPeer) (now : Nat) :
    Flooded (p + 1) (n + k) (r.onAnnounced p (numbered n k) now).1 := by
  obtain ⟨r₁, m, hlearns, heq, -⟩ := r.onAnnounced_spec p (numbered n k) now
  have hfirst := h.firstNew_eq hn hk
  have hnew (id : Hash32) (hid : id ∈ numbered n k) : id ∉ r.inflight :=
    (isNew_of_mem_firstNew (r := r) (hfirst ▸ hid)).2
  have hnodup : (numbered n k).Nodup :=
    nodup_numbered ((Nat.add_le_add hn.le hk).trans (by decide))
  rw [heq, hfirst]
  constructor
  · have hseen : r₁.seen = r.seen := by rw [hlearns.1]
    exact hseen ▸ h.seen
  · intro id hid
    obtain ⟨f, hf⟩ := Option.isSome_iff_exists.mp (AList.lookup_isSome.mpr hid)
    rcases AList.lookup_of_foldl_insert hf with hold | ⟨j, hj, rfl, -⟩
    · obtain ⟨m, hm, rfl⟩ := h.inflight id (AList.lookup_isSome.mp (Option.isSome_of_eq_some hold))
      exact ⟨m, Nat.lt_add_right k hm, rfl⟩
    · obtain ⟨m, hm, rfl⟩ := List.mem_map.mp hj
      exact ⟨m, (List.mem_range'_1.mp hm).2, rfl⟩
  · intro q hq
    have hzero := h.peers q (Nat.le_of_succ_le hq)
    refine Nat.eq_zero_of_le_zero ((countP_foldl_insert _ _ q r.inflight).trans ?_)
    rw [if_neg (Nat.ne_of_lt hq)]
    exact hzero.le
  · refine (length_keys_foldl_insert hnodup hnew).trans ?_
    have hlength : (numbered n k).length = k := by
      rw [numbered, List.length_map, List.length_range']
    rw [hlength]
    exact congrArg (· + k) h.length

/-- Peers that announce as many new ids as one may, one after another. -/
def flood (peers : Nat) : List RelayEvent :=
  (List.range peers).map fun p ↦ .announcedTx p (numbered (32 * p) 32) 0

theorem flooded_flood {peers : Nat} (h : peers ≤ 16) :
    Flooded peers (32 * peers) (run (flood peers)) := by
  induction peers with
  | zero => exact flooded_new
  | succ p ih =>
    have hp := (ih (Nat.le_of_succ_le h)).onAnnounced (k := 32) (by
      have hle := Nat.le_of_lt_succ (Nat.lt_succ_of_le h)
      exact (Nat.mul_lt_mul_of_pos_left h (by decide : 0 < 32)).trans_le (by decide)) le_rfl 0
    rw [flood, List.range_succ, List.map_append, List.map_singleton, run_concat]
    exact hp

/-- With one request left a peer is asked for as many as ever. -/
theorem total_overrun : ¬Books (flood 15 ++ [.announcedTx 15 (numbered 480 31) 0] ++
    [.announcedTx 16 (numbered 511 32) 0]) := by
  intro h
  have hflood := flooded_flood (show 15 ≤ 16 by decide)
  have hlast := (hflood.onAnnounced (k := 31) (by decide) (by decide) 0).onAnnounced (k := 32)
    (by decide) le_rfl 0
  have htotal := h.total _ (List.prefix_rfl)
  rw [run_concat, run_concat] at htotal
  exact absurd (hlast.length.symm.trans_le htotal) (by decide)

end TxRelay

end Plaine.P2p

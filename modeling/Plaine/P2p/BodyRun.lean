import Plaine.P2p.BodyTrack

/-!
# What the body track passes

Runs of the body track: what it was asked for, what it hands to the sink, and the heights it passes.
A height is passed for a body that nobody asked for exactly when one is kept, or when the sink refuses
a body for good.
-/

namespace Plaine.P2p

open Plaine.Lib Plaine.Consensus

/-! ## Runs -/

/-- What happens to the track.  A drain meets a sink at each hand-over, and a catch-up the bodies of
the chain. -/
inductive BodyOp where
  | schedule (wanted : List (Nat × Hash32)) (suppliers : List Supplier) (now : Nat)
  | body (hash : Hash32) (bytes : Bytes) (height now : Nat)
  | notFound (hash : Hash32) (peer : PeerId) (now : Nat)
  | tick (suppliers : List Supplier) (now : Nat)
  | release (peer : PeerId) (now : Nat)
  | clearStarvation (hash : Hash32)
  | drain (sink : Turns) (now : Nat)
  | catchUp (has : Nat → Bool)

/-- A height of which the chain has the body, or a body that is handed to the sink. -/
inductive Entry where
  | chainHas (height : Nat)
  | offered (height : Nat) (hash : Hash32) (answer : Except SinkError Unit)
deriving DecidableEq

namespace Entry

/-- Its height. -/
def height : Entry → Nat
  | chainHas h | offered h _ _ => h

/-- The track passes its height. -/
def passes : Entry → Bool
  | chainHas _ => true
  | offered _ _ answer => applies answer

/-- A height is passed that the chain has, or with a body that was asked for and accepted. -/
def Honest (asked : List (Nat × Hash32)) : Entry → Prop
  | chainHas _ => True
  | offered h hash answer => answer = .ok () ∧ (h, hash) ∈ asked

end Entry

/-- A track with its history. -/
structure Downloads where
  track : BodyTrack
  /-- What was wanted when bodies were requested. -/
  asked : List (Nat × Hash32)
  log : List Entry

namespace Downloads

/-- A new track. -/
def new (applied : Nat) : Downloads := { track := .new applied, asked := [], log := [] }

/-- The body a call hands to the sink, if there is room. -/
def offer (sink : Turns) (c : BodyTrack.Call) : Option Entry :=
  let turn := sink c.height c.hash c.bytes
  if turn.capacity.admits c.bytes.length then some (.offered c.height c.hash turn.answer) else none

/-- One event. -/
def step (d : Downloads) : BodyOp → Downloads
  | .schedule wanted suppliers now =>
    { d with
      track := (d.track.schedule wanted suppliers now).1
      asked := d.asked ++ wanted }
  | .body hash bytes height now => { d with track := (d.track.onBody hash bytes height now).1 }
  | .notFound hash peer now => { d with track := (d.track.onNotFound hash peer now).1 }
  | .tick suppliers now => { d with track := (d.track.tick suppliers now).1 }
  | .release peer now => { d with track := d.track.releasePeer peer now }
  | .clearStarvation hash => { d with track := d.track.clearStarvation hash }
  | .drain sink now =>
    let (track, calls) := d.track.drainApplicable (BodyTrack.applyBody sink) now
    { d with track, log := d.log ++ calls.filterMap (offer sink) }
  | .catchUp has =>
    let (track, heights) := d.track.catchUp has chainCatchupMax
    { d with track, log := d.log ++ heights.map .chainHas }

/-- Any events. -/
def run (applied : Nat) (ops : List BodyOp) : Downloads := ops.foldl step (new applied)

end Downloads

/-! ## What keeps the ready bodies -/

namespace BodyTrack

variable {b b' : BodyTrack} {now : Nat}

/-- Neither the ready bodies nor the height are touched. -/
structure Keeps (b b' : BodyTrack) : Prop where
  applied : b'.applied = b.applied
  ready : b'.ready = b.ready
  readyBytes : b'.readyBytes = b.readyBytes

theorem Keeps.refl (b : BodyTrack) : Keeps b b := ⟨rfl, rfl, rfl⟩

theorem Keeps.trans {b'' : BodyTrack} (h : Keeps b b') (h' : Keeps b' b'') : Keeps b b'' :=
  ⟨h'.applied.trans h.applied, h'.ready.trans h.ready, h'.readyBytes.trans h.readyBytes⟩

theorem keeps_assign (b : BodyTrack) (suppliers : List Supplier) (perPeer ceiling now : Nat)
    (wanted : List (Nat × Hash32)) (cursor : Nat) :
    Keeps b (b.assign suppliers perPeer ceiling now wanted cursor).1 := by
  induction wanted generalizing b cursor with
  | nil => exact .refl b
  | cons w wanted ih =>
    obtain ⟨height, hash⟩ := w
    unfold assign
    dsimp only
    split
    case isTrue => exact .refl b
    split
    case isTrue => exact .refl b
    split
    case isTrue => exact ih b cursor
    split
    case h_1 => exact .refl b
    case h_2 =>
      dsimp only
      refine Keeps.trans ?_ (ih _ _)
      exact ⟨rfl, rfl, rfl⟩

theorem keeps_schedule (b : BodyTrack) (wanted : List (Nat × Hash32)) (suppliers : List Supplier)
    (now : Nat) : Keeps b (b.schedule wanted suppliers now).1 := by
  unfold schedule
  split
  case isTrue => exact .refl b
  split
  case isTrue => exact .refl b
  case isFalse => exact (keeps_assign b _ _ _ _ _ _).trans ⟨rfl, rfl, rfl⟩

theorem keeps_rememberRequested (b : BodyTrack) (hash : Hash32) (now : Nat) :
    Keeps b (b.rememberRequested hash now) := by
  unfold rememberRequested
  split
  case isTrue => exact .refl b
  case isFalse => exact ⟨rfl, rfl, rfl⟩

theorem keeps_takeFromTail (b : BodyTrack) (hash : Hash32) (now : Nat) :
    Keeps b (b.takeFromTail hash now).1 := by
  unfold takeFromTail
  split <;> exact ⟨rfl, rfl, rfl⟩

theorem keeps_onNotFound (b : BodyTrack) (hash : Hash32) (peer : PeerId) (now : Nat) :
    Keeps b (b.onNotFound hash peer now).1 := by
  unfold onNotFound
  split <;> exact ⟨rfl, rfl, rfl⟩

theorem keeps_releasePeer (b : BodyTrack) (peer : PeerId) (now : Nat) :
    Keeps b (b.releasePeer peer now) := by
  unfold releasePeer
  generalize (b.inflight.filter (·.peer = peer)).map (·.hash) = released
  have hstart : Keeps b { b with inflight := b.inflight.filter (·.peer ≠ peer) } := ⟨rfl, rfl, rfl⟩
  generalize { b with inflight := b.inflight.filter (·.peer ≠ peer) } = b' at hstart
  induction released generalizing b' with
  | nil => exact hstart
  | cons hash released ih =>
    exact ih _ (hstart.trans (keeps_rememberRequested b' hash now))

theorem keeps_clearStarvation (b : BodyTrack) (hash : Hash32) : Keeps b (b.clearStarvation hash) := by
  unfold clearStarvation
  dsimp only
  split <;> exact ⟨rfl, rfl, rfl⟩

theorem keeps_retryOne (suppliers : List Supplier) (now : Nat) (f : InFlight)
    (r : BodyTrack × List BodyAction) : Keeps r.1 (retryOne suppliers now f r).1 := by
  obtain ⟨b, out⟩ := r
  unfold retryOne
  dsimp only
  split
  case isTrue => exact ⟨rfl, rfl, rfl⟩
  split
  case h_1 => exact ⟨rfl, rfl, rfl⟩
  split
  case isTrue => exact (keeps_rememberRequested b f.hash now).trans ⟨rfl, rfl, rfl⟩
  case isFalse => exact ⟨rfl, rfl, rfl⟩

theorem keeps_escalate (b : BodyTrack) (suppliers : List Supplier) (now : Nat) :
    Keeps b (b.escalate suppliers now).1 := by
  unfold escalate
  split
  case h_1 => exact .refl b
  split
  case isTrue => exact .refl b
  split
  case h_1 => exact .refl b
  split
  case h_1 => exact .refl b
  split
  case isTrue => exact .refl b
  case isFalse => exact ⟨rfl, rfl, rfl⟩

theorem keeps_reportUnappliable (b : BodyTrack) (now : Nat) :
    Keeps b (b.reportUnappliable now).1 := by
  have hsince : Keeps b (b.noteUnappliable now) := by
    unfold noteUnappliable
    dsimp only
    split <;> exact ⟨rfl, rfl, rfl⟩
  unfold reportUnappliable
  dsimp only
  split
  case h_1 => exact hsince
  split
  case isTrue => exact hsince.trans ⟨rfl, rfl, rfl⟩
  case isFalse => exact hsince

theorem keeps_reportStarved (b : BodyTrack) (now : Nat) : Keeps b (b.reportStarved now).1 := by
  unfold reportStarved
  split
  case h_1 => exact .refl b
  dsimp only
  split
  case isTrue => exact ⟨rfl, rfl, rfl⟩
  case isFalse => exact .refl b

theorem keeps_tick (b : BodyTrack) (suppliers : List Supplier) (now : Nat) :
    Keeps b (b.tick suppliers now).1 := by
  have hretry (l : List InFlight) : Keeps b
      (l.foldr (retryOne suppliers now) ({ b with inflight := [] }, [])).1 := by
    induction l with
    | nil => exact ⟨rfl, rfl, rfl⟩
    | cons f l ih => exact ih.trans (keeps_retryOne suppliers now f _)
  exact ((hretry b.inflight).trans (keeps_escalate _ _ _)).trans
    ((keeps_reportUnappliable _ _).trans (keeps_reportStarved _ _))

/-! ## What a drain does -/

/-- What a drain makes of the track: heights are passed one after the other, until a body is missing
or a call is refused. -/
inductive Drains (apply : Nat → Hash32 → Bytes → Bool) : BodyTrack → BodyTrack → List Call → Prop
  | stop {b : BodyTrack} (hready : b.ready.lookup (b.applied + 1) = none) : Drains apply b b []
  | pass {b b' : BodyTrack} {hash : Hash32} {bytes : Bytes} {calls : List Call}
    (hready : b.ready.lookup (b.applied + 1) = some (hash, bytes))
    (happly : apply (b.applied + 1) hash bytes = true)
    (hrest : Drains apply { b with
      ready := b.ready.erase (b.applied + 1)
      readyBytes := b.readyBytes - bytes.length
      applied := b.applied + 1
      holSince := none } b' calls) :
    Drains apply b b' (⟨b.applied + 1, hash, bytes, true⟩ :: calls)
  | refuse {b : BodyTrack} {hash : Hash32} {bytes : Bytes}
    (hready : b.ready.lookup (b.applied + 1) = some (hash, bytes))
    (happly : apply (b.applied + 1) hash bytes = false) :
    Drains apply b { b with
      ready := (b.ready.erase (b.applied + 1)).insert (b.applied + 1) (hash, bytes) }
      [⟨b.applied + 1, hash, bytes, false⟩]

theorem drains (apply : Nat → Hash32 → Bytes → Bool) {fuel : Nat} {b : BodyTrack}
    (hfuel : b.ready.keys.length < fuel) :
    Drains apply b (drainLoop apply fuel b).1 (drainLoop apply fuel b).2 := by
  induction fuel generalizing b with
  | zero => exact absurd hfuel (Nat.not_lt_zero _)
  | succ fuel ih =>
    unfold drainLoop
    dsimp only
    split
    case h_1 hready => exact .stop hready
    case h_2 hash bytes hready =>
      split
      case isTrue happly =>
        refine .pass hready happly (ih ?_)
        have hpos : 0 < b.ready.keys.length :=
          List.length_pos_of_mem (AList.lookup_isSome.mp (by rw [hready]; rfl))
        dsimp only
        rw [AList.length_keys_erase, hready, Option.isSome_some, if_pos rfl]
        exact (Nat.sub_lt hpos Nat.zero_lt_one).trans_le (Nat.le_of_lt_succ hfuel)
      case isFalse happly => exact .refuse hready (Bool.not_eq_true _ ▸ happly)

/-- The ready bodies count. -/
def Sums (b : BodyTrack) : Prop := b.readyBytes = AList.total (·.2.length) b.ready

/-- The ready bodies are not too far ahead. -/
def Ahead (b : BodyTrack) : Prop := ∀ h ∈ b.ready, h ≤ b.applied + readyAheadBlocks

/-- The ready bodies were asked for. -/
def Asked (asked : List (Nat × Hash32)) (b : BodyTrack) : Prop :=
  ∀ h x, b.ready.lookup h = some x → (h, x.1) ∈ asked

/-- No body is ready that was not, and no height is lost. -/
structure Within (b b' : BodyTrack) : Prop where
  applied : b.applied ≤ b'.applied
  ready : ∀ h x, b'.ready.lookup h = some x → b.ready.lookup h = some x

theorem Within.refl (b : BodyTrack) : Within b b := ⟨le_rfl, fun _ _ h ↦ h⟩

theorem Within.trans {b'' : BodyTrack} (h : Within b b') (h' : Within b' b'') : Within b b'' :=
  ⟨h.applied.trans h'.applied, fun k x hx ↦ h.ready k x (h'.ready k x hx)⟩

theorem Keeps.within (h : Keeps b b') : Within b b' :=
  ⟨h.applied.ge, fun _ _ hx ↦ h.ready ▸ hx⟩

theorem Within.ahead (h : Within b b') (hb : Ahead b) : Ahead b' := by
  intro k hk
  obtain ⟨x, hx⟩ := Option.isSome_iff_exists.mp (AList.lookup_isSome.mpr hk)
  have hmem : k ∈ b.ready := by
    rw [← AList.lookup_isSome, h.ready k x hx]
    rfl
  exact (hb k hmem).trans (Nat.add_le_add_right h.applied _)

theorem Within.asked {asked : List (Nat × Hash32)} (h : Within b b') (hb : Asked asked b) :
    Asked asked b' := fun k x hx ↦ hb k x (h.ready k x hx)

/-- A body that is taken out counts no more. -/
theorem Sums.erase (h : Sums b) {k : Nat} {x : Hash32 × Bytes} (hx : b.ready.lookup k = some x) :
    b.readyBytes - x.2.length = AList.total (·.2.length) (b.ready.erase k) := by
  rw [h, ← AList.total_erase hx, Nat.add_sub_cancel]

theorem Drains.within {apply : Nat → Hash32 → Bytes → Bool} {calls : List Call}
    (h : Drains apply b b' calls) : Within b b' := by
  induction h with
  | stop => exact .refl _
  | @pass b b' hash bytes calls hready happly hrest ih =>
    refine Within.trans ⟨Nat.le_succ _, fun k x hx ↦ ?_⟩ ih
    rcases eq_or_ne k (b.applied + 1) with rfl | hk
    · rw [AList.lookup_erase] at hx
      cases hx
    · rwa [AList.lookup_erase_ne hk] at hx
  | @refuse b hash bytes hready happly =>
    refine ⟨le_rfl, fun k x hx ↦ ?_⟩
    rcases eq_or_ne k (b.applied + 1) with rfl | hk
    · rw [AList.lookup_insert] at hx
      rw [hready, hx]
    · rwa [AList.lookup_insert_ne hk, AList.lookup_erase_ne hk] at hx

theorem Drains.sums {apply : Nat → Hash32 → Bytes → Bool} {calls : List Call}
    (h : Drains apply b b' calls) (hb : Sums b) : Sums b' := by
  induction h with
  | stop => exact hb
  | pass hready happly hrest ih => exact ih (hb.erase hready)
  | @refuse b hash bytes hready happly =>
    have hnot : b.applied + 1 ∉ b.ready.erase (b.applied + 1) := by
      rw [AList.mem_erase]
      exact fun h ↦ h.1 rfl
    unfold Sums
    rw [AList.total_insert hnot]
    exact hb.trans ((Nat.add_comm _ _).trans (AList.total_erase hready)).symm

theorem dropReady_within (b : BodyTrack) (k : Nat) : Within b (b.dropReady k) := by
  unfold dropReady
  split
  case h_1 => exact .refl b
  case h_2 hash bytes hready =>
    refine ⟨le_rfl, fun j x hx ↦ ?_⟩
    rcases eq_or_ne j k with rfl | hj
    · rw [AList.lookup_erase] at hx
      cases hx
    · rwa [AList.lookup_erase_ne hj] at hx

theorem dropReady_applied (b : BodyTrack) (k : Nat) : (b.dropReady k).applied = b.applied := by
  unfold dropReady
  split <;> rfl

theorem Sums.dropReady (h : Sums b) (k : Nat) : Sums (b.dropReady k) := by
  unfold BodyTrack.dropReady
  split
  case h_1 => exact h
  case h_2 hash bytes hready => exact h.erase hready

/-- The stale bodies are dropped, and no height is passed. -/
theorem foldl_dropReady (ks : List Nat) (b : BodyTrack) : Within b (ks.foldl dropReady b) ∧
    (ks.foldl dropReady b).applied = b.applied ∧ (Sums b → Sums (ks.foldl dropReady b)) := by
  induction ks generalizing b with
  | nil => exact ⟨.refl b, rfl, id⟩
  | cons k ks ih =>
    obtain ⟨hwithin, happlied, hsums⟩ := ih (b.dropReady k)
    exact ⟨(b.dropReady_within k).trans hwithin, happlied.trans (b.dropReady_applied k),
      fun h ↦ hsums (h.dropReady k)⟩

theorem keeps_settle (b : BodyTrack) (now : Nat) : Keeps b (b.settle now) := by
  unfold settle
  dsimp only
  split_ifs <;> exact ⟨rfl, rfl, rfl⟩

theorem Keeps.sums (h : Keeps b b') (hb : Sums b) : Sums b' := by
  rw [Sums, h.readyBytes, h.ready]
  exact hb

/-- A drain in one. -/
theorem drainApplicable_drains (b : BodyTrack) (apply : Nat → Hash32 → Bytes → Bool) (now : Nat) :
    ∃ mid, Drains apply b mid (b.drainApplicable apply now).2 ∧
      Within mid (b.drainApplicable apply now).1 ∧
      (b.drainApplicable apply now).1.applied = mid.applied ∧
      (Sums mid → Sums (b.drainApplicable apply now).1) := by
  have hfuel : b.ready.keys.length < b.ready.entries.length + 1 := by
    rw [AList.keys, List.keys, List.length_map]
    exact Nat.lt_succ_self _
  have hdrains := drains apply hfuel
  unfold drainApplicable
  generalize drainLoop apply (b.ready.entries.length + 1) b = r at hdrains
  obtain ⟨mid, calls⟩ := r
  refine ⟨mid, hdrains, ?_⟩
  obtain ⟨hwithin, happlied, hsums⟩ :=
    foldl_dropReady (mid.ready.keys.filter (· ≤ mid.applied)) mid
  have hkeeps := keeps_settle ((mid.ready.keys.filter (· ≤ mid.applied)).foldl dropReady mid) now
  exact ⟨hwithin.trans hkeeps.within, hkeeps.applied.trans happlied, fun h ↦ hkeeps.sums (hsums h)⟩

/-! ## What a drain passes -/

/-- The sink refuses a body for good. -/
def Refuses (answer : Except SinkError Unit) : Prop :=
  (∃ why, answer = .error (.invalid why)) ∨ ∃ height why, answer = .error (.refusedAt height why)

theorem applies_iff {answer : Except SinkError Unit} :
    applies answer = true ↔ answer = .ok () ∨ Refuses answer := by
  unfold Refuses
  constructor
  · intro h
    rcases answer with ⟨_ | why | ⟨height, why⟩ | why⟩ | ⟨⟩
    · cases h
    · exact .inr (.inl ⟨why, rfl⟩)
    · exact .inr (.inr ⟨height, why, rfl⟩)
    · cases h
    · exact .inl rfl
  · rintro (rfl | ⟨why, rfl⟩ | ⟨height, why, rfl⟩) <;> rfl

/-- The body at the height is ready, and the sink has room for it. -/
def Comes (sink : Turns) (b : BodyTrack) (height : Nat) (answer : Except SinkError Unit) : Prop :=
  ∃ hash bytes, b.ready.lookup height = some (hash, bytes) ∧
    (sink height hash bytes).capacity.admits bytes.length = true ∧
    (sink height hash bytes).answer = answer

/-- Of the bodies that come to the sink, one behind the other, the sink refuses none for good. -/
def Welcome (sink : Turns) (b : BodyTrack) : Prop :=
  ∀ n answer, (∀ i < n, Comes sink b (b.applied + 1 + i) (.ok ())) →
    Comes sink b (b.applied + 1 + n) answer → ¬Refuses answer

/-- The track with the first height passed. -/
def passNext (b : BodyTrack) (bytes : Bytes) : BodyTrack :=
  { b with
    ready := b.ready.erase (b.applied + 1)
    readyBytes := b.readyBytes - bytes.length
    applied := b.applied + 1
    holSince := none }

theorem comes_passNext {sink : Turns} {bytes : Bytes} {n : Nat} {answer : Except SinkError Unit} :
    Comes sink (b.passNext bytes) ((b.passNext bytes).applied + 1 + n) answer ↔
      Comes sink b (b.applied + 1 + (n + 1)) answer := by
  have hheight : (b.passNext bytes).applied + 1 + n = b.applied + 1 + (n + 1) := by
    show b.applied + 1 + 1 + n = _
    omega
  have hlookup : (b.passNext bytes).ready.lookup (b.applied + 1 + (n + 1)) =
      b.ready.lookup (b.applied + 1 + (n + 1)) := AList.lookup_erase_ne (by omega)
  unfold Comes
  rw [hheight, hlookup]

theorem Welcome.passNext {sink : Turns} {bytes : Bytes} (h : Welcome sink b)
    (hfirst : Comes sink b (b.applied + 1) (.ok ())) : Welcome sink (b.passNext bytes) := by
  intro n answer hbefore hcomes
  refine h (n + 1) answer (fun i hi ↦ ?_) (comes_passNext.mp hcomes)
  cases i with
  | zero => exact hfirst
  | succ i => exact comes_passNext.mp (hbefore i (Nat.lt_of_succ_lt_succ hi))

end BodyTrack

/-- Entries come at the next height, and those that pass move it on. -/
inductive Climbs : Nat → List Entry → Nat → Prop
  | nil (a : Nat) : Climbs a [] a
  | pass {a c : Nat} {e : Entry} {log : List Entry} (hheight : e.height = a + 1)
    (hpass : e.passes = true) (hrest : Climbs (a + 1) log c) : Climbs a (e :: log) c
  | stay {a c : Nat} {e : Entry} {log : List Entry} (hheight : e.height = a + 1)
    (hpass : e.passes = false) (hrest : Climbs a log c) : Climbs a (e :: log) c

namespace Climbs

variable {a c c' : Nat} {log log' : List Entry}

theorem append (h : Climbs a log c) (h' : Climbs c log' c') : Climbs a (log ++ log') c' := by
  induction h with
  | nil => exact h'
  | pass hheight hpass _ ih => exact .pass hheight hpass (ih h')
  | stay hheight hpass _ ih => exact .stay hheight hpass (ih h')

theorem le (h : Climbs a log c) : a ≤ c := by
  induction h with
  | nil => exact le_rfl
  | pass _ _ _ ih => exact (Nat.le_succ _).trans ih
  | stay _ _ _ ih => exact ih

/-- The heights that are passed have no gaps. -/
theorem heights (h : Climbs a log c) :
    (log.filter Entry.passes).map Entry.height = List.range' (a + 1) (c - a) := by
  induction h with
  | nil a => rw [Nat.sub_self, List.filter_nil, List.map_nil, List.range'_zero]
  | @pass a c e log hheight hpass hrest ih =>
    rw [List.filter_cons_of_pos hpass, List.map_cons, ih, hheight, ← List.range'_succ]
    congr 1
    have hle := hrest.le
    omega
  | stay hheight hpass hrest ih =>
    rw [List.filter_cons_of_neg (by rw [hpass]; exact Bool.false_ne_true), ih]

theorem lt (h : Climbs a log c) : ∀ e ∈ log, a < e.height := by
  induction h with
  | nil =>
    intro e he
    cases he
  | pass hheight hpass hrest ih =>
    refine List.forall_mem_cons.mpr ⟨hheight ▸ Nat.lt_succ_self _, fun e he ↦ ?_⟩
    exact (Nat.lt_succ_self _).trans (ih e he)
  | stay hheight hpass hrest ih =>
    exact List.forall_mem_cons.mpr ⟨hheight ▸ Nat.lt_succ_self _, ih⟩

/-- A height comes again only while it is not passed. -/
theorem pairwise (h : Climbs a log c) : log.Pairwise fun e e' ↦
    e.height ≤ e'.height ∧ (e.passes = true → e.height < e'.height) := by
  induction h with
  | nil => exact List.Pairwise.nil
  | pass hheight hpass hrest ih =>
    refine List.Pairwise.cons (fun e he ↦ ?_) ih
    have hlt := hrest.lt e he
    rw [← hheight] at hlt
    exact ⟨hlt.le, fun _ ↦ hlt⟩
  | stay hheight hpass hrest ih =>
    refine List.Pairwise.cons (fun e he ↦ ?_) ih
    rw [hheight, hpass]
    exact ⟨hrest.lt e he, fun h ↦ (by cases h)⟩

end Climbs

namespace BodyTrack

variable {b b' : BodyTrack} {sink : Turns} {calls : List Call}

open Downloads (offer)

theorem offer_of_admits {c : Call}
    (h : (sink c.height c.hash c.bytes).capacity.admits c.bytes.length = true) :
    offer sink c = some (.offered c.height c.hash (sink c.height c.hash c.bytes).answer) := if_pos h

theorem offer_of_not_admits {c : Call}
    (h : (sink c.height c.hash c.bytes).capacity.admits c.bytes.length = false) :
    offer sink c = none := by
  unfold offer
  dsimp only
  rw [h, if_neg Bool.false_ne_true]

/-- What is handed to the sink comes at the next height. -/
theorem Drains.climbs (h : Drains (applyBody sink) b b' calls) :
    Climbs b.applied (calls.filterMap (offer sink)) b'.applied := by
  induction h with
  | stop => exact .nil _
  | pass hready happly hrest ih =>
    obtain ⟨hadmits, happlies⟩ := Bool.and_eq_true_iff.mp happly
    rw [List.filterMap_cons_some (offer_of_admits hadmits)]
    exact .pass rfl happlies ih
  | @refuse b hash bytes hready happly =>
    cases hadmits : (sink (b.applied + 1) hash bytes).capacity.admits bytes.length with
    | false =>
      rw [List.filterMap_cons_none (offer_of_not_admits hadmits)]
      exact .nil _
    | true =>
      unfold applyBody at happly
      rw [hadmits, Bool.true_and] at happly
      rw [List.filterMap_cons_some (offer_of_admits hadmits)]
      exact .stay rfl happly (.nil _)

/-- What passes was asked for and accepted, if the sink refuses nothing for good. -/
theorem Drains.honest {asked : List (Nat × Hash32)} (h : Drains (applyBody sink) b b' calls)
    (hasked : Asked asked b) (hwelcome : Welcome sink b) :
    ∀ e ∈ calls.filterMap (offer sink), e.passes = true → e.Honest asked := by
  induction h with
  | stop =>
    intro e he
    cases he
  | @pass b b' hash bytes calls hready happly hrest ih =>
    obtain ⟨hadmits, happlies⟩ := Bool.and_eq_true_iff.mp happly
    have hfirst : Comes sink b (b.applied + 1) (sink (b.applied + 1) hash bytes).answer :=
      ⟨hash, bytes, hready, hadmits, rfl⟩
    have hok : (sink (b.applied + 1) hash bytes).answer = .ok () := by
      refine (applies_iff.mp happlies).resolve_right ?_
      exact hwelcome 0 _ (fun _ hi ↦ absurd hi (Nat.not_lt_zero _)) hfirst
    have hwithin : Within b (b.passNext bytes) := by
      refine ⟨Nat.le_succ _, fun k x hx ↦ ?_⟩
      rcases eq_or_ne k (b.applied + 1) with rfl | hk
      · rw [passNext, AList.lookup_erase] at hx
        cases hx
      · rwa [passNext, AList.lookup_erase_ne hk] at hx
    rw [List.filterMap_cons_some (offer_of_admits hadmits)]
    refine List.forall_mem_cons.mpr ⟨fun _ ↦ ⟨hok, hasked _ _ hready⟩, ?_⟩
    exact ih (hwithin.asked hasked) (hwelcome.passNext (hok ▸ hfirst))
  | @refuse b hash bytes hready happly =>
    intro e he hpasses
    obtain ⟨c, hc, hoffer⟩ := List.mem_filterMap.mp he
    cases List.mem_singleton.mp hc
    cases hadmits : (sink (b.applied + 1) hash bytes).capacity.admits bytes.length with
    | false =>
      rw [offer_of_not_admits hadmits] at hoffer
      cases hoffer
    | true =>
      rw [offer_of_admits hadmits] at hoffer
      cases hoffer
      unfold applyBody at happly
      rw [hadmits, Bool.true_and] at happly
      exact absurd hpasses (by rw [Entry.passes, happly]; exact Bool.false_ne_true)

/-- A body that the sink refuses for good is passed. -/
theorem Drains.exists_refused (h : Drains (applyBody sink) b b' calls) {n : Nat}
    {answer : Except SinkError Unit} (hbefore : ∀ i < n, Comes sink b (b.applied + 1 + i) (.ok ()))
    (hcomes : Comes sink b (b.applied + 1 + n) answer) (hrefuses : Refuses answer) :
    ∃ height hash, .offered height hash answer ∈ calls.filterMap (offer sink) := by
  induction n generalizing b calls with
  | zero =>
    obtain ⟨hash, bytes, hready, hadmits, rfl⟩ := hcomes
    rw [Nat.add_zero] at hready hadmits hrefuses
    have happly : applyBody sink (b.applied + 1) hash bytes = true :=
      Bool.and_eq_true_iff.mpr ⟨hadmits, applies_iff.mpr (.inr hrefuses)⟩
    cases h with
    | stop hnone => cases hready.symm.trans hnone
    | pass hsome =>
      cases hready.symm.trans hsome
      rw [List.filterMap_cons_some (offer_of_admits hadmits)]
      exact ⟨_, _, List.mem_cons_self⟩
    | refuse hsome hrefused =>
      cases hready.symm.trans hsome
      cases happly.symm.trans hrefused
  | succ n ih =>
    obtain ⟨hash, bytes, hready, hadmits, hanswer⟩ := hbefore 0 (Nat.succ_pos n)
    rw [Nat.add_zero] at hready hadmits hanswer
    have happly : applyBody sink (b.applied + 1) hash bytes = true :=
      Bool.and_eq_true_iff.mpr ⟨hadmits, applies_iff.mpr (.inl hanswer)⟩
    cases h with
    | stop hnone => cases hready.symm.trans hnone
    | pass hsome _ hrest =>
      cases hready.symm.trans hsome
      rw [List.filterMap_cons_some (offer_of_admits hadmits)]
      obtain ⟨height, hash', hmem⟩ := ih hrest
        (fun i hi ↦ comes_passNext.mpr (hbefore (i + 1) (Nat.succ_lt_succ hi)))
        (comes_passNext.mpr hcomes)
      exact ⟨height, hash', List.mem_cons_of_mem _ hmem⟩
    | refuse hsome hrefused =>
      cases hready.symm.trans hsome
      cases happly.symm.trans hrefused

/-- The chain is caught up with height by height, and no body is touched. -/
theorem catchUp_climbs (has : Nat → Bool) (n : Nat) (b : BodyTrack) :
    Climbs b.applied ((b.catchUp has n).2.map .chainHas) (b.catchUp has n).1.applied ∧
      (b.catchUp has n).1.ready = b.ready ∧ (b.catchUp has n).1.readyBytes = b.readyBytes := by
  induction n generalizing b with
  | zero => exact ⟨.nil _, rfl, rfl⟩
  | succ n ih =>
    unfold catchUp noteChainHas
    dsimp only
    rw [if_neg (Nat.not_succ_le_self b.applied)]
    split
    case isTrue => exact ⟨.nil _, rfl, rfl⟩
    case isFalse =>
      obtain ⟨hclimbs, hready, hbytes⟩ := ih { b with applied := b.applied + 1 }
      exact ⟨.pass rfl rfl hclimbs, hready, hbytes⟩

/-- What `on_body` makes of the ready bodies. -/
theorem onBody_cases (b : BodyTrack) (hash : Hash32) (bytes : Bytes) (height now : Nat) :
    Keeps b (b.onBody hash bytes height now).1 ∧
        ¬(b.applied < height ∧ height ≤ b.applied + readyAheadBlocks ∧ height ∉ b.ready) ∨
      (b.applied < height ∧ height ≤ b.applied + readyAheadBlocks ∧ height ∉ b.ready) ∧
        (b.onBody hash bytes height now).1.applied = b.applied ∧
        (b.onBody hash bytes height now).1.readyBytes = b.readyBytes + bytes.length ∧
        (b.onBody hash bytes height now).1.ready = b.ready.insert height (hash, bytes) := by
  have hknown : Keeps b (b.takeRequest hash now).1 := by
    unfold takeRequest
    split
    case h_1 => exact ⟨rfl, rfl, rfl⟩
    case h_2 => exact keeps_takeFromTail b hash now
  unfold onBody
  generalize b.takeRequest hash now = r at hknown
  obtain ⟨b', known⟩ := r
  obtain ⟨happlied, hready, hbytes⟩ := hknown
  dsimp only at happlied hready hbytes ⊢
  rw [← happlied, ← hready, ← hbytes]
  split
  case isTrue hfar =>
    refine .inl ⟨⟨happlied, hready, hbytes⟩, ?_⟩
    rintro ⟨hlow, hhigh, -⟩
    exact hfar.elim (Nat.not_le_of_lt hlow) (Nat.not_lt_of_le hhigh)
  case isFalse hnear =>
    obtain ⟨hlow, hhigh⟩ := not_or.mp hnear
    split
    case isTrue hmem => exact .inl ⟨⟨happlied, hready, hbytes⟩, fun h ↦ h.2.2 hmem⟩
    case isFalse hmem =>
      exact .inr ⟨⟨Nat.lt_of_not_le hlow, Nat.le_of_not_lt hhigh, hmem⟩, rfl, rfl, rfl⟩

end BodyTrack

/-! ## Real bodies -/

namespace Downloads

open BodyTrack

variable {start : Nat} {d : Downloads} {op : BodyOp}

/-- What the track holds and passes is what was asked for. -/
structure Real (start : Nat) (d : Downloads) : Prop where
  /-- A height is passed that the chain has, or with a body that was asked for and accepted. -/
  passed : ∀ e ∈ d.log, e.passes = true → e.Honest d.asked
  le : start ≤ d.track.applied
  /-- No height is left out. -/
  heights : (d.log.filter Entry.passes).map Entry.height =
    List.range' (start + 1) (d.track.applied - start)
  /-- A height comes again only while it is not passed. -/
  order : d.log.Pairwise fun e e' ↦
    e.height ≤ e'.height ∧ (e.passes = true → e.height < e'.height)
  ready : ∀ h x, d.track.ready.lookup h = some x → (h, x.1) ∈ d.asked
  readyBytes : d.track.readyBytes = AList.total (·.2.length) d.track.ready
  ahead : ∀ h ∈ d.track.ready, h ≤ d.track.applied + readyAheadBlocks

/-- A body that takes a free slot was asked for at its height, and a drain meets no body that the
sink refuses for good. -/
def Genuine (d : Downloads) : BodyOp → Prop
  | .body hash _ height _ => d.track.applied < height ∧
      height ≤ d.track.applied + readyAheadBlocks ∧ height ∉ d.track.ready → (height, hash) ∈ d.asked
  | .drain sink _ => Welcome sink d.track
  | _ => True

/-- What holds whatever happens. -/
structure Kept (start : Nat) (d : Downloads) : Prop where
  climbs : Climbs start d.log d.track.applied
  sums : Sums d.track
  ahead : Ahead d.track

theorem Kept.new (start : Nat) : Kept start (new start) where
  climbs := .nil start
  sums := rfl
  ahead := by
    intro h hh
    cases hh

theorem Kept.keeps (h : Kept start d) {track : BodyTrack} (hkeeps : Keeps d.track track)
    (asked : List (Nat × Hash32)) : Kept start { d with track, asked } where
  climbs := by
    rw [hkeeps.applied]
    exact h.climbs
  sums := hkeeps.sums h.sums
  ahead := hkeeps.within.ahead h.ahead

theorem Kept.step (h : Kept start d) (op : BodyOp) : Kept start (d.step op) := by
  cases op with
  | schedule wanted suppliers now => exact h.keeps (keeps_schedule d.track wanted suppliers now) _
  | notFound hash peer now => exact h.keeps (keeps_onNotFound d.track hash peer now) _
  | tick suppliers now => exact h.keeps (keeps_tick d.track suppliers now) _
  | release peer now => exact h.keeps (keeps_releasePeer d.track peer now) _
  | clearStarvation hash => exact h.keeps (keeps_clearStarvation d.track hash) _
  | body hash bytes height now =>
    rcases d.track.onBody_cases hash bytes height now with
      ⟨hkeeps, -⟩ | ⟨⟨hlow, hhigh, hnot⟩, happlied, hbytes, hready⟩
    · exact h.keeps hkeeps _
    · refine ⟨?_, ?_, ?_⟩
      · show Climbs start d.log (d.track.onBody hash bytes height now).1.applied
        rw [happlied]
        exact h.climbs
      · show Sums (d.track.onBody hash bytes height now).1
        rw [Sums, hbytes, hready, AList.total_insert hnot, Nat.add_comm]
        exact congrArg _ h.sums
      · intro k hk
        show k ≤ (d.track.onBody hash bytes height now).1.applied + readyAheadBlocks
        rw [happlied]
        have hmem : k ∈ d.track.ready.insert height (hash, bytes) := hready ▸ hk
        rcases (AList.mem_insert d.track.ready).mp hmem with rfl | hmem
        · exact hhigh
        · exact h.ahead k hmem
  | drain sink now =>
    obtain ⟨mid, hdrains, hwithin, happlied, hsums⟩ :=
      d.track.drainApplicable_drains (applyBody sink) now
    refine ⟨?_, hsums (hdrains.sums h.sums), (hdrains.within.trans hwithin).ahead h.ahead⟩
    refine h.climbs.append ?_
    show Climbs _ _ (d.track.drainApplicable (applyBody sink) now).1.applied
    rw [happlied]
    exact hdrains.climbs
  | catchUp has =>
    obtain ⟨hclimbs, hready, hbytes⟩ := catchUp_climbs has chainCatchupMax d.track
    have hwithin : Within d.track (d.track.catchUp has chainCatchupMax).1 :=
      ⟨hclimbs.le, fun _ _ hx ↦ hready ▸ hx⟩
    refine ⟨h.climbs.append hclimbs, ?_, hwithin.ahead h.ahead⟩
    show Sums (d.track.catchUp has chainCatchupMax).1
    rw [Sums, hbytes, hready]
    exact h.sums

/-- What was asked for is ready or was passed. -/
structure Solicited (d : Downloads) : Prop where
  ready : Asked d.asked d.track
  passed : ∀ e ∈ d.log, e.passes = true → e.Honest d.asked

theorem Solicited.new (start : Nat) : Solicited (new start) where
  ready := by
    intro h x hx
    cases hx
  passed := by
    intro e he
    cases he

theorem Solicited.keeps (h : Solicited d) {track : BodyTrack} (hkeeps : Keeps d.track track) :
    Solicited { d with track } := ⟨hkeeps.within.asked h.ready, h.passed⟩

theorem Solicited.step (h : Solicited d) (hop : d.Genuine op) : Solicited (d.step op) := by
  cases op with
  | schedule wanted suppliers now =>
    have hkeeps := h.keeps (keeps_schedule d.track wanted suppliers now)
    refine ⟨fun k x hx ↦ List.mem_append_left _ (hkeeps.ready k x hx), fun e he hpasses ↦ ?_⟩
    have hhonest := h.passed e he hpasses
    cases e with
    | chainHas => exact trivial
    | offered => exact ⟨hhonest.1, List.mem_append_left _ hhonest.2⟩
  | notFound hash peer now => exact h.keeps (keeps_onNotFound d.track hash peer now)
  | tick suppliers now => exact h.keeps (keeps_tick d.track suppliers now)
  | release peer now => exact h.keeps (keeps_releasePeer d.track peer now)
  | clearStarvation hash => exact h.keeps (keeps_clearStarvation d.track hash)
  | body hash bytes height now =>
    rcases d.track.onBody_cases hash bytes height now with ⟨hkeeps, -⟩ | ⟨hslot, -, -, hready⟩
    · exact h.keeps hkeeps
    · refine ⟨fun k x hx ↦ ?_, h.passed⟩
      have hx : (d.track.ready.insert height (hash, bytes)).lookup k = some x := hready ▸ hx
      rcases eq_or_ne k height with rfl | hk
      · rw [AList.lookup_insert] at hx
        cases hx
        exact hop hslot
      · rw [AList.lookup_insert_ne hk] at hx
        exact h.ready k x hx
  | drain sink now =>
    obtain ⟨mid, hdrains, hwithin, -, -⟩ := d.track.drainApplicable_drains (applyBody sink) now
    refine ⟨(hdrains.within.trans hwithin).asked h.ready, fun e he hpasses ↦ ?_⟩
    rcases List.mem_append.mp he with he | he
    · exact h.passed e he hpasses
    · exact hdrains.honest h.ready hop e he hpasses
  | catchUp has =>
    obtain ⟨-, hready, -⟩ := catchUp_climbs has chainCatchupMax d.track
    refine ⟨fun k x hx ↦ h.ready k x (hready ▸ hx), fun e he hpasses ↦ ?_⟩
    rcases List.mem_append.mp he with he | he
    · exact h.passed e he hpasses
    · obtain ⟨k, -, rfl⟩ := List.mem_map.mp he
      exact trivial

theorem Kept.real (h : Kept start d) (hsolicited : Solicited d) : Real start d where
  passed := hsolicited.passed
  le := h.climbs.le
  heights := h.climbs.heights
  order := h.climbs.pairwise
  ready := hsolicited.ready
  readyBytes := h.sums
  ahead := h.ahead

/-- An event that is not genuine shows. -/
theorem Real.genuine (h : Real start (d.step op)) : d.Genuine op := by
  cases op with
  | schedule | notFound | tick | release | clearStarvation | catchUp => exact trivial
  | body hash bytes height now =>
    intro hslot
    rcases d.track.onBody_cases hash bytes height now with ⟨-, hnot⟩ | ⟨-, -, -, hready⟩
    · exact absurd hslot hnot
    · refine h.ready height (hash, bytes) ?_
      show (d.track.onBody hash bytes height now).1.ready.lookup height = _
      rw [hready, AList.lookup_insert]
  | drain sink now =>
    intro n answer hbefore hcomes hrefuses
    obtain ⟨mid, hdrains, -, -, -⟩ := d.track.drainApplicable_drains (applyBody sink) now
    obtain ⟨height, hash, hmem⟩ := hdrains.exists_refused hbefore hcomes hrefuses
    obtain ⟨rfl, -⟩ := h.passed _ (List.mem_append_right _ hmem) (applies_iff.mpr (.inr hrefuses))
    rcases hrefuses with ⟨_, hok⟩ | ⟨_, _, hok⟩ <;> cases hok

theorem run_append_singleton (start : Nat) (ops : List BodyOp) (op : BodyOp) :
    run start (ops ++ [op]) = (run start ops).step op := by
  rw [run, List.foldl_append]
  rfl

/-- A body is wanted at a height, and one that nobody asked for comes first. -/
def usurp : List BodyOp :=
  [.schedule [(1, Arr.zero 32)] [⟨0, 9⟩] 0, .body (Arr.ofNat 32 1) [7] 1 1,
    .body (Arr.zero 32) [5] 1 2]

/-- A sink with room that takes no body. -/
def refusing : Turns := fun _ _ _ ↦ ⟨⟨1, 100⟩, .error (.invalid "body")⟩

end Downloads

end Plaine.P2p

import Plaine.Lib.Checked
import Plaine.P2p.AddrMan
import Plaine.P2p.BodyTrack

/-!
# Scores

`peer/score.rs`, and what `peer/session.rs` makes of it.  A score is kept in thousandths together
with the time it was stored, and decays from there by halves, in a straight line between two of
them.  An offence stores what has decayed, whether it carries points or not.
-/

namespace Plaine.P2p

open Plaine.Lib Plaine.Consensus

/-! ## Constants -/

/-- `BAN_SCORE`. -/
def banScore : Nat := 100

/-- `SCORE_HALF_LIFE_MS`. -/
def scoreHalfLifeMs : Nat := 600000

/-- `DELIVERY_RATE_WINDOW_MS`. -/
def deliveryRateWindowMs : Nat := 60000

/-! ## Offences -/

/-- `Offence`. -/
inductive Offence where
  | badPow
  | badBits
  | badTimePast
  | malformed
  | badSignature
  | preHello
  | unknownCmd
  | notFoundAnnouncedBlock
  | repeatOneShot
  | disconnectedBatches
  | unsolicitedBody
  | unsolicitedHeaders
  | getCheckpointAbuse
  | checkpointUnverified
  | reorgTooDeepRepeat
  | deadlineMiss
  | dupInv
  | peerOverran
  | lessWork
  | tieBreakLost
  | reorgTooDeep
  | notYetValid
  | localBackpressure
  | notFoundTx
deriving DecidableEq

namespace Offence

/-- `Offence::points`. -/
def points : Offence → Nat
  | badPow | badBits | badTimePast | malformed | badSignature | preHello => 100
  | unknownCmd | notFoundAnnouncedBlock | repeatOneShot | unsolicitedHeaders
  | getCheckpointAbuse => 20
  | disconnectedBatches | unsolicitedBody | checkpointUnverified | reorgTooDeepRepeat => 10
  | deadlineMiss | peerOverran => 5
  | dupInv => 1
  | lessWork | tieBreakLost | reorgTooDeep | notYetValid | localBackpressure | notFoundTx => 0

/-- `Offence::is_immediate_protocol_ban`. -/
def isImmediateProtocolBan (o : Offence) : Bool := o = preHello

/-- `Offence::is_session_sync_disqualifying`. -/
def isSessionSyncDisqualifying (o : Offence) : Bool :=
  o = badPow ∨ o = badBits ∨ o = badSignature

/-- An offence without points has no other consequence either. -/
theorem harmless {o : Offence} (h : o.points = 0) :
    o.isImmediateProtocolBan = false ∧ o.isSessionSyncDisqualifying = false := by
  cases o <;> first | exact ⟨rfl, rfl⟩ | cases h

end Offence

/-- `Verdict`. -/
inductive Verdict where
  | keep
  | ban
  | banShort
deriving DecidableEq

/-! ## The score -/

/-- `Score`. -/
structure Score where
  milli : Nat
  stamp : Mono
  syncDisqualified : Bool
deriving DecidableEq

namespace Score

/-- `Score::new`. -/
def new (now : Mono) : Score := ⟨0, now, false⟩

/-- What the whole half-lives in `decayed_milli` leave. -/
def halved (milli elapsed : Nat) : Nat :=
  if 63 ≤ elapsed / scoreHalfLifeMs then 0 else milli >>> (elapsed / scoreHalfLifeMs)

/-- What the rest of a half-life in `decayed_milli` leaves.  The product panics when it leaves its
type. -/
def interpolated (v rem : Nat) : Option Nat :=
  if 0 < v ∧ 0 < rem then
    (checkedMul u64Max (v / 2) rem).map fun product ↦ v - product / scoreHalfLifeMs
  else some v

/-- `Score::decayed_milli`. -/
def decayedMilli (s : Score) (now : Mono) : Option Nat :=
  let elapsed := now - s.stamp
  if s.milli = 0 then some 0
  else interpolated (halved s.milli elapsed) (elapsed % scoreHalfLifeMs)

/-- `Score::value`. -/
def value (s : Score) (now : Mono) : Option Nat :=
  (s.decayedMilli now).map fun milli ↦ milli / 1000 % 2 ^ 32

/-- `Score::apply`. -/
def apply (s : Score) (o : Offence) (now : Mono) : Option (Score × Verdict) :=
  (s.decayedMilli now).map fun decayed ↦
    let milli := saturatingAdd u64Max decayed (o.points * 1000)
    let s := { s with
      milli
      stamp := now
      syncDisqualified := o.isSessionSyncDisqualifying || s.syncDisqualified }
    (s, if o.isImmediateProtocolBan then .banShort
      else if banScore ≤ milli / 1000 then .ban else .keep)

end Score

/-! ## Sessions -/

/-- `PeerState`. -/
inductive PeerState where
  | dialing
  | handshaking
  | ready
  | paused
  | draining
  | dead
deriving DecidableEq

/-- `Session`, as far as scores and the choice of a sync peer go. -/
structure Session where
  id : PeerId
  group : Group
  outbound : Bool
  whitelisted : Bool
  state : PeerState
  score : Score
  verifiedDelivered : Nat
  deliveryWindowStart : Mono
  syncIneligibleUntil : Option Mono
  lastPenalised : Option Mono
deriving DecidableEq

namespace Session

/-- `Session::new`. -/
def new (id : PeerId) (ip : Ip) (outbound : Bool) (now : Mono) : Session where
  id
  group := groupOf ip
  outbound
  whitelisted := false
  state := .handshaking
  score := .new now
  verifiedDelivered := 0
  deliveryWindowStart := now
  syncIneligibleUntil := none
  lastPenalised := none

/-- `Session::penalise`. -/
def penalise (s : Session) (o : Offence) (now : Mono) : Option (Session × Verdict) :=
  let s := if 0 < o.points then { s with lastPenalised := some now } else s
  (s.score.apply o now).map fun r ↦
    ({ s with score := r.1 }, if s.whitelisted then .keep else r.2)

/-- `Session::is_ready`. -/
def isReady (s : Session) : Bool := s.state = .ready ∨ s.state = .paused

/-- `Session::sync_eligible`. -/
def syncEligible (s : Session) (now : Mono) : Bool :=
  s.isReady && !s.score.syncDisqualified &&
    match s.syncIneligibleUntil with
    | some t => t ≤ now
    | none => true

/-- `Session::delivery_rate`. -/
def deliveryRate (s : Session) (now : Mono) : Option Nat :=
  if s.verifiedDelivered = 0 then none
  else some (min (s.verifiedDelivered * 1000) u64Max / max (now - s.deliveryWindowStart) 1)

end Session

/-! ## Decay -/

namespace Score

variable {s s' : Score} {now t : Mono} {k m v rem elapsed : Nat}

theorem interpolated_zero (v : Nat) : interpolated v 0 = some v :=
  if_neg fun h ↦ absurd h.2 (lt_irrefl 0)

theorem interpolated_le (h : interpolated v rem = some m) : m ≤ v := by
  unfold interpolated at h
  split at h
  · obtain ⟨product, -, rfl⟩ := Option.map_eq_some_iff.mp h
    exact Nat.sub_le _ _
  · exact (Option.some.inj h).ge

/-- Half is left at least. -/
theorem interpolated_pos (hv : 0 < v) (hrem : rem < scoreHalfLifeMs)
    (h : interpolated v rem = some m) : 0 < m := by
  unfold interpolated at h
  split at h
  · obtain ⟨product, hproduct, rfl⟩ := Option.map_eq_some_iff.mp h
    obtain ⟨-, rfl⟩ := checkedMul_eq_some.mp hproduct
    have hdrop : v / 2 * rem / scoreHalfLifeMs ≤ v / 2 :=
      Nat.div_le_of_le_mul ((Nat.mul_le_mul_left _ hrem.le).trans (Nat.mul_comm _ _).le)
    omega
  · exact Option.some.inj h ▸ hv

/-- After `k` half-lives the `k`-th half is left at most. -/
theorem halved_le (hk : k * scoreHalfLifeMs ≤ elapsed) : halved m elapsed ≤ m / 2 ^ k := by
  have hk : k ≤ elapsed / scoreHalfLifeMs := by
    rwa [Nat.le_div_iff_mul_le (by decide)]
  unfold halved
  split
  · exact Nat.zero_le _
  · rw [Nat.shiftRight_eq_div_pow]
    exact Nat.div_le_div_left (Nat.pow_le_pow_right two_pos hk) (Nat.two_pow_pos _)

@[simp]
theorem halved_zero_left (elapsed : Nat) : halved 0 elapsed = 0 := by
  unfold halved
  rw [Nat.zero_shiftRight, ite_self]

@[simp]
theorem halved_zero (m : Nat) : halved m 0 = m := rfl

theorem halved_anti {elapsed' : Nat} (h : elapsed ≤ elapsed') : halved m elapsed' ≤ halved m elapsed := by
  have hhalves := Nat.div_le_div_right (c := scoreHalfLifeMs) h
  unfold halved
  split
  · exact Nat.zero_le _
  · rw [if_neg (by omega), Nat.shiftRight_eq_div_pow, Nat.shiftRight_eq_div_pow]
    exact Nat.div_le_div_left (Nat.pow_le_pow_right two_pos hhalves) (Nat.two_pow_pos _)

/-- Halving twice, whole half-lives at first. -/
theorem halved_halved (hm : m < 2 ^ 63) (k : Nat) (elapsed : Nat) :
    halved (halved m (k * scoreHalfLifeMs)) elapsed = halved m (k * scoreHalfLifeMs + elapsed) := by
  have hgone {j : Nat} (hj : 63 ≤ j) : m >>> j = 0 := by
    rw [Nat.shiftRight_eq_div_pow]
    exact Nat.div_eq_of_lt (hm.trans_le (Nat.pow_le_pow_right two_pos hj))
  have hshift (e : Nat) : halved m e = m >>> (e / scoreHalfLifeMs) := by
    unfold halved
    split
    case isTrue hj => exact (hgone hj).symm
    case isFalse => rfl
  have hwhole : (k * scoreHalfLifeMs + elapsed) / scoreHalfLifeMs = k + elapsed / scoreHalfLifeMs := by
    rw [Nat.mul_comm, Nat.mul_add_div (by decide)]
  rw [hshift, hshift, Nat.mul_div_cancel _ (by decide), hwhole, Nat.shiftRight_add]
  unfold halved
  split
  case isTrue hj => rw [← Nat.shiftRight_add, hgone (by omega)]
  case isFalse => rfl

/-- A score of nothing needs no case of its own. -/
theorem decayedMilli_eq (s : Score) (now : Mono) : s.decayedMilli now =
    interpolated (halved s.milli (now - s.stamp)) ((now - s.stamp) % scoreHalfLifeMs) := by
  unfold decayedMilli
  dsimp only
  split
  case isTrue hzero =>
    rw [hzero, halved_zero_left]
    rfl
  case isFalse => rfl

theorem decayedMilli_le_half (ht : s.stamp + k * scoreHalfLifeMs ≤ t)
    (h : s.decayedMilli t = some m) : m ≤ s.milli / 2 ^ k := by
  rw [decayedMilli_eq] at h
  exact (interpolated_le h).trans (halved_le (Nat.le_sub_of_add_le' ht))

theorem decayedMilli_le (h : s.decayedMilli t = some m) : m ≤ s.milli := by
  rw [decayedMilli_eq] at h
  exact (interpolated_le h).trans (halved_anti (Nat.zero_le _))

/-- An offence without points leaves every later score as it is when it comes a whole number of
half-lives after the score was stored, or nothing is left of it. -/
def FoldsEvenly (s : Score) (now : Mono) : Prop :=
  s.decayedMilli now = some 0 ∨
    (now - s.stamp) % scoreHalfLifeMs = 0 ∧ (s.milli < 2 ^ 63 ∨ now ≤ s.stamp)

/-- A score with what has decayed stored. -/
def fold (s : Score) (now : Mono) (decayed : Nat) : Score :=
  { s with milli := decayed, stamp := now }

theorem FoldsEvenly.decayedMilli (h : s.FoldsEvenly now) (hnow : s.stamp ≤ now) :
    ∃ decayed, s.decayedMilli now = some decayed ∧
      ∀ t, now ≤ t → (s.fold now decayed).decayedMilli t = s.decayedMilli t := by
  rcases h with hzero | ⟨hwhole, hsmall⟩
  · refine ⟨0, hzero, fun t ht ↦ ?_⟩
    have hnone : halved s.milli (now - s.stamp) = 0 := by
      by_contra hpos
      rw [decayedMilli_eq] at hzero
      exact absurd (interpolated_pos (Nat.pos_of_ne_zero hpos)
        (Nat.mod_lt _ (by decide)) hzero) (lt_irrefl 0)
    have hlater : halved s.milli (t - s.stamp) = 0 :=
      Nat.le_zero.mp (hnone ▸ halved_anti (Nat.sub_le_sub_right ht _))
    rw [decayedMilli_eq s t, hlater]
    rfl
  · obtain ⟨k, hk⟩ := Nat.dvd_of_mod_eq_zero hwhole
    rw [Nat.mul_comm] at hk
    refine ⟨halved s.milli (k * scoreHalfLifeMs), ?_, fun t ht ↦ ?_⟩
    · rw [decayedMilli_eq, hwhole, interpolated_zero, hk]
    · have hsum : t - s.stamp = k * scoreHalfLifeMs + (t - now) := by
        rw [← hk, Nat.add_comm]
        exact (Nat.sub_add_sub_cancel ht hnow).symm
      have hrem : (t - s.stamp) % scoreHalfLifeMs = (t - now) % scoreHalfLifeMs := by
        rw [hsum, Nat.add_comm, Nat.add_mul_mod_self_right]
      rw [decayedMilli_eq, decayedMilli_eq s t, hrem]
      dsimp only [fold]
      rcases hsmall with hsmall | hsame
      · rw [halved_halved hsmall, hsum]
      · obtain rfl : now = s.stamp := le_antisymm hsame hnow
        rw [← hk, Nat.sub_self, halved_zero]

end Score

/-! ## Runs -/

/-- An offence of a session, which may have been inserted. -/
structure Incident where
  time : Mono
  offence : Offence
  extra : Bool
deriving DecidableEq

namespace Session

/-- A run of offences, with what is made of each of them. -/
def penaliseAll (s : Session) : List Incident → Option (Session × List (Incident × Verdict))
  | [] => some (s, [])
  | e :: es => do
    let (s, v) ← s.penalise e.offence e.time
    let (s, vs) ← s.penaliseAll es
    return (s, (e, v) :: vs)

/-- Every inserted offence leaves the later scores as they are. -/
def InsertsEvenly (s : Session) : List Incident → Prop
  | [] => True
  | e :: es => (e.extra → s.score.FoldsEvenly e.time) ∧
    ∀ s' v, s.penalise e.offence e.time = some (s', v) → s'.InsertsEvenly es

/-- The verdicts on the offences that were not inserted. -/
def told (vs : List (Incident × Verdict)) : List (Incident × Verdict) := vs.filter (!·.1.extra)

/-- Two sessions whose scores are the same from a time on. -/
structure Alike (now : Mono) (s s' : Session) : Prop where
  stamp : s'.score.stamp ≤ now
  small : s'.score.milli ≤ u64Max
  decayed : ∀ t, now ≤ t → s'.score.decayedMilli t = s.score.decayedMilli t
  disqualified : s'.score.syncDisqualified = s.score.syncDisqualified
  whitelisted : s'.whitelisted = s.whitelisted

variable {s s' : Session} {now t : Mono} {o : Offence} {es : List Incident}

theorem Alike.mono (h : Alike now s s') (ht : now ≤ t) : Alike t s s' where
  stamp := h.stamp.trans ht
  small := h.small
  decayed t' ht' := h.decayed t' (ht.trans ht')
  disqualified := h.disqualified
  whitelisted := h.whitelisted

/-- An offence that is not inserted is treated the same. -/
theorem Alike.penalise (h : Alike now s s') (o : Offence) :
    (s.penalise o now = none ∧ s'.penalise o now = none) ∨
      ∃ r r' v, s.penalise o now = some (r, v) ∧ s'.penalise o now = some (r', v) ∧ Alike now r r' := by
  have hdecayed := h.decayed now le_rfl
  have hdisqualified := h.disqualified
  have hwhitelisted := h.whitelisted
  unfold Session.penalise Score.apply
  split <;>
  · dsimp only
    rw [hdecayed, hdisqualified, hwhitelisted]
    cases s.score.decayedMilli now with
    | none => exact .inl ⟨rfl, rfl⟩
    | some decayed =>
      refine .inr ⟨_, _, _, rfl, rfl, ?_⟩
      exact ⟨le_rfl, Nat.min_le_right _ _, fun _ _ ↦ rfl, rfl, rfl⟩

/-- An offence without points that comes evenly leaves a session alike. -/
theorem Alike.insert (h : Alike now s s') (ho : o.points = 0) (heven : s'.score.FoldsEvenly now) :
    ∃ r v, s'.penalise o now = some (r, v) ∧ Alike now s r := by
  obtain ⟨decayed, hdecayed, hsame⟩ := heven.decayedMilli h.stamp
  obtain ⟨-, hsync⟩ := o.harmless ho
  have hsmall : decayed ≤ u64Max := (Score.decayedMilli_le hdecayed).trans h.small
  have happly : s'.score.apply o now = some (s'.score.fold now decayed,
      if banScore ≤ decayed / 1000 then .ban else .keep) := by
    unfold Score.apply Score.fold
    rw [hdecayed, Option.map_some, hsync, (o.harmless ho).1, ho, Nat.zero_mul,
      saturatingAdd_of_le (by omega)]
    rfl
  refine ⟨{ s' with score := s'.score.fold now decayed }, if s'.whitelisted then .keep
    else if banScore ≤ decayed / 1000 then .ban else .keep, ?_, ?_⟩
  · unfold Session.penalise
    rw [if_neg (by omega)]
    dsimp only
    rw [happly]
    rfl
  · exact ⟨le_rfl, hsmall, fun t ht ↦ (hsame t ht).trans (h.decayed t ht), h.disqualified,
      h.whitelisted⟩

theorem penaliseAll_cons {e : Incident} {r : Session} {v : Verdict}
    (h : s.penalise e.offence e.time = some (r, v)) :
    s.penaliseAll (e :: es) = (r.penaliseAll es).map fun x ↦ (x.1, (e, v) :: x.2) := by
  rw [penaliseAll, h]
  show (r.penaliseAll es).bind _ = _
  cases r.penaliseAll es with
  | none => rfl
  | some x => rfl

theorem penaliseAll_cons_none {e : Incident} (h : s.penalise e.offence e.time = none) :
    s.penaliseAll (e :: es) = none := by
  rw [penaliseAll, h]
  rfl

/-- A run with inserted offences and the run without them tell the same, and leave the same
score. -/
theorem Alike.run (h : Alike now s s') (hafter : ∀ e ∈ es, now ≤ e.time)
    (hsorted : es.Pairwise fun e e' ↦ e.time ≤ e'.time)
    (hextra : ∀ e ∈ es, e.extra → e.offence.points = 0) (heven : s'.InsertsEvenly es) :
    (s'.penaliseAll es).map (fun r ↦ told r.2) =
        (s.penaliseAll (es.filter (!·.extra))).map (·.2) ∧
      ∀ t, now ≤ t → (∀ e ∈ es, e.time ≤ t) →
        (s'.penaliseAll es).bind (·.1.score.decayedMilli t) =
          (s.penaliseAll (es.filter (!·.extra))).bind (·.1.score.decayedMilli t) := by
  induction es generalizing s s' now with
  | nil =>
    exact ⟨rfl, fun t ht _ ↦ h.decayed t ht⟩
  | cons e es ih =>
    obtain ⟨hnow, hafter⟩ := List.forall_mem_cons.mp hafter
    obtain ⟨hlater, hsorted⟩ := List.pairwise_cons.mp hsorted
    obtain ⟨hzero, hextra⟩ := List.forall_mem_cons.mp hextra
    obtain ⟨hfolds, heven⟩ := heven
    have h := h.mono hnow
    by_cases he : e.extra
    · obtain ⟨r, v, hr, h'⟩ := h.insert (hzero he) (hfolds he)
      obtain ⟨htold, hvalue⟩ := ih h' hlater hsorted hextra (heven r v hr)
      have htell : ∀ vs, told ((e, v) :: vs) = told vs := fun vs ↦
        List.filter_cons_of_neg (by rw [he]; exact Bool.false_ne_true)
      rw [List.filter_cons_of_neg (by rw [he]; exact Bool.false_ne_true), penaliseAll_cons hr]
      refine ⟨?_, fun t ht hall ↦ ?_⟩
      · rw [← htold, Option.map_map]
        exact congrArg (Option.map · _) (funext fun x ↦ htell x.2)
      · obtain ⟨het, hall⟩ := List.forall_mem_cons.mp hall
        rw [← hvalue t het hall, Option.bind_map]
        rfl
    · have hkeep : (!e.extra) = true := by simpa using he
      have hfilter : (e :: es).filter (!·.extra) = e :: es.filter (!·.extra) :=
        List.filter_cons_of_pos hkeep
      rw [hfilter]
      rcases h.penalise e.offence with ⟨hnone, hnone'⟩ | ⟨r, r', v, hr, hr', h'⟩
      · rw [penaliseAll_cons_none hnone, penaliseAll_cons_none hnone']
        exact ⟨rfl, fun _ _ _ ↦ rfl⟩
      · obtain ⟨htold, hvalue⟩ := ih h' hlater hsorted hextra (heven r' v hr')
        have htell : ∀ vs, told ((e, v) :: vs) = (e, v) :: told vs := fun vs ↦
          List.filter_cons_of_pos hkeep
        rw [penaliseAll_cons hr, penaliseAll_cons hr', Option.map_map, Option.map_map]
        refine ⟨?_, fun t ht hall ↦ ?_⟩
        · have hcomp : ((fun r : Session × List (Incident × Verdict) ↦ told r.2) ∘
              fun x : Session × List (Incident × Verdict) ↦ (x.1, (e, v) :: x.2)) =
                ((e, v) :: ·) ∘ fun r ↦ told r.2 :=
            funext fun x ↦ htell x.2
          rw [hcomp, ← Option.map_map, htold, Option.map_map]
          rfl
        · obtain ⟨het, hall⟩ := List.forall_mem_cons.mp hall
          rw [Option.bind_map, Option.bind_map]
          exact hvalue t het hall

/-! ## Sums -/

/-- The points of offences. -/
def pointsOf (es : List Incident) : Nat := (es.map (·.offence.points)).sum

/-- An offence adds its points at most. -/
theorem milli_penalise {r : Session} {v : Verdict} (h : s.penalise o now = some (r, v)) :
    r.score.stamp = now ∧ r.score.milli ≤ s.score.milli + 1000 * o.points ∧
      r.score.milli ≤ u64Max := by
  unfold penalise at h
  dsimp only at h
  obtain ⟨⟨score, v'⟩, happly, heq⟩ := Option.map_eq_some_iff.mp h
  obtain ⟨rfl, -⟩ := Prod.mk.inj heq
  have hscore : (if 0 < o.points then { s with lastPenalised := some now } else s).score = s.score := by
    split <;> rfl
  rw [hscore] at happly
  obtain ⟨decayed, hdecayed, heq⟩ := Option.map_eq_some_iff.mp happly
  obtain ⟨rfl, -⟩ := Prod.mk.inj heq
  have hle := Score.decayedMilli_le hdecayed
  refine ⟨rfl, ?_, Nat.min_le_right _ _⟩
  calc saturatingAdd u64Max decayed (o.points * 1000) ≤ decayed + o.points * 1000 :=
        Nat.min_le_left _ _
    _ ≤ s.score.milli + 1000 * o.points := by
        rw [Nat.mul_comm]
        exact Nat.add_le_add_right hle _

/-- A run adds the points of its offences at most. -/
theorem milli_run {r : Session} {vs : List (Incident × Verdict)}
    (h : s.penaliseAll es = some (r, vs)) :
    r.score.milli ≤ s.score.milli + 1000 * pointsOf es ∧
      (s.score.milli ≤ u64Max → r.score.milli ≤ u64Max) ∧
      (s.score.stamp ≤ now → (∀ e ∈ es, e.time ≤ now) → r.score.stamp ≤ now) := by
  induction es generalizing s vs with
  | nil =>
    cases h
    exact ⟨le_rfl, fun h ↦ h, fun hnow _ ↦ hnow⟩
  | cons e es ih =>
    cases hstep : s.penalise e.offence e.time with
    | none =>
      rw [penaliseAll_cons_none hstep] at h
      cases h
    | some x =>
      obtain ⟨s₁, v⟩ := x
      rw [penaliseAll_cons hstep] at h
      obtain ⟨⟨r', vs'⟩, hrest, heq⟩ := Option.map_eq_some_iff.mp h
      obtain ⟨rfl, -⟩ := Prod.mk.inj heq
      obtain ⟨hstamp, hle, hsmall⟩ := milli_penalise hstep
      obtain ⟨hrun, hmax, hlast⟩ := ih hrest
      refine ⟨?_, fun _ ↦ hmax hsmall, fun _ hall ↦ ?_⟩
      · rw [pointsOf, List.map_cons, List.sum_cons]
        rw [pointsOf] at hrun
        omega
      · obtain ⟨he, hall⟩ := List.forall_mem_cons.mp hall
        exact hlast (hstamp.trans_le he) hall

end Session

/-! ## The law -/

section

open Session

variable {s₀ s : Session} {now₀ : Mono} {before es : List Incident}
  {vs : List (Incident × Verdict)}

/-- A session that has any number of offences behind it, and offences without points that come evenly
among those that follow.  They change neither a verdict nor a later score; no score exceeds the points
received; and when no other offence follows, `k` half-lives after the score was stored the `k`-th half
is left at most. -/
theorem penalised_evenly (hnew : s₀.score = .new now₀)
    (hsorted : (before ++ es).Pairwise fun e e' ↦ e.time ≤ e'.time)
    (hafter : ∀ e ∈ before ++ es, now₀ ≤ e.time)
    (hextra : ∀ e ∈ es, e.extra → e.offence.points = 0)
    (hrun : s₀.penaliseAll before = some (s, vs)) (heven : s.InsertsEvenly es) :
    ((s.penaliseAll es).map (fun r ↦ told r.2) =
        (s.penaliseAll (es.filter (!·.extra))).map (·.2) ∧
      ∀ t, now₀ ≤ t → (∀ e ∈ before ++ es, e.time ≤ t) →
        (s.penaliseAll es).bind (·.1.score.value t) =
          (s.penaliseAll (es.filter (!·.extra))).bind (·.1.score.value t)) ∧
    (∀ r vs' t n, s.penaliseAll es = some (r, vs') → r.score.value t = some n →
      n ≤ pointsOf (before ++ es)) ∧
    ((∀ e ∈ es, e.extra) → ∀ k r vs' t m, s.penaliseAll es = some (r, vs') →
      (∀ e ∈ es, e.time ≤ t) → s.score.stamp + k * scoreHalfLifeMs ≤ t →
        r.score.decayedMilli t = some m → m ≤ s.score.milli / 2 ^ k) := by
  obtain ⟨hmilli, hsmall, -⟩ : _ ∧ _ ∧ (s₀.score.stamp ≤ now₀ → _) := milli_run hrun
  have hmilli : s.score.milli ≤ 1000 * pointsOf before := by
    rwa [hnew, Score.new, Nat.zero_add] at hmilli
  have hstamp {t : Mono} (ht : now₀ ≤ t) (hall : ∀ e ∈ before, e.time ≤ t) : s.score.stamp ≤ t := by
    refine (milli_run hrun).2.2 ?_ hall
    rwa [hnew]
  obtain ⟨-, hsorted, hbetween⟩ := List.pairwise_append.mp hsorted
  have hlast : ∀ e ∈ es, s.score.stamp ≤ e.time := fun e he ↦
    hstamp (hafter e (List.mem_append_right _ he)) fun e' he' ↦ hbetween e' he' e he
  have halike : Alike s.score.stamp s s :=
    ⟨le_rfl, hsmall (hnew ▸ Nat.zero_le _), fun _ _ ↦ rfl, rfl, rfl⟩
  obtain ⟨htold, hdecayed⟩ := halike.run hlast hsorted hextra heven
  refine ⟨⟨htold, fun t ht hall ↦ ?_⟩, fun r vs' t n hes hn ↦ ?_, fun hzero k r vs' t m hes hall ht hm ↦ ?_⟩
  · obtain ⟨hbefore, hes⟩ := List.forall_mem_append.mp hall
    have heq := congrArg (Option.map fun milli ↦ milli / 1000 % 2 ^ 32)
      (hdecayed t (hstamp ht hbefore) hes)
    rwa [Option.map_bind, Option.map_bind] at heq
  · obtain ⟨m, hm, rfl⟩ := Option.map_eq_some_iff.mp hn
    obtain ⟨hadd, -, -⟩ : _ ∧ _ ∧ (s.score.stamp ≤ t → _) := milli_run hes
    have hle := Score.decayedMilli_le hm
    have hmod := Nat.mod_le (m / 1000) (2 ^ 32)
    rw [pointsOf, List.map_append, List.sum_append]
    unfold pointsOf at hadd hmilli
    omega
  · have hnone : es.filter (!·.extra) = [] := by
      refine List.filter_eq_nil_iff.mpr fun e he ↦ ?_
      rw [hzero e he]
      exact Bool.false_ne_true
    have hkept := hdecayed t ((Nat.le_add_right _ _).trans ht) hall
    rw [hnone, hes] at hkept
    exact Score.decayedMilli_le_half ht (hkept.symm.trans hm)

end

namespace ScoreSample

/-- A peer. -/
def peer : Session := .new 1 (.zero 16) true 0

/-- An offence of 20 points. -/
def offence : Incident := ⟨0, .unknownCmd, false⟩

/-- The peer that committed it. -/
def struck : Session := { peer with score := ⟨20000, 0, false⟩, lastPenalised := some 0 }

/-- A transaction that is not found, when half a half-life has passed. -/
def late : Incident := ⟨300000, .notFoundTx, true⟩

/-- One that is not found after a half-life. -/
def even : Incident := ⟨600000, .notFoundTx, true⟩

end ScoreSample

open ScoreSample Session

/-- An offence without points, in the middle of a half-life, leaves a higher score at its end. -/
theorem zero_points_scored :
    ¬∀ (s₀ : Session) (es : List Incident) (now₀ t : Mono), s₀.score = .new now₀ →
      (es.Pairwise fun e e' ↦ e.time ≤ e'.time) → (∀ e ∈ es, now₀ ≤ e.time ∧ e.time ≤ t) →
      (∀ e ∈ es, e.extra → e.offence.points = 0) →
        (s₀.penaliseAll es).bind (·.1.score.value t) =
          (s₀.penaliseAll (es.filter (!·.extra))).bind (·.1.score.value t) := by
  intro hclaim
  have heq := hclaim peer [offence, late] 0 600000 rfl (by decide) (by decide) (by decide)
  have hbusy : (peer.penaliseAll [offence, late]).bind (·.1.score.value 600000) = some 11 := by
    decide +kernel
  have hquiet : (peer.penaliseAll [offence]).bind (·.1.score.value 600000) = some 10 := by
    decide +kernel
  exact absurd (hbusy.symm.trans (heq.trans hquiet)) (by decide)

/-- After a half-life, an offence without points leaves half of the score. -/
theorem penalised_evenly_sample :
    ∃ r vs m, struck.penaliseAll [even] = some (r, vs) ∧ r.score.decayedMilli 600000 = some m ∧
      m ≤ struck.score.milli / 2 ^ 1 := by
  have hrun : peer.penaliseAll [offence] = some (struck, [(offence, .keep)]) := by decide +kernel
  have heven : struck.InsertsEvenly [even] :=
    ⟨fun _ ↦ .inr ⟨by decide, .inl (by decide)⟩, fun _ _ _ ↦ trivial⟩
  have hsorted : ([offence] ++ [even]).Pairwise fun e e' ↦ e.time ≤ e'.time := by decide
  have hlaw := penalised_evenly rfl hsorted (by decide) (by decide) hrun heven
  have hes : struck.penaliseAll [even] =
      some ({ struck with score := ⟨10000, 600000, false⟩ }, [(even, .keep)]) := by
    decide +kernel
  exact ⟨_, _, 10000, hes, by decide +kernel,
    hlaw.2.2 (by decide) 1 _ _ 600000 10000 hes (by decide) (by decide) (by decide +kernel)⟩

end Plaine.P2p

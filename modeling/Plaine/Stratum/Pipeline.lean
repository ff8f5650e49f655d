import Plaine.Stratum.Replies
import Mathlib.Data.List.Perm.Subperm

/-!
# A session and the verifier

The loop of a connection in `stratum/src/server.rs`, the queue of the verifier and its threads, and
the channel that results come back on, as one system.  Its steps may come in any order, other
sessions have the verifier too, and what sessions share may change at any time.

A share is in one place: an action to be taken, the queue, a thread, the channel, or waiting in the
session.  `Flows` says so, and that each request has been answered or has a share on its way.
-/

namespace Plaine.Stratum

open Plaine.Lib

/-- `RESULT_CHANNEL_DEPTH`. -/
def resultChannelDepth : Nat := 4

/-- A session, what it shares, the queue of the verifier, the works its threads are at, the channel
of results, and what was written; beside it the requests to answer, the works made and those
credited. -/
structure Pipeline (σ β ν : Type) where
  session : Session ν β
  shared : Shared σ β
  queue : List ShareWork
  running : List ShareWork
  results : List (ShareWork × Verdict)
  sent : List Reply
  asked : List (Option Nat)
  made : List Made
  credited : List ShareWork

/-- The works a verdict credits. -/
def Verdict.credits : Verdict → ShareWork → List ShareWork
  | .accepted _, work => [work]
  | .lowDifficulty, _ | .internalError, _ => []

/-- What happens: to the session in the loop of its connection, to the verifier, and to what others
share. -/
inductive Event (σ β : Type) where
  | line (verb : Option Verb)
  | emptyLine
  | tick
  | newGeneration
  | revocation
  | result
  | actions
  | flush
  | enqueue (work : ShareWork)
  | begin
  | finish (i : Nat) (panics : Bool) (sealed : SealOutcome)
  | others (shared : Shared σ β)

namespace Pipeline

variable {σ β ν : Type} [Vardiff ν]

/-- A connection that was just made, while the verifier has the works of others. -/
def new (id : Nat) (ip : IpAddr) (nowMs : Nat) (sh : Shared σ β) (queue running : List ShareWork) :
    Pipeline σ β ν where
  session := .new id ip nowMs sh
  shared := sh
  queue := queue.filter (·.conn ≠ id)
  running := running.filter (·.conn ≠ id)
  results := []
  sent := []
  asked := []
  made := []
  credited := []

/-- The loop's part in an action. -/
def takeAction (cap : Nat) (w : Pipeline σ β ν) : Action → Pipeline σ β ν
  | .close _ => w
  | .verify work =>
    if w.queue.length < cap then { w with queue := w.queue ++ [work] }
    else { w with session := w.session.onVerifyRefused work.requestId }

/-- The router's part in a result: it goes to the channel of the session. -/
def route (w : Pipeline σ β ν) (work : ShareWork) (verdict : Verdict) : Pipeline σ β ν :=
  if work.conn = w.session.id ∧ w.results.length < resultChannelDepth then
    { w with results := w.results ++ [(work, verdict)] }
  else w

/-- A step, with the digests of the proof of work and the capacity of the queue. -/
def step [SliceSource σ] [TokenBucket β] (digest : Arr 132 → Nat) (cap : Nat)
    (w : Pipeline σ β ν) : Nat × Event σ β → Pipeline σ β ν
  | (now, .line verb) =>
    let (session, shared) := w.session.onLine w.shared verb now
    { w with
      session, shared
      asked := w.asked ++ w.session.asks verb now
      made := w.made ++ (w.session.makes w.shared verb now).toList }
  | (now, .emptyLine) =>
    let (_, session, shared) := w.session.chargeLine w.shared now
    { w with session, shared }
  | (now, .tick) =>
    let (session, shared) := w.session.onTick w.shared now
    { w with session, shared }
  | (now, .newGeneration) =>
    if w.session.phase = .authorized then
      { w with session := w.session.pushJob w.shared now false }
    else w
  | (_, .revocation) => { w with session := (w.session.checkSlice w.shared).2 }
  | (now, .result) =>
    match w.results with
    | [] => w
    | (work, verdict) :: results =>
      let (session, shared) := w.session.onVerifyResult w.shared (work.result verdict) now
      { w with
        session, shared, results
        credited := w.credited ++ verdict.credits work }
  | (_, .actions) =>
    w.session.actions.foldl (takeAction cap) { w with session := { w.session with actions := [] } }
  | (_, .flush) =>
    { w with session := { w.session with outbuf := [] }, sent := w.sent ++ w.session.outbuf }
  | (_, .enqueue work) =>
    if work.conn ≠ w.session.id ∧ w.queue.length < cap then { w with queue := w.queue ++ [work] }
    else w
  | (_, .begin) =>
    match w.queue with
    | [] => w
    | work :: queue => { w with queue, running := w.running ++ [work] }
  | (_, .finish i panics sealed) =>
    match w.running[i]? with
    | none => w
    | some work =>
      { w with running := w.running.eraseIdx i }.route work
        (verifyOneIsolated digest panics sealed work)
  | (_, .others shared) => { w with shared }

/-- A run. -/
def run [SliceSource σ] [TokenBucket β] (digest : Arr 132 → Nat) (cap : Nat) (w : Pipeline σ β ν)
    (events : List (Nat × Event σ β)) : Pipeline σ β ν := events.foldl (step digest cap) w

/-! ## Where shares are -/

/-- The works of a session. -/
def ofConn (id : Nat) (l : List ShareWork) : List ShareWork := l.filter (·.conn = id)

theorem ofConn_append (id : Nat) (l l' : List ShareWork) :
    ofConn id (l ++ l') = ofConn id l ++ ofConn id l' := List.filter_append _ _

theorem ofConn_cons_of_eq {id : Nat} {x : ShareWork} (h : x.conn = id) (l : List ShareWork) :
    ofConn id (x :: l) = x :: ofConn id l :=
  List.filter_cons_of_pos (decide_eq_true h : (fun y : ShareWork ↦ decide (y.conn = id)) x = true)

theorem ofConn_cons_of_ne {id : Nat} {x : ShareWork} (h : x.conn ≠ id) (l : List ShareWork) :
    ofConn id (x :: l) = ofConn id l := by
  have hne : ¬(fun y : ShareWork ↦ decide (y.conn = id)) x = true := fun hx ↦
    h (of_decide_eq_true hx)
  exact List.filter_cons_of_neg hne

theorem ofConn_perm (id : Nat) {l l' : List ShareWork} (h : l.Perm l') :
    (ofConn id l).Perm (ofConn id l') := h.filter _

/-- The shares of the session at the verifier. -/
def atVerifier (w : Pipeline σ β ν) : List ShareWork := ofConn w.session.id (w.queue ++ w.running)

/-- The shares that were handed over and have no verdict yet that the session knows of, where some
actions are being taken. -/
def flight (acts : List Action) (w : Pipeline σ β ν) : List ShareWork :=
  works acts ++ works w.session.actions ++ w.atVerifier ++ w.results.map (·.1)

/-- The shares that have no answer yet. -/
def held (acts : List Action) (w : Pipeline σ β ν) : List ShareWork :=
  w.flight acts ++ w.session.pending.toList

/-- The requests that were answered. -/
def answered (w : Pipeline σ β ν) : List (Option Nat) :=
  Stratum.answered (w.sent ++ w.session.outbuf)

/-- Each share is in one place, each request is answered or has its share somewhere, and credit is
given for works that were made and that a thread found valid. -/
structure Flows (digest : Arr 132 → Nat) (acts : List Action) (w : Pipeline σ β ν) : Prop where
  flight : (w.flight acts).length = if w.session.admission.inFlight then 1 else 0
  pending : w.session.pending.isSome = w.session.admission.queued
  queued : w.session.admission.queued = true → w.session.admission.inFlight = true
  own : ∀ x ∈ w.held acts, x.conn = w.session.id ∧ x.seq ≤ w.session.seq
  answers : w.asked.Perm (w.answered ++ (w.held acts).map (·.requestId))
  made : (w.credited ++ w.held acts).Subperm (w.made.map (·.work))
  jobs : ∀ m ∈ w.made, m.IsFor
  shares : w.session.acceptedShares = w.credited.length
  difficulty : w.session.acceptedDifficulty = (w.credited.map (·.servedDifficulty)).sum
  vardiff : Tuned (w.credited.map (·.servedDifficulty)) w.session.vardiff
  verdicts : ∀ x ∈ w.results, ∃ panics sealed, x.2 = verifyOneIsolated digest panics sealed x.1
  credited : ∀ x ∈ w.credited, x.shareTarget.accepts (digest x.header) = true

variable {digest : Arr 132 → Nat} {cap : Nat} {acts acts' : List Action} {w w' : Pipeline σ β ν}

theorem flows_new (id : Nat) (ip : IpAddr) (nowMs : Nat) (sh : Shared σ β)
    (queue running : List ShareWork) :
    Flows digest [] (new id ip nowMs sh queue running : Pipeline σ β ν) := by
  have hfree : (new id ip nowMs sh queue running : Pipeline σ β ν).atVerifier = [] := by
    refine List.filter_eq_nil_iff.mpr fun x hx ↦ ?_
    rw [decide_eq_true_iff]
    rcases List.mem_append.mp hx with hx | hx <;>
      exact of_decide_eq_true (List.mem_filter.mp hx).2
  have hheld : (new id ip nowMs sh queue running : Pipeline σ β ν).held [] = [] := by
    unfold held flight
    rw [hfree]
    rfl
  have hflight : (new id ip nowMs sh queue running : Pipeline σ β ν).flight [] = [] :=
    List.append_eq_nil_iff.mp hheld |>.1
  refine ⟨?_, rfl, fun h ↦ (by cases h), ?_, ?_, ?_, fun m hm ↦ (by cases hm), rfl, rfl, ?_,
    fun x hx ↦ (by cases hx), fun x hx ↦ (by cases hx)⟩
  · rw [hflight]
    rfl
  · rw [hheld]
    exact fun x hx ↦ (by cases hx)
  · rw [hheld]
    exact .nil
  · rw [hheld]
    exact .refl _
  · show Tuned [] (Session.startVardiff sh.cfg _ _ _ _ : ν)
    unfold Session.startVardiff
    dsimp only
    split
    · exact (Tuned.start _ _ _ _).pin _
    · exact Tuned.start _ _ _ _

/-- What a session answers by itself. -/
theorem Flows.speaks (h : Flows digest acts w) {s : Session ν β} {ids : List (Option Nat)}
    (hs : w.session.Speaks s ids) (sh : Shared σ β) :
    Flows digest acts { w with session := s, shared := sh, asked := w.asked ++ ids } := by
  have hflight : Pipeline.flight acts
      { w with session := s, shared := sh, asked := w.asked ++ ids } = w.flight acts := by
    unfold Pipeline.flight atVerifier
    dsimp only
    rw [hs.actions, hs.id]
  have hheld : Pipeline.held acts
      { w with session := s, shared := sh, asked := w.asked ++ ids } = w.held acts := by
    unfold held
    rw [hflight]
    dsimp only
    rw [hs.pending]
  refine ⟨?_, ?_, ?_, ?_, ?_, ?_, h.jobs, hs.shares.trans h.shares,
    hs.difficulty.trans h.difficulty, hs.vardiff _ h.vardiff, h.verdicts, h.credited⟩
  · rw [hflight]
    dsimp only
    rw [hs.admission]
    exact h.flight
  · dsimp only
    rw [hs.pending, hs.admission]
    exact h.pending
  · dsimp only
    rw [hs.admission]
    exact h.queued
  · rw [hheld]
    intro x hx
    obtain ⟨hconn, hseq⟩ := h.own x hx
    exact ⟨hconn.trans hs.id.symm, hseq.trans hs.seq⟩
  · have hanswered : Pipeline.answered
        { w with session := s, shared := sh, asked := w.asked ++ ids } = w.answered ++ ids := by
      unfold Pipeline.answered
      dsimp only
      rw [answered_append, answered_append, hs.outbuf, List.append_assoc]
    rw [hheld, hanswered, List.append_assoc]
    refine (h.answers.append_right ids).trans ?_
    rw [List.append_assoc]
    exact List.Perm.append_left _ List.perm_append_comm
  · rw [hheld]
    exact h.made

/-- Shares move from one place to another. -/
theorem Flows.of_perm (h : Flows digest acts w) (hflight : (w'.flight acts').Perm (w.flight acts))
    {actions : List Action} {outbuf : List Reply}
    (hsession : w'.session = { w.session with actions, outbuf })
    (hanswered : w'.answered = w.answered) (hasked : w'.asked = w.asked) (hmade : w'.made = w.made)
    (hcredited : w'.credited = w.credited)
    (hverdicts : ∀ x ∈ w'.results, ∃ panics sealed,
      x.2 = verifyOneIsolated digest panics sealed x.1) : Flows digest acts' w' := by
  have hheld : (w'.held acts').Perm (w.held acts) := by
    unfold held
    rw [hsession]
    exact hflight.append_right _
  refine ⟨?_, ?_, ?_, ?_, ?_, ?_, ?_, ?_, ?_, ?_, hverdicts, ?_⟩
  · rw [hflight.length_eq, hsession]
    exact h.flight
  · rw [hsession]
    exact h.pending
  · rw [hsession]
    exact h.queued
  · rw [hsession]
    exact fun x hx ↦ h.own x (hheld.subset hx)
  · rw [hasked, hanswered]
    exact h.answers.trans ((hheld.map _).symm.append_left _)
  · rw [hcredited, hmade]
    exact (hheld.append_left _).subperm.trans h.made
  · rw [hmade]
    exact h.jobs
  · rw [hsession, hcredited]
    exact h.shares
  · rw [hsession, hcredited]
    exact h.difficulty
  · rw [hsession, hcredited]
    exact h.vardiff
  · rw [hcredited]
    exact h.credited

/-- A work that was made goes to the verifier, waits, or is refused. -/
theorem Flows.admitShare (h : Flows digest [] w) {m : Made} (hm : m.IsFor)
    (hconn : m.work.conn = w.session.id) (hseq : m.work.seq ≤ w.session.seq) :
    Flows digest [] { w with
      session := w.session.admitShare m.work
      asked := w.asked ++ [m.work.requestId]
      made := w.made ++ [m] } := by
  have hjobs : ∀ n ∈ w.made ++ [m], n.IsFor := by
    intro n hn
    rcases List.mem_append.mp hn with hn | hn
    · exact h.jobs n hn
    · exact List.mem_singleton.mp hn ▸ hm
  have hmade : (w.made ++ [m]).map (·.work) = w.made.map (·.work) ++ [m.work] := List.map_append
  have hown {l : List ShareWork} (hl : l.Perm (w.held [] ++ [m.work])) :
      ∀ x ∈ l, x.conn = w.session.id ∧ x.seq ≤ w.session.seq := by
    intro x hx
    rcases List.mem_append.mp (hl.subset hx) with hx | hx
    · exact h.own x hx
    · exact List.mem_singleton.mp hx ▸ ⟨hconn, hseq⟩
  have hheld {l : List ShareWork} (hl : l.Perm (w.held [] ++ [m.work])) :
      (w.asked ++ [m.work.requestId]).Perm (w.answered ++ l.map (·.requestId)) ∧
        (w.credited ++ l).Subperm ((w.made ++ [m]).map (·.work)) := by
    refine ⟨?_, ?_⟩
    · refine (h.answers.append_right _).trans ?_
      rw [List.append_assoc]
      have hids := (hl.map (·.requestId)).symm
      rw [List.map_append] at hids
      exact hids.append_left _
    · rw [hmade]
      refine (hl.append_left _).subperm.trans ?_
      rw [← List.append_assoc]
      exact (List.subperm_append_right _).mpr h.made
  have hrest {l : List ShareWork} (hl : l.Perm (w.held [])) :
      (w.credited ++ l).Subperm ((w.made ++ [m]).map (·.work)) := by
    rw [hmade]
    exact ((hl.append_left _).subperm.trans h.made).trans (List.sublist_append_left _ _).subperm
  unfold Session.admitShare Admission.request
  by_cases hin : w.session.admission.inFlight
  · rw [if_neg (not_not_intro hin)]
    by_cases hqueued : w.session.admission.queued
    · -- A share waits already: this one is refused.
      rw [if_neg (not_not_intro hqueued)]
      refine ⟨h.flight, h.pending, h.queued, h.own, ?_, hrest (.refl _), hjobs, h.shares,
        h.difficulty, h.vardiff, h.verdicts, h.credited⟩
      have hanswered : answered { w with
          session := w.session.write (.error m.work.requestId .serverBusy)
          asked := w.asked ++ [m.work.requestId]
          made := w.made ++ [m] } = w.answered ++ [m.work.requestId] := by
        unfold answered Session.write
        dsimp only
        rw [← List.append_assoc, answered_append]
        rfl
      refine (h.answers.append_right [m.work.requestId]).trans ?_
      show (_ ++ List.map _ (w.held []) ++ _).Perm (answered { w with
          session := w.session.write (.error m.work.requestId .serverBusy)
          asked := w.asked ++ [m.work.requestId]
          made := w.made ++ [m] } ++ List.map _ (w.held []))
      rw [hanswered, List.append_assoc, List.append_assoc]
      exact List.perm_append_comm.append_left _
    · -- One share is on its way: this one waits.
      rw [if_pos hqueued]
      have hnone : w.session.pending = none := by
        refine Option.not_isSome_iff_eq_none.mp fun hsome ↦ hqueued ?_
        rw [← h.pending]
        exact hsome
      have hperm : (w.flight [] ++ [m.work]).Perm (w.held [] ++ [m.work]) := by
        unfold held
        rw [hnone, Option.toList_none, List.append_nil]
      exact ⟨h.flight, rfl, fun _ ↦ hin, hown hperm, (hheld hperm).1, (hheld hperm).2, hjobs,
        h.shares, h.difficulty, h.vardiff, h.verdicts, h.credited⟩
  · -- Nothing is on its way.
    rw [if_pos hin]
    have hflight : (works [] ++ works (w.session.actions ++ [.verify m.work]) ++ w.atVerifier ++
        w.results.map (·.1)).Perm (w.flight [] ++ [m.work]) := by
      unfold Pipeline.flight
      rw [works_append, List.append_assoc _ _ (w.results.map _),
        List.append_assoc _ _ (w.results.map _), ← List.append_assoc (works []),
        List.append_assoc _ _ [m.work], List.append_assoc (works [] ++ _)]
      exact List.perm_append_comm.append_left _
    have hperm : (works [] ++ works (w.session.actions ++ [.verify m.work]) ++ w.atVerifier ++
        w.results.map (·.1) ++ w.session.pending.toList).Perm (w.held [] ++ [m.work]) := by
      refine (hflight.append_right _).trans ?_
      unfold held
      rw [List.append_assoc, List.append_assoc]
      exact List.perm_append_comm.append_left _
    refine ⟨?_, h.pending, fun _ ↦ rfl, hown hperm, (hheld hperm).1, (hheld hperm).2, hjobs,
      h.shares, h.difficulty, h.vardiff, h.verdicts, h.credited⟩
    refine hflight.length_eq.trans ?_
    rw [List.length_append, h.flight, if_neg hin]
    rfl

/-- A share comes back and is answered, and the one that waits goes on its way. -/
theorem Flows.settle (h : Flows digest acts w) {x : ShareWork} {b t : Session ν β}
    {cs : List ShareWork}
    (hflight : (w.flight acts).Perm (x :: (works acts' ++ works w.session.actions ++
      ofConn w.session.id (w'.queue ++ w'.running) ++ w'.results.map (·.1))))
    (hb : b.id = w.session.id ∧ b.seq = w.session.seq ∧ b.outbuf = w.session.outbuf ∧
      b.actions = w.session.actions ∧ b.admission = w.session.admission ∧
      b.pending = w.session.pending)
    (hspeaks : b.Speaks t [x.requestId]) (hsession : w'.session = t.proceed)
    (hsent : w'.sent = w.sent) (hasked : w'.asked = w.asked) (hmade : w'.made = w.made)
    (hcredited : w'.credited = w.credited ++ cs) (hcs : cs.Subperm [x])
    (hshares : b.acceptedShares = (w.credited ++ cs).length)
    (hdifficulty : b.acceptedDifficulty = ((w.credited ++ cs).map (·.servedDifficulty)).sum)
    (hvardiff : Tuned ((w.credited ++ cs).map (·.servedDifficulty)) b.vardiff)
    (hverdicts : ∀ y ∈ w'.results, ∃ panics sealed,
      y.2 = verifyOneIsolated digest panics sealed y.1)
    (haccepts : ∀ y ∈ cs, y.shareTarget.accepts (digest y.header) = true) :
    Flows digest acts' w' := by
  obtain ⟨hid, hseq, hout, hacts, hadm, hpend⟩ := hb
  -- It was the only one on its way.
  have hlen := hflight.length_eq
  rw [h.flight, List.length_cons] at hlen
  have hin : w.session.admission.inFlight = true := by
    by_contra hin
    rw [if_neg hin] at hlen
    cases hlen
  rw [if_pos hin] at hlen
  have hrest := List.eq_nil_of_length_eq_zero (Nat.succ.inj hlen).symm
  rw [List.append_eq_nil_iff, List.append_eq_nil_iff, List.append_eq_nil_iff] at hrest
  obtain ⟨⟨⟨hacts', hworks⟩, hverifier⟩, hresults⟩ := hrest
  rw [hacts', hworks, hverifier, hresults] at hflight
  obtain ⟨⟨hid', hseq', hout', hshares', hdifficulty', hvardiff'⟩, hworks', hpending',
      hadmission'⟩ := t.proceed_spec (by
        rw [hspeaks.pending, hspeaks.admission, hpend, hadm]
        exact h.pending)
  rw [hspeaks.pending, hpend, hspeaks.actions, hacts, hworks] at hworks'
  rw [hspeaks.admission, hadm] at hadmission'
  have hflight' : w'.flight acts' = w.session.pending.toList := by
    unfold Pipeline.flight atVerifier
    rw [hacts', hsession, hworks', hid', hspeaks.id, hid, hverifier, hresults, List.append_nil,
      List.append_nil]
    rfl
  have hheld' : w'.held acts' = w.session.pending.toList := by
    unfold held
    rw [hflight', hsession, hpending']
    exact List.append_nil _
  have hheld : (w.held acts).Perm (x :: w.session.pending.toList) := hflight.append_right _
  have hanswered : w'.answered = w.answered ++ [x.requestId] := by
    unfold Pipeline.answered
    rw [hsent, hsession, hout', answered_append, answered_append, hspeaks.outbuf, hout,
      List.append_assoc]
  refine ⟨?_, ?_, ?_, ?_, ?_, ?_, ?_, ?_, ?_, ?_, hverdicts, ?_⟩
  · rw [hflight', hsession, hadmission', ← h.pending]
    cases w.session.pending <;> rfl
  · rw [hsession, hpending', hadmission']
    rfl
  · rw [hsession, hadmission']
    exact fun hfalse ↦ (by cases hfalse)
  · rw [hheld', hsession, hid', hseq', hspeaks.id, hid]
    intro y hy
    obtain ⟨hconn, hle⟩ := h.own y (hheld.symm.subset (List.mem_cons_of_mem _ hy))
    exact ⟨hconn, (hle.trans hseq.ge).trans hspeaks.seq⟩
  · rw [hasked, hanswered, hheld', List.append_assoc]
    exact h.answers.trans ((hheld.map _).append_left _)
  · rw [hcredited, hmade, hheld', List.append_assoc]
    refine List.Subperm.trans ?_ (((hheld.append_left w.credited).symm.subperm).trans h.made)
    exact (List.subperm_append_left _).mpr ((List.subperm_append_right _).mpr hcs)
  · rw [hmade]
    exact h.jobs
  · rw [hsession, hcredited, hshares', hspeaks.shares, hshares]
  · rw [hsession, hcredited, hdifficulty', hspeaks.difficulty, hdifficulty]
  · rw [hsession, hcredited, hvardiff']
    exact hspeaks.vardiff _ hvardiff
  · rw [hcredited]
    intro y hy
    rcases List.mem_append.mp hy with hy | hy
    · exact h.credited y hy
    · exact haccepts y hy

/-! ## Steps -/

theorem Flows.tacit (h : Flows digest acts w) {s : Session ν β} (hs : w.session.Speaks s [])
    (sh : Shared σ β) : Flows digest acts { w with session := s, shared := sh } := by
  have hspeaks := h.speaks hs sh
  rw [List.append_nil] at hspeaks
  exact hspeaks

/-- A share comes back without credit. -/
theorem Flows.refuse (h : Flows digest acts w) {x : ShareWork} {t : Session ν β}
    (hflight : (w.flight acts).Perm (x :: (works acts' ++ works w.session.actions ++
      ofConn w.session.id (w'.queue ++ w'.running) ++ w'.results.map (·.1))))
    (hspeaks : w.session.Speaks t [x.requestId]) (hsession : w'.session = t.proceed)
    (hsent : w'.sent = w.sent) (hasked : w'.asked = w.asked) (hmade : w'.made = w.made)
    (hcredited : w'.credited = w.credited)
    (hverdicts : ∀ y ∈ w'.results, ∃ panics sealed,
      y.2 = verifyOneIsolated digest panics sealed y.1) : Flows digest acts' w' := by
  have hnil : w.credited ++ [] = w.credited := List.append_nil _
  refine h.settle hflight ⟨rfl, rfl, rfl, rfl, rfl, rfl⟩ hspeaks hsession hsent hasked hmade
    (hcredited.trans hnil.symm) List.nil_subperm ?_ ?_ ?_ hverdicts fun y hy ↦ (by cases hy)
  · rw [hnil]
    exact h.shares
  · rw [hnil]
    exact h.difficulty
  · rw [hnil]
    exact h.vardiff

theorem Flows.takeAction {a : Action} (h : Flows digest (a :: acts) w) (cap : Nat) :
    Flows digest acts (w.takeAction cap a) := by
  cases a with
  | close reason => exact h.of_perm (.refl _) rfl rfl rfl rfl rfl h.verdicts
  | verify work =>
    unfold Pipeline.takeAction
    dsimp only
    split
    case isTrue =>
      have hconn := (h.own work (List.mem_append_left _ List.mem_cons_self)).1
      have hverifier : (ofConn w.session.id (w.queue ++ [work] ++ w.running)).Perm
          (work :: w.atVerifier) := by
        unfold atVerifier
        rw [List.append_assoc, ← ofConn_cons_of_eq hconn]
        exact ofConn_perm _ List.perm_middle
      refine h.of_perm ?_ rfl rfl rfl rfl rfl h.verdicts
      refine ((hverifier.append_left _).append_right _).trans ?_
      rw [List.append_assoc, List.cons_append]
      refine List.perm_middle.trans ?_
      rw [← List.append_assoc]
      exact .refl _
    case isFalse =>
      exact h.refuse (.refl _) (Session.speaks_write _ (.error work.requestId .serverBusy)) rfl rfl
        rfl rfl rfl h.verdicts

/-- The loop takes the actions of the session in hand. -/
theorem Flows.taken (h : Flows digest [] w) : Flows digest w.session.actions
    { w with session := { w.session with actions := [] } } := by
  refine h.of_perm ?_ rfl rfl rfl rfl rfl h.verdicts
  unfold Pipeline.flight
  rw [show works [] ++ works w.session.actions = works w.session.actions ++ works [] from
    (List.append_nil _).symm]
  exact .refl _

theorem Flows.takeActions (h : Flows digest acts w) (cap : Nat) :
    Flows digest [] (acts.foldl (Pipeline.takeAction cap) w) := by
  induction acts generalizing w with
  | nil => exact h
  | cons a acts ih => exact ih (h.takeAction cap)

/-- A result is answered, and credited when the share is valid. -/
theorem Flows.result [TokenBucket β] {x : ShareWork} {verdict : Verdict}
    {results : List (ShareWork × Verdict)} (h : Flows digest [] w)
    (hw : w.results = (x, verdict) :: results) (nowMs : Nat) :
    Flows digest [] { w with
      session := (w.session.onVerifyResult w.shared (x.result verdict) nowMs).1
      shared := (w.session.onVerifyResult w.shared (x.result verdict) nowMs).2
      results
      credited := w.credited ++ verdict.credits x } := by
  have hflight : (w.flight []).Perm (x :: (works [] ++ works w.session.actions ++ w.atVerifier ++
      results.map (·.1))) := by
    unfold Pipeline.flight
    rw [hw]
    exact List.perm_middle
  obtain ⟨hconn, hseq⟩ := h.own x (List.mem_append_left _ (hflight.symm.subset List.mem_cons_self))
  have hmine : ¬((x.result verdict).conn ≠ w.session.id ∨ w.session.seq < (x.result verdict).seq) :=
    not_or_intro (not_not_intro hconn) hseq.not_gt
  have hverdicts : ∀ y ∈ results, ∃ panics sealed,
      y.2 = verifyOneIsolated digest panics sealed y.1 := fun y hy ↦
    h.verdicts y (hw ▸ List.mem_cons_of_mem _ hy)
  unfold Session.onVerifyResult
  rw [if_neg hmine]
  cases verdict with
  | accepted block =>
    obtain ⟨panics, sealed, hverdict⟩ := h.verdicts _ (hw ▸ List.mem_cons_self)
    have hspeaks := Session.speaks_credit w.session w.shared (x.result (.accepted block)) nowMs
    refine Flows.settle (t := (w.session.credit w.shared (x.result (.accepted block)) nowMs).1) h
      hflight ?_ hspeaks rfl rfl rfl rfl rfl (.refl _) ?_ ?_ ?_ hverdicts ?_
    · exact ⟨rfl, rfl, rfl, rfl, rfl, rfl⟩
    · rw [List.length_append, ← h.shares]
      rfl
    · rw [List.map_append, List.sum_append, ← h.difficulty]
      rfl
    · rw [List.map_append]
      exact h.vardiff.onShare _ _
    · rintro y hy
      rw [List.mem_singleton.mp hy]
      exact accepts_of_accepted hverdict.symm
  | lowDifficulty =>
    exact h.refuse hflight (Session.speaks_rejectAndScore w.session w.shared x.requestId
      .lowDifficulty nowMs) rfl rfl rfl rfl (List.append_nil _) hverdicts
  | internalError =>
    exact h.refuse hflight (Session.speaks_write w.session (.error x.requestId .serverBusy)) rfl rfl
      rfl rfl (List.append_nil _) hverdicts

/-- The session is given a line. -/
theorem Flows.line [SliceSource σ] [TokenBucket β] (h : Flows digest [] w) (verb : Option Verb)
    (nowMs : Nat) :
    Flows digest [] { w with
      session := (w.session.onLine w.shared verb nowMs).1
      shared := (w.session.onLine w.shared verb nowMs).2
      asked := w.asked ++ w.session.asks verb nowMs
      made := w.made ++ (w.session.makes w.shared verb nowMs).toList } := by
  rcases w.session.onLine_spec w.shared verb nowMs with
    ⟨hnone, hspeaks⟩ | ⟨m, t, hmakes, hm, hasks, hspeaks, hconn, hseq, hline⟩
  · rw [hnone, Option.toList_none, List.append_nil]
    exact h.speaks hspeaks _
  · rw [hmakes, hasks, hline]
    exact (h.tacit hspeaks (w.session.onLine w.shared verb nowMs).2).admitShare hm
      (hconn.trans hspeaks.id.symm) hseq

/-- A work of another session comes to the verifier or to one of its threads, or leaves it. -/
theorem Flows.foreign (h : Flows digest acts w) {queue running : List ShareWork}
    (hverifier : (ofConn w.session.id (queue ++ running)).Perm w.atVerifier) :
    Flows digest acts { w with queue, running } :=
  h.of_perm ((hverifier.append_left _).append_right _) rfl rfl rfl rfl rfl h.verdicts

/-- A thread is done with a work. -/
theorem Flows.finish (h : Flows digest [] w) {i : Nat} {work : ShareWork}
    (hi : w.running[i]? = some work) {verdict : Verdict}
    (hverdict : ∃ panics sealed, verdict = verifyOneIsolated digest panics sealed work) :
    Flows digest [] ({ w with running := w.running.eraseIdx i }.route work verdict) := by
  have hrunning : w.running.Perm (work :: w.running.eraseIdx i) := by
    obtain ⟨hlt, rfl⟩ := List.getElem?_eq_some_iff.mp hi
    exact (List.getElem_cons_eraseIdx_perm hlt).symm
  have hall : (w.queue ++ w.running).Perm (work :: (w.queue ++ w.running.eraseIdx i)) :=
    (hrunning.append_left _).trans List.perm_middle
  have hmine := ofConn_perm w.session.id hall
  by_cases hconn : work.conn = w.session.id
  · rw [ofConn_cons_of_eq hconn] at hmine
    have hflight : (w.flight []).Perm (work :: (works [] ++ works w.session.actions ++
        ofConn w.session.id (w.queue ++ w.running.eraseIdx i) ++ w.results.map (·.1))) := by
      refine ((hmine.append_left _).append_right _).trans ?_
      rw [List.append_assoc, List.cons_append]
      refine List.perm_middle.trans ?_
      rw [← List.append_assoc]
    -- The channel is never full: nothing else of the session is on its way.
    have hroom : w.results.length < resultChannelDepth := by
      have hlen := hflight.length_eq
      rw [h.flight, List.length_cons, List.length_append, List.length_map] at hlen
      have hle : (if w.session.admission.inFlight then 1 else 0) ≤ 1 := by split <;> decide
      unfold resultChannelDepth
      omega
    rw [route, if_pos ⟨hconn, hroom⟩]
    refine h.of_perm (List.Perm.trans ?_ hflight.symm) rfl rfl rfl rfl rfl ?_
    · unfold Pipeline.flight
      dsimp only
      rw [List.map_append, ← List.append_assoc]
      exact List.perm_append_comm
    · intro x hx
      rcases List.mem_append.mp hx with hx | hx
      · exact h.verdicts x hx
      · rw [List.mem_singleton.mp hx]
        exact hverdict
  · rw [ofConn_cons_of_ne hconn] at hmine
    rw [route, if_neg fun hroute ↦ hconn hroute.1]
    exact h.foreign hmine.symm

/-- Each step keeps each share in one place. -/
theorem Flows.step [SliceSource σ] [TokenBucket β] (h : Flows digest [] w) (cap : Nat)
    (x : Nat × Event σ β) : Flows digest [] (w.step digest cap x) := by
  obtain ⟨now, e⟩ := x
  cases e with
  | line verb => exact h.line verb now
  | emptyLine => exact h.tacit (Session.speaks_chargeLine _ _ _) _
  | tick => exact h.tacit (Session.speaks_onTick _ _ _) _
  | newGeneration =>
    unfold Pipeline.step
    dsimp only
    split
    · exact h.tacit (Session.speaks_pushJob _ _ _ _) w.shared
    · exact h
  | revocation => exact h.tacit (Session.speaks_checkSlice _ _) w.shared
  | result =>
    unfold Pipeline.step
    dsimp only
    split
    case h_1 => exact h
    case h_2 work verdict results hw => exact h.result hw now
  | actions =>
    exact h.taken.takeActions cap
  | flush =>
    refine h.of_perm (.refl _) rfl ?_ rfl rfl rfl h.verdicts
    exact congrArg Stratum.answered (List.append_nil _)
  | enqueue work =>
    unfold Pipeline.step
    dsimp only
    split
    case isTrue hother =>
      refine h.foreign ?_
      unfold atVerifier
      rw [← ofConn_cons_of_ne hother.1 (w.queue ++ w.running), List.append_assoc]
      exact ofConn_perm _ List.perm_middle
    case isFalse => exact h
  | begin =>
    unfold Pipeline.step
    dsimp only
    split
    case h_1 => exact h
    case h_2 work queue hw =>
      refine h.foreign (ofConn_perm _ ?_)
      rw [hw, ← List.append_assoc]
      exact List.perm_append_comm
  | finish i panics sealed =>
    unfold Pipeline.step
    dsimp only
    split
    case h_1 => exact h
    case h_2 work hi => exact h.finish hi ⟨panics, sealed, rfl⟩
  | others shared => exact h.of_perm (.refl _) rfl rfl rfl rfl rfl h.verdicts

/-- In every run. -/
theorem flows_run [SliceSource σ] [TokenBucket β] (h : Flows digest [] w) (cap : Nat)
    (events : List (Nat × Event σ β)) : Flows digest [] (w.run digest cap events) := by
  induction events generalizing w with
  | nil => exact h
  | cons x events ih => exact ih (h.step cap x)

end Pipeline

end Plaine.Stratum

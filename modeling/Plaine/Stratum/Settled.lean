import Plaine.Lib.Runs
import Plaine.Stratum.Pipeline

/-!
# Every submit is answered once

What `Flows` comes to over a run.  A share on its way can always move on, by steps that are not the
miner's, until nothing is left to answer.
-/

namespace Plaine.Stratum

open Plaine.Lib

namespace Session

variable {σ β ν : Type} [Vardiff ν]

/-- The verdict on a share of the session is an answer to it. -/
theorem answered_onVerifyResult (s : Session ν β) (sh : Shared σ β) {r : VerifyResult} (nowMs : Nat)
    (hmine : r.conn = s.id ∧ r.seq ≤ s.seq) (h : s.pending.isSome = s.admission.queued) :
    answered (s.onVerifyResult sh r nowMs).1.outbuf = answered s.outbuf ++ [r.requestId] := by
  have hproceed {b t : Session ν β} (hout : b.outbuf = s.outbuf) (hpending : b.pending = s.pending)
      (hadmission : b.admission = s.admission) (ht : b.Speaks t [r.requestId]) :
      answered t.proceed.outbuf = answered s.outbuf ++ [r.requestId] := by
    have hspec := t.proceed_spec (by
      rw [ht.pending, ht.admission, hpending, hadmission]
      exact h)
    rw [hspec.1.2.2.1, ht.outbuf, hout]
  unfold onVerifyResult
  rw [if_neg (not_or_intro (not_not_intro hmine.1) hmine.2.not_gt)]
  cases r.verdict with
  | accepted block =>
    exact hproceed (b := s.withCredit r.servedDifficulty nowMs) rfl rfl rfl (speaks_credit _ _ _ _)
  | lowDifficulty => exact hproceed rfl rfl rfl (speaks_rejectAndScore _ _ _ _ _)
  | internalError => exact hproceed rfl rfl rfl (speaks_write _ (.error r.requestId .serverBusy))

end Session

/-- Steps that are not the miner's, nor of other sessions. -/
def Event.IsOwn {σ β : Type} : Event σ β → Prop
  | .result | .actions | .begin | .finish .. => True
  | .line _ | .emptyLine | .tick | .newGeneration | .revocation | .flush | .enqueue _
  | .others _ => False

namespace Pipeline

variable {σ β ν : Type} [SliceSource σ] [TokenBucket β] [Vardiff ν]
  {digest : Arr 132 → Nat} {cap : Nat} {w w' : Pipeline σ β ν} {x : ShareWork}

theorem length_lt_concat {α : Type} (l : List α) (a : α) : l.length < (l ++ [a]).length := by
  rw [List.length_append]
  exact Nat.lt_succ_self _

/-- Some steps answer one more request. -/
def Answers (digest : Arr 132 → Nat) (cap : Nat) (w : Pipeline σ β ν) : Prop :=
  ∃ events : List (Nat × Event σ β), (∀ e ∈ events, e.2.IsOwn) ∧
    (w.run digest cap events).asked = w.asked ∧
    w.answered.length < (w.run digest cap events).answered.length

/-- A step before. -/
theorem Answers.step (e : Nat × Event σ β) (he : e.2.IsOwn)
    (hasked : (w.step digest cap e).asked = w.asked)
    (hanswered : (w.step digest cap e).answered = w.answered)
    (h : Answers digest cap (w.step digest cap e)) : Answers digest cap w := by
  obtain ⟨events, hown, hasked', hlt⟩ := h
  refine ⟨e :: events, ?_, hasked'.trans hasked, hanswered ▸ hlt⟩
  intro e' he'
  rcases List.mem_cons.mp he' with rfl | he'
  · exact he
  · exact hown e' he'

/-- A result in the channel. -/
theorem answers_of_results (h : Flows digest [] w) (hresults : w.results ≠ []) :
    Answers digest cap w := by
  obtain ⟨⟨x, verdict⟩, results, hw⟩ := List.exists_cons_of_ne_nil hresults
  refine ⟨[(0, .result)], ?_, ?_, ?_⟩
  · intro e he
    rw [List.mem_singleton.mp he]
    trivial
  · show (w.step digest cap (0, .result)).asked = w.asked
    unfold Pipeline.step
    rw [hw]
  · have hmem : x ∈ w.held [] := by
      refine List.mem_append_left _ (List.mem_append_right _ ?_)
      rw [hw]
      exact List.mem_cons_self
    have hout := w.session.answered_onVerifyResult w.shared 0 (h.own x hmem) h.pending
      (r := x.result verdict)
    show _ < (w.step digest cap (0, .result)).answered.length
    unfold Pipeline.step
    rw [hw]
    unfold Pipeline.answered
    dsimp only
    rw [answered_append, answered_append, hout, ← List.append_assoc]
    exact length_lt_concat _ _

/-- A share at a thread. -/
theorem answers_of_running (h : Flows digest [] w) (hx : x ∈ w.running)
    (hconn : x.conn = w.session.id) : Answers digest cap w := by
  by_cases hresults : w.results = []
  · obtain ⟨i, hlt, hi⟩ := List.mem_iff_getElem.mp hx
    have hstep : w.step digest cap (0, .finish i false .accepted) =
        { w with
          running := w.running.eraseIdx i
          results := [(x, verifyOneIsolated digest false .accepted x)] } := by
      unfold Pipeline.step
      dsimp only
      rw [List.getElem?_eq_getElem hlt, hi]
      unfold route
      dsimp only
      rw [hresults, if_pos ⟨hconn, by decide⟩]
      rfl
    refine Answers.step (0, .finish i false .accepted) trivial ?_ ?_
      (answers_of_results (h.step cap _) ?_)
    · rw [hstep]
    · rw [hstep]
      rfl
    · rw [hstep]
      exact List.cons_ne_nil _ _
  · exact answers_of_results h hresults

/-- A share in the queue. -/
theorem answers_of_queue (h : Flows digest [] w) (hx : x ∈ w.queue)
    (hconn : x.conn = w.session.id) : Answers digest cap w := by
  induction hqueue : w.queue generalizing w with
  | nil =>
    rw [hqueue] at hx
    cases hx
  | cons y queue ih =>
    have hstep : w.step digest cap (0, .begin) =
        { w with queue, running := w.running ++ [y] } := by
      unfold Pipeline.step
      rw [hqueue]
    refine Answers.step (0, .begin) trivial ?_ ?_ ?_
    · rw [hstep]
    · rw [hstep]
      rfl
    · have hflows := h.step cap (0, .begin)
      rw [hstep] at hflows ⊢
      rw [hqueue] at hx
      rcases List.mem_cons.mp hx with rfl | hx
      · exact answers_of_running hflows (List.mem_append_right _ List.mem_cons_self) hconn
      · exact ih hflows hx hconn rfl

omit [SliceSource σ] [TokenBucket β] in
/-- What taking the actions does to the one share among them. -/
theorem takeActions_spec (cap : Nat) {acts : List Action} (h : Flows digest acts w)
    (hx : works acts = [x]) :
    (acts.foldl (takeAction cap) w).asked = w.asked ∧
      (acts.foldl (takeAction cap) w).session.id = w.session.id ∧
      ((acts.foldl (takeAction cap) w).answered = w.answered ∧
          x ∈ (acts.foldl (takeAction cap) w).queue ∨
        w.answered.length < (acts.foldl (takeAction cap) w).answered.length) := by
  have hclosed {acts : List Action} (hnil : works acts = []) (w : Pipeline σ β ν) :
      acts.foldl (takeAction cap) w = w := by
    induction acts generalizing w with
    | nil => rfl
    | cons a acts ih =>
      cases a with
      | close reason => exact ih hnil w
      | verify work => cases hnil
  induction acts generalizing w with
  | nil => cases hx
  | cons a acts ih =>
    cases a with
    | close reason => exact ih (h.takeAction cap) hx
    | verify work =>
      injection hx with hwork hnil
      subst hwork
      rw [List.foldl_cons, hclosed hnil]
      unfold takeAction
      dsimp only
      split
      case isTrue =>
        exact ⟨rfl, rfl, .inl ⟨rfl, List.mem_append_right _ List.mem_cons_self⟩⟩
      case isFalse =>
        obtain ⟨⟨hid, -, hout, -⟩, -⟩ :=
          (w.session.write (.error work.requestId .serverBusy)).proceed_spec h.pending
        refine ⟨rfl, hid, .inr ?_⟩
        unfold Pipeline.answered Session.onVerifyRefused
        dsimp only
        rw [hout]
        unfold Session.write
        dsimp only
        rw [← List.append_assoc, answered_append (_ ++ _)]
        exact length_lt_concat _ _

/-- A share on its way is answered sooner or later. -/
theorem Flows.moves (h : Flows digest [] w) (cap : Nat) (hheld : w.held [] ≠ []) :
    Answers digest cap w := by
  have hflight : w.flight [] ≠ [] := by
    intro hnil
    rw [held, hnil, List.nil_append] at hheld
    have hlen := h.flight
    rw [hnil] at hlen
    have hqueued : w.session.admission.queued = true := by
      rw [← h.pending]
      cases hpending : w.session.pending with
      | none =>
        rw [hpending] at hheld
        exact absurd rfl hheld
      | some x => rfl
    rw [if_pos (h.queued hqueued)] at hlen
    cases hlen
  obtain ⟨x, hx⟩ := List.exists_mem_of_ne_nil _ hflight
  have hconn := (h.own x (List.mem_append_left _ hx)).1
  rcases List.mem_append.mp hx with hx' | hresults
  · rcases List.mem_append.mp hx' with hacts | hverifier
    · replace hacts : x ∈ works w.session.actions := hacts
      have hone : works w.session.actions = [x] := by
        obtain ⟨l₁, l₂, hsplit⟩ := List.append_of_mem hacts
        have hlen := h.flight
        have hle : (if w.session.admission.inFlight then 1 else 0) ≤ 1 := by split <;> decide
        rw [Pipeline.flight, List.length_append, List.length_append, List.length_append, hsplit,
          List.length_append, List.length_cons] at hlen
        rw [hsplit, List.eq_nil_of_length_eq_zero (l := l₁) (by omega),
          List.eq_nil_of_length_eq_zero (l := l₂) (by omega)]
        rfl
      have htaken : Flows digest w.session.actions
          { w with session := { w.session with actions := [] } } := h.taken
      obtain ⟨hasked, hid, ⟨hanswered, hqueue⟩ | hlt⟩ := takeActions_spec cap htaken hone
      · refine Answers.step (0, .actions) trivial hasked hanswered ?_
        exact answers_of_queue (h.step cap (0, .actions)) hqueue (hconn.trans hid.symm)
      · refine ⟨[(0, .actions)], ?_, hasked, hlt⟩
        intro e he
        rw [List.mem_singleton.mp he]
        trivial
    · rcases List.mem_append.mp (List.mem_filter.mp hverifier).1 with hqueue | hrunning
      · exact answers_of_queue h hqueue hconn
      · exact answers_of_running h hrunning hconn
  · refine answers_of_results h fun hnil ↦ ?_
    rw [hnil] at hresults
    cases hresults

theorem run_append (w : Pipeline σ β ν) (events events' : List (Nat × Event σ β)) :
    w.run digest cap (events ++ events') = (w.run digest cap events).run digest cap events' :=
  List.foldl_append

/-- Steps of the loop and the verifier alone answer everything. -/
theorem Flows.drains (h : Flows digest [] w) :
    ∃ events : List (Nat × Event σ β), (∀ e ∈ events, e.2.IsOwn) ∧
      (w.run digest cap events).asked = w.asked ∧
      w.asked.Perm (w.run digest cap events).answered := by
  induction hn : w.asked.length - w.answered.length using Nat.strongRecOn generalizing w with
  | ind n ih =>
    by_cases hheld : w.held [] = []
    · refine ⟨[], fun e he ↦ (by cases he), rfl, ?_⟩
      have hanswers := h.answers
      rw [hheld, List.map_nil, List.append_nil] at hanswers
      exact hanswers
    · obtain ⟨events, hown, hasked, hlt⟩ := h.moves cap hheld
      have hflows := flows_run h cap events
      have hle := hflows.answers.length_eq
      rw [hasked, List.length_append] at hle
      obtain ⟨events', hown', hasked', hperm⟩ := ih _ (by rw [hasked]; omega) hflows rfl
      refine ⟨events ++ events', ?_, ?_, ?_⟩
      · intro e he
        exact (List.mem_append.mp he).elim (hown e) (hown' e)
      · rw [run_append, hasked', hasked]
      · rw [run_append, ← hasked]
        exact hperm

/-- In every run of a session with the verifier each request that was read has one answer, or its
share is on its way and will have one; one share is at the verifier at most, and one waits when
admission says so; and credit is for works that were made, each for the job of its submit, and found
valid against the target of that job. -/
theorem share_pipeline (digest : Arr 132 → Nat) (cap id : Nat) (ip : IpAddr) (nowMs : Nat)
    (sh : Shared σ β) (queue running : List ShareWork) (events : List (Nat × Event σ β)) :
    let w := (new id ip nowMs sh queue running : Pipeline σ β ν).run digest cap events
    w.asked.Perm (w.answered ++ (w.held []).map (·.requestId)) ∧
      (∃ events' : List (Nat × Event σ β), (∀ e ∈ events', e.2.IsOwn) ∧
        (w.run digest cap events').asked = w.asked ∧
        w.asked.Perm (w.run digest cap events').answered) ∧
      ((w.flight []).length ≤ 1 ∧ w.atVerifier.length ≤ 1) ∧
      w.session.pending.isSome = w.session.admission.queued ∧
      (w.session.acceptedShares = w.credited.length ∧
        w.session.acceptedDifficulty = (w.credited.map (·.servedDifficulty)).sum ∧
        Tuned (w.credited.map (·.servedDifficulty)) w.session.vardiff) ∧
      w.credited.Subperm (w.made.map (·.work)) ∧
      (∀ x ∈ w.credited, x.shareTarget.accepts (digest x.header) = true) ∧
      ∀ m ∈ w.made, m.IsFor := by
  intro w
  have h : Flows digest [] w := flows_run (flows_new id ip nowMs sh queue running) cap events
  have hflight : (w.flight []).length ≤ 1 := by
    rw [h.flight]
    split <;> decide
  have hverifier : w.atVerifier.Sublist (w.flight []) :=
    (List.sublist_append_right _ _).trans (List.sublist_append_left _ _)
  exact ⟨h.answers, h.drains, ⟨hflight, hverifier.length_le.trans hflight⟩, h.pending,
    ⟨h.shares, h.difficulty, h.vardiff⟩, (List.sublist_append_left _ _).subperm.trans h.made,
    h.credited, h.jobs⟩

/-! ## No work is credited twice -/

/-- A submit that comes to the table of a job finds its nonce there, if a work with that header was
made before. -/
def Fresh (w : Pipeline σ β ν) : Nat × Event σ β → Prop
  | (now, .line (some (.submit _ jobId nonce))) =>
    (TokenBucket.take w.session.lines now).1 = true →
      ∀ job, w.session.weighs w.shared jobId nonce now = some job →
        (∃ m ∈ w.made, m.work.header = assembleHeader job.template.pre nonce) →
          nonce ∈ job.dedup.getD []
  | _ => True

/-- A line makes a work when its submit comes to the table of a job that does not have the nonce. -/
theorem makes_iff (s : Session ν β) (sh : Shared σ β) (verb : Option Verb) (now : Nat)
    (h : Arr 132) :
    (∃ m, s.makes sh verb now = some m ∧ m.work.header = h) ↔
      ∃ id jobId nonce job, verb = some (.submit id jobId nonce) ∧
        (TokenBucket.take s.lines now).1 = true ∧ s.weighs sh jobId nonce now = some job ∧
        nonce ∉ job.dedup.getD [] ∧ h = assembleHeader job.template.pre nonce := by
  constructor
  · rintro ⟨m, hm, rfl⟩
    cases verb with
    | none => cases hm
    | some verb =>
      cases verb with
      | keepAlive _ | subscribe _ | authorize _ _ | unknown _ => cases hm
      | submit id jobId nonce =>
        unfold Session.makes at hm
        dsimp only at hm
        split at hm
        case isFalse => cases hm
        case isTrue htake =>
          rcases Session.vetSubmit_spec { s with lines := (TokenBucket.take s.lines now).2 } sh id
              jobId nonce now with
            ⟨hnone, -⟩ | ⟨job, work, hweighs, -, hwork, -, hmem, hfor, -⟩
          · rw [hnone] at hm
            split at hm
            case h_1 hsome => cases hsome
            case h_2 => cases hm
          · rw [hweighs, hwork] at hm
            cases hm
            exact ⟨id, jobId, nonce, job, rfl, htake, hweighs, hmem, hfor.1⟩
  · rintro ⟨id, jobId, nonce, job, rfl, htake, hweighs, hmem, rfl⟩
    have hweighs' : Session.weighs { s with lines := (TokenBucket.take s.lines now).2 } sh jobId
        nonce now = some job := hweighs
    rcases Session.vetSubmit_spec { s with lines := (TokenBucket.take s.lines now).2 } sh id jobId
        nonce now with ⟨-, -, hdup⟩ | ⟨job', work, hweighs'', -, hwork, -, -, hfor, -⟩
    · exact absurd (hdup job hweighs) hmem
    · cases hweighs'.symm.trans hweighs''
      refine ⟨⟨jobId, nonce, job, work⟩, ?_, hfor.1⟩
      unfold Session.makes
      dsimp only
      rw [if_pos htake, hweighs', hwork]

/-- The works a step makes. -/
def makes (w : Pipeline σ β ν) : Nat × Event σ β → List Made
  | (now, .line verb) => (w.session.makes w.shared verb now).toList
  | _ => []

theorem made_step (w : Pipeline σ β ν) (x : Nat × Event σ β) :
    (w.step digest cap x).made = w.made ++ w.makes x := by
  have hactions (acts : List Action) (w : Pipeline σ β ν) :
      (acts.foldl (takeAction cap) w).made = w.made := by
    induction acts generalizing w with
    | nil => rfl
    | cons a acts ih =>
      rw [List.foldl_cons, ih]
      unfold takeAction
      cases a with
      | close reason => rfl
      | verify work =>
        dsimp only
        split <;> rfl
  obtain ⟨now, e⟩ := x
  cases e with
  | line verb => rfl
  | emptyLine | tick | revocation | flush | others _ => exact (List.append_nil _).symm
  | actions => exact (hactions _ _).trans (List.append_nil _).symm
  | newGeneration | result | enqueue _ | begin =>
    unfold Pipeline.step
    dsimp only
    split <;> exact (List.append_nil _).symm
  | finish i panics sealed =>
    unfold Pipeline.step route
    dsimp only
    split
    case h_1 => exact (List.append_nil _).symm
    case h_2 => split <;> exact (List.append_nil _).symm

/-- A step makes no work again exactly when it is fresh. -/
theorem nodup_step_iff (hw : (w.made.map (·.work.header)).Nodup) (x : Nat × Event σ β) :
    ((w.step digest cap x).made.map (·.work.header)).Nodup ↔ w.Fresh x := by
  obtain ⟨now, e⟩ := x
  rw [made_step, List.map_append]
  cases e with
  | line verb =>
    have hmakes := makes_iff w.session w.shared verb now
    cases hm : w.session.makes w.shared verb now with
    | none =>
      have hnil : w.makes (now, .line verb) = [] := congrArg Option.toList hm
      rw [hnil, List.map_nil, List.append_nil]
      refine iff_of_true hw ?_
      rcases verb with _ | verb
      · trivial
      · cases verb with
        | keepAlive _ | subscribe _ | authorize _ _ | unknown _ => trivial
        | submit id jobId nonce =>
          rintro htake job hweighs -
          by_contra hmem
          obtain ⟨m, hsome, -⟩ :=
            (hmakes _).mpr ⟨id, jobId, nonce, job, rfl, htake, hweighs, hmem, rfl⟩
          cases hm.symm.trans hsome
    | some m =>
      have hone : w.makes (now, .line verb) = [m] := congrArg Option.toList hm
      rw [hone, List.map_cons, List.map_nil, List.nodup_append_comm, List.singleton_append,
        List.nodup_cons, and_iff_left hw]
      obtain ⟨id, jobId, nonce, job, rfl, htake, hweighs, hmem, hheader⟩ :=
        (hmakes _).mp ⟨m, hm, rfl⟩
      rw [hheader]
      constructor
      · rintro hnew - job' hweighs' ⟨n, hn, hn'⟩
        cases hweighs.symm.trans hweighs'
        exact absurd (List.mem_map.mpr ⟨n, hn, hn'⟩) hnew
      · intro hfresh hin
        obtain ⟨n, hn, hn'⟩ := List.mem_map.mp hin
        exact hmem (hfresh htake job hweighs ⟨n, hn, hn'⟩)
  | emptyLine | tick | newGeneration | revocation | result | actions | flush | enqueue _ | begin
  | finish _ _ _ | others _ =>
    rw [show w.makes (now, _) = [] from rfl, List.map_nil, List.append_nil]
    exact iff_of_true hw trivial

/-- A run makes no work twice exactly when each of its steps is fresh. -/
theorem nodup_run_iff (hw : (w.made.map (·.work.header)).Nodup) (events : List (Nat × Event σ β)) :
    Runs (Pipeline.step digest cap) Fresh w events ↔
      ((w.run digest cap events).made.map (·.work.header)).Nodup := by
  refine runs_iff (P := fun w : Pipeline σ β ν ↦ (w.made.map (·.work.header)).Nodup) hw
    (fun w x hw ↦ nodup_step_iff hw x) fun w x h ↦ ?_
  rw [made_step, List.map_append] at h
  exact h.of_append_left

section

local instance unlimited : TokenBucket Unit := ⟨fun b _ ↦ (true, b)⟩

local instance oneSlice : SliceSource Unit where
  acquire s := (some (⟨0⟩, 0), s)
  release s _ _ _ := s
  subBits _ := 0
  live _ := 1
  holds _ _ _ := true

local instance fixed : Vardiff Unit where
  start _ _ _ _ := ()
  current _ := 1
  isPinned _ := false
  pin v _ := v
  setBounds v _ _ := v
  onShare v _ _ := (none, v)
  onTick v _ := (none, v)

/-- A server that has one template for everyone. -/
def oneTemplate : Shared Unit Unit where
  bans := .withPolicy default
  e1 := ()
  diffs := .withPolicy ⟨1, 1, 8, 1000, false, 0, 0⟩
  jobs := ⟨fun _ ↦ some ⟨Arr.ofNat 124 5, 7, ⟨2 ^ 200⟩, true⟩, 1⟩
  cfg :=
    { authDeadlineMs := 0
      idleEvictMs := 0
      overCap := fun _ ↦ false
      submits := fun _ ↦ ()
      lines := fun _ ↦ ()
      diff := ⟨1, 1, 8, 1000, false, 0, 0⟩
      vardiffEnabled := true
      vardiffFixedDiff := 0
      vardiffMaxDiff := 0 }

/-- A share from its submit to its verdict. -/
def share (nowMs : Nat) (jobId : UInt32) (nonce : UInt64) : List (Nat × Event Unit Unit) :=
  [(nowMs, .line (some (.submit (some 3) jobId nonce))), (nowMs, .actions), (nowMs, .begin),
    (nowMs, .finish 0 false .accepted), (nowMs, .result)]

/-- A miner that subscribes and logs in. -/
def handshake : List (Nat × Event Unit Unit) :=
  [(0, .line (some (.subscribe (some 1)))),
    (0, .line (some (.authorize (some 2) (some ⟨Arr.ofNat 20 9, none⟩))))]

end

end Pipeline

end Plaine.Stratum

import Plaine.Stratum.Session

/-!
# What a session answers

`Speaks s s' ids` says what every operation of a session but two does to the shares: the requests
`ids` are answered, in order, nothing goes to the verifier or is credited, and the difficulty is
adjusted as it may be without a share.  A submit that passes the checks makes a work for the job it
names, and `admitShare` is where it goes.
-/

namespace Plaine.Stratum

open Plaine.Lib

/-- The request a reply answers. -/
def Reply.answers : Reply → Option (Option Nat)
  | .okTrue id | .error id _ | .subscribeResult id _ _ _ => some id
  | .notice _ | .setTarget _ | .notify _ _ _ _ => none

/-- The work an action hands over. -/
def Action.work : Action → Option ShareWork
  | .verify work => some work
  | .close _ => none

/-- The works among actions. -/
def works (actions : List Action) : List ShareWork := actions.filterMap Action.work

/-- The numbers of the requests that replies answer. -/
def answered (replies : List Reply) : List (Option Nat) := replies.filterMap Reply.answers

theorem works_append (as bs : List Action) : works (as ++ bs) = works as ++ works bs :=
  List.filterMap_append

theorem answered_append (rs qs : List Reply) : answered (rs ++ qs) = answered rs ++ answered qs :=
  List.filterMap_append

/-- A difficulty that has been credited with shares of these difficulties, in order, and otherwise
adjusted. -/
inductive Tuned {ν : Type} [Vardiff ν] : List Nat → ν → Prop
  | start (start min max nowMs : Nat) : Tuned [] (Vardiff.start start min max nowMs)
  | restart {ds : List Nat} {v : ν} (start min max nowMs : Nat) (h : Tuned ds v) :
    Tuned ds (Vardiff.start start min max nowMs)
  | pin {ds : List Nat} {v : ν} (d : Nat) (h : Tuned ds v) : Tuned ds (Vardiff.pin v d)
  | setBounds {ds : List Nat} {v : ν} (min max : Nat) (h : Tuned ds v) :
    Tuned ds (Vardiff.setBounds v min max)
  | onTick {ds : List Nat} {v : ν} (nowMs : Nat) (h : Tuned ds v) :
    Tuned ds (Vardiff.onTick v nowMs).2
  | onShare {ds : List Nat} {v : ν} (d nowMs : Nat) (h : Tuned ds v) :
    Tuned (ds ++ [d]) (Vardiff.onShare v d nowMs).2

/-- The work of a nonce for a job: its header, and the target the job was served at. -/
def ShareWork.IsFor (w : ShareWork) (job : Job) (nonce : UInt64) : Prop :=
  w.header = assembleHeader job.template.pre nonce ∧ w.shareTarget = job.servedTarget ∧
    w.servedDifficulty = job.servedDifficulty ∧ w.template = job.template

namespace Session

variable {σ β ν : Type} [Vardiff ν]

/-- What an operation does to the shares of a session, when it credits none and hands none over. -/
structure Speaks (s s' : Session ν β) (ids : List (Option Nat)) : Prop where
  id : s'.id = s.id
  seq : s.seq ≤ s'.seq
  outbuf : answered s'.outbuf = answered s.outbuf ++ ids
  actions : works s'.actions = works s.actions
  admission : s'.admission = s.admission
  pending : s'.pending = s.pending
  shares : s'.acceptedShares = s.acceptedShares
  difficulty : s'.acceptedDifficulty = s.acceptedDifficulty
  vardiff : ∀ ds, Tuned ds s.vardiff → Tuned ds s'.vardiff

variable {s s' s'' : Session ν β} {sh : Shared σ β} {ids ids' : List (Option Nat)}

theorem Speaks.refl (s : Session ν β) : Speaks s s [] :=
  ⟨rfl, le_rfl, (List.append_nil _).symm, rfl, rfl, rfl, rfl, rfl, fun _ h ↦ h⟩

theorem Speaks.trans (h : Speaks s s' ids) (h' : Speaks s' s'' ids') :
    Speaks s s'' (ids ++ ids') where
  id := h'.id.trans h.id
  seq := h.seq.trans h'.seq
  outbuf := by rw [h'.outbuf, h.outbuf, List.append_assoc]
  actions := h'.actions.trans h.actions
  admission := h'.admission.trans h.admission
  pending := h'.pending.trans h.pending
  shares := h'.shares.trans h.shares
  difficulty := h'.difficulty.trans h.difficulty
  vardiff ds hds := h'.vardiff ds (h.vardiff ds hds)

/-- Fields that have nothing to do with shares. -/
theorem Speaks.of_same (h : s'.id = s.id ∧ s'.seq = s.seq ∧ s'.outbuf = s.outbuf ∧
    s'.actions = s.actions ∧ s'.admission = s.admission ∧ s'.pending = s.pending ∧
    s'.acceptedShares = s.acceptedShares ∧ s'.acceptedDifficulty = s.acceptedDifficulty ∧
    s'.vardiff = s.vardiff) : Speaks s s' [] := by
  obtain ⟨hid, hseq, hout, hacts, hadm, hpend, hshares, hdiff, hvar⟩ := h
  refine ⟨hid, hseq.ge, ?_, congrArg works hacts, hadm, hpend, hshares, hdiff, fun ds h ↦ hvar ▸ h⟩
  rw [hout, List.append_nil]

theorem speaks_write (s : Session ν β) (r : Reply) : Speaks s (s.write r) r.answers.toList := by
  refine ⟨rfl, le_rfl, ?_, rfl, rfl, rfl, rfl, rfl, fun _ h ↦ h⟩
  refine (answered_append _ _).trans (congrArg _ ?_)
  unfold answered
  rw [List.filterMap_cons, List.filterMap_nil]
  cases r.answers <;> rfl

theorem speaks_close (s : Session ν β) (reason : CloseReason) : Speaks s (s.close reason) [] :=
  ⟨rfl, le_rfl, (List.append_nil _).symm, (works_append _ _).trans (List.append_nil _), rfl, rfl,
    rfl, rfl, fun _ h ↦ h⟩

theorem speaks_score (s : Session ν β) (sh : Shared σ β) (points : Nat) (severity : Severity)
    (nowMs : Nat) : Speaks s (s.score sh points severity nowMs).1 [] := by
  unfold score
  dsimp only
  split
  · exact (speaks_write s (.notice .banned)).trans (speaks_close _ _)
  · exact .refl s

theorem speaks_rejectAndScore (s : Session ν β) (sh : Shared σ β) (id : Option Nat) (e : ErrorCode)
    (nowMs : Nat) : Speaks s (s.rejectAndScore sh id e nowMs).1 [id] := by
  unfold rejectAndScore
  dsimp only
  split
  · exact (speaks_write s (.error id e)).trans (speaks_score _ _ _ _ _)
  · exact speaks_write s (.error id e)

theorem speaks_pushJob (s : Session ν β) (sh : Shared σ β) (nowMs : Nat) (force : Bool) :
    Speaks s (s.pushJob sh nowMs force) [] := by
  unfold pushJob
  split
  case h_1 => exact .refl s
  case h_2 login _ =>
    split
    case h_1 => exact .refl s
    case h_2 template _ =>
      dsimp only
      split
      · refine ⟨rfl, le_rfl, ?_, rfl, rfl, rfl, rfl, rfl, fun ds h ↦ h.setBounds _ _⟩
        dsimp only [write]
        rw [answered_append, answered_append, List.append_assoc]
        rfl
      · refine ⟨rfl, le_rfl, ?_, rfl, rfl, rfl, rfl, rfl, fun ds h ↦ h.setBounds _ _⟩
        dsimp only [write]
        rw [answered_append]
        rfl

theorem speaks_retarget (s : Session ν β) (sh : Shared σ β) (nowMs : Nat) :
    Speaks s (s.retarget sh nowMs) [] := by
  have hpush := speaks_pushJob { s with sharesAtCurrentDiff := 0 } sh nowMs true
  have hsame : Speaks s { s with sharesAtCurrentDiff := 0 } [] :=
    .of_same ⟨rfl, rfl, rfl, rfl, rfl, rfl, rfl, rfl, rfl⟩
  exact hsame.trans hpush

theorem speaks_checkSlice [SliceSource σ] (s : Session ν β) (sh : Shared σ β) :
    Speaks s (s.checkSlice sh).2 [] := by
  unfold checkSlice
  split
  case h_1 => exact .refl s
  case h_2 =>
    split
    · exact .refl s
    · exact (speaks_write s (.notice .sliceRevoked)).trans (speaks_close _ _)

theorem speaks_chargeLine [TokenBucket β] (s : Session ν β) (sh : Shared σ β) (nowMs : Nat) :
    Speaks s (s.chargeLine sh nowMs).2.1 [] := by
  unfold chargeLine
  have hlines (lines : β) : Speaks s { s with lines } [] :=
    .of_same ⟨rfl, rfl, rfl, rfl, rfl, rfl, rfl, rfl, rfl⟩
  dsimp only
  split
  · exact hlines _
  · exact (hlines _).trans ((speaks_score _ sh 50 .hard nowMs).trans (speaks_close _ .lineFlood))

theorem speaks_onSubscribe [SliceSource σ] (s : Session ν β) (sh : Shared σ β) (id : Option Nat)
    (nowMs : Nat) :
    Speaks s (s.onSubscribe sh id nowMs).1 [id] := by
  unfold onSubscribe
  split
  · exact speaks_rejectAndScore _ _ _ _ _
  · split
    case h_1 => exact speaks_rejectAndScore _ _ _ _ _
    case h_2 slice sub e1 _ =>
      have hsame : Speaks s { s with e1 := some slice, sub, phase := .subscribed } [] :=
        .of_same ⟨rfl, rfl, rfl, rfl, rfl, rfl, rfl, rfl, rfl⟩
      exact hsame.trans (speaks_write _ (.subscribeResult id slice sub (SliceSource.subBits e1)))

/-- A difficulty that starts anew keeps its account. -/
theorem Tuned.startVardiff {ds : List Nat} {v : ν} (h : Tuned ds v) (cfg : ServerConfig β)
    (start min max nowMs : Nat) : Tuned ds (startVardiff cfg start min max nowMs : ν) := by
  unfold Session.startVardiff
  dsimp only
  split
  · exact (h.restart _ _ _ _).pin _
  · exact h.restart _ _ _ _

theorem speaks_onAuthorize (s : Session ν β) (sh : Shared σ β) (id : Option Nat)
    (login : Option Login) (nowMs : Nat) :
    Speaks s (s.onAuthorize sh id login nowMs).1 [id] := by
  unfold onAuthorize
  split
  · exact speaks_rejectAndScore _ _ _ _ _
  · split
    case h_1 => exact speaks_rejectAndScore _ _ _ _ _
    case h_2 login =>
      dsimp only
      have hstart (floor : Option Nat) (v : ν) (hv : ∀ ds, Tuned ds s.vardiff → Tuned ds v) :
          Speaks s ({ s with
            stormFloor := floor, vardiff := v, login := some login, phase := .authorized }.write
              (.okTrue id)) [id] :=
        ⟨rfl, le_rfl, answered_append _ _, rfl, rfl, rfl, rfl, rfl, hv⟩
      refine (hstart _ _ fun ds h ↦ ?_).trans (speaks_pushJob _ _ _ _)
      split
      · exact (Tuned.startVardiff h _ _ _ _ _).pin _
      · exact Tuned.startVardiff h _ _ _ _ _

theorem speaks_adjust (s : Session ν β) (sh : Shared σ β) (nowMs : Nat) :
    Speaks s (s.adjust sh nowMs) [] := by
  have hvardiff : Speaks s { s with vardiff := (Vardiff.onTick s.vardiff nowMs).2 } [] :=
    ⟨rfl, le_rfl, (List.append_nil _).symm, rfl, rfl, rfl, rfl, rfl, fun _ h ↦ h.onTick nowMs⟩
  unfold adjust
  dsimp only
  split
  · exact hvardiff.trans (speaks_retarget _ sh nowMs)
  · exact hvardiff

theorem speaks_refresh (s : Session ν β) (sh : Shared σ β) (nowMs : Nat) :
    Speaks s (s.refresh sh nowMs) [] := by
  unfold refresh
  split
  · exact speaks_pushJob s sh nowMs false
  · exact .refl s

theorem speaks_countThrottles (s : Session ν β) (sh : Shared σ β) (nowMs : Nat) :
    Speaks s (s.countThrottles sh nowMs).1 [] := by
  have hsame (windows : Nat) : Speaks s { s with throttleWindows := windows } [] :=
    .of_same ⟨rfl, rfl, rfl, rfl, rfl, rfl, rfl, rfl, rfl⟩
  unfold countThrottles
  dsimp only
  split
  · split
    · exact (hsame _).trans (speaks_score _ _ _ _ _)
    · exact hsame _
  · exact hsame _

theorem speaks_endThrottleWindow (s : Session ν β) (sh : Shared σ β) (nowMs : Nat) :
    Speaks s (s.endThrottleWindow sh nowMs).1 [] := by
  unfold endThrottleWindow
  split
  · have hsame (t : Session ν β) : Speaks t
        { t with throttledInWindow := false, throttleWindowStartMs := nowMs } [] :=
      .of_same ⟨rfl, rfl, rfl, rfl, rfl, rfl, rfl, rfl, rfl⟩
    exact (speaks_countThrottles s sh nowMs).trans (hsame _)
  · exact .refl s

theorem speaks_onTick [SliceSource σ] (s : Session ν β) (sh : Shared σ β) (nowMs : Nat) :
    Speaks s (s.onTick sh nowMs).1 [] := by
  have hcheck := speaks_checkSlice s sh
  unfold onTick
  split
  case isTrue => exact speaks_close s _
  case isFalse =>
    split
    case h_1 t heq =>
      rw [heq] at hcheck
      exact hcheck
    case h_2 t heq =>
      rw [heq] at hcheck
      have hjobs : Speaks s ((t.adjust sh nowMs).refresh sh nowMs) [] :=
        hcheck.trans ((speaks_adjust t sh nowMs).trans (speaks_refresh _ sh nowMs))
      have hwindow := hjobs.trans (speaks_endThrottleWindow _ sh nowMs)
      split
      case isTrue => exact hcheck
      case isFalse =>
        dsimp only
        split
        case isTrue => exact hjobs.trans (speaks_close _ _)
        case isFalse =>
          split
          · exact hwindow.trans (speaks_close _ _)
          · exact hwindow

/-! ## Submits -/

variable [SliceSource σ] [TokenBucket β]

/-- The job in whose table a submit is looked up, if it comes to that: the session is authorized,
has the job, owns the slice of the nonce, and has a token left. -/
def weighs (s : Session ν β) (sh : Shared σ β) (jobId : UInt32) (nonce : UInt64) (nowMs : Nat) :
    Option Job :=
  if s.phase = .authorized ∧
      (s.e1.any fun e1 ↦ sliceOwns e1 s.sub (SliceSource.subBits sh.e1) nonce &&
        SliceSource.holds sh.e1 e1 s.sub) ∧ (TokenBucket.take s.submits nowMs).1 then
    (s.jobs.lookup jobId nowMs).jobRef.bind s.jobs.get
  else none

theorem vetNonce_spec (s : Session ν β) (sh : Shared σ β) (id : Option Nat) {slot : JobRef}
    {job : Job} (hjob : s.jobs.get slot = some job) (eligible : Bool) (nonce : UInt64)
    (nowMs : Nat) :
    ((vetSubmit.vetNonce s sh id slot eligible nonce nowMs).1 = none ∧
      Speaks s (vetSubmit.vetNonce s sh id slot eligible nonce nowMs).2.1 [id] ∧
      ((s.e1.any fun e1 ↦ sliceOwns e1 s.sub (SliceSource.subBits sh.e1) nonce &&
        SliceSource.holds sh.e1 e1 s.sub) → (TokenBucket.take s.submits nowMs).1 = true →
          nonce ∈ job.dedup.getD [])) ∨
    ∃ work, (vetSubmit.vetNonce s sh id slot eligible nonce nowMs).1 = some work ∧
      Speaks s (vetSubmit.vetNonce s sh id slot eligible nonce nowMs).2.1 [] ∧
      (s.e1.any fun e1 ↦ sliceOwns e1 s.sub (SliceSource.subBits sh.e1) nonce &&
        SliceSource.holds sh.e1 e1 s.sub) = true ∧ (TokenBucket.take s.submits nowMs).1 = true ∧
      nonce ∉ job.dedup.getD [] ∧ work.IsFor job nonce ∧ work.conn = s.id ∧ work.requestId = id ∧
      work.seq = (vetSubmit.vetNonce s sh id slot eligible nonce nowMs).2.1.seq ∧
      s.seq < work.seq := by
  unfold vetSubmit.vetNonce
  split
  case h_1 hnone =>
    refine .inl ⟨rfl, speaks_rejectAndScore _ _ _ _ _, fun h ↦ ?_⟩
    rw [hnone] at h
    cases h
  case h_2 e1 he1 =>
    have hany (f : E1 → Bool) : s.e1.any f = f e1 := by
      rw [he1]
      rfl
    rw [hany]
    split
    case isTrue hout =>
      refine .inl ⟨rfl, speaks_rejectAndScore _ _ _ _ _, fun h ↦ ?_⟩
      exact absurd (Bool.and_eq_true_iff.mp h).1 hout
    case isFalse hin =>
      split
      case isTrue hlost =>
        refine .inl ⟨rfl, (speaks_write s (.error id .sliceRevoked)).trans (speaks_close _ _),
          fun h ↦ ?_⟩
        exact absurd (Bool.and_eq_true_iff.mp h).2 hlost
      case isFalse hheld =>
        split
        case h_1 submits htake =>
          refine .inl ⟨rfl, ?_, fun _ h ↦ ?_⟩
          · have hsame : Speaks s { s with submits, throttledInWindow := true } [] :=
              .of_same ⟨rfl, rfl, rfl, rfl, rfl, rfl, rfl, rfl, rfl⟩
            exact hsame.trans (speaks_write _ (.error id .throttled))
          · rw [htake] at h
            cases h
        case h_2 submits htake =>
          obtain ⟨hdup, hget⟩ := JobSlots.checkDuplicate_spec hjob nonce
          have hsame (jobs : JobSlots) : Speaks s { s with submits, jobs } [] :=
            .of_same ⟨rfl, rfl, rfl, rfl, rfl, rfl, rfl, rfl, rfl⟩
          dsimp only
          split
          case h_1 jobs hcheck =>
            rw [hcheck] at hdup
            exact .inl ⟨rfl, (hsame jobs).trans (speaks_rejectAndScore _ _ _ _ _),
              fun _ _ ↦ hdup.mp rfl⟩
          case h_2 jobs hcheck =>
            rw [hcheck] at hdup hget
            dsimp only at hdup hget
            rw [hget]
            refine .inr ⟨_, rfl, ?_, ?_, congrArg (·.1) htake,
              fun hmem ↦ absurd (hdup.mpr hmem) Bool.false_ne_true, ⟨rfl, rfl, rfl, rfl⟩, rfl, rfl,
              rfl, Nat.lt_succ_self _⟩
            · exact ⟨rfl, Nat.le_succ _, (List.append_nil _).symm, rfl, rfl, rfl, rfl, rfl,
                fun _ h ↦ h⟩
            · rw [of_not_not hin, of_not_not hheld]
              rfl

/-- A submit is answered, or makes a work for the job it names, whose table did not have the
nonce. -/
theorem vetSubmit_spec (s : Session ν β) (sh : Shared σ β) (id : Option Nat) (jobId : UInt32)
    (nonce : UInt64) (nowMs : Nat) :
    ((s.vetSubmit sh id jobId nonce nowMs).1 = none ∧
      Speaks s (s.vetSubmit sh id jobId nonce nowMs).2.1 [id] ∧
      ∀ job, s.weighs sh jobId nonce nowMs = some job → nonce ∈ job.dedup.getD []) ∨
    ∃ job work, s.weighs sh jobId nonce nowMs = some job ∧ job.jobId = jobId ∧
      (s.vetSubmit sh id jobId nonce nowMs).1 = some work ∧
      Speaks s (s.vetSubmit sh id jobId nonce nowMs).2.1 [] ∧
      nonce ∉ job.dedup.getD [] ∧ work.IsFor job nonce ∧ work.conn = s.id ∧ work.requestId = id ∧
      work.seq = (s.vetSubmit sh id jobId nonce nowMs).2.1.seq ∧ s.seq < work.seq := by
  have hslot {slot : JobRef} (eligible : Bool) (hphase : s.phase = .authorized)
      (href : (s.jobs.lookup jobId nowMs).jobRef = some slot)
      (hvet : s.vetSubmit sh id jobId nonce nowMs =
        vetSubmit.vetNonce s sh id slot eligible nonce nowMs) :
      ((s.vetSubmit sh id jobId nonce nowMs).1 = none ∧
        Speaks s (s.vetSubmit sh id jobId nonce nowMs).2.1 [id] ∧
        ∀ job, s.weighs sh jobId nonce nowMs = some job → nonce ∈ job.dedup.getD []) ∨
      ∃ job work, s.weighs sh jobId nonce nowMs = some job ∧ job.jobId = jobId ∧
        (s.vetSubmit sh id jobId nonce nowMs).1 = some work ∧
        Speaks s (s.vetSubmit sh id jobId nonce nowMs).2.1 [] ∧
        nonce ∉ job.dedup.getD [] ∧ work.IsFor job nonce ∧ work.conn = s.id ∧ work.requestId = id ∧
        work.seq = (s.vetSubmit sh id jobId nonce nowMs).2.1.seq ∧ s.seq < work.seq := by
    obtain ⟨job, hjob, hid⟩ := JobSlots.get_lookup href
    rw [hvet]
    unfold weighs
    rw [href, Option.bind_some, hjob]
    rcases vetNonce_spec s sh id hjob eligible nonce nowMs with
      ⟨hnone, hspeaks, hmem⟩ | ⟨work, hwork, hspeaks, howns, htake, hmem, hrest⟩
    · refine .inl ⟨hnone, hspeaks, fun job' hweighs ↦ ?_⟩
      split at hweighs
      case isTrue h =>
        cases hweighs
        exact hmem h.2.1 h.2.2
      case isFalse => cases hweighs
    · exact .inr ⟨job, work, if_pos ⟨hphase, howns, htake⟩, hid, hwork, hspeaks, hmem, hrest⟩
  have hrefused (e : ErrorCode) (hweighs : s.weighs sh jobId nonce nowMs = none)
      (hvet : s.vetSubmit sh id jobId nonce nowMs = (none, s.rejectAndScore sh id e nowMs)) :
      (s.vetSubmit sh id jobId nonce nowMs).1 = none ∧
        Speaks s (s.vetSubmit sh id jobId nonce nowMs).2.1 [id] ∧
        ∀ job, s.weighs sh jobId nonce nowMs = some job → nonce ∈ job.dedup.getD [] := by
    rw [hvet]
    refine ⟨rfl, speaks_rejectAndScore _ _ _ _ _, fun job h ↦ ?_⟩
    cases hweighs.symm.trans h
  by_cases hphase : s.phase = .authorized
  · have hvet : s.vetSubmit sh id jobId nonce nowMs = _ := if_neg (not_not_intro hphase)
    have hweighs (hnone : (s.jobs.lookup jobId nowMs).jobRef = none) :
        s.weighs sh jobId nonce nowMs = none := by
      unfold weighs
      rw [hnone]
      split <;> rfl
    cases hlookup : s.jobs.lookup jobId nowMs with
    | live i =>
      rw [hlookup] at hvet
      exact hslot true hphase (congrArg JobLookup.jobRef hlookup) hvet
    | staleCredited =>
      rw [hlookup] at hvet
      exact hslot false hphase (congrArg JobLookup.jobRef hlookup) hvet
    | stale =>
      rw [hlookup] at hvet
      exact .inl (hrefused _ (hweighs (congrArg JobLookup.jobRef hlookup)) hvet)
    | unknown =>
      rw [hlookup] at hvet
      exact .inl (hrefused _ (hweighs (congrArg JobLookup.jobRef hlookup)) hvet)
  · exact .inl (hrefused .unauthorized (if_neg fun h ↦ hphase h.1) (if_pos hphase))

/-! ## Lines -/

end Session

/-- The number of a request. -/
def Verb.id : Verb → Option Nat
  | .keepAlive id | .subscribe id | .authorize id _ | .submit id _ _ | .unknown id => id

/-- A share that was made a work: the job and the nonce it was submitted with, and the job that was
found. -/
structure Made where
  jobId : UInt32
  nonce : UInt64
  job : Job
  work : ShareWork

/-- A work is for the job its share was submitted for. -/
def Made.IsFor (m : Made) : Prop := m.job.jobId = m.jobId ∧ m.work.IsFor m.job m.nonce

namespace Session

variable {σ β ν : Type} [SliceSource σ] [TokenBucket β] [Vardiff ν]

/-- The requests a line makes that are to be answered, when the budget of lines has it read. -/
def asks (s : Session ν β) (line : Option Verb) (nowMs : Nat) : List (Option Nat) :=
  if (TokenBucket.take s.lines nowMs).1 then
    match line with
    | none => if s.phase = .authorized then [none] else []
    | some verb => [verb.id]
  else []

/-- The work a line makes. -/
def makes (s : Session ν β) (sh : Shared σ β) (line : Option Verb) (nowMs : Nat) : Option Made :=
  match line with
  | some (.submit id jobId nonce) =>
    if (TokenBucket.take s.lines nowMs).1 then
      let s := { s with lines := (TokenBucket.take s.lines nowMs).2 }
      match s.weighs sh jobId nonce nowMs, (s.vetSubmit sh id jobId nonce nowMs).1 with
      | some job, some work => some ⟨jobId, nonce, job, work⟩
      | _, _ => none
    else none
  | _ => none

/-- A line is answered, or its share is a work that is admitted. -/
theorem onLine_spec (s : Session ν β) (sh : Shared σ β) (line : Option Verb) (nowMs : Nat) :
    (s.makes sh line nowMs = none ∧ Speaks s (s.onLine sh line nowMs).1 (s.asks line nowMs)) ∨
    ∃ m t, s.makes sh line nowMs = some m ∧ m.IsFor ∧ s.asks line nowMs = [m.work.requestId] ∧
      Speaks s t [] ∧ m.work.conn = s.id ∧ m.work.seq ≤ t.seq ∧
      (s.onLine sh line nowMs).1 = t.admitShare m.work := by
  have hcharge := speaks_chargeLine s sh nowMs
  cases htake : TokenBucket.take s.lines nowMs with
  | mk granted lines =>
  have hasks : s.asks line nowMs = if granted then
      match line with
      | none => if s.phase = .authorized then [none] else []
      | some verb => [verb.id]
      else [] := by
    unfold asks
    rw [htake]
  cases granted with
  | false =>
    have hline : s.chargeLine sh nowMs = (false, (s.chargeLine sh nowMs).2) := by
      unfold chargeLine
      rw [htake]
      rfl
    have hon : s.onLine sh line nowMs = (s.chargeLine sh nowMs).2 := by
      unfold onLine
      rw [hline]
    refine .inl ⟨?_, ?_⟩
    · unfold makes
      rw [htake]
      cases line with
      | none => rfl
      | some verb => cases verb <;> rfl
    · rw [hasks, hon]
      exact hcharge
  | true =>
    have hline : s.chargeLine sh nowMs = (true, { s with lines }, sh) := by
      unfold chargeLine
      rw [htake]
      rfl
    have hsame : Speaks s { s with lines } [] :=
      .of_same ⟨rfl, rfl, rfl, rfl, rfl, rfl, rfl, rfl, rfl⟩
    rw [hasks]
    unfold onLine makes
    rw [hline, htake]
    cases line with
    | none =>
      refine .inl ⟨rfl, ?_⟩
      dsimp only
      split
      · exact hsame.trans ((speaks_rejectAndScore _ sh none .badMessage nowMs).trans
          (speaks_close _ _))
      · exact hsame.trans (speaks_close _ _)
    | some verb =>
      cases verb with
      | keepAlive id => exact .inl ⟨rfl, hsame.trans (speaks_write _ (.okTrue id))⟩
      | subscribe id => exact .inl ⟨rfl, hsame.trans (speaks_onSubscribe _ _ _ _)⟩
      | authorize id login => exact .inl ⟨rfl, hsame.trans (speaks_onAuthorize _ _ _ _ _)⟩
      | unknown id => exact .inl ⟨rfl, hsame.trans (speaks_rejectAndScore _ _ _ _ _)⟩
      | submit id jobId nonce =>
        dsimp only
        rcases vetSubmit_spec { s with lines } sh id jobId nonce nowMs with
          ⟨hnone, hspeaks, -⟩ |
          ⟨job, work, hweighs, hid, hwork, hspeaks, -, hfor, hconn, hreq, hseq, -⟩
        · refine .inl ⟨?_, hsame.trans ?_⟩
          · rw [hnone]
            cases weighs { s with lines } sh jobId nonce nowMs <;> rfl
          · unfold onSubmit
            generalize vetSubmit { s with lines } sh id jobId nonce nowMs = v at hnone hspeaks
            obtain ⟨_, t, sh'⟩ := v
            cases hnone
            exact hspeaks
        · refine .inr ⟨⟨jobId, nonce, job, work⟩, _, ?_, ⟨hid, hfor⟩,
            congrArg (fun id ↦ [id]) hreq.symm, hsame.trans hspeaks, hconn, hseq.le, ?_⟩
          · rw [hweighs, hwork]
            rfl
          · unfold onSubmit
            generalize vetSubmit { s with lines } sh id jobId nonce nowMs = v at hwork hspeaks
            obtain ⟨_, t, sh'⟩ := v
            cases hwork
            rfl

/-! ## Verdicts -/

/-- A session with a share credited. -/
def withCredit (s : Session ν β) (d nowMs : Nat) : Session ν β :=
  { s with
    acceptedShares := s.acceptedShares + 1
    acceptedDifficulty := s.acceptedDifficulty + d
    vardiff := (Vardiff.onShare s.vardiff d nowMs).2 }

omit [SliceSource σ] [TokenBucket β] in
theorem speaks_credit (s : Session ν β) (sh : Shared σ β) (r : VerifyResult) (nowMs : Nat) :
    Speaks (s.withCredit r.servedDifficulty nowMs) (s.credit sh r nowMs).1 [r.requestId] := by
  unfold credit
  dsimp only
  have hok (n : Nat) : Speaks (s.withCredit r.servedDifficulty nowMs)
      { (s.withCredit r.servedDifficulty nowMs).write (.okTrue r.requestId) with
        lastAcceptedShareMs := nowMs
        sharesAtCurrentDiff := n } [r.requestId] :=
    ⟨rfl, le_rfl, answered_append _ _, rfl, rfl, rfl, rfl, rfl, fun _ h ↦ h⟩
  by_cases hretarget : (Vardiff.onShare s.vardiff r.servedDifficulty nowMs).1.isSome
  · rw [if_pos hretarget]
    exact (hok _).trans (speaks_retarget _ _ nowMs)
  · rw [if_neg hretarget]
    exact hok _

omit [SliceSource σ] [TokenBucket β] [Vardiff ν] in
/-- The share that waits, if there is one, goes on its way. -/
theorem proceed_spec (s : Session ν β) (h : s.pending.isSome = s.admission.queued) :
    (s.proceed.id = s.id ∧ s.proceed.seq = s.seq ∧ s.proceed.outbuf = s.outbuf ∧
      s.proceed.acceptedShares = s.acceptedShares ∧
      s.proceed.acceptedDifficulty = s.acceptedDifficulty ∧ s.proceed.vardiff = s.vardiff) ∧
    works s.proceed.actions = works s.actions ++ s.pending.toList ∧ s.proceed.pending = none ∧
    s.proceed.admission = ⟨s.admission.queued, false⟩ := by
  unfold proceed Admission.complete
  by_cases hqueued : s.admission.queued
  · rw [if_pos hqueued]
    obtain ⟨work, hwork⟩ := Option.isSome_iff_exists.mp (h.trans hqueued)
    dsimp only
    rw [hwork, hqueued]
    exact ⟨⟨rfl, rfl, rfl, rfl, rfl, rfl⟩, works_append _ _, rfl, rfl⟩
  · rw [if_neg hqueued]
    have hnone : s.pending = none :=
      Option.not_isSome_iff_eq_none.mp fun hsome ↦ hqueued (h.symm.trans hsome)
    have hfalse : s.admission.queued = false := eq_false_of_ne_true hqueued
    dsimp only
    rw [hnone, hfalse]
    exact ⟨⟨rfl, rfl, rfl, rfl, rfl, rfl⟩, (List.append_nil _).symm, rfl, rfl⟩

end Session

end Plaine.Stratum

import Plaine.Stratum.Issued
import Plaine.Stratum.Settled

/-!
# The jobs a session was served

The history of a session's jobs in any run with the verifier, each with the generation of the source
it was pushed at.  A push is clean when its template is of a new tip and the generation is not that
of the last clean push; so of the jobs that are live no two of new tips are of different generations.
-/

namespace Plaine.Stratum

open Plaine.Lib Plaine.Consensus

/-- A job with the generation it was pushed at. -/
abbrev ServedJob := Nat × Issued

/-- The pushes were clean when the generation was a new one, and the last clean one was at this
generation. -/
def Cleans : List ServedJob → Nat → Prop
  | [], gen => gen = u64Max
  | x :: l, gen => ∃ gen', Cleans l gen' ∧
      x.2.clean = decide (x.2.job.template.newTip ∧ gen' ≠ x.1) ∧
      gen = if x.2.clean then x.1 else gen'

/-- Since a job was pushed there was no clean push, few others, and no new tip of another
generation. -/
structure Newest (later : List ServedJob) (x : ServedJob) : Prop where
  clean : ∀ y ∈ later, y.2.clean = false
  length : later.length < jobSlots
  generation : x.2.job.template.newTip = true → ∀ y ∈ later,
    y.2.job.template.newTip = true → y.1 = x.1

/-- Where there was no clean push, new tips are of one generation. -/
theorem Cleans.generation {later earlier : List ServedJob} {x : ServedJob} {gen : Nat}
    (h : Cleans (later ++ x :: earlier) gen) (hlater : ∀ y ∈ later, y.2.clean = false)
    (hx : x.2.job.template.newTip = true) :
    gen = x.1 ∧ ∀ y ∈ later, y.2.job.template.newTip = true → y.1 = x.1 := by
  induction later generalizing gen with
  | nil =>
    obtain ⟨gen', -, hclean, rfl⟩ := h
    refine ⟨?_, fun y hy ↦ (by cases hy)⟩
    split
    case isTrue => rfl
    case isFalse hnot =>
      rw [hclean, decide_eq_true_iff, not_and, not_not] at hnot
      exact hnot hx
  | cons y later ih =>
    obtain ⟨gen', hl, hclean, rfl⟩ := h
    obtain ⟨hy, hlater⟩ := List.forall_mem_cons.mp hlater
    obtain ⟨hgen, hrest⟩ := ih hl hlater
    rw [hy, if_neg Bool.false_ne_true]
    refine ⟨hgen, List.forall_mem_cons.mpr ⟨fun hnew ↦ ?_, hrest⟩⟩
    have hnot := of_decide_eq_false (hclean.symm.trans hy)
    rw [not_and, not_not] at hnot
    exact (hnot hnew).symm.trans hgen

namespace Session

variable {σ β ν : Type}

/-- What a session was served. -/
structure Serves (s : Session ν β) (l : List ServedJob) : Prop where
  tells : s.jobs.Tells (l.map (·.2))
  cleans : Cleans l s.lastCleanGen

/-- An operation that serves a session no jobs, or some more. -/
def Follows (s s' : Session ν β) : Prop := ∀ l, Serves s l → ∃ new, Serves s' (new ++ l)

variable {s s' s'' : Session ν β}

theorem Follows.refl (s : Session ν β) : Follows s s := fun _ h ↦ ⟨[], h⟩

theorem Follows.trans (h : Follows s s') (h' : Follows s' s'') : Follows s s'' := by
  intro l hl
  obtain ⟨new, hnew⟩ := h l hl
  obtain ⟨new', hnew'⟩ := h' _ hnew
  exact ⟨new' ++ new, by rwa [List.append_assoc]⟩

/-- The tables of nonces may change. -/
theorem Follows.of_tells (hjobs : ∀ h, s.jobs.Tells h → s'.jobs.Tells h)
    (hgen : s'.lastCleanGen = s.lastCleanGen) : Follows s s' := fun _ hl ↦
  ⟨[], hjobs _ hl.tells, hgen ▸ hl.cleans⟩

theorem Follows.of_same (hjobs : s'.jobs = s.jobs) (hgen : s'.lastCleanGen = s.lastCleanGen) :
    Follows s s' := .of_tells (fun _ h ↦ hjobs ▸ h) hgen

theorem follows_score (s : Session ν β) (sh : Shared σ β) (points : Nat) (severity : Severity)
    (nowMs : Nat) : Follows s (s.score sh points severity nowMs).1 := by
  unfold score
  dsimp only
  split <;> exact .of_same rfl rfl

theorem follows_rejectAndScore (s : Session ν β) (sh : Shared σ β) (id : Option Nat)
    (e : ErrorCode) (nowMs : Nat) : Follows s (s.rejectAndScore sh id e nowMs).1 := by
  have hwrite : Follows s (s.write (.error id e)) := .of_same rfl rfl
  unfold rejectAndScore
  dsimp only
  split
  · exact hwrite.trans (follows_score _ sh _ _ _)
  · exact hwrite

/-- A push serves one job, at the generation of the source. -/
theorem follows_pushJob [Vardiff ν] (s : Session ν β) (sh : Shared σ β) (nowMs : Nat)
    (force : Bool) : Follows s (s.pushJob sh nowMs force) := by
  unfold pushJob
  split
  case h_1 => exact .refl s
  case h_2 login _ =>
    split
    case h_1 => exact .refl s
    case h_2 template _ =>
      dsimp only
      intro l hl
      have hserves (target : Target) (diff : Nat) (clean : Bool)
          (hclean : clean = decide (template.newTip ∧ s.lastCleanGen ≠ sh.jobs.generation)) :
          (s.jobs.push template target diff clean nowMs).2.Tells
              ((((sh.jobs.generation, ⟨⟨s.jobs.nextId, template, target, diff, none⟩, clean, nowMs⟩) :
                ServedJob) :: l).map (·.2)) ∧
            Cleans ((sh.jobs.generation, ⟨⟨s.jobs.nextId, template, target, diff, none⟩, clean,
              nowMs⟩) :: l) (if clean then sh.jobs.generation else s.lastCleanGen) :=
        ⟨hl.tells.push _ _ _ _ _, s.lastCleanGen, hl.cleans, hclean, rfl⟩
      split
      all_goals
        obtain ⟨htells, hcleans⟩ := hserves (Target.fromDifficulty (Vardiff.current
          (Vardiff.setBounds s.vardiff (s.vardiffMin sh)
            (sh.cfg.vardiffCeiling template.networkTarget.toDifficulty))))
          (Vardiff.current (Vardiff.setBounds s.vardiff (s.vardiffMin sh)
            (sh.cfg.vardiffCeiling template.networkTarget.toDifficulty))) _ rfl
        exact ⟨[_], htells, hcleans⟩

theorem follows_retarget [Vardiff ν] (s : Session ν β) (sh : Shared σ β) (nowMs : Nat) :
    Follows s (s.retarget sh nowMs) := by
  refine Follows.trans ?_ (follows_pushJob _ sh nowMs true)
  exact .of_same rfl rfl

theorem follows_checkSlice [SliceSource σ] (s : Session ν β) (sh : Shared σ β) :
    Follows s (s.checkSlice sh).2 := by
  unfold checkSlice
  split
  case h_1 => exact .refl s
  case h_2 => split <;> exact .of_same rfl rfl

theorem follows_chargeLine [TokenBucket β] (s : Session ν β) (sh : Shared σ β) (nowMs : Nat) :
    Follows s (s.chargeLine sh nowMs).2.1 := by
  unfold chargeLine
  dsimp only
  split
  · exact .of_same rfl rfl
  · refine Follows.trans ?_ ((follows_score _ sh 50 .hard nowMs).trans (.of_same rfl rfl))
    exact .of_same rfl rfl

theorem follows_onSubscribe [SliceSource σ] (s : Session ν β) (sh : Shared σ β) (id : Option Nat)
    (nowMs : Nat) : Follows s (s.onSubscribe sh id nowMs).1 := by
  unfold onSubscribe
  split
  · exact follows_rejectAndScore _ _ _ _ _
  · split
    · exact follows_rejectAndScore _ _ _ _ _
    · exact .of_same rfl rfl

theorem follows_onAuthorize [Vardiff ν] (s : Session ν β) (sh : Shared σ β) (id : Option Nat)
    (login : Option Login) (nowMs : Nat) : Follows s (s.onAuthorize sh id login nowMs).1 := by
  unfold onAuthorize
  split
  · exact follows_rejectAndScore _ _ _ _ _
  · split
    case h_1 => exact follows_rejectAndScore _ _ _ _ _
    case h_2 login =>
      dsimp only
      refine Follows.trans ?_ (follows_pushJob _ _ nowMs true)
      exact .of_same rfl rfl

theorem follows_vetNonce [SliceSource σ] [TokenBucket β] (s : Session ν β) (sh : Shared σ β)
    (id : Option Nat) (slot : JobRef) (eligible : Bool) (nonce : UInt64) (nowMs : Nat) :
    Follows s (vetSubmit.vetNonce s sh id slot eligible nonce nowMs).2.1 := by
  unfold vetSubmit.vetNonce
  split
  case h_1 => exact follows_rejectAndScore _ _ _ _ _
  case h_2 =>
    split
    · exact follows_rejectAndScore _ _ _ _ _
    split
    · exact .of_same rfl rfl
    split
    case h_1 => exact .of_same rfl rfl
    case h_2 submits _ =>
      have hchecks (jobs : JobSlots) (hjobs : jobs = (s.jobs.checkDuplicate slot nonce).2) :
          Follows s { s with submits, jobs } :=
        .of_tells (fun h hh ↦ hjobs ▸ hh.checkDuplicate slot nonce) rfl
      dsimp only
      split
      case h_1 jobs heq =>
        exact (hchecks jobs (congrArg Prod.snd heq).symm).trans (follows_rejectAndScore _ _ _ _ _)
      case h_2 jobs heq =>
        have hjobs := hchecks jobs (congrArg Prod.snd heq).symm
        split
        · exact hjobs
        · exact hjobs.trans (.of_same rfl rfl)

theorem follows_onSubmit [SliceSource σ] [TokenBucket β] (s : Session ν β) (sh : Shared σ β)
    (id : Option Nat) (jobId : UInt32) (nonce : UInt64) (nowMs : Nat) :
    Follows s (s.onSubmit sh id jobId nonce nowMs).1 := by
  have hvet : Follows s (s.vetSubmit sh id jobId nonce nowMs).2.1 := by
    unfold vetSubmit
    split
    · exact follows_rejectAndScore _ _ _ _ _
    split
    case h_1 => exact follows_rejectAndScore _ _ _ _ _
    case h_2 => exact follows_rejectAndScore _ _ _ _ _
    case h_3 => exact follows_vetNonce _ _ _ _ _ _ _
    case h_4 => exact follows_vetNonce _ _ _ _ _ _ _
  have hadmitted (s : Session ν β) (work : ShareWork) : Follows s (s.admitShare work) := by
    unfold admitShare
    generalize s.admission.request = a
    obtain ⟨admitted, admission⟩ := a
    cases admitted <;> exact .of_same rfl rfl
  unfold onSubmit
  generalize s.vetSubmit sh id jobId nonce nowMs = v at hvet
  obtain ⟨_ | work, t, sh'⟩ := v
  · exact hvet
  · exact hvet.trans (hadmitted t work)

theorem follows_onLine [SliceSource σ] [TokenBucket β] [Vardiff ν] (s : Session ν β)
    (sh : Shared σ β) (line : Option Verb) (nowMs : Nat) :
    Follows s (s.onLine sh line nowMs).1 := by
  have hcharge := follows_chargeLine s sh nowMs
  unfold onLine
  split
  case h_1 t sh' heq =>
    rw [heq] at hcharge
    exact hcharge
  case h_2 t sh' heq =>
    rw [heq] at hcharge
    refine hcharge.trans ?_
    dsimp only
    split
    · split
      · exact (follows_rejectAndScore _ _ _ _ _).trans (.of_same rfl rfl)
      · exact .of_same rfl rfl
    · exact .of_same rfl rfl
    · exact follows_onSubscribe _ _ _ _
    · exact follows_onAuthorize _ _ _ _ _
    · exact follows_onSubmit _ _ _ _ _ _
    · exact follows_rejectAndScore _ _ _ _ _

theorem follows_proceed (s : Session ν β) : Follows s s.proceed := by
  unfold proceed
  dsimp only
  split
  · split <;> exact .of_same rfl rfl
  · exact .of_same rfl rfl

theorem follows_onVerifyRefused (s : Session ν β) (id : Option Nat) :
    Follows s (s.onVerifyRefused id) := by
  refine Follows.trans ?_ (follows_proceed _)
  exact .of_same rfl rfl

theorem follows_onVerifyResult [Vardiff ν] (s : Session ν β) (sh : Shared σ β) (r : VerifyResult)
    (nowMs : Nat) : Follows s (s.onVerifyResult sh r nowMs).1 := by
  have hcredit : Follows s (s.credit sh r nowMs).1 := by
    unfold credit
    dsimp only
    split
    · refine Follows.trans ?_ (follows_retarget _ _ nowMs)
      exact .of_same rfl rfl
    · exact .of_same rfl rfl
  unfold onVerifyResult
  split
  · exact .refl s
  · cases r.verdict with
    | accepted block => exact hcredit.trans (follows_proceed _)
    | lowDifficulty => exact (follows_rejectAndScore _ _ _ _ _).trans (follows_proceed _)
    | internalError =>
      refine Follows.trans ?_ (follows_proceed _)
      exact .of_same rfl rfl

theorem follows_onTick [SliceSource σ] [Vardiff ν] (s : Session ν β) (sh : Shared σ β)
    (nowMs : Nat) : Follows s (s.onTick sh nowMs).1 := by
  have hadjust (s : Session ν β) : Follows s (s.adjust sh nowMs) := by
    unfold adjust
    dsimp only
    split
    · refine Follows.trans ?_ (follows_retarget _ sh nowMs)
      exact .of_same rfl rfl
    · exact .of_same rfl rfl
  have hrefresh (s : Session ν β) : Follows s (s.refresh sh nowMs) := by
    unfold refresh
    split
    · exact follows_pushJob _ _ _ _
    · exact .refl _
  have hwindow (s : Session ν β) : Follows s (s.endThrottleWindow sh nowMs).1 := by
    unfold endThrottleWindow countThrottles
    split
    · dsimp only
      split
      · split
        · have hscore := follows_score { s with throttleWindows := s.throttleWindows + 1 } sh 5 .hard
            nowMs
          refine Follows.trans (.trans ?_ hscore) (.of_same rfl rfl)
          exact .of_same rfl rfl
        · exact .of_same rfl rfl
      · exact .of_same rfl rfl
    · exact .refl _
  have hcheck := follows_checkSlice s sh
  unfold onTick
  split
  case isTrue => exact .of_same rfl rfl
  case isFalse =>
    split
    case h_1 t heq =>
      rw [heq] at hcheck
      exact hcheck
    case h_2 t heq =>
      rw [heq] at hcheck
      have hjobs := hcheck.trans ((hadjust t).trans (hrefresh _))
      split
      case isTrue => exact hcheck
      case isFalse =>
        dsimp only
        split
        case isTrue => exact hjobs.trans (.of_same rfl rfl)
        case isFalse =>
          split
          · exact (hjobs.trans (hwindow _)).trans (.of_same rfl rfl)
          · exact hjobs.trans (hwindow _)

/-! ## Shares that may seal -/

/-- A job in the ring was the newest, or there were few after it. -/
theorem Serves.newest {l : List ServedJob} (h : Serves s l) {i : Fin jobSlots} {j : Job}
    (hi : s.jobs.ring i = some j) :
    ∃ later x earlier, l = later ++ x :: earlier ∧ x.2.job = j.bare ∧ Newest later x := by
  obtain ⟨x, hx, hj⟩ := (h.tells.exists_ring_iff j.bare).mp ⟨i, congrArg (Option.map _) hi⟩
  obtain ⟨later, earlier, hl, hclean, hlength⟩ := Issued.exists_of_mem_live hx
  obtain ⟨later, rest, rfl, rfl, hrest⟩ := List.map_eq_append_iff.mp hl
  obtain ⟨x, earlier, rfl, rfl, rfl⟩ := List.map_eq_cons_iff.mp hrest
  have hclean : ∀ y ∈ later, y.2.clean = false := fun y hy ↦ hclean _ (List.mem_map_of_mem hy)
  refine ⟨later, x, earlier, rfl, hj, hclean, ?_, fun hnew ↦ ?_⟩
  · rwa [List.length_map] at hlength
  · exact (h.cleans.generation hclean hnew).2

theorem eligible_vetNonce [SliceSource σ] [TokenBucket β] (s : Session ν β) (sh : Shared σ β)
    (id : Option Nat) (slot : JobRef) (eligible : Bool) (nonce : UInt64) (nowMs : Nat)
    {work : ShareWork}
    (h : (vetSubmit.vetNonce s sh id slot eligible nonce nowMs).1 = some work) :
    work.eligibleForBlock = eligible := by
  unfold vetSubmit.vetNonce at h
  split at h
  case h_1 => cases h
  case h_2 =>
    split at h
    · cases h
    split at h
    · cases h
    split at h
    case h_1 => cases h
    case h_2 =>
      dsimp only at h
      split at h
      case h_1 => cases h
      case h_2 =>
        split at h
        · cases h
        · cases h
          rfl

/-- A share may seal when its job is in the ring. -/
theorem ring_of_eligible [SliceSource σ] [TokenBucket β] [Vardiff ν] (s : Session ν β)
    (sh : Shared σ β) (line : Option Verb) (nowMs : Nat) {m : Made}
    (hm : s.makes sh line nowMs = some m) (heligible : m.work.eligibleForBlock = true) :
    ∃ i, s.jobs.ring i = some m.job := by
  unfold makes at hm
  split at hm
  case h_2 => cases hm
  case h_1 id jobId nonce =>
    split at hm
    case isFalse => cases hm
    case isTrue =>
      dsimp only at hm
      split at hm
      case h_2 => cases hm
      case h_1 job work hweighs hwork =>
        cases hm
        unfold weighs at hweighs
        unfold vetSubmit at hwork
        split at hwork
        · cases hwork
        split at hweighs
        case isFalse => cases hweighs
        split at hwork
        case h_1 => cases hwork
        case h_2 => cases hwork
        case h_3 i hlookup =>
          rw [hlookup] at hweighs
          exact ⟨i, hweighs⟩
        case h_4 =>
          -- In the grace window the work is made, but may not seal.
          exact absurd (heligible.symm.trans (eligible_vetNonce _ _ _ _ _ _ _ hwork))
            (by decide)

end Session

/-! ## Runs -/

namespace Pipeline

/-- A share of the session that a thread has at hand was made a work. -/
theorem Flows.exists_made {σ β ν : Type} [Vardiff ν] {digest : Arr 132 → Nat}
    {w : Pipeline σ β ν} (h : Flows digest [] w) {work : ShareWork} (hwork : work ∈ w.running)
    (hconn : work.conn = w.session.id) : ∃ m ∈ w.made, m.work = work := by
  have hverifier : work ∈ w.atVerifier :=
    List.mem_filter.mpr ⟨List.mem_append_right _ hwork, decide_eq_true hconn⟩
  have hheld : work ∈ w.held [] := by
    refine List.mem_append_left _ (List.mem_append_left _ (List.mem_append_right _ hverifier))
  exact List.mem_map.mp (h.made.subset (List.mem_append_right _ hheld))

variable {σ β ν : Type} {digest : Arr 132 → Nat} {w w' : Pipeline σ β ν} {l : List ServedJob}

/-- The jobs a session was served in a run; a work that may seal is for a job that was one of the
newest when its share came. -/
structure Served (w : Pipeline σ β ν) (l : List ServedJob) : Prop where
  serves : w.session.Serves l
  made : ∀ m ∈ w.made, m.work.eligibleForBlock = true →
    ∃ later x earlier, later ++ x :: earlier <:+ l ∧ x.2.job = m.job.bare ∧ Newest later x

theorem served_new [Vardiff ν] (id : Nat) (ip : IpAddr) (nowMs : Nat) (sh : Shared σ β)
    (queue running : List ShareWork) :
    Served (new id ip nowMs sh queue running : Pipeline σ β ν) [] :=
  ⟨⟨JobSlots.tells_new, rfl⟩, fun m hm ↦ (by cases hm)⟩

theorem Served.follows (h : Served w l) (hs : w.session.Follows w'.session)
    (hmade : w'.made = w.made) : ∃ new, Served w' (new ++ l) := by
  obtain ⟨new, hnew⟩ := hs l h.serves
  refine ⟨new, hnew, fun m hm heligible ↦ ?_⟩
  obtain ⟨later, x, earlier, hl, hrest⟩ := h.made m (hmade ▸ hm) heligible
  exact ⟨later, x, earlier, hl.trans (List.suffix_append new l), hrest⟩

theorem follows_takeActions (cap : Nat) (acts : List Action) (w : Pipeline σ β ν) :
    w.session.Follows (acts.foldl (takeAction cap) w).session := by
  induction acts generalizing w with
  | nil => exact .refl _
  | cons a acts ih =>
    refine Session.Follows.trans ?_ (ih (takeAction cap w a))
    cases a with
    | close reason => exact .refl _
    | verify work =>
      unfold takeAction
      dsimp only
      split
      · exact .refl _
      · exact Session.follows_onVerifyRefused _ _

variable [SliceSource σ] [TokenBucket β] [Vardiff ν]

/-- Each step follows on what was served. -/
theorem Served.step (h : Served w l) (cap : Nat) (x : Nat × Event σ β) :
    ∃ new, Served (w.step digest cap x) (new ++ l) := by
  have hmade : (w.step digest cap x).made = w.made ++ w.makes x := made_step w x
  obtain ⟨now, e⟩ := x
  cases e with
  | line verb =>
    obtain ⟨new, hnew⟩ := Session.follows_onLine w.session w.shared verb now l h.serves
    refine ⟨new, hnew, fun m hm heligible ↦ ?_⟩
    rcases List.mem_append.mp hm with hm | hm
    · obtain ⟨later, x, earlier, hl, hrest⟩ := h.made m hm heligible
      exact ⟨later, x, earlier, hl.trans (List.suffix_append new l), hrest⟩
    · obtain ⟨i, hi⟩ :=
        Session.ring_of_eligible _ _ _ _ (Option.mem_toList.mp hm) heligible
      obtain ⟨later, x, earlier, rfl, hrest⟩ := h.serves.newest hi
      exact ⟨later, x, earlier, List.suffix_append new _, hrest⟩
  | emptyLine => exact h.follows (Session.follows_chargeLine _ _ _) rfl
  | tick => exact h.follows (Session.follows_onTick _ _ _) rfl
  | revocation => exact h.follows (Session.follows_checkSlice _ _) rfl
  | flush => exact h.follows (.of_same rfl rfl) rfl
  | others shared => exact h.follows (.refl _) rfl
  | actions =>
    refine h.follows ?_ (hmade.trans (List.append_nil _))
    refine Session.Follows.trans ?_ (follows_takeActions cap _ _)
    exact .of_same rfl rfl
  | newGeneration =>
    refine h.follows ?_ (hmade.trans (List.append_nil _))
    unfold Pipeline.step
    dsimp only
    split
    · exact Session.follows_pushJob _ _ _ _
    · exact .refl _
  | result =>
    refine h.follows ?_ (hmade.trans (List.append_nil _))
    unfold Pipeline.step
    dsimp only
    split
    · exact .refl _
    · exact Session.follows_onVerifyResult _ _ _ _
  | enqueue work =>
    refine h.follows ?_ (hmade.trans (List.append_nil _))
    unfold Pipeline.step
    dsimp only
    split <;> exact .refl _
  | begin =>
    refine h.follows ?_ (hmade.trans (List.append_nil _))
    unfold Pipeline.step
    dsimp only
    split <;> exact .refl _
  | finish i panics sealed =>
    refine h.follows ?_ (hmade.trans (List.append_nil _))
    unfold Pipeline.step route
    dsimp only
    split
    · exact .refl _
    · split <;> exact .refl _

/-- In every run. -/
theorem served_run (h : Served w l) (cap : Nat) (events : List (Nat × Event σ β)) :
    ∃ new, Served (w.run digest cap events) (new ++ l) := by
  induction events generalizing w l with
  | nil => exact ⟨[], h⟩
  | cons x events ih =>
    obtain ⟨new, hnew⟩ := h.step cap x
    obtain ⟨new', hnew'⟩ := ih hnew
    exact ⟨new' ++ new, by rwa [List.append_assoc]⟩

end Pipeline

end Plaine.Stratum

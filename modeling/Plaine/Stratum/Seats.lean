import Plaine.Stratum.Session

/-!
# Sessions and their slices

All sessions of a server with the allocator of the node.  A session takes a slice when it subscribes
and gives it back when it ends, on whichever path that is; nothing else of a session touches its
slice or the allocator.
-/

namespace Plaine.Stratum

open Plaine.Lib

namespace Session

variable {σ β ν : Type}

/-- An operation that leaves the slice of a session and the source of slices alone. -/
structure Sits (s s' : Session ν β) (sh sh' : Shared σ β) : Prop where
  slice : s'.e1 = s.e1 ∧ s'.sub = s.sub
  source : sh'.e1 = sh.e1
  phase : s'.phase = .fresh → s.phase = .fresh

variable {s s' s'' : Session ν β} {sh sh' sh'' : Shared σ β}

theorem Sits.refl (s : Session ν β) (sh : Shared σ β) : Sits s s sh sh := ⟨⟨rfl, rfl⟩, rfl, fun h ↦ h⟩

theorem Sits.trans (h : Sits s s' sh sh') (h' : Sits s' s'' sh' sh'') : Sits s s'' sh sh'' :=
  ⟨⟨h'.slice.1.trans h.slice.1, h'.slice.2.trans h.slice.2⟩, h'.source.trans h.source,
    fun hfresh ↦ h.phase (h'.phase hfresh)⟩

theorem sits_score (s : Session ν β) (sh : Shared σ β) (points : Nat) (severity : Severity)
    (nowMs : Nat) : Sits s (s.score sh points severity nowMs).1 sh
      (s.score sh points severity nowMs).2 := by
  unfold score
  dsimp only
  split <;> exact ⟨⟨rfl, rfl⟩, rfl, fun h ↦ h⟩

theorem sits_rejectAndScore (s : Session ν β) (sh : Shared σ β) (id : Option Nat) (e : ErrorCode)
    (nowMs : Nat) : Sits s (s.rejectAndScore sh id e nowMs).1 sh
      (s.rejectAndScore sh id e nowMs).2 := by
  have hwrite : Sits s (s.write (.error id e)) sh sh := ⟨⟨rfl, rfl⟩, rfl, fun h ↦ h⟩
  unfold rejectAndScore
  dsimp only
  split
  · exact hwrite.trans (sits_score _ sh _ _ _)
  · exact hwrite

theorem sits_pushJob [Vardiff ν] (s : Session ν β) (sh : Shared σ β) (nowMs : Nat) (force : Bool) :
    Sits s (s.pushJob sh nowMs force) sh sh := by
  unfold pushJob
  split
  case h_1 => exact .refl s sh
  case h_2 login _ =>
    split
    case h_1 => exact .refl s sh
    case h_2 template _ =>
      dsimp only
      split <;> exact ⟨⟨rfl, rfl⟩, rfl, fun h ↦ h⟩

theorem sits_retarget [Vardiff ν] (s : Session ν β) (sh : Shared σ β) (nowMs : Nat) :
    Sits s (s.retarget sh nowMs) sh sh := by
  have hpush := sits_pushJob { s with sharesAtCurrentDiff := 0 } sh nowMs true
  exact ⟨hpush.slice, hpush.source, hpush.phase⟩

theorem sits_checkSlice [SliceSource σ] (s : Session ν β) (sh : Shared σ β) :
    Sits s (s.checkSlice sh).2 sh sh := by
  unfold checkSlice
  split
  case h_1 => exact .refl s sh
  case h_2 => split <;> exact ⟨⟨rfl, rfl⟩, rfl, fun h ↦ h⟩

theorem sits_chargeLine [TokenBucket β] (s : Session ν β) (sh : Shared σ β) (nowMs : Nat) :
    Sits s (s.chargeLine sh nowMs).2.1 sh (s.chargeLine sh nowMs).2.2 := by
  unfold chargeLine
  dsimp only
  split
  · exact ⟨⟨rfl, rfl⟩, rfl, fun h ↦ h⟩
  · have hscore := sits_score { s with lines := (TokenBucket.take s.lines nowMs).2 } sh 50 .hard nowMs
    exact ⟨hscore.slice, hscore.source, hscore.phase⟩

theorem sits_onAuthorize [Vardiff ν] (s : Session ν β) (sh : Shared σ β) (id : Option Nat)
    (login : Option Login) (nowMs : Nat) :
    Sits s (s.onAuthorize sh id login nowMs).1 sh (s.onAuthorize sh id login nowMs).2 := by
  unfold onAuthorize
  split
  · exact sits_rejectAndScore _ _ _ _ _
  · split
    case h_1 => exact sits_rejectAndScore _ _ _ _ _
    case h_2 login =>
      dsimp only
      have hne : Phase.authorized ≠ .fresh := by decide
      have hstart (floor : Option Nat) (v : ν) (diffs : DiffCache) : Sits s
          ({ s with
            stormFloor := floor, vardiff := v, login := some login, phase := .authorized }.write
              (.okTrue id)) sh { sh with diffs } :=
        ⟨⟨rfl, rfl⟩, rfl, fun h ↦ absurd h hne⟩
      exact (hstart _ _ _).trans (sits_pushJob _ _ _ _)

theorem sits_vetNonce [SliceSource σ] [TokenBucket β] (s : Session ν β) (sh : Shared σ β)
    (id : Option Nat) (slot : JobRef) (eligible : Bool) (nonce : UInt64) (nowMs : Nat) :
    Sits s (vetSubmit.vetNonce s sh id slot eligible nonce nowMs).2.1 sh
      (vetSubmit.vetNonce s sh id slot eligible nonce nowMs).2.2 := by
  unfold vetSubmit.vetNonce
  split
  case h_1 => exact sits_rejectAndScore _ _ _ _ _
  case h_2 =>
    split
    · exact sits_rejectAndScore _ _ _ _ _
    split
    · exact ⟨⟨rfl, rfl⟩, rfl, fun h ↦ h⟩
    split
    case h_1 => exact ⟨⟨rfl, rfl⟩, rfl, fun h ↦ h⟩
    case h_2 submits _ =>
      dsimp only
      split
      case h_1 jobs _ =>
        have hreject := sits_rejectAndScore { s with submits, jobs } sh id .duplicateShare nowMs
        exact ⟨hreject.slice, hreject.source, hreject.phase⟩
      case h_2 jobs _ => split <;> exact ⟨⟨rfl, rfl⟩, rfl, fun h ↦ h⟩

theorem sits_onSubmit [SliceSource σ] [TokenBucket β] (s : Session ν β) (sh : Shared σ β)
    (id : Option Nat) (jobId : UInt32) (nonce : UInt64) (nowMs : Nat) :
    Sits s (s.onSubmit sh id jobId nonce nowMs).1 sh (s.onSubmit sh id jobId nonce nowMs).2 := by
  have hvet : Sits s (s.vetSubmit sh id jobId nonce nowMs).2.1 sh
      (s.vetSubmit sh id jobId nonce nowMs).2.2 := by
    unfold vetSubmit
    split
    · exact sits_rejectAndScore _ _ _ _ _
    split
    case h_1 => exact sits_rejectAndScore _ _ _ _ _
    case h_2 => exact sits_rejectAndScore _ _ _ _ _
    case h_3 => exact sits_vetNonce _ _ _ _ _ _ _
    case h_4 => exact sits_vetNonce _ _ _ _ _ _ _
  have hadmitted (s : Session ν β) (work : ShareWork) : Sits s (s.admitShare work) sh sh := by
    unfold admitShare
    generalize s.admission.request = a
    obtain ⟨admitted, admission⟩ := a
    cases admitted <;> exact ⟨⟨rfl, rfl⟩, rfl, fun h ↦ h⟩
  unfold onSubmit
  generalize s.vetSubmit sh id jobId nonce nowMs = v at hvet
  obtain ⟨_ | work, t, sh'⟩ := v
  · exact hvet
  · have hsits := hadmitted t work
    exact ⟨⟨hsits.slice.1.trans hvet.slice.1, hsits.slice.2.trans hvet.slice.2⟩, hvet.source,
      fun h ↦ hvet.phase (hsits.phase h)⟩

theorem sits_proceed (s : Session ν β) (sh : Shared σ β) : Sits s s.proceed sh sh := by
  unfold proceed
  dsimp only
  split
  · split <;> exact ⟨⟨rfl, rfl⟩, rfl, fun h ↦ h⟩
  · exact ⟨⟨rfl, rfl⟩, rfl, fun h ↦ h⟩

theorem sits_onVerifyResult [Vardiff ν] (s : Session ν β) (sh : Shared σ β) (r : VerifyResult)
    (nowMs : Nat) :
    Sits s (s.onVerifyResult sh r nowMs).1 sh (s.onVerifyResult sh r nowMs).2 := by
  have hproceed {sh' : Shared σ β} {t : Session ν β} (h : Sits s t sh sh') :
      Sits s t.proceed sh sh' := h.trans (sits_proceed t sh')
  have hcredit : Sits s (s.credit sh r nowMs).1 sh (s.credit sh r nowMs).2 := by
    have hremember (b : Prop) [Decidable b] :
        (if b then s.rememberDifficulty sh r.servedDifficulty nowMs else sh).e1 = sh.e1 := by
      unfold rememberDifficulty
      split
      · split <;> rfl
      · rfl
    unfold credit
    dsimp only
    split
    · exact ⟨(sits_retarget _ _ nowMs).slice, hremember _, (sits_retarget _ _ nowMs).phase⟩
    · exact ⟨⟨rfl, rfl⟩, hremember _, fun h ↦ h⟩
  unfold onVerifyResult
  split
  · exact .refl s sh
  · cases r.verdict with
    | accepted block => exact hproceed hcredit
    | lowDifficulty => exact hproceed (sits_rejectAndScore _ _ _ _ _)
    | internalError => exact hproceed ⟨⟨rfl, rfl⟩, rfl, fun h ↦ h⟩

theorem sits_onTick [SliceSource σ] [Vardiff ν] (s : Session ν β) (sh : Shared σ β) (nowMs : Nat) :
    Sits s (s.onTick sh nowMs).1 sh (s.onTick sh nowMs).2 := by
  have hclose (s : Session ν β) (sh : Shared σ β) (reason : CloseReason) :
      Sits s (s.close reason) sh sh := ⟨⟨rfl, rfl⟩, rfl, fun h ↦ h⟩
  have hadjust (s : Session ν β) : Sits s (s.adjust sh nowMs) sh sh := by
    unfold adjust
    dsimp only
    split
    · exact ⟨(sits_retarget _ sh nowMs).slice, rfl, (sits_retarget _ sh nowMs).phase⟩
    · exact ⟨⟨rfl, rfl⟩, rfl, fun h ↦ h⟩
  have hrefresh (s : Session ν β) : Sits s (s.refresh sh nowMs) sh sh := by
    unfold refresh
    split
    · exact sits_pushJob _ _ _ _
    · exact .refl _ _
  have hwindow (s : Session ν β) :
      Sits s (s.endThrottleWindow sh nowMs).1 sh (s.endThrottleWindow sh nowMs).2 := by
    unfold endThrottleWindow countThrottles
    split
    · dsimp only
      split
      · split
        · exact ⟨(sits_score _ sh 5 .hard nowMs).slice, (sits_score _ sh 5 .hard nowMs).source,
            (sits_score _ sh 5 .hard nowMs).phase⟩
        · exact ⟨⟨rfl, rfl⟩, rfl, fun h ↦ h⟩
      · exact ⟨⟨rfl, rfl⟩, rfl, fun h ↦ h⟩
    · exact .refl _ _
  have hcheck := sits_checkSlice s sh
  unfold onTick
  split
  case isTrue => exact hclose _ _ _
  case isFalse =>
    split
    case h_1 t heq =>
      rw [heq] at hcheck
      exact hcheck
    case h_2 t heq =>
      rw [heq] at hcheck
      have hjobs := hcheck.trans ((hadjust t).trans (hrefresh _))
      split
      case isTrue => exact hcheck
      case isFalse =>
        dsimp only
        split
        case isTrue => exact hjobs.trans (hclose _ _ _)
        case isFalse =>
          split
          · exact (hjobs.trans (hwindow _)).trans (hclose _ _ _)
          · exact hjobs.trans (hwindow _)

end Session

/-! ## What a session does with its slice -/

/-- What happens to a session. -/
inductive SessionOp where
  | line (verb : Option Verb)
  | emptyLine
  | tick
  | newGeneration
  | revocation
  | result (r : VerifyResult)
  | refused (requestId : Option Nat)
  | takeActions
  | flush

namespace Session

variable {β ν : Type}

/-- An operation on a session. -/
def perform {σ : Type} [SliceSource σ] [TokenBucket β] [Vardiff ν] (s : Session ν β)
    (sh : Shared σ β) (nowMs : Nat) : SessionOp → Session ν β × Shared σ β
  | .line verb => s.onLine sh verb nowMs
  | .emptyLine => (s.chargeLine sh nowMs).2
  | .tick => s.onTick sh nowMs
  | .newGeneration => (if s.phase = .authorized then s.pushJob sh nowMs false else s, sh)
  | .revocation => ((s.checkSlice sh).2, sh)
  | .result r => s.onVerifyResult sh r nowMs
  | .refused requestId => (s.onVerifyRefused requestId, sh)
  | .takeActions => ({ s with actions := [] }, sh)
  | .flush => ({ s with outbuf := [] }, sh)

/-- A session that was fresh asks the allocator for a slice, and takes what it gets. -/
structure Takes (s s' : Session ν β) (sh sh' : Shared E1Allocator β) : Prop where
  fresh : s.phase = .fresh
  source : sh'.e1 = sh.e1.acquire.2
  slice : sh.e1.acquire.1 = none ∧ s'.e1 = s.e1 ∧ s'.sub = s.sub ∧ s'.phase = .fresh ∨
    ∃ e1, sh.e1.acquire.1 = some e1 ∧ s'.e1 = some e1 ∧ s'.sub = 0 ∧ s'.phase ≠ .fresh

theorem onSubscribe_spec (s : Session ν β) (sh : Shared E1Allocator β) (id : Option Nat)
    (nowMs : Nat) :
    Sits s (s.onSubscribe sh id nowMs).1 sh (s.onSubscribe sh id nowMs).2 ∨
      Takes s (s.onSubscribe sh id nowMs).1 sh (s.onSubscribe sh id nowMs).2 := by
  have hacquire : SliceSource.acquire sh.e1 = (sh.e1.acquire.1.map (·, 0), sh.e1.acquire.2) := rfl
  unfold onSubscribe
  split
  case isTrue => exact .inl (sits_rejectAndScore _ _ _ _ _)
  case isFalse hphase =>
    replace hphase := of_not_not hphase
    right
    rw [hacquire]
    cases he1 : sh.e1.acquire.1 with
    | none =>
      have hsits := sits_rejectAndScore s { sh with e1 := sh.e1.acquire.2 } id .serverBusy nowMs
      have hfresh : (s.rejectAndScore { sh with e1 := sh.e1.acquire.2 } id .serverBusy
          nowMs).1.phase = .fresh := hphase
      exact ⟨hphase, hsits.source, .inl ⟨he1, hsits.slice.1, hsits.slice.2, hfresh⟩⟩
    | some e1 =>
      have hne : Phase.subscribed ≠ .fresh := by decide
      exact ⟨hphase, rfl, .inr ⟨e1, he1, rfl, rfl, hne⟩⟩

theorem onLine_takes [TokenBucket β] [Vardiff ν] (s : Session ν β) (sh : Shared E1Allocator β)
    (verb : Option Verb) (nowMs : Nat) :
    Sits s (s.onLine sh verb nowMs).1 sh (s.onLine sh verb nowMs).2 ∨
      Takes s (s.onLine sh verb nowMs).1 sh (s.onLine sh verb nowMs).2 := by
  have hcharge := sits_chargeLine s sh nowMs
  have hphase : (s.chargeLine sh nowMs).2.1.phase = s.phase := by
    unfold chargeLine score
    dsimp only
    split
    · rfl
    · split <;> rfl
  unfold onLine
  generalize s.chargeLine sh nowMs = c at hcharge hphase
  obtain ⟨granted, t, sh'⟩ := c
  cases granted with
  | false => exact .inl hcharge
  | true =>
    cases verb with
    | none =>
      left
      dsimp only
      split
      · exact (hcharge.trans (sits_rejectAndScore _ _ _ _ _)).trans ⟨⟨rfl, rfl⟩, rfl, fun h ↦ h⟩
      · exact hcharge.trans ⟨⟨rfl, rfl⟩, rfl, fun h ↦ h⟩
    | some verb =>
      cases verb with
      | keepAlive id => exact .inl (hcharge.trans ⟨⟨rfl, rfl⟩, rfl, fun h ↦ h⟩)
      | authorize id login => exact .inl (hcharge.trans (sits_onAuthorize _ _ _ _ _))
      | submit id jobId nonce => exact .inl (hcharge.trans (sits_onSubmit _ _ _ _ _ _))
      | unknown id => exact .inl (hcharge.trans (sits_rejectAndScore _ _ _ _ _))
      | subscribe id =>
        rcases onSubscribe_spec t sh' id nowMs with hsits | ⟨hfresh, hsource, hslice⟩
        · exact .inl (hcharge.trans hsits)
        · have he1 : sh'.e1 = sh.e1 := hcharge.source
          rw [he1] at hsource hslice
          refine .inr ⟨hphase.symm.trans hfresh, hsource, ?_⟩
          rcases hslice with ⟨hnone, hslice, hsub, hphase'⟩ | hsome
          · exact .inl ⟨hnone, hslice.trans hcharge.slice.1, hsub.trans hcharge.slice.2, hphase'⟩
          · exact .inr hsome

/-- A session takes a slice when it subscribes, and does nothing else with it. -/
theorem perform_spec [TokenBucket β] [Vardiff ν] (s : Session ν β) (sh : Shared E1Allocator β)
    (nowMs : Nat) (op : SessionOp) :
    Sits s (s.perform sh nowMs op).1 sh (s.perform sh nowMs op).2 ∨
      Takes s (s.perform sh nowMs op).1 sh (s.perform sh nowMs op).2 := by
  cases op with
  | line verb => exact onLine_takes s sh verb nowMs
  | emptyLine => exact .inl (sits_chargeLine s sh nowMs)
  | tick => exact .inl (sits_onTick s sh nowMs)
  | newGeneration =>
    left
    unfold perform
    dsimp only
    split
    · exact sits_pushJob _ _ _ _
    · exact .refl _ _
  | revocation => exact .inl (sits_checkSlice s sh)
  | result r => exact .inl (sits_onVerifyResult s sh r nowMs)
  | refused requestId =>
    have hwrite : Sits s (s.write (.error requestId .serverBusy)) sh sh :=
      ⟨⟨rfl, rfl⟩, rfl, fun h ↦ h⟩
    exact .inl (hwrite.trans (sits_proceed _ sh))
  | takeActions | flush => exact .inl ⟨⟨rfl, rfl⟩, rfl, fun h ↦ h⟩

end Session

/-! ## The sessions of a server -/

/-- The sessions that are open, and what they share. -/
structure Seats (β ν : Type) where
  shared : Shared E1Allocator β
  sessions : List (Session ν β)
  nextId : Nat

/-- What happens: connections are made and dropped, sessions go on, and what they share beside the
allocator changes. -/
inductive SeatEvent (β : Type) where
  | connect (ip : IpAddr)
  | perform (i : Nat) (op : SessionOp)
  | drop (i : Nat)
  | others (bans : BanTable) (diffs : DiffCache) (jobs : JobSource) (cfg : ServerConfig β)

namespace Seats

open E1Allocator

variable {β ν : Type}

/-- A server that starts. -/
def new (bans : BanTable) (diffs : DiffCache) (jobs : JobSource) (cfg : ServerConfig β) :
    Seats β ν := ⟨⟨bans, .new, diffs, jobs, cfg⟩, [], 1⟩

/-- A step. -/
def step [TokenBucket β] [Vardiff ν] (w : Seats β ν) : Nat × SeatEvent β → Seats β ν
  | (now, .connect ip) =>
    { w with sessions := w.sessions ++ [.new w.nextId ip now w.shared], nextId := w.nextId + 1 }
  | (now, .perform i op) =>
    match w.sessions[i]? with
    | none => w
    | some s =>
      let (s, shared) := s.perform w.shared now op
      { w with sessions := w.sessions.set i s, shared }
  | (now, .drop i) =>
    match w.sessions[i]? with
    | none => w
    | some s =>
      { w with sessions := w.sessions.eraseIdx i, shared := (s.release w.shared now).2 }
  | (_, .others bans diffs jobs cfg) => { w with shared := ⟨bans, w.shared.e1, diffs, jobs, cfg⟩ }

/-- A run. -/
def run [TokenBucket β] [Vardiff ν] (w : Seats β ν) (events : List (Nat × SeatEvent β)) :
    Seats β ν := events.foldl step w

/-- The slices that sessions hold. -/
def held (w : Seats β ν) : List E1 := w.sessions.filterMap (·.e1)

/-- The allocator knows what sessions hold, and each slice is held once. -/
structure Seated (w : Seats β ν) : Prop where
  counts : Counts w.shared.e1
  nodup : w.held.Nodup
  taken : ∀ e1, e1 ∈ w.held ↔ ∃ v ∈ w.shared.e1.taken, slice v = e1
  fresh : ∀ s ∈ w.sessions, s.phase = .fresh → s.e1 = none
  sub : ∀ s ∈ w.sessions, s.e1 ≠ none → s.sub = 0

theorem seated_new (bans : BanTable) (diffs : DiffCache) (jobs : JobSource)
    (cfg : ServerConfig β) : Seated (new bans diffs jobs cfg : Seats β ν) := by
  refine ⟨counts_new, List.nodup_nil, fun e1 ↦ ?_, fun s hs ↦ (by cases hs),
    fun s hs ↦ (by cases hs)⟩
  show e1 ∈ [] ↔ ∃ v ∈ E1Allocator.new.taken, _
  rw [taken_new]
  simp

/-- The place of a session among the others. -/
theorem split_sessions {l : List (Session ν β)} {i : Nat} {s : Session ν β} (h : l[i]? = some s) :
    ∃ l₁ l₂, l = l₁ ++ s :: l₂ ∧ (∀ t, l.set i t = l₁ ++ t :: l₂) ∧ l.eraseIdx i = l₁ ++ l₂ := by
  obtain ⟨hlt, hs⟩ := List.getElem?_eq_some_iff.mp h
  refine ⟨l.take i, l.drop (i + 1), ?_, fun t ↦ ?_, List.eraseIdx_eq_take_drop_succ l i⟩
  · rw [← hs, ← List.drop_eq_getElem_cons hlt, List.take_append_drop]
  · rw [List.set_eq_take_append_cons_drop, if_pos hlt]

/-- A session that leaves its slice alone. -/
theorem Seated.sits {w : Seats β ν} (h : Seated w) {l₁ l₂ : List (Session ν β)}
    {s s' : Session ν β} {sh : Shared E1Allocator β} (hw : w.sessions = l₁ ++ s :: l₂)
    (hs : s.Sits s' w.shared sh) :
    Seated { w with sessions := l₁ ++ s' :: l₂, shared := sh } := by
  have hheld : held { w with sessions := l₁ ++ s' :: l₂, shared := sh } = w.held := by
    unfold held
    dsimp only
    rw [hw, List.filterMap_append, List.filterMap_append, List.filterMap_cons, List.filterMap_cons,
      hs.slice.1]
  have hmem {t : Session ν β} (ht : t ∈ l₁ ++ s' :: l₂) : t = s' ∨ t ∈ w.sessions := by
    rw [hw]
    rcases List.mem_append.mp ht with ht | ht
    · exact .inr (List.mem_append_left _ ht)
    · exact (List.mem_cons.mp ht).imp_right fun ht ↦
        List.mem_append_right _ (List.mem_cons_of_mem _ ht)
  have hin : s ∈ w.sessions := hw ▸ List.mem_append_right _ List.mem_cons_self
  refine ⟨?_, hheld ▸ h.nodup, ?_, fun t ht hfresh ↦ ?_, fun t ht he1 ↦ ?_⟩
  · dsimp only
    rw [hs.source]
    exact h.counts
  · rw [hheld]
    dsimp only
    rw [hs.source]
    exact h.taken
  · rcases hmem ht with rfl | ht
    · exact hs.slice.1.trans (h.fresh s hin (hs.phase hfresh))
    · exact h.fresh t ht hfresh
  · rcases hmem ht with rfl | ht
    · exact hs.slice.2.trans (h.sub s hin fun hnone ↦ he1 (hs.slice.1.trans hnone))
    · exact h.sub t ht he1

/-- A session that asks for a slice. -/
theorem Seated.takes {w : Seats β ν} (h : Seated w) {l₁ l₂ : List (Session ν β)}
    {s s' : Session ν β} {sh : Shared E1Allocator β} (hw : w.sessions = l₁ ++ s :: l₂)
    (hs : s.Takes s' w.shared sh) :
    Seated { w with sessions := l₁ ++ s' :: l₂, shared := sh } := by
  have hmem {t : Session ν β} (ht : t ∈ l₁ ++ s' :: l₂) : t = s' ∨ t ∈ w.sessions := by
    rw [hw]
    rcases List.mem_append.mp ht with ht | ht
    · exact .inr (List.mem_append_left _ ht)
    · exact (List.mem_cons.mp ht).imp_right fun ht ↦
        List.mem_append_right _ (List.mem_cons_of_mem _ ht)
  have hin : s ∈ w.sessions := hw ▸ List.mem_append_right _ List.mem_cons_self
  have hnone : s.e1 = none := h.fresh s hin hs.fresh
  have hcounts : Counts sh.e1 := hs.source ▸ h.counts.acquire
  have hheld : w.held = l₁.filterMap (·.e1) ++ l₂.filterMap (·.e1) := by
    unfold held
    rw [hw, List.filterMap_append, List.filterMap_cons, hnone]
  rcases hs.slice with ⟨hfull, he1, hsub, hphase⟩ | ⟨e1, hgot, he1, hsub, hphase⟩
  · have hheld' : held { w with sessions := l₁ ++ s' :: l₂, shared := sh } = w.held := by
      unfold held at hheld ⊢
      dsimp only
      rw [hheld, List.filterMap_append, List.filterMap_cons, he1, hnone]
    have htaken : sh.e1.taken = w.shared.e1.taken := by
      rw [hs.source]
      rcases w.shared.e1.acquire_cases with ⟨-, hbits, -⟩ | ⟨v, -, hsome, -⟩
      · exact congrArg Bitmap.members hbits
      · cases hfull.symm.trans hsome
    refine ⟨hcounts, hheld' ▸ h.nodup, ?_, fun t ht hfresh ↦ ?_, fun t ht hne ↦ ?_⟩
    · rw [hheld']
      dsimp only
      rw [htaken]
      exact h.taken
    · rcases hmem ht with rfl | ht
      · exact he1.trans hnone
      · exact h.fresh t ht hfresh
    · rcases hmem ht with rfl | ht
      · exact absurd (he1.trans hnone) hne
      · exact h.sub t ht hne
  · rcases w.shared.e1.acquire_cases with ⟨hfail, -⟩ | ⟨v, hv, hsome, htaken, -⟩
    · cases hfail.symm.trans hgot
    · obtain rfl : slice v = e1 := Option.some.inj (hsome.symm.trans hgot)
      have hheld' : (held { w with sessions := l₁ ++ s' :: l₂, shared := sh }).Perm
          (slice v :: w.held) := by
        rw [hheld]
        unfold held
        dsimp only
        rw [List.filterMap_append, List.filterMap_cons, he1]
        exact List.perm_middle
      have hnew : slice v ∉ w.held := by
        intro hheld
        obtain ⟨u, hu, huv⟩ := (h.taken _).mp hheld
        exact hv (slice_injective huv ▸ hu)
      refine ⟨hcounts, hheld'.nodup_iff.mpr (List.nodup_cons.mpr ⟨hnew, h.nodup⟩), fun e1 ↦ ?_,
        fun t ht hfresh ↦ ?_, fun t ht hne ↦ ?_⟩
      · dsimp only
        rw [hheld'.mem_iff, List.mem_cons, h.taken, hs.source, htaken]
        constructor
        · rintro (rfl | ⟨u, hu, rfl⟩)
          · exact ⟨v, Finset.mem_insert_self _ _, rfl⟩
          · exact ⟨u, Finset.mem_insert_of_mem hu, rfl⟩
        · rintro ⟨u, hu, rfl⟩
          rcases Finset.mem_insert.mp hu with rfl | hu
          · exact .inl rfl
          · exact .inr ⟨u, hu, rfl⟩
      · rcases hmem ht with rfl | ht
        · exact absurd hfresh hphase
        · exact h.fresh t ht hfresh
      · rcases hmem ht with rfl | ht
        · exact hsub
        · exact h.sub t ht hne

/-- A session that ends. -/
theorem Seated.drops {w : Seats β ν} (h : Seated w) {l₁ l₂ : List (Session ν β)}
    {s : Session ν β} (hw : w.sessions = l₁ ++ s :: l₂) (nowMs : Nat) :
    Seated { w with sessions := l₁ ++ l₂, shared := (s.release w.shared nowMs).2 } := by
  have hmem {t : Session ν β} (ht : t ∈ l₁ ++ l₂) : t ∈ w.sessions := by
    rw [hw]
    rcases List.mem_append.mp ht with ht | ht
    · exact List.mem_append_left _ ht
    · exact List.mem_append_right _ (List.mem_cons_of_mem _ ht)
  have hheld : held { w with sessions := l₁ ++ l₂, shared := (s.release w.shared nowMs).2 } =
      l₁.filterMap (·.e1) ++ l₂.filterMap (·.e1) := List.filterMap_append
  cases he1 : s.e1 with
  | none =>
    have hheld' : w.held = l₁.filterMap (·.e1) ++ l₂.filterMap (·.e1) := by
      unfold held
      rw [hw, List.filterMap_append, List.filterMap_cons, he1]
    have hsource : (s.release w.shared nowMs).2.e1 = w.shared.e1 := by
      unfold Session.release
      rw [he1]
    refine ⟨?_, ?_, fun e1 ↦ ?_, fun t ht ↦ h.fresh t (hmem ht), fun t ht ↦ h.sub t (hmem ht)⟩
    · dsimp only
      rw [hsource]
      exact h.counts
    · rw [hheld, ← hheld']
      exact h.nodup
    · rw [hheld, ← hheld']
      dsimp only
      rw [hsource]
      exact h.taken e1
  | some e1 =>
    have hheld' : w.held.Perm (e1 :: (l₁.filterMap (·.e1) ++ l₂.filterMap (·.e1))) := by
      unfold held
      rw [hw, List.filterMap_append, List.filterMap_cons, he1]
      exact List.perm_middle
    obtain ⟨v, hv, rfl⟩ := (h.taken e1).mp (hheld'.symm.subset List.mem_cons_self)
    have hsource : (s.release w.shared nowMs).2.e1 = w.shared.e1.release (slice v) := by
      unfold Session.release
      rw [he1]
      rfl
    obtain ⟨hnew, hnodup⟩ := List.nodup_cons.mp (hheld'.nodup_iff.mp h.nodup)
    refine ⟨?_, hheld ▸ hnodup, fun e1 ↦ ?_, fun t ht ↦ h.fresh t (hmem ht),
      fun t ht ↦ h.sub t (hmem ht)⟩
    · dsimp only
      rw [hsource]
      exact h.counts.release v
    · rw [hheld]
      dsimp only
      rw [hsource, taken_release]
      have hiff : e1 ∈ slice v :: (l₁.filterMap (·.e1) ++ l₂.filterMap (·.e1)) ↔
          ∃ u ∈ w.shared.e1.taken, slice u = e1 := hheld'.mem_iff.symm.trans (h.taken e1)
      constructor
      · intro hin
        obtain ⟨u, hu, rfl⟩ := hiff.mp (List.mem_cons_of_mem _ hin)
        refine ⟨u, Finset.mem_erase.mpr ⟨?_, hu⟩, rfl⟩
        rintro rfl
        exact hnew hin
      · rintro ⟨u, hu, rfl⟩
        obtain ⟨hne, hu⟩ := Finset.mem_erase.mp hu
        rcases List.mem_cons.mp (hiff.mpr ⟨u, hu, rfl⟩) with heq | hin
        · exact absurd (slice_injective heq) hne
        · exact hin

theorem Seated.step [TokenBucket β] [Vardiff ν] {w : Seats β ν} (h : Seated w)
    (x : Nat × SeatEvent β) : Seated (w.step x) := by
  obtain ⟨now, e⟩ := x
  cases e with
  | connect ip =>
    have hheld : (w.step (now, .connect ip)).held = w.held :=
      List.filterMap_append.trans (List.append_nil _)
    have hmem {s : Session ν β} (hs : s ∈ (w.step (now, .connect ip)).sessions) :
        s ∈ w.sessions ∨ s.e1 = none :=
      (List.mem_append.mp hs).imp_right fun hs ↦ congrArg (·.e1) (List.mem_singleton.mp hs)
    refine ⟨h.counts, hheld ▸ h.nodup, hheld ▸ h.taken, fun s hs hfresh ↦ ?_, fun s hs hne ↦ ?_⟩
    · exact (hmem hs).elim (fun hs ↦ h.fresh s hs hfresh) id
    · exact h.sub s ((hmem hs).resolve_right hne) hne
  | perform i op =>
    unfold Seats.step
    dsimp only
    split
    case h_1 => exact h
    case h_2 s hs =>
      obtain ⟨l₁, l₂, hw, hset, -⟩ := split_sessions hs
      rw [hset]
      rcases s.perform_spec w.shared now op with hsits | htakes
      · exact h.sits hw hsits
      · exact h.takes hw htakes
  | drop i =>
    unfold Seats.step
    dsimp only
    split
    case h_1 => exact h
    case h_2 s hs =>
      obtain ⟨l₁, l₂, hw, -, herase⟩ := split_sessions hs
      rw [herase]
      exact h.drops hw now
  | others bans diffs jobs cfg => exact ⟨h.counts, h.nodup, h.taken, h.fresh, h.sub⟩

theorem seated_run [TokenBucket β] [Vardiff ν] {w : Seats β ν} (h : Seated w)
    (events : List (Nat × SeatEvent β)) : Seated (w.run events) := by
  induction events generalizing w with
  | nil => exact h
  | cons x events ih => exact ih (h.step x)

/-! ## Slices apart -/

/-- Sessions hold as many slices as are live. -/
theorem Seated.live {w : Seats β ν} (h : Seated w) :
    w.shared.e1.live = w.held.length ∧ w.shared.e1.taken.card = w.held.length := by
  have hset : w.held.toFinset = w.shared.e1.taken.image slice := by
    ext e1
    rw [List.mem_toFinset, h.taken, Finset.mem_image]
  have hcard : w.shared.e1.taken.card = w.held.length := by
    rw [← Finset.card_image_of_injective _ slice_injective, ← hset,
      List.toFinset_card_of_nodup h.nodup]
  exact ⟨h.counts.trans hcard, hcard⟩

/-- No nonce is in the slices of two sessions. -/
theorem Seated.apart {w : Seats β ν} (h : Seated w) {i j : Nat} {s t : Session ν β} {e1 e1' : E1}
    (hs : w.sessions[i]? = some s) (ht : w.sessions[j]? = some t) (hij : i ≠ j)
    (he1 : s.e1 = some e1) (he1' : t.e1 = some e1') (nonce : UInt64) :
    ¬(sliceOwns e1 s.sub 0 nonce ∧ sliceOwns e1' t.sub 0 nonce) := by
  have hmem {u : Session ν β} {k : Nat} {e : E1} (hu : w.sessions[k]? = some u)
      (he : u.e1 = some e) : e ∈ w.held ∧ u.sub = 0 := by
    have hin := List.mem_of_getElem? hu
    exact ⟨List.mem_filterMap.mpr ⟨u, hin, he⟩, h.sub u hin (he ▸ Option.some_ne_none e)⟩
  obtain ⟨hin, hsub⟩ := hmem hs he1
  obtain ⟨hin', hsub'⟩ := hmem ht he1'
  have hne : e1 ≠ e1' := by
    have hpairs := List.pairwise_iff_getElem.mp (List.pairwise_filterMap.mp h.nodup)
    obtain ⟨hi, rfl⟩ := List.getElem?_eq_some_iff.mp hs
    obtain ⟨hj, rfl⟩ := List.getElem?_eq_some_iff.mp ht
    rcases lt_or_gt_of_ne hij with hlt | hlt
    · exact hpairs i j hi hj hlt e1 he1 e1' he1'
    · exact (hpairs j i hj hi hlt e1' he1' e1 he1).symm
  obtain ⟨v, -, rfl⟩ := (h.taken e1).mp hin
  obtain ⟨u, -, rfl⟩ := (h.taken e1').mp hin'
  rw [hsub, hsub']
  rintro ⟨hv, hu⟩
  have hval := ((sliceOwns_iff v nonce).mp hv).symm.trans ((sliceOwns_iff u nonce).mp hu)
  exact hne (congrArg slice (Fin.ext hval))

/-- The allocator refuses when every slice is held. -/
theorem Seated.full {w : Seats β ν} (h : Seated w) :
    w.shared.e1.acquire.1 = none ↔ w.held.length = e1Space := by
  have huniv : (Finset.univ : Finset Seat).card = e1Space := (Fintype.card_fin _).trans seats_eq
  rw [← h.live.2]
  rcases w.shared.e1.acquire_cases with ⟨hnone, -, -, hall⟩ | ⟨v, hv, hsome, -, -⟩
  · exact iff_of_true hnone (hall ▸ huniv)
  · refine iff_of_false (by rw [hsome]; exact Option.some_ne_none _) fun hcard ↦ ?_
    rw [(Finset.card_eq_iff_eq_univ _).mp (hcard.trans (huniv.symm.trans Finset.card_univ))] at hv
    exact hv (Finset.mem_univ v)

/-- In every run of a server, whichever sessions open and end: sessions have no nonce in common, the
live slices are those held, a slice is refused only when all are held, a session that ends frees its
own slice and no other, and each nonce is in one slice, by the test made of submits. -/
theorem slices_apart [TokenBucket β] [Vardiff ν] (bans : BanTable) (diffs : DiffCache)
    (jobs : JobSource) (cfg : ServerConfig β) (events : List (Nat × SeatEvent β)) :
    let w := (new bans diffs jobs cfg : Seats β ν).run events
    (∀ (i j : Nat) (s t : Session ν β) (e1 e1' : E1), w.sessions[i]? = some s →
      w.sessions[j]? = some t → i ≠ j → s.e1 = some e1 → t.e1 = some e1' →
        ∀ nonce, ¬(sliceOwns e1 s.sub 0 nonce ∧ sliceOwns e1' t.sub 0 nonce)) ∧
    w.shared.e1.live = w.sessions.countP (·.e1.isSome) ∧
    (w.shared.e1.acquire.1 = none ↔ w.held.length = e1Space) ∧
    (∀ now i, ∀ t ∈ (w.step (now, .drop i)).sessions, ∀ e1, t.e1 = some e1 →
      t ∈ w.sessions ∧ ∃ v ∈ (w.step (now, .drop i)).shared.e1.taken, slice v = e1) ∧
    ∀ nonce, ∃! v : Seat, sliceOwns (slice v) 0 0 nonce := by
  intro w
  have h : Seated w := seated_run (seated_new bans diffs jobs cfg) events
  refine ⟨fun i j s t e1 e1' hs ht hij he1 he1' ↦ h.apart hs ht hij he1 he1', ?_, h.full,
    fun now i t ht e1 he1 ↦ ?_, existsUnique_slice⟩
  · exact h.live.1.trans (List.length_filterMap_eq_countP ..)
  · refine ⟨?_, ((h.step (now, .drop i)).taken e1).mp (List.mem_filterMap.mpr ⟨t, ht, he1⟩)⟩
    unfold Seats.step at ht
    dsimp only at ht
    split at ht
    case h_1 => exact ht
    case h_2 => exact List.mem_of_mem_eraseIdx ht

end Seats

end Plaine.Stratum

import Plaine.Lib.Checked
import Plaine.Lib.Runs
import Plaine.P2p.AddrMan
import Plaine.P2p.BodyTrack

/-!
# The progress clock

`ProgressClock` of `sync/stall.rs`, by which the sync peer is judged: it is held up while we are
suspended or busy verifying, and while the peer is judged, what we refused to read is counted so
that the verdict is ours and not the peer's.
-/

namespace Plaine.P2p

open Plaine.Lib Plaine.Consensus

/-! ## Constants -/

/-- `STALL_TIMEOUT_MS`. -/
def stallTimeoutMs : Nat := 30000

/-- `SYNC_RATE_WINDOW_MS`. -/
def syncRateWindowMs : Nat := 30000

/-- `SYNC_MIN_RATE_IBD_PER_10S`. -/
def syncMinRateIbdPer10s : Nat := 2000

/-- `SYNC_MIN_RATE_TRACKING_PER_10S`. -/
def syncMinRateTrackingPer10s : Nat := 0

/-- `SYNC_SUSPEND_MAX_MS`. -/
def syncSuspendMaxMs : Nat := 300000

/-! ## The clock -/

/-- `StallKind`. -/
inductive StallKind where
  | noProgress
  | belowRateFloor (per10s : Nat)
  | localSuspendExceeded (suspendedMs : Nat)
  | localReadRefused (refusals : Nat)
deriving DecidableEq

/-- `StallKind::charges_budget`. -/
def StallKind.chargesBudget : StallKind → Bool
  | noProgress | belowRateFloor _ => true
  | localSuspendExceeded _ | localReadRefused _ => false

/-- `ProgressClock`. -/
structure ProgressClock where
  lastProgress : Mono
  windowStart : Mono
  inWindow : Nat
  suspendedSince : Option Mono
  suspendedTotalMs : Nat
  verifyBound : Bool
  localRefusals : Nat
deriving DecidableEq

namespace ProgressClock

/-- `ProgressClock::new`. -/
def new (now : Mono) : ProgressClock where
  lastProgress := now
  windowStart := now
  inWindow := 0
  suspendedSince := none
  suspendedTotalMs := 0
  verifyBound := false
  localRefusals := 0

/-- The restart of the rate window, with the time of the last progress. -/
def restart (c : ProgressClock) (now : Mono) : ProgressClock :=
  { c with
    lastProgress := now
    windowStart := now
    inWindow := 0 }

/-- `ProgressClock::note_local_refusal`. -/
def noteLocalRefusal (c : ProgressClock) : ProgressClock :=
  { c with localRefusals := saturatingAdd u64Max c.localRefusals 1 }

/-- `ProgressClock::progress`. -/
def progress (c : ProgressClock) (n : Nat) (now : Mono) : ProgressClock :=
  if n = 0 then c
  else
    let c := { c with
      localRefusals := 0
      lastProgress := now }
    let c := if syncRateWindowMs < now - c.windowStart then c.restart now else c
    { c with inWindow := saturatingAdd u64Max c.inWindow n }

/-- `ProgressClock::set_verify_bound`. -/
def setVerifyBound (c : ProgressClock) (bound : Bool) (now : Mono) : ProgressClock :=
  if bound = c.verifyBound then c else { c.restart now with verifyBound := bound }

/-- `ProgressClock::suspend`. -/
def suspend (c : ProgressClock) (now : Mono) : ProgressClock :=
  if c.suspendedSince = none then { c with suspendedSince := some now } else c

/-- `ProgressClock::resume`. -/
def resume (c : ProgressClock) (now : Mono) : ProgressClock :=
  match c.suspendedSince with
  | some since =>
    { c.restart now with
      suspendedSince := none
      suspendedTotalMs := saturatingAdd u64Max c.suspendedTotalMs (now - since) }
  | none => c

/-- `ProgressClock::suspended_total`.  The times add up to no more than the clock has gone on. -/
def suspendedTotal (c : ProgressClock) (now : Mono) : Nat :=
  c.suspendedTotalMs + (c.suspendedSince.map (now - ·)).getD 0

/-- `ProgressClock::attribute`. -/
def attributed (c : ProgressClock) (k : StallKind) : StallKind :=
  if 0 < c.localRefusals then .localReadRefused c.localRefusals else k

/-- The rate that is asked of a peer. -/
def floor (ibd : Bool) : Nat := if ibd then syncMinRateIbdPer10s else syncMinRateTrackingPer10s

/-- `ProgressClock::verdict`. -/
def verdict (c : ProgressClock) (now : Mono) (ibd : Bool) : Option StallKind :=
  let susp := c.suspendedTotal now
  if syncSuspendMaxMs ≤ susp then some (.localSuspendExceeded susp)
  else if c.suspendedSince.isSome then none
  else if c.verifyBound then none
  else if expired now c.lastProgress stallTimeoutMs then some (c.attributed .noProgress)
  else if floor ibd = 0 then none
  else
    let elapsed := now - c.windowStart
    if elapsed < syncRateWindowMs then none
    else
      let per10s := min (c.inWindow * 10000) u64Max / max elapsed 1
      if per10s < floor ibd then some (c.attributed (.belowRateFloor per10s)) else none

end ProgressClock

/-! ## Runs -/

/-- The calls of a clock. -/
inductive ClockCall where
  | progress (n : Nat)
  | suspend
  | resume
  | setVerifyBound (bound : Bool)
  | noteLocalRefusal
deriving DecidableEq

/-- A call and its time. -/
structure ClockEvent where
  time : Mono
  call : ClockCall
deriving DecidableEq

/-- The progress that a call reports. -/
def ClockCall.amount : ClockCall → Nat
  | progress n => n
  | _ => 0

namespace ProgressClock

/-- A call at its time. -/
def apply (c : ProgressClock) (e : ClockEvent) : ProgressClock :=
  match e.call with
  | .progress n => c.progress n e.time
  | .suspend => c.suspend e.time
  | .resume => c.resume e.time
  | .setVerifyBound bound => c.setVerifyBound bound e.time
  | .noteLocalRefusal => c.noteLocalRefusal

/-- A run of calls. -/
def run (now₀ : Mono) (events : List ClockEvent) : ProgressClock :=
  events.foldl apply (new now₀)

/-- The clock is suspended or bound by verification. -/
def Held (c : ProgressClock) : Prop := c.suspendedSince.isSome ∨ c.verifyBound = true

/-- After a time the clock was neither suspended nor bound by verification: no state of the run that
was in force after it. -/
def FreeSince (now₀ : Mono) (events : List ClockEvent) (lo : Mono) : Prop :=
  ∀ before after, before ++ after = events → (∀ e ∈ after.head?, lo < e.time) →
    ¬(run now₀ before).Held

/-- After a time nothing was refused. -/
def UnrefusedSince (events : List ClockEvent) (lo : Mono) : Prop :=
  ∀ e ∈ events, lo < e.time → e.call ≠ .noteLocalRefusal

/-- After a time no progress was reported. -/
def UnprogressedSince (events : List ClockEvent) (lo : Mono) : Prop :=
  ∀ e ∈ events, lo < e.time → e.call.amount = 0

/-- The progress that was reported after a time. -/
def progressSince (events : List ClockEvent) (lo : Mono) : Nat :=
  ((events.filter (lo < ·.time)).map (·.call.amount)).sum

/-- Progress does not make the clock forget a refusal without a new window. -/
def KeepsExcuse (c : ProgressClock) (e : ClockEvent) : Prop :=
  0 < e.call.amount → c.localRefusals = 0 ∨ syncRateWindowMs < e.time - c.windowStart

variable {now₀ lo : Mono} {events : List ClockEvent} {e : ClockEvent} {c c' : ProgressClock}

theorem run_concat (now₀ : Mono) (events : List ClockEvent) (e : ClockEvent) :
    run now₀ (events ++ [e]) = (run now₀ events).apply e := by
  rw [run, List.foldl_append]
  rfl

/-- The states in force after a time, when a call has been made. -/
theorem freeSince_concat (hsorted : ∀ x ∈ events, x.time ≤ e.time) :
    FreeSince now₀ (events ++ [e]) lo ↔
      ¬(run now₀ (events ++ [e])).Held ∧ (lo < e.time → FreeSince now₀ events lo) := by
  constructor
  · intro h
    constructor
    · exact h _ [] (List.append_nil _) fun x hx ↦ absurd hx (by simp)
    · intro hlt before after heq hhead
      refine h before (after ++ [e]) (by rw [← List.append_assoc, heq]) fun x hx ↦ ?_
      cases after with
      | nil => exact Option.some.inj hx ▸ hlt
      | cons y after => exact hhead x hx
  · rintro ⟨hlast, hfree⟩ before after heq hhead
    rcases List.eq_nil_or_concat after with rfl | ⟨rest, x, rfl⟩
    · rw [List.append_nil] at heq
      rwa [heq]
    · rw [List.concat_eq_append, ← List.append_assoc] at heq
      obtain ⟨hbefore, hx⟩ := List.append_inj' heq rfl
      obtain rfl : x = e := (List.cons.inj hx).1
      cases rest with
      | nil => exact hfree (hhead x (by simp)) before [] hbefore fun y hy ↦ absurd hy (by simp)
      | cons y rest =>
        have hy : lo < y.time := hhead y (by simp)
        have hmem : y ∈ events := hbefore ▸ List.mem_append_right _ List.mem_cons_self
        refine hfree (hy.trans_le (hsorted y hmem)) before (y :: rest) hbefore fun z hz ↦ ?_
        exact Option.some.inj hz ▸ hy

theorem unrefusedSince_concat : UnrefusedSince (events ++ [e]) lo ↔
    UnrefusedSince events lo ∧ (lo < e.time → e.call ≠ .noteLocalRefusal) := by
  unfold UnrefusedSince
  rw [List.forall_mem_append, List.forall_mem_singleton]

theorem unprogressedSince_concat : UnprogressedSince (events ++ [e]) lo ↔
    UnprogressedSince events lo ∧ (lo < e.time → e.call.amount = 0) := by
  unfold UnprogressedSince
  rw [List.forall_mem_append, List.forall_mem_singleton]

theorem progressSince_concat : progressSince (events ++ [e]) lo =
    progressSince events lo + if lo < e.time then e.call.amount else 0 := by
  unfold progressSince
  rw [List.filter_append, List.map_append, List.sum_append]
  congr 1
  split
  case isTrue h => simp [h]
  case isFalse h => simp [h]

/-- Past the last call nothing has happened. -/
theorem progressSince_eq_zero (h : ∀ x ∈ events, x.time ≤ lo) : progressSince events lo = 0 := by
  unfold progressSince
  rw [List.filter_eq_nil_iff.mpr fun x hx ↦ by simpa using h x hx]
  rfl

theorem FreeSince.mono {lo' : Mono} (h : FreeSince now₀ events lo) (hle : lo ≤ lo') :
    FreeSince now₀ events lo' :=
  fun before after heq hhead ↦ h before after heq fun x hx ↦ hle.trans_lt (hhead x hx)

/-! ## What a call does -/

/-- A call begins a window. -/
structure Restarts (e : ClockEvent) (c : ProgressClock) : Prop where
  window : c.windowStart = e.time
  last : c.lastProgress = e.time

/-- A call leaves the window as it is. -/
structure Keeps (c : ProgressClock) (e : ClockEvent) (c' : ProgressClock) : Prop where
  window : c'.windowStart = c.windowStart
  last : c'.lastProgress = e.time ∨ c'.lastProgress = c.lastProgress ∧ e.call.amount = 0
  held : c.Held → c'.Held
  unrefused : c'.localRefusals = 0 → e.call ≠ .noteLocalRefusal
  excuse : c'.localRefusals = 0 → c.localRefusals = 0 ∨
    c'.lastProgress = e.time ∧ 0 < e.call.amount ∧ ¬syncRateWindowMs < e.time - c.windowStart
  counts : min (c.inWindow + e.call.amount) u64Max ≤ c'.inWindow

/-- A call that does nothing. -/
theorem Keeps.refl (hamount : e.call.amount = 0) (hcall : e.call ≠ .noteLocalRefusal) :
    Keeps c e c where
  window := rfl
  last := .inr ⟨rfl, hamount⟩
  held := id
  unrefused _ := hcall
  excuse := .inl
  counts := by
    rw [hamount]
    exact min_le_left _ _

theorem apply_progress {n : Nat} (hcall : e.call = .progress n) :
    Restarts e (c.apply e) ∨ Keeps c e (c.apply e) := by
  have happly : c.apply e = c.progress n e.time := by rw [apply, hcall]
  have hamount : e.call.amount = n := by rw [hcall]; rfl
  rw [happly, progress]
  split
  case isTrue hn =>
    exact .inr (.refl (hamount.trans hn) (by simp [hcall]))
  case isFalse hn =>
    by_cases hold : syncRateWindowMs < e.time - c.windowStart
    · exact .inl ⟨by simp [hold, restart], by simp [hold, restart]⟩
    · refine .inr ⟨by simp [hold], .inl (by simp [hold]), by simp [hold, Held], by simp [hcall],
        fun _ ↦ .inr ⟨by simp [hold], hamount ▸ Nat.pos_of_ne_zero hn, hold⟩, ?_⟩
      simp [hold, saturatingAdd, hamount]

theorem apply_suspend (hcall : e.call = .suspend) : Keeps c e (c.apply e) := by
  have happly : c.apply e = c.suspend e.time := by rw [apply, hcall]
  have hamount : e.call.amount = 0 := by rw [hcall]; rfl
  rw [happly, suspend]
  split
  case isTrue h =>
    exact ⟨rfl, .inr ⟨rfl, hamount⟩, fun _ ↦ .inl rfl, fun _ ↦ by simp [hcall], .inl,
      by rw [hamount]; exact min_le_left _ _⟩
  case isFalse h => exact .refl hamount (by simp [hcall])

theorem apply_resume (hcall : e.call = .resume) :
    Restarts e (c.apply e) ∨ Keeps c e (c.apply e) := by
  have happly : c.apply e = c.resume e.time := by rw [apply, hcall]
  rw [happly, resume]
  split
  case h_1 since h => exact .inl ⟨rfl, rfl⟩
  case h_2 h => exact .inr (.refl (by rw [hcall]; rfl) (by simp [hcall]))

theorem apply_setVerifyBound {bound : Bool} (hcall : e.call = .setVerifyBound bound) :
    Restarts e (c.apply e) ∨ Keeps c e (c.apply e) := by
  have happly : c.apply e = c.setVerifyBound bound e.time := by rw [apply, hcall]
  rw [happly, setVerifyBound]
  split
  case isTrue h => exact .inr (.refl (by rw [hcall]; rfl) (by simp [hcall]))
  case isFalse h => exact .inl ⟨rfl, rfl⟩

theorem apply_noteLocalRefusal (hcall : e.call = .noteLocalRefusal) : Keeps c e (c.apply e) := by
  have happly : c.apply e = c.noteLocalRefusal := by rw [apply, hcall]
  have hamount : e.call.amount = 0 := by rw [hcall]; rfl
  have hrefused : c.noteLocalRefusal.localRefusals ≠ 0 := by
    simp [noteLocalRefusal, saturatingAdd, u64Max]
  rw [happly]
  exact ⟨rfl, .inr ⟨rfl, hamount⟩, id, fun h ↦ absurd h hrefused, fun h ↦ absurd h hrefused,
    by rw [hamount]; exact min_le_left _ _⟩

/-- A call begins a window or leaves it as it is. -/
theorem apply_cases (c : ProgressClock) (e : ClockEvent) :
    Restarts e (c.apply e) ∨ Keeps c e (c.apply e) := by
  cases hcall : e.call with
  | progress n => exact apply_progress hcall
  | suspend => exact .inr (apply_suspend hcall)
  | resume => exact apply_resume hcall
  | setVerifyBound bound => exact apply_setVerifyBound hcall
  | noteLocalRefusal => exact .inr (apply_noteLocalRefusal hcall)

/-! ## What the fields tell of a run -/

/-- What the fields of a clock tell of the calls so far. -/
structure Tracks (now₀ : Mono) (events : List ClockEvent) (c : ProgressClock) : Prop where
  window_le : c.windowStart ≤ c.lastProgress
  free : ¬c.Held → FreeSince now₀ events c.windowStart
  quiet : UnprogressedSince events c.lastProgress
  unrefused : c.localRefusals = 0 → UnrefusedSince events c.lastProgress
  counted : min (progressSince events c.windowStart) u64Max ≤ c.inWindow

theorem tracks_new (now₀ : Mono) : Tracks now₀ [] (new now₀) where
  window_le := le_rfl
  free hheld before after heq _ := by
    obtain ⟨rfl, -⟩ := List.append_eq_nil_iff.mp heq
    exact hheld
  quiet _ hx := absurd hx List.not_mem_nil
  unrefused _ _ hx := absurd hx List.not_mem_nil
  counted := Nat.zero_le _

/-- Of a window that has just begun there is nothing to tell. -/
theorem Restarts.tracks (h : Restarts e (run now₀ (events ++ [e])))
    (hsorted : ∀ x ∈ events, x.time ≤ e.time) :
    Tracks now₀ (events ++ [e]) (run now₀ (events ++ [e])) := by
  have hpast : ∀ x ∈ events ++ [e], x.time ≤ e.time := by
    rw [List.forall_mem_append, List.forall_mem_singleton]
    exact ⟨hsorted, le_rfl⟩
  constructor
  case window_le => rw [h.window, h.last]
  case free =>
    intro hheld
    rw [h.window, freeSince_concat hsorted]
    exact ⟨hheld, fun hlt ↦ absurd hlt (lt_irrefl _)⟩
  case quiet =>
    intro x hx hlt
    rw [h.last] at hlt
    exact absurd (hpast x hx) hlt.not_ge
  case unrefused =>
    intro _ x hx hlt
    rw [h.last] at hlt
    exact absurd (hpast x hx) hlt.not_ge
  case counted =>
    rw [h.window, progressSince_eq_zero hpast]
    exact Nat.zero_le _

/-- A call that leaves the window as it is. -/
theorem Keeps.tracks (h : Keeps (run now₀ events) e (run now₀ (events ++ [e])))
    (hsorted : ∀ x ∈ events, x.time ≤ e.time) (hlast : (run now₀ events).lastProgress ≤ e.time)
    (htracks : Tracks now₀ events (run now₀ events)) :
    Tracks now₀ (events ++ [e]) (run now₀ (events ++ [e])) := by
  have hpast : ∀ x ∈ events ++ [e], x.time ≤ e.time := by
    rw [List.forall_mem_append, List.forall_mem_singleton]
    exact ⟨hsorted, le_rfl⟩
  constructor
  case window_le =>
    rw [h.window]
    rcases h.last with heq | ⟨heq, -⟩
    · exact htracks.window_le.trans (hlast.trans heq.ge)
    · exact htracks.window_le.trans heq.ge
  case free =>
    intro hheld
    rw [h.window, freeSince_concat hsorted]
    exact ⟨hheld, fun _ ↦ htracks.free fun hc ↦ hheld (h.held hc)⟩
  case quiet =>
    rcases h.last with heq | ⟨heq, hamount⟩
    · intro x hx hlt
      rw [heq] at hlt
      exact absurd (hpast x hx) hlt.not_ge
    · rw [heq, unprogressedSince_concat]
      exact ⟨htracks.quiet, fun _ ↦ hamount⟩
  case unrefused =>
    intro hzero
    have hfresh : (run now₀ (events ++ [e])).lastProgress = e.time →
        UnrefusedSince (events ++ [e]) (run now₀ (events ++ [e])).lastProgress := by
      intro heq x hx hlt
      rw [heq] at hlt
      exact absurd (hpast x hx) hlt.not_ge
    rcases h.last with heq | ⟨heq, hamount⟩
    · exact hfresh heq
    · rcases h.excuse hzero with hold | ⟨heq', -⟩
      · rw [heq, unrefusedSince_concat]
        exact ⟨htracks.unrefused hold, fun _ ↦ h.unrefused hzero⟩
      · exact hfresh heq'
  case counted =>
    rw [h.window, progressSince_concat]
    have hcounted := htracks.counted
    have hcounts := h.counts
    split <;> omega

/-- The last progress is not ahead of the clock. -/
theorem lastProgress_le {now : Mono} (h₀ : now₀ ≤ now) (hnow : ∀ x ∈ events, x.time ≤ now) :
    (run now₀ events).lastProgress ≤ now := by
  induction events using List.reverseRecOn with
  | nil => exact h₀
  | append_singleton events e ih =>
    rw [List.forall_mem_append, List.forall_mem_singleton] at hnow
    rw [run_concat]
    rcases apply_cases (run now₀ events) e with hrestart | hkeep
    · exact hrestart.last.le.trans hnow.2
    · rcases hkeep.last with heq | ⟨heq, -⟩
      · exact heq.le.trans hnow.2
      · exact heq.le.trans (ih hnow.1)

/-- Calls in the order of their times, none before the clock began. -/
structure Timely (now₀ : Mono) (events : List ClockEvent) : Prop where
  begun : ∀ e ∈ events, now₀ ≤ e.time
  sorted : events.Pairwise (·.time ≤ ·.time)

theorem timely_concat : Timely now₀ (events ++ [e]) ↔
    Timely now₀ events ∧ now₀ ≤ e.time ∧ ∀ x ∈ events, x.time ≤ e.time := by
  constructor
  · rintro ⟨hbegun, hsorted⟩
    rw [List.forall_mem_append, List.forall_mem_singleton] at hbegun
    rw [List.pairwise_append] at hsorted
    exact ⟨⟨hbegun.1, hsorted.1⟩, hbegun.2, fun x hx ↦ hsorted.2.2 x hx e List.mem_cons_self⟩
  · rintro ⟨⟨hbegun, hsorted⟩, hfirst, hlast⟩
    constructor
    · rw [List.forall_mem_append, List.forall_mem_singleton]
      exact ⟨hbegun, hfirst⟩
    · rw [List.pairwise_append]
      refine ⟨hsorted, List.pairwise_singleton _ _, fun x hx y hy ↦ ?_⟩
      rw [List.mem_singleton.mp hy]
      exact hlast x hx

/-- The fields tell of the calls in every run. -/
theorem run_tracks (h : Timely now₀ events) : Tracks now₀ events (run now₀ events) := by
  induction events using List.reverseRecOn with
  | nil => exact tracks_new now₀
  | append_singleton events e ih =>
    obtain ⟨htimely, hfirst, hsorted⟩ := timely_concat.mp h
    rcases apply_cases (run now₀ events) e with hrestart | hkeep
    · exact Restarts.tracks (run_concat now₀ events e ▸ hrestart) hsorted
    · exact Keeps.tracks (run_concat now₀ events e ▸ hkeep) hsorted
        (lastProgress_le hfirst hsorted) (ih htimely)

/-- Where progress forgets no refusal within a window, no refusal of the window is forgotten. -/
theorem run_unrefused (h : Timely now₀ events) (hruns : Runs apply KeepsExcuse (new now₀) events)
    (hzero : (run now₀ events).localRefusals = 0) :
    UnrefusedSince events (run now₀ events).windowStart := by
  induction events using List.reverseRecOn with
  | nil => exact fun x hx ↦ absurd hx List.not_mem_nil
  | append_singleton events e ih =>
    obtain ⟨htimely, hfirst, hsorted⟩ := timely_concat.mp h
    obtain ⟨hruns, hexcuse⟩ := runs_concat.mp hruns
    rw [run_concat] at hzero ⊢
    rcases apply_cases (run now₀ events) e with hrestart | hkeep
    · rw [hrestart.window, unrefusedSince_concat]
      refine ⟨fun x hx hlt ↦ absurd (hsorted x hx) hlt.not_ge, fun hlt ↦ absurd hlt (lt_irrefl _)⟩
    · rw [hkeep.window, unrefusedSince_concat]
      refine ⟨ih htimely hruns ?_, fun _ ↦ hkeep.unrefused hzero⟩
      rcases hkeep.excuse hzero with hold | ⟨-, hamount, hwindow⟩
      · exact hold
      · exact (hexcuse hamount).resolve_right hwindow

/-! ## Verdicts -/

theorem attributed_charges {k k' : StallKind} (h : c.attributed k = k')
    (hk : k'.chargesBudget = true) : c.localRefusals = 0 ∧ k = k' := by
  unfold attributed at h
  split at h
  case isTrue hrefused =>
    subst h
    exact absurd hk Bool.false_ne_true
  case isFalse hrefused => exact ⟨Nat.eq_zero_of_not_pos hrefused, h⟩

/-- The rate of the window that `ProgressClock::verdict` compares. -/
def rate (c : ProgressClock) (now : Mono) : Nat :=
  min (c.inWindow * 10000) u64Max / max (now - c.windowStart) 1

/-- A verdict that is charged to the peer. -/
theorem verdict_charges {now : Mono} {ibd : Bool} {k : StallKind}
    (h : c.verdict now ibd = some k) (hk : k.chargesBudget = true) :
    ¬c.Held ∧ c.localRefusals = 0 ∧
      (k = .noProgress ∧ stallTimeoutMs ≤ now - c.lastProgress ∨
        k = .belowRateFloor (c.rate now) ∧ syncRateWindowMs ≤ now - c.windowStart ∧
          c.rate now < floor ibd) := by
  unfold verdict at h
  dsimp only at h
  by_cases hlong : syncSuspendMaxMs ≤ c.suspendedTotal now
  · rw [if_pos hlong] at h
    cases h
    exact absurd hk Bool.false_ne_true
  rw [if_neg hlong] at h
  by_cases hsuspended : c.suspendedSince.isSome = true
  · rw [if_pos hsuspended] at h
    cases h
  rw [if_neg hsuspended] at h
  by_cases hbound : c.verifyBound = true
  · rw [if_pos hbound] at h
    cases h
  rw [if_neg hbound] at h
  refine ⟨fun hheld ↦ hheld.elim hsuspended hbound, ?_⟩
  by_cases hexpired : expired now c.lastProgress stallTimeoutMs = true
  · rw [if_pos hexpired] at h
    obtain ⟨hzero, rfl⟩ := attributed_charges (Option.some.inj h) hk
    exact ⟨hzero, .inl ⟨rfl, of_decide_eq_true hexpired⟩⟩
  rw [if_neg hexpired] at h
  by_cases hfloor : floor ibd = 0
  · rw [if_pos hfloor] at h
    cases h
  rw [if_neg hfloor] at h
  by_cases hearly : now - c.windowStart < syncRateWindowMs
  · rw [if_pos hearly] at h
    cases h
  rw [if_neg hearly] at h
  split at h
  case isTrue hslow =>
    obtain ⟨hzero, rfl⟩ := attributed_charges (Option.some.inj h) hk
    exact ⟨hzero, .inr ⟨rfl, Nat.le_of_not_lt hearly, hslow⟩⟩
  case isFalse => cases h

/-- A rate below the floor is the rate of the window's progress, on a clock that reads less than
what the product can hold. -/
theorem rate_lt {now : Mono} {ibd : Bool} (htracks : Tracks now₀ events c)
    (hlong : now * syncMinRateIbdPer10s ≤ u64Max) (hwindow : syncRateWindowMs ≤ now - c.windowStart)
    (hslow : c.rate now < floor ibd) :
    progressSince events c.windowStart * 10000 < floor ibd * (now - c.windowStart) := by
  have hpos : 0 < now - c.windowStart := Nat.lt_of_lt_of_le (by decide) hwindow
  have hfloor : floor ibd ≤ syncMinRateIbdPer10s := by cases ibd <;> decide
  unfold rate at hslow
  rw [Nat.max_eq_left hpos, Nat.div_lt_iff_lt_mul hpos] at hslow
  have hfits : floor ibd * (now - c.windowStart) ≤ u64Max :=
    calc floor ibd * (now - c.windowStart)
        ≤ syncMinRateIbdPer10s * now := Nat.mul_le_mul hfloor (Nat.sub_le _ _)
      _ = now * syncMinRateIbdPer10s := Nat.mul_comm _ _
      _ ≤ u64Max := hlong
  have hcounted : c.inWindow * 10000 < floor ibd * (now - c.windowStart) :=
    (min_lt_iff.mp hslow).resolve_right hfits.not_gt
  have hsum : progressSince events c.windowStart ≤ c.inWindow := by
    rcases min_le_iff.mp htracks.counted with h | h
    · exact h
    · -- a window that counts all it can has no rate below the floor
      have := Nat.mul_le_mul_right 10000 h
      omega
  exact (Nat.mul_le_mul_right 10000 hsum).trans_lt hcounted

/-- A verdict of no progress comes after a pause of the peer's own in every run.  A verdict below
the rate's floor comes after a slow window without an excuse, where progress made the clock forget
no refusal of the window it was made in. -/
theorem verdict_sound (now₀ now : Mono) (events : List ClockEvent) (ibd : Bool)
    (htimely : Timely now₀ events) :
    ((run now₀ events).verdict now ibd = some .noProgress →
      ∃ lo, lo + stallTimeoutMs = now ∧ FreeSince now₀ events lo ∧ UnrefusedSince events lo ∧
        UnprogressedSince events lo) ∧
    (Runs apply KeepsExcuse (new now₀) events → now * syncMinRateIbdPer10s ≤ u64Max → ∀ per10s,
      (run now₀ events).verdict now ibd = some (.belowRateFloor per10s) →
      ∃ lo, lo + syncRateWindowMs ≤ now ∧ FreeSince now₀ events lo ∧ UnrefusedSince events lo ∧
        progressSince events lo * 10000 < floor ibd * (now - lo)) := by
  have htracks := run_tracks htimely
  constructor
  · intro hverdict
    obtain ⟨hheld, hzero, ⟨-, hstalled⟩ | ⟨heq, -⟩⟩ := verdict_charges hverdict rfl
    · have hpos : 0 < now - (run now₀ events).lastProgress :=
        Nat.lt_of_lt_of_le (by decide) hstalled
      have hle : (run now₀ events).lastProgress ≤ now - stallTimeoutMs :=
        Nat.le_sub_of_add_le' (Nat.add_le_of_le_sub (Nat.lt_of_sub_pos hpos).le hstalled)
      have hback : stallTimeoutMs ≤ now := hstalled.trans (Nat.sub_le _ _)
      refine ⟨now - stallTimeoutMs, Nat.sub_add_cancel hback,
        (htracks.free hheld).mono (htracks.window_le.trans hle), ?_, ?_⟩
      · exact fun x hx hlt ↦ htracks.unrefused hzero x hx (hle.trans_lt hlt)
      · exact fun x hx hlt ↦ htracks.quiet x hx (hle.trans_lt hlt)
    · cases heq
  · intro hruns hlong per10s hverdict
    obtain ⟨hheld, hzero, ⟨heq, -⟩ | ⟨-, hwindow, hslow⟩⟩ := verdict_charges hverdict rfl
    · cases heq
    · refine ⟨(run now₀ events).windowStart, ?_, htracks.free hheld,
        run_unrefused htimely hruns hzero, rate_lt htracks hlong hwindow hslow⟩
      have : 0 < syncRateWindowMs := by decide
      omega

/-- A slow second after the clock began, and half a minute of nothing. -/
def slowCalls : List ClockEvent := [⟨1000, .progress 1⟩]

theorem slowCalls_timely : Timely 0 slowCalls :=
  ⟨by simp [slowCalls], List.pairwise_singleton _ _⟩

theorem verdict_sound_slow :
    (∃ lo, lo + stallTimeoutMs = 40000 ∧ FreeSince 0 slowCalls lo ∧ UnrefusedSince slowCalls lo ∧
      UnprogressedSince slowCalls lo) ∧
    ∃ lo, lo + syncRateWindowMs ≤ 30500 ∧ FreeSince 0 slowCalls lo ∧ UnrefusedSince slowCalls lo ∧
      progressSince slowCalls lo * 10000 < floor true * (30500 - lo) := by
  constructor
  · exact (verdict_sound 0 40000 slowCalls true slowCalls_timely).1 (by decide)
  · refine (verdict_sound 0 30500 slowCalls true slowCalls_timely).2 ?_ (by decide) 0 (by decide)
    exact runs_concat.mpr ⟨runs_nil, fun _ ↦ .inl rfl⟩

/-- A refusal of ours in the window, which the progress after it makes the clock forget. -/
def excusedCalls : List ClockEvent := [⟨1000, .noteLocalRefusal⟩, ⟨2000, .progress 1⟩]

/-- The peer is charged for the window in which we refused to read. -/
theorem refusal_forgotten :
    Timely 0 excusedCalls ∧ (run 0 excusedCalls).verdict 30000 true = some (.belowRateFloor 0) ∧
      ¬∃ lo, lo + syncRateWindowMs ≤ 30000 ∧ FreeSince 0 excusedCalls lo ∧
        UnrefusedSince excusedCalls lo ∧
        progressSince excusedCalls lo * 10000 < floor true * (30000 - lo) := by
  refine ⟨⟨by simp [excusedCalls], by simp [excusedCalls]⟩, by decide, ?_⟩
  rintro ⟨lo, hlo, -, hunrefused, -⟩
  have hzero : lo = 0 := by
    simp only [syncRateWindowMs] at hlo
    omega
  exact hunrefused ⟨1000, .noteLocalRefusal⟩ List.mem_cons_self (by simp [hzero]) rfl

end ProgressClock

end Plaine.P2p

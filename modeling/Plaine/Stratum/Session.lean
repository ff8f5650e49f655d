import Plaine.Stratum.Abuse
import Plaine.Stratum.Job

/-!
# Sessions

`stratum/src/session.rs`, and `stratum/src/verify.rs`: what a share is checked for, and the admission
of one share of a session at a time, with one more to wait.  A session is a state machine: it is given
the lines of a miner, ticks, new templates and the verdicts of the verifier, and leaves replies to be
written and actions to be taken.  Lines come as `proto::parse_verb` reads them, and what is written is
kept as a list of replies.

The adjustment of the difficulty counts in floating point, so that is a class.
-/

namespace Plaine.Stratum

open Plaine.Lib Plaine.Consensus

/-! ## Shares at the verifier -/

/-- `SealOutcome`. -/
inductive SealOutcome where
  | accepted
  | obsolete
  | rejected
deriving DecidableEq

/-- `ShareWork`. -/
structure ShareWork where
  conn : Nat
  requestId : Option Nat
  seq : Nat
  header : Arr 132
  shareTarget : Target
  servedDifficulty : Nat
  eligibleForBlock : Bool
  template : Template
deriving DecidableEq

/-- `Verdict`. -/
inductive Verdict where
  | accepted (block : Option SealOutcome)
  | lowDifficulty
  | internalError
deriving DecidableEq

/-- `VerifyResult`. -/
structure VerifyResult where
  conn : Nat
  requestId : Option Nat
  seq : Nat
  verdict : Verdict
  servedDifficulty : Nat
deriving DecidableEq

/-- `verify_one`, where a digest is a number and the body of the template seals as it may. -/
def verifyOne (digest : Arr 132 → Nat) (sealed : SealOutcome) (w : ShareWork) : Verdict :=
  if ¬w.shareTarget.accepts (digest w.header) then .lowDifficulty
  else
    .accepted (if w.eligibleForBlock ∧ w.template.networkTarget.accepts (digest w.header) then
      some sealed else none)

/-- `verify_one_isolated`: a panic is an internal error. -/
def verifyOneIsolated (digest : Arr 132 → Nat) (panics : Bool) (sealed : SealOutcome)
    (w : ShareWork) : Verdict :=
  if panics then .internalError else verifyOne digest sealed w

/-- The result a thread of the verifier sends. -/
def ShareWork.result (w : ShareWork) (verdict : Verdict) : VerifyResult :=
  ⟨w.conn, w.requestId, w.seq, verdict, w.servedDifficulty⟩

/-- What is accepted meets the target of its share. -/
theorem accepts_of_accepted {digest : Arr 132 → Nat} {panics : Bool} {sealed : SealOutcome}
    {w : ShareWork} {block : Option SealOutcome}
    (h : verifyOneIsolated digest panics sealed w = .accepted block) :
    w.shareTarget.accepts (digest w.header) = true := by
  unfold verifyOneIsolated verifyOne at h
  split at h
  case isTrue => cases h
  case isFalse =>
    split at h
    case isTrue => cases h
    case isFalse haccepts => exact of_not_not haccepts

/-! ## Admission -/

/-- `Admission`. -/
structure Admission where
  inFlight : Bool
  queued : Bool
deriving DecidableEq

/-- `Admitted`. -/
inductive Admitted where
  | now
  | queue
  | busy
deriving DecidableEq

namespace Admission

/-- `Admission::default`. -/
def new : Admission := ⟨false, false⟩

/-- `Admission::request`. -/
def request (a : Admission) : Admitted × Admission :=
  if ¬a.inFlight then (.now, { a with inFlight := true })
  else if ¬a.queued then (.queue, { a with queued := true })
  else (.busy, a)

/-- `Admission::complete`. -/
def complete (a : Admission) : Bool × Admission :=
  if a.queued then (true, { a with inFlight := true, queued := false })
  else (false, { a with inFlight := false })

end Admission

/-! ## Difficulty -/

/-- `TEMPLATE_REFRESH`, in milliseconds. -/
def templateRefresh : Nat := 15000

/-- `DIFF_CACHE_MIN_SHARES`. -/
def diffCacheMinShares : Nat := 4

/-- `Vardiff`, at a configured setpoint and cadence. -/
class Vardiff (ν : Type) where
  start : (start min max nowMs : Nat) → ν
  current : ν → Nat
  isPinned : ν → Bool
  pin : ν → Nat → ν
  setBounds : ν → Nat → Nat → ν
  onShare : ν → (difficulty nowMs : Nat) → Option Nat × ν
  onTick : ν → (nowMs : Nat) → Option Nat × ν

/-! ## Messages -/

/-- `ErrorCode`. -/
inductive ErrorCode where
  | unknownJob
  | staleShare
  | duplicateShare
  | lowDifficulty
  | unauthorized
  | nonceOutOfSlice
  | throttled
  | banned
  | serverBusy
  | unknownMethod
  | badMessage
  | sliceRevoked
deriving DecidableEq

/-- `ErrorCode::penalty`. -/
def ErrorCode.penalty : ErrorCode → Nat × Severity
  | .unknownJob => (2, .soft)
  | .staleShare => (1, .soft)
  | .duplicateShare => (25, .hard)
  | .lowDifficulty => (10, .hard)
  | .unauthorized => (25, .hard)
  | .nonceOutOfSlice => (50, .hard)
  | .throttled => (0, .hard)
  | .banned => (0, .hard)
  | .serverBusy => (0, .hard)
  | .unknownMethod => (5, .soft)
  | .badMessage => (50, .hard)
  | .sliceRevoked => (0, .hard)

/-- What of a `Login` the session uses. -/
structure Login where
  addressBytes : Address
  pinnedDifficulty : Option Nat
deriving DecidableEq

/-- `Verb` and `Request`.  A login comes as `parse_login` reads it. -/
inductive Verb where
  | keepAlive (id : Option Nat)
  | subscribe (id : Option Nat)
  | authorize (id : Option Nat) (login : Option Login)
  | submit (id : Option Nat) (jobId : UInt32) (nonce : UInt64)
  | unknown (id : Option Nat)
deriving DecidableEq

/-- A line that `proto` writes.  A notice is an error that answers no request: `write_error` with no
request number, from a place that has none. -/
inductive Reply where
  | okTrue (id : Option Nat)
  | error (id : Option Nat) (code : ErrorCode)
  | subscribeResult (id : Option Nat) (e1 : E1) (sub : UInt32) (subBits : Nat)
  | notice (code : ErrorCode)
  | setTarget (target : Target)
  | notify (jobId : UInt32) (height : Nat) (pre : Arr 124) (clean : Bool)
deriving DecidableEq

/-- `CloseReason`. -/
inductive CloseReason where
  | garbageBeforeAuth
  | badMessageAfterAuth
  | authTimeout
  | idle
  | banned
  | slowClient
  | lineFlood
  | sliceRevoked
deriving DecidableEq

/-- `Action`. -/
inductive Action where
  | verify (work : ShareWork)
  | close (reason : CloseReason)
deriving DecidableEq

/-! ## States -/

/-- `ServerConfig`, what of it sessions use: the buckets as `build_bucket` makes them, and whether
what waits to be written is over `out_buf_cap`. -/
structure ServerConfig (β : Type) where
  authDeadlineMs : Nat
  idleEvictMs : Nat
  overCap : List Reply → Bool
  submits : Nat → β
  lines : Nat → β
  diff : DiffPolicy
  vardiffEnabled : Bool
  vardiffFixedDiff : Nat
  vardiffMaxDiff : Nat

namespace ServerConfig

variable {β : Type} (cfg : ServerConfig β)

/-- `vardiff_fixed`. -/
def vardiffFixed : Nat :=
  if 0 < cfg.vardiffFixedDiff then cfg.vardiffFixedDiff else cfg.diff.startDiff

/-- `vardiff_ceiling`. -/
def vardiffCeiling (network : Nat) : Nat :=
  if 0 < cfg.vardiffMaxDiff then min network cfg.vardiffMaxDiff else network

end ServerConfig

/-- `Shared`, as it stands at some moment. -/
structure Shared (σ β : Type) where
  bans : BanTable
  e1 : σ
  diffs : DiffCache
  jobs : JobSource
  cfg : ServerConfig β

/-- `Phase`. -/
inductive Phase where
  | fresh
  | subscribed
  | authorized
deriving DecidableEq

/-- `Session`. -/
structure Session (ν β : Type) where
  id : Nat
  ip : IpAddr
  outbuf : List Reply
  actions : List Action
  phase : Phase
  e1 : Option E1
  sub : UInt32
  login : Option Login
  jobs : JobSlots
  vardiff : ν
  admission : Admission
  submits : β
  lines : β
  pending : Option ShareWork
  seq : Nat
  stormFloor : Option Nat
  sharesAtCurrentDiff : Nat
  acceptedAtMs : Nat
  lastPushMs : Nat
  lastGeneration : Nat
  lastCleanGen : Nat
  lastTargetSent : Option Target
  firstJobMs : Option Nat
  lastAcceptedShareMs : Nat
  throttleWindows : Nat
  throttleWindowStartMs : Nat
  throttledInWindow : Bool
  acceptedShares : Nat
  acceptedDifficulty : Nat

namespace Session

variable {σ β ν : Type} [SliceSource σ] [TokenBucket β] [Vardiff ν]

/-- A difficulty that starts at one value and is fixed at another when it is not adjusted. -/
def startVardiff (cfg : ServerConfig β) (start min max nowMs : Nat) : ν :=
  let vardiff := Vardiff.start start min max nowMs
  if ¬cfg.vardiffEnabled then Vardiff.pin vardiff cfg.vardiffFixed else vardiff

/-- `Session::new`. -/
def new (id : Nat) (ip : IpAddr) (nowMs : Nat) (sh : Shared σ β) : Session ν β where
  id
  ip
  outbuf := []
  actions := []
  phase := .fresh
  e1 := none
  sub := 0
  login := none
  jobs := .new
  vardiff := startVardiff sh.cfg sh.cfg.diff.startDiff sh.cfg.diff.minDiff
    (sh.cfg.vardiffCeiling u64Max) nowMs
  admission := .new
  submits := sh.cfg.submits nowMs
  lines := sh.cfg.lines nowMs
  pending := none
  seq := 0
  stormFloor := none
  sharesAtCurrentDiff := 0
  acceptedAtMs := nowMs
  lastPushMs := 0
  lastGeneration := 0
  lastCleanGen := u64Max
  lastTargetSent := none
  firstJobMs := none
  lastAcceptedShareMs := nowMs
  throttleWindows := 0
  throttleWindowStartMs := nowMs
  throttledInWindow := false
  acceptedShares := 0
  acceptedDifficulty := 0

variable (s : Session ν β) (sh : Shared σ β)

/-- Leave a line to be written. -/
def write (r : Reply) : Session ν β := { s with outbuf := s.outbuf ++ [r] }

/-- `Session::close`. -/
def close (reason : CloseReason) : Session ν β :=
  { s with actions := s.actions ++ [.close reason] }

/-- `Session::dispatch`. -/
def dispatch (work : ShareWork) : Session ν β :=
  { s with actions := s.actions ++ [.verify work] }

/-- `Session::score`. -/
def score (points : Nat) (severity : Severity) (nowMs : Nat) : Session ν β × Shared σ β :=
  let (ban, bans) := sh.bans.penalise s.ip points severity nowMs
  (if ban.isSome then (s.write (.notice .banned)).close .banned else s, { sh with bans })

/-- `Session::reject_and_score`. -/
def rejectAndScore (id : Option Nat) (e : ErrorCode) (nowMs : Nat) : Session ν β × Shared σ β :=
  let s := s.write (.error id e)
  if 0 < e.penalty.1 then s.score sh e.penalty.1 e.penalty.2 nowMs else (s, sh)

/-- `Session::vardiff_min`. -/
def vardiffMin : Nat := max (s.stormFloor.getD sh.cfg.diff.minDiff) sh.cfg.diff.minDiff

/-- `Session::network_difficulty`. -/
def networkDifficulty : Nat :=
  match sh.jobs.current (s.login.elim (Arr.ofNat 20 0) (·.addressBytes)) with
  | some t => t.networkTarget.toDifficulty
  | none => u64Max

/-- `Session::push_job`. -/
def pushJob (nowMs : Nat) (forceTarget : Bool) : Session ν β :=
  match s.login with
  | none => s
  | some login =>
    match sh.jobs.current login.addressBytes with
    | none => s
    | some template =>
      let max := sh.cfg.vardiffCeiling template.networkTarget.toDifficulty
      let s := { s with vardiff := Vardiff.setBounds s.vardiff (s.vardiffMin sh) max }
      let diff := Vardiff.current s.vardiff
      let target := Target.fromDifficulty diff
      let s := if forceTarget ∨ s.lastTargetSent ≠ some target then
        { s.write (.setTarget target) with lastTargetSent := some target } else s
      let gen := sh.jobs.generation
      let clean : Bool := template.newTip ∧ s.lastCleanGen ≠ gen
      let (jobId, jobs) := s.jobs.push template target diff clean nowMs
      { s.write (.notify jobId template.height template.pre clean) with
        jobs
        lastCleanGen := if clean then gen else s.lastCleanGen
        lastPushMs := nowMs
        lastGeneration := gen
        firstJobMs := some (s.firstJobMs.getD nowMs) }

/-- `Session::retarget`. -/
def retarget (nowMs : Nat) : Session ν β :=
  { s with sharesAtCurrentDiff := 0 }.pushJob sh nowMs true

/-- `Session::remember_difficulty`. -/
def rememberDifficulty (diff nowMs : Nat) : Shared σ β :=
  match s.login with
  | some l => { sh with diffs := sh.diffs.record l.addressBytes diff nowMs }
  | none => sh

/-- `Session::revoke`, with the line that tells of it. -/
def revoke (r : Reply) : Session ν β := (s.write r).close .sliceRevoked

/-- `Session::check_slice`. -/
def checkSlice : Bool × Session ν β :=
  match s.e1 with
  | none => (true, s)
  | some e1 =>
    if SliceSource.holds sh.e1 e1 s.sub then (true, s)
    else (false, s.revoke (.notice .sliceRevoked))

/-! ## Lines -/

/-- `Session::charge_line`. -/
def chargeLine (nowMs : Nat) : Bool × Session ν β × Shared σ β :=
  let (granted, lines) := TokenBucket.take s.lines nowMs
  let s := { s with lines }
  if granted then (true, s, sh)
  else
    let (s, sh) := s.score sh 50 .hard nowMs
    (false, s.close .lineFlood, sh)

/-- `Session::on_subscribe`. -/
def onSubscribe (id : Option Nat) (nowMs : Nat) : Session ν β × Shared σ β :=
  if s.phase ≠ .fresh then s.rejectAndScore sh id .unknownMethod nowMs
  else
    match SliceSource.acquire sh.e1 with
    | (none, e1) => s.rejectAndScore { sh with e1 } id .serverBusy nowMs
    | (some (slice, sub), e1) =>
      ({ s with e1 := some slice, sub, phase := .subscribed }.write
        (.subscribeResult id slice sub (SliceSource.subBits e1)), { sh with e1 })

/-- `Session::on_authorize`. -/
def onAuthorize (id : Option Nat) (login : Option Login) (nowMs : Nat) :
    Session ν β × Shared σ β :=
  if s.phase ≠ .subscribed then s.rejectAndScore sh id .unauthorized nowMs
  else
    match login with
    | none => s.rejectAndScore sh id .unauthorized nowMs
    | some login =>
      let ((start, floor), diffs) := sh.diffs.startFor login.addressBytes nowMs
      let (floor', diffs) := diffs.noteLogin login.addressBytes start nowMs
      let sh := { sh with diffs }
      let networkDiff := s.networkDifficulty sh
      let s := { s with stormFloor := (floor.or floor').map (max · sh.cfg.diff.minDiff) }
      let vardiff := startVardiff sh.cfg start (s.vardiffMin sh)
        (sh.cfg.vardiffCeiling networkDiff) nowMs
      let vardiff := match login.pinnedDifficulty with
        | some pin => Vardiff.pin vardiff pin
        | none => vardiff
      let s := { s with vardiff, login := some login, phase := .authorized }.write (.okTrue id)
      (s.pushJob sh nowMs true, sh)

/-- The part of `Session::on_submit` before the share is admitted: a share that passes makes a work
for the verifier. -/
def vetSubmit (id : Option Nat) (jobId : UInt32) (nonce : UInt64) (nowMs : Nat) :
    Option ShareWork × Session ν β × Shared σ β :=
  if s.phase ≠ .authorized then (none, s.rejectAndScore sh id .unauthorized nowMs)
  else
    match s.jobs.lookup jobId nowMs with
    | .stale => (none, s.rejectAndScore sh id .staleShare nowMs)
    | .unknown => (none, s.rejectAndScore sh id .unknownJob nowMs)
    | .live i => vetNonce s sh id (.live i) true nonce nowMs
    | .staleCredited => vetNonce s sh id .previous false nonce nowMs
where
  /-- The checks of the nonce. -/
  vetNonce (s : Session ν β) (sh : Shared σ β) (id : Option Nat) (slot : JobRef)
      (eligibleForBlock : Bool) (nonce : UInt64) (nowMs : Nat) :
      Option ShareWork × Session ν β × Shared σ β :=
    match s.e1 with
    | none => (none, s.rejectAndScore sh id .unauthorized nowMs)
    | some e1 =>
      if ¬sliceOwns e1 s.sub (SliceSource.subBits sh.e1) nonce then
        (none, s.rejectAndScore sh id .nonceOutOfSlice nowMs)
      else if ¬SliceSource.holds sh.e1 e1 s.sub then
        (none, s.revoke (.error id .sliceRevoked), sh)
      else
        match TokenBucket.take s.submits nowMs with
        | (false, submits) =>
          (none, { s with submits, throttledInWindow := true }.write (.error id .throttled), sh)
        | (true, submits) =>
          let s := { s with submits }
          match s.jobs.checkDuplicate slot nonce with
          | (true, jobs) => (none, { s with jobs }.rejectAndScore sh id .duplicateShare nowMs)
          | (false, jobs) =>
            let s := { s with jobs }
            match s.jobs.get slot with
            | none => (none, s, sh)
            | some job =>
              (some {
                conn := s.id
                requestId := id
                seq := s.seq + 1
                header := assembleHeader job.template.pre nonce
                shareTarget := job.servedTarget
                servedDifficulty := job.servedDifficulty
                eligibleForBlock
                template := job.template }, { s with seq := s.seq + 1 }, sh)

/-- The end of `Session::on_submit`: the share goes to the verifier, waits, or is refused. -/
def admitShare (work : ShareWork) : Session ν β :=
  let (admitted, admission) := s.admission.request
  let s := { s with admission }
  match admitted with
  | .now => s.dispatch work
  | .queue => { s with pending := some work }
  | .busy => s.write (.error work.requestId .serverBusy)

/-- `Session::on_submit`. -/
def onSubmit (id : Option Nat) (jobId : UInt32) (nonce : UInt64) (nowMs : Nat) :
    Session ν β × Shared σ β :=
  match s.vetSubmit sh id jobId nonce nowMs with
  | (none, s, sh) => (s, sh)
  | (some work, s, sh) => (s.admitShare work, sh)

/-- `Session::on_line`, with the line as it was parsed. -/
def onLine (line : Option Verb) (nowMs : Nat) : Session ν β × Shared σ β :=
  match s.chargeLine sh nowMs with
  | (false, s, sh) => (s, sh)
  | (true, s, sh) =>
    match line with
    | none =>
      if s.phase = .authorized then
        let (s, sh) := s.rejectAndScore sh none .badMessage nowMs
        (s.close .badMessageAfterAuth, sh)
      else (s.close .garbageBeforeAuth, { sh with bans := sh.bans.throttle s.ip nowMs })
    | some (.keepAlive id) => (s.write (.okTrue id), sh)
    | some (.subscribe id) => s.onSubscribe sh id nowMs
    | some (.authorize id login) => s.onAuthorize sh id login nowMs
    | some (.submit id jobId nonce) => s.onSubmit sh id jobId nonce nowMs
    | some (.unknown id) => s.rejectAndScore sh id .unknownMethod nowMs

/-! ## Verdicts -/

/-- The share that waits goes to the verifier when the one before it is done. -/
def proceed : Session ν β :=
  let (next, admission) := s.admission.complete
  let s := { s with admission }
  if next then
    match s.pending with
    | some work => { s with pending := none }.dispatch work
    | none => s
  else s

/-- The credit for an accepted share. -/
def credit (r : VerifyResult) (nowMs : Nat) : Session ν β × Shared σ β :=
  let earned : Bool :=
    r.servedDifficulty = Vardiff.current s.vardiff ∧ Vardiff.isPinned s.vardiff = false
  let n := s.sharesAtCurrentDiff + 1
  let sh := if earned ∧ (n = diffCacheMinShares ∨ diffCacheMinShares < n ∧ n % 64 = 0) then
    s.rememberDifficulty sh r.servedDifficulty nowMs else sh
  let (retargets, vardiff) := Vardiff.onShare s.vardiff r.servedDifficulty nowMs
  let s := { s with
    acceptedShares := s.acceptedShares + 1
    acceptedDifficulty := s.acceptedDifficulty + r.servedDifficulty
    lastAcceptedShareMs := nowMs
    sharesAtCurrentDiff := if earned then n else s.sharesAtCurrentDiff
    vardiff }.write (.okTrue r.requestId)
  (if retargets.isSome then s.retarget sh nowMs else s, sh)

/-- `Session::on_verify_result`. -/
def onVerifyResult (r : VerifyResult) (nowMs : Nat) : Session ν β × Shared σ β :=
  if r.conn ≠ s.id ∨ s.seq < r.seq then (s, sh)
  else
    let (s, sh) := match r.verdict with
      | .accepted _ => s.credit sh r nowMs
      | .lowDifficulty => s.rejectAndScore sh r.requestId .lowDifficulty nowMs
      | .internalError => (s.write (.error r.requestId .serverBusy), sh)
    (s.proceed, sh)

/-- `Session::on_verify_refused`. -/
def onVerifyRefused (requestId : Option Nat) : Session ν β :=
  (s.write (.error requestId .serverBusy)).proceed

/-! ## Ticks -/

/-- The difficulty, adjusted by the clock. -/
def adjust (nowMs : Nat) : Session ν β :=
  let (retargets, vardiff) := Vardiff.onTick s.vardiff nowMs
  let s := { s with vardiff }
  if retargets.isSome then s.retarget sh nowMs else s

/-- A job, when there is a new generation or the last job is old. -/
def refresh (nowMs : Nat) : Session ν β :=
  if sh.jobs.generation ≠ s.lastGeneration ∨ templateRefresh ≤ nowMs - s.lastPushMs then
    s.pushJob sh nowMs false
  else s

/-- Windows with throttled submits in a row are counted, and scored from the third on. -/
def countThrottles (nowMs : Nat) : Session ν β × Shared σ β :=
  if s.throttledInWindow then
    let s := { s with throttleWindows := s.throttleWindows + 1 }
    if 3 ≤ s.throttleWindows then s.score sh 5 .hard nowMs else (s, sh)
  else ({ s with throttleWindows := 0 }, sh)

/-- The end of a window of throttled submits. -/
def endThrottleWindow (nowMs : Nat) : Session ν β × Shared σ β :=
  if 10000 ≤ nowMs - s.throttleWindowStartMs then
    let (s, sh) := s.countThrottles sh nowMs
    ({ s with throttledInWindow := false, throttleWindowStartMs := nowMs }, sh)
  else (s, sh)

/-- Whether a session with work has been idle for too long. -/
def isIdle (nowMs : Nat) : Bool :=
  sh.cfg.idleEvictMs ≠ 0 ∧ s.firstJobMs.any fun first ↦
    sh.cfg.idleEvictMs < nowMs - max s.lastAcceptedShareMs first

/-- `Session::on_tick`. -/
def onTick (nowMs : Nat) : Session ν β × Shared σ β :=
  if s.phase ≠ .authorized ∧ sh.cfg.authDeadlineMs ≠ 0 ∧
      sh.cfg.authDeadlineMs < nowMs - s.acceptedAtMs then (s.close .authTimeout, sh)
  else
    match s.checkSlice sh with
    | (false, s) => (s, sh)
    | (true, s) =>
      if s.phase ≠ .authorized then (s, sh)
      else
        let s := (s.adjust sh nowMs).refresh sh nowMs
        if s.isIdle sh nowMs then (s.close .idle, sh)
        else
          let (s, sh) := s.endThrottleWindow sh nowMs
          (if sh.cfg.overCap s.outbuf then s.close .slowClient else s, sh)

/-- `Session::release`. -/
def release (nowMs : Nat) : Session ν β × Shared σ β :=
  let (s, sh) := match s.e1 with
    | some e1 => ({ s with e1 := none },
        { sh with e1 := SliceSource.release sh.e1 e1 s.sub s.firstJobMs.isSome })
    | none => (s, sh)
  (s, { sh with bans := sh.bans.release s.ip nowMs })

end Session

end Plaine.Stratum

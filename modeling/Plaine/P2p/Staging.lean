import Plaine.Consensus.Rules
import Plaine.Lib.Table
import Plaine.P2p.Rng

/-!
# Staged headers

`sync/staging.rs`: headers that wait for their proof of work.  A header is committed when it passed,
or by the anchor: at its height by its hash, and below it with one header in so many checked.
-/

namespace Plaine.P2p

open Plaine.Lib Plaine.Consensus

/-- `PRESYNC_LEAD_HEADERS`. -/
def presyncLeadHeaders : Nat := 65536

/-- `FF_SAMPLE_RATE`. -/
def ffSampleRate : Nat := 128

/-- `PeerId`. -/
abbrev PeerId : Type := Nat

/-- `HeaderRec`. -/
structure HeaderRec where
  height : Nat
  hash : Hash32
  prevHash : Hash32
  time : Nat
  bits : UInt32
  target : Hash32
  raw : RawHeader
deriving DecidableEq

/-- `Staged`. -/
structure Staged where
  record : HeaderRec
  from_ : PeerId
  verified : Bool
  fastForwarded : Bool
deriving DecidableEq

/-- `VerifyOutcome`. -/
inductive VerifyOutcome where
  | idle
  | verified (record : HeaderRec) (from_ : PeerId)
  | fastForwarded (record : HeaderRec) (from_ : PeerId)
  | badPow (record : HeaderRec) (from_ : PeerId)
  | anchorMismatch (height : Nat) (got : Hash32) (from_ : PeerId)
deriving DecidableEq

/-- `Staging`. -/
structure Staging where
  queue : List Staged
  index : AList fun _ : Hash32 ↦ HeaderRec
  verifiedHeight : Nat
  verifiedTip : Hash32
  rng : Rng
  /-- How many headers are passed by before the next one below the anchor is checked. -/
  countdown : Nat
  powCalls : Nat
  fastForwarded : Nat

namespace Staging

/-- `Staging::new`. -/
def new (verifiedHeight : Nat) (verifiedTip : Hash32) (seed : UInt64) : Staging where
  queue := []
  index := ∅
  verifiedHeight := verifiedHeight
  verifiedTip := verifiedTip
  rng := ((Rng.new seed).below ffSampleRate).2
  countdown := ((Rng.new seed).below ffSampleRate).1
  powCalls := 0
  fastForwarded := 0

/-- `Staging::can_stage`. -/
def canStage (s : Staging) : Prop := s.queue.length < presyncLeadHeaders

instance (s : Staging) : Decidable s.canStage :=
  inferInstanceAs (Decidable (s.queue.length < presyncLeadHeaders))

/-- `Staging::push`. -/
def push (s : Staging) (h : HeaderRec) (from_ : PeerId) : Staging × Bool :=
  if s.canStage then
    ({ s with
      index := s.index.insert h.hash h
      queue := s.queue ++ [{ record := h, from_, verified := false, fastForwarded := false }] }, true)
  else (s, false)

/-- `Staging::front_costs_interpreter`. -/
def frontCostsInterpreter (s : Staging) (anchor : Option Anchor) (verifyAll : Bool) : Bool :=
  match s.queue.head? with
  | none => false
  | some x =>
    if x.verified then false
    else
      match anchor with
      | none => true
      | some a =>
        if x.record.height = a.height then false
        else if x.record.height < a.height ∧ !verifyAll then s.countdown = 0
        else true

/-- `Staging::clear`. -/
def clear (s : Staging) : Staging := { s with queue := [], index := ∅ }

/-- An assignment to fields of the front. -/
def mapFront (s : Staging) (f : Staged → Staged) : Staging :=
  { s with queue := s.queue.modifyHead f }

/-- `Staging::mark_front_verified`. -/
def markFrontVerified (s : Staging) : Staging := s.mapFront fun x ↦ { x with verified := true }

/-- `Staging::pop_front`. -/
def popFront (s : Staging) : Staging × Option Staged :=
  match s.queue with
  | [] => (s, none)
  | x :: queue => ({ s with queue, index := s.index.erase x.record.hash }, some x)

/-- What one `verify_step` makes of the book, what it says, and the calls to `pow.verify` with their
answers. -/
abbrev Step : Type := Staging × VerifyOutcome × List (RawHeader × Bool)

/-- The call to `pow.verify` on the front, `x`, and `accept` if it goes through. -/
def check (s : Staging) (pow : RawHeader → Bool) (x : Staged) (accept : Staging → Staging)
    (outcome : VerifyOutcome) : Step :=
  let s := { s with powCalls := s.powCalls + 1 }
  if pow x.record.raw then (accept s, outcome, [(x.record.raw, true)])
  else (s.popFront.1, .badPow x.record x.from_, [(x.record.raw, false)])

/-- What `verify_step` does to a front it passes by. -/
def fastForward (s : Staging) : Staging :=
  s.markFrontVerified.mapFront fun x ↦ { x with fastForwarded := true }

/-- `Staging::verify_step`. -/
def verifyStep (s : Staging) (pow : RawHeader → Bool) (anchor : Option Anchor) (verifyAll : Bool) :
    Step :=
  match s.queue.head? with
  | none => (s, .idle, [])
  | some x =>
    let full := s.check pow x markFrontVerified (.verified x.record x.from_)
    if x.verified then (s, .verified x.record x.from_, [])
    else
      match anchor with
      | none => full
      | some a =>
        if x.record.height = a.height then
          -- a mismatch contradicts the whole staged branch
          if x.record.hash ≠ a.hash then
            (s.clear, .anchorMismatch x.record.height x.record.hash x.from_, [])
          else (s.markFrontVerified, .verified x.record x.from_, [])
        else if x.record.height < a.height ∧ !verifyAll then
          if s.countdown = 0 then
            -- the countdown starts again before the check, whatever its answer
            let (countdown, rng) := s.rng.below ffSampleRate
            { s with countdown, rng }.check pow x fastForward (.fastForwarded x.record x.from_)
          else
            ({ s with countdown := s.countdown - 1 }.fastForward,
              .fastForwarded x.record x.from_, [])
        else full

/-- `Staging::commit_front`. -/
def commitFront (s : Staging) : Staging × Option HeaderRec :=
  match s.popFront with
  | (s, none) => (s, none)
  | (s, some x) =>
    ({ s with
      fastForwarded := if x.fastForwarded then s.fastForwarded + 1 else s.fastForwarded
      verifiedHeight := x.record.height
      verifiedTip := x.record.hash }, some x.record)

/-- `Staging::truncate_from`. -/
def truncateFrom (s : Staging) (height : Nat) : Staging :=
  { s with
    queue := s.queue.filter (·.record.height < height)
    index := ((s.queue.filter (height ≤ ·.record.height)).map (·.record.hash)).foldl
      (fun m k ↦ m.erase k) s.index }

end Staging

/-! ## Runs -/

/-- A use of the staging, each with flags and an oracle of its own. -/
inductive StagingOp where
  | push (h : HeaderRec) (from_ : PeerId)
  | verify (pow : RawHeader → Bool) (verifyAll : Bool)
  /-- Of a front that an outcome let through. -/
  | commit
  | truncateFrom (height : Nat)
  | clear

/-- What is seen of a use. -/
structure Seen where
  outcome : VerifyOutcome
  calls : List (RawHeader × Bool)
  committed : Option HeaderRec
deriving DecidableEq

/-- Nothing is seen. -/
def Seen.none : Seen := { outcome := .idle, calls := [], committed := .none }

namespace Staging

/-- One use. -/
def step (anchor : Option Anchor) (s : Staging) : StagingOp → Staging × Seen
  | .push h from_ => ((s.push h from_).1, .none)
  | .verify pow verifyAll =>
    let (s, outcome, calls) := s.verifyStep pow anchor verifyAll
    (s, { outcome, calls, committed := none })
  | .commit =>
    if s.queue.head?.any (·.verified) then
      (s.commitFront.1, { Seen.none with committed := s.commitFront.2 })
    else (s, .none)
  | .truncateFrom height => (s.truncateFrom height, .none)
  | .clear => (s.clear, .none)

/-- Any uses, one after the other. -/
def run (anchor : Option Anchor) (s : Staging) : List StagingOp → Staging × List Seen
  | [] => (s, [])
  | op :: ops =>
    let (s, seen) := s.step anchor op
    let (s, log) := run anchor s ops
    (s, seen :: log)

/-! ## One verification -/

/-- What `verify_step` makes of the book, case by case. -/
inductive Verifies (pow : RawHeader → Bool) (anchor : Option Anchor) (verifyAll : Bool)
    (s : Staging) : Step → Prop
  | idle (hhead : s.queue.head? = none) : Verifies pow anchor verifyAll s (s, .idle, [])
  | again {x : Staged} (hhead : s.queue.head? = some x) (hx : x.verified = true) :
    Verifies pow anchor verifyAll s (s, .verified x.record x.from_, [])
  | anchored {x : Staged} {a : Anchor} (hhead : s.queue.head? = some x) (hx : x.verified = false)
    (ha : anchor = some a) (hheight : x.record.height = a.height) (hhash : x.record.hash = a.hash) :
    Verifies pow anchor verifyAll s (s.markFrontVerified, .verified x.record x.from_, [])
  | mismatch {x : Staged} {a : Anchor} (hhead : s.queue.head? = some x) (hx : x.verified = false)
    (ha : anchor = some a) (hheight : x.record.height = a.height) :
    Verifies pow anchor verifyAll s
      (s.clear, .anchorMismatch x.record.height x.record.hash x.from_, [])
  | passedBy {x : Staged} {a : Anchor} (hhead : s.queue.head? = some x) (hx : x.verified = false)
    (ha : anchor = some a) (hlow : x.record.height < a.height) (hall : verifyAll = false)
    (hcount : 0 < s.countdown) :
    Verifies pow anchor verifyAll s
      ({ s with countdown := s.countdown - 1 }.fastForward, .fastForwarded x.record x.from_, [])
  | sampled {x : Staged} {a : Anchor} (hhead : s.queue.head? = some x) (hx : x.verified = false)
    (ha : anchor = some a) (hlow : x.record.height < a.height) (hall : verifyAll = false)
    (hcount : s.countdown = 0) (hpow : pow x.record.raw = true) :
    Verifies pow anchor verifyAll s
      ({ s with
          countdown := (s.rng.below ffSampleRate).1
          rng := (s.rng.below ffSampleRate).2
          powCalls := s.powCalls + 1 }.fastForward,
        .fastForwarded x.record x.from_, [(x.record.raw, true)])
  | badSample {x : Staged} {a : Anchor} (hhead : s.queue.head? = some x) (hx : x.verified = false)
    (ha : anchor = some a) (hlow : x.record.height < a.height) (hall : verifyAll = false)
    (hcount : s.countdown = 0) :
    Verifies pow anchor verifyAll s
      ({ s with
          countdown := (s.rng.below ffSampleRate).1
          rng := (s.rng.below ffSampleRate).2
          powCalls := s.powCalls + 1 }.popFront.1,
        .badPow x.record x.from_, [(x.record.raw, false)])
  | full {x : Staged} (hhead : s.queue.head? = some x) (hx : x.verified = false)
    (hfar : ∀ a ∈ anchor, x.record.height < a.height → verifyAll = true)
    (hne : ∀ a ∈ anchor, x.record.height ≠ a.height) (hpow : pow x.record.raw = true) :
    Verifies pow anchor verifyAll s
      ({ s with powCalls := s.powCalls + 1 }.markFrontVerified,
        .verified x.record x.from_, [(x.record.raw, true)])
  | bad {x : Staged} (hhead : s.queue.head? = some x) (hx : x.verified = false)
    (hfar : ∀ a ∈ anchor, x.record.height < a.height → verifyAll = true)
    (hne : ∀ a ∈ anchor, x.record.height ≠ a.height) :
    Verifies pow anchor verifyAll s
      ({ s with powCalls := s.powCalls + 1 }.popFront.1,
        .badPow x.record x.from_, [(x.record.raw, false)])

theorem verifies (s : Staging) (pow : RawHeader → Bool) (anchor : Option Anchor)
    (verifyAll : Bool) : Verifies pow anchor verifyAll s (s.verifyStep pow anchor verifyAll) := by
  unfold verifyStep
  cases hhead : s.queue.head? with
  | none => exact .idle hhead
  | some x =>
    have hfull (hx : x.verified = false)
        (hfar : ∀ a ∈ anchor, x.record.height < a.height → verifyAll = true)
        (hne : ∀ a ∈ anchor, x.record.height ≠ a.height) : Verifies pow anchor verifyAll s
          (s.check pow x markFrontVerified (.verified x.record x.from_)) := by
      unfold check
      dsimp only
      split
      case isTrue hpow => exact .full hhead hx hfar hne hpow
      case isFalse => exact .bad hhead hx hfar hne
    dsimp only
    cases hx : x.verified with
    | true =>
      rw [if_pos rfl]
      exact .again hhead hx
    | false =>
      rw [if_neg Bool.false_ne_true]
      cases ha : anchor with
      | none =>
        subst ha
        exact hfull hx (by rintro a ⟨⟩) (by rintro a ⟨⟩)
      | some a =>
        subst ha
        dsimp only
        split
        case isTrue hheight =>
          split
          case isTrue => exact .mismatch hhead hx rfl hheight
          case isFalse hhash => exact .anchored hhead hx rfl hheight (not_not.mp hhash)
        case isFalse hheight =>
          split
          case isTrue h =>
            obtain ⟨hlow, hall⟩ := h
            rw [Bool.not_eq_true'] at hall
            split
            case isTrue hcount =>
              unfold check
              dsimp only
              split
              case isTrue hpow => exact .sampled hhead hx rfl hlow hall hcount hpow
              case isFalse => exact .badSample hhead hx rfl hlow hall hcount
            case isFalse hcount =>
              exact .passedBy hhead hx rfl hlow hall (Nat.pos_of_ne_zero hcount)
          case isFalse h =>
            refine hfull hx ?_ ?_
            · rintro _ ⟨⟩ hlow
              rw [not_and, Bool.not_eq_true', Bool.not_eq_false] at h
              exact h hlow
            · rintro _ ⟨⟩
              exact hheight

variable {anchor : Option Anchor} {s s' : Staging} {pow : RawHeader → Bool} {verifyAll : Bool}
variable {x : Staged} {t : Step} {op : StagingOp} {seen : Seen}

/-- A front that is neither verified nor at the anchor, nor passed by below it, is charged for. -/
theorem frontCostsInterpreter_eq_true (hhead : s.queue.head? = some x) (hx : x.verified = false)
    (hfar : ∀ a ∈ anchor, x.record.height < a.height → verifyAll = true)
    (hne : ∀ a ∈ anchor, x.record.height ≠ a.height) :
    s.frontCostsInterpreter anchor verifyAll = true := by
  unfold frontCostsInterpreter
  cases anchor with
  | none => simp [hhead, hx]
  | some a =>
    have hlow : a.height ≤ x.record.height ∨ verifyAll = true := by
      rw [← not_lt, ← imp_iff_not_or]
      exact hfar a rfl
    simp [hhead, hx, hne a rfl, hlow]

/-- The budget is charged for a front that the interpreter is called on, and for no other. -/
theorem frontCostsInterpreter_iff (s : Staging) (pow : RawHeader → Bool) (anchor : Option Anchor)
    (verifyAll : Bool) : s.frontCostsInterpreter anchor verifyAll = true ↔
      (s.verifyStep pow anchor verifyAll).2.2 ≠ [] := by
  have hverifies := s.verifies pow anchor verifyAll
  generalize s.verifyStep pow anchor verifyAll = step at hverifies
  cases hverifies with
  | full hhead hx hfar hne =>
    exact iff_of_true (frontCostsInterpreter_eq_true hhead hx hfar hne) (List.cons_ne_nil _ _)
  | bad hhead hx hfar hne =>
    exact iff_of_true (frontCostsInterpreter_eq_true hhead hx hfar hne) (List.cons_ne_nil _ _)
  | idle hhead => simp [frontCostsInterpreter, hhead]
  | again hhead hx => simp [frontCostsInterpreter, hhead, hx]
  | anchored hhead hx ha hheight => simp [frontCostsInterpreter, hhead, hx, ha, hheight]
  | mismatch hhead hx ha hheight => simp [frontCostsInterpreter, hhead, hx, ha, hheight]
  | passedBy hhead hx ha hlow hall hcount =>
    simp [frontCostsInterpreter, hhead, hx, ha, hlow, hlow.ne, hall, hcount.ne']
  | sampled hhead hx ha hlow hall hcount =>
    simp [frontCostsInterpreter, hhead, hx, ha, hlow, hlow.ne, hall, hcount]
  | badSample hhead hx ha hlow hall hcount =>
    simp [frontCostsInterpreter, hhead, hx, ha, hlow, hlow.ne, hall, hcount]

/-! ## The index -/

/-- The headers of the queue. -/
def records (s : Staging) : List HeaderRec := s.queue.map (·.record)

/-- The index has the headers of the queue by their hashes. -/
def Indexed (s : Staging) : Prop := AList.Listed HeaderRec.hash s.records s.index

theorem Indexed.new (h : Nat) (tip : Hash32) (seed : UInt64) : (new h tip seed).Indexed :=
  AList.Listed.nil

theorem Indexed.clear (s : Staging) : s.clear.Indexed := AList.Listed.nil

@[simp] theorem mapFront_queue (s : Staging) (f : Staged → Staged) :
    (s.mapFront f).queue = s.queue.modifyHead f := rfl

@[simp] theorem mapFront_index (s : Staging) (f : Staged → Staged) : (s.mapFront f).index = s.index := rfl

theorem mapFront_records (s : Staging) {f : Staged → Staged} (hf : ∀ x, (f x).record = x.record) :
    (s.mapFront f).records = s.records := by
  unfold records
  rw [mapFront_queue]
  cases s.queue with
  | nil => rfl
  | cons x rest =>
    rw [List.modifyHead_cons, List.map_cons, List.map_cons, hf]

theorem Indexed.mapFront (h : s.Indexed) {f : Staged → Staged} (hf : ∀ x, (f x).record = x.record) :
    (s.mapFront f).Indexed := by
  rw [Indexed, mapFront_records s hf]
  exact h

theorem Indexed.markFrontVerified (h : s.Indexed) : s.markFrontVerified.Indexed :=
  h.mapFront fun _ ↦ rfl

theorem Indexed.fastForward (h : s.Indexed) : s.fastForward.Indexed :=
  h.markFrontVerified.mapFront fun _ ↦ rfl

theorem Indexed.popFront (h : s.Indexed) : s.popFront.1.Indexed := by
  unfold Indexed records Staging.popFront at *
  cases hqueue : s.queue with
  | nil =>
    rw [hqueue] at h
    dsimp only
    rw [hqueue]
    exact h
  | cons x rest =>
    rw [hqueue] at h
    exact h.tail

theorem Indexed.commitFront (h : s.Indexed) : s.commitFront.1.Indexed := by
  have hpop := h.popFront
  unfold Staging.commitFront
  generalize s.popFront = r at hpop
  obtain ⟨s', _ | x⟩ := r
  · exact hpop
  · exact hpop

theorem Indexed.push (h : s.Indexed) {r : HeaderRec} (hr : r.hash ∉ s.index) (p : PeerId) :
    (s.push r p).1.Indexed := by
  unfold Staging.push
  split
  case isTrue =>
    have happend := AList.Listed.append h hr
    unfold Indexed records at *
    rw [List.map_append]
    exact happend
  case isFalse => exact h

theorem Indexed.truncateFrom (h : s.Indexed) (height : Nat) : (s.truncateFrom height).Indexed := by
  have hfilter := AList.Listed.filter h fun r ↦ decide (r.height < height)
  have hdropped : s.queue.filter (height ≤ ·.record.height) =
      s.queue.filter fun x ↦ !decide (x.record.height < height) :=
    List.filter_congr fun x _ ↦ by rw [← decide_not, decide_eq_decide, not_lt]
  unfold Indexed records Staging.truncateFrom at *
  rw [List.filter_map, List.filter_map, List.map_map] at hfilter
  rw [hdropped]
  exact hfilter

theorem Indexed.verifyStep (h : s.Indexed) (hstep : Verifies pow anchor verifyAll s t) :
    t.1.Indexed := by
  cases hstep with
  | idle | again => exact h
  | anchored => exact h.markFrontVerified
  | mismatch => exact .clear s
  | passedBy => exact Indexed.fastForward h
  | sampled => exact Indexed.fastForward h
  | badSample | bad => exact Indexed.popFront h
  | full => exact Indexed.markFrontVerified h

/-- A header that is pushed is not yet staged. -/
def Fresh (s : Staging) : StagingOp → Prop
  | .push h _ => h.hash ∉ s.index
  | _ => True

theorem Indexed.step (h : s.Indexed) (hop : s.Fresh op) : (s.step anchor op).1.Indexed := by
  cases op with
  | push r p => exact h.push hop p
  | verify pow verifyAll => exact h.verifyStep (s.verifies pow anchor verifyAll)
  | commit =>
    unfold Staging.step
    dsimp only
    split
    case isTrue => exact h.commitFront
    case isFalse => exact h
  | truncateFrom height => exact h.truncateFrom height
  | clear => exact .clear s

/-- Headers are pushed when they are not staged. -/
def FreshRun (anchor : Option Anchor) (s : Staging) : List StagingOp → Prop
  | [] => True
  | op :: ops => s.Fresh op ∧ FreshRun anchor (s.step anchor op).1 ops

theorem Indexed.run {ops : List StagingOp} (h : s.Indexed) (hops : FreshRun anchor s ops) :
    (s.run anchor ops).1.Indexed := by
  induction ops generalizing s with
  | nil => exact h
  | cons op ops ih => exact ih (h.step hops.1) hops.2

/-! ## What clears a header -/

/-- The interpreter was called on the header and let it through. -/
def Called (log : List Seen) (r : HeaderRec) : Prop := ∃ e ∈ log, (r.raw, true) ∈ e.calls

theorem Called.append {log : List Seen} {r : HeaderRec} (h : Called log r) (seen : Seen) :
    Called (log ++ [seen]) r := by
  obtain ⟨e, he, hcall⟩ := h
  exact ⟨e, List.mem_append_left _ he, hcall⟩

/-- A header is cleared: at the anchor by its hash, below it for nothing if that is allowed, and
anywhere else by its proof of work. -/
structure Cleared (anchor : Option Anchor) (lax : Prop) (log : List Seen) (r : HeaderRec) : Prop where
  hash : ∀ a ∈ anchor, r.height = a.height → r.hash = a.hash
  work : Called log r ∨ ∃ a ∈ anchor, r.height = a.height ∨ r.height < a.height ∧ lax

variable {lax : Prop} {log : List Seen}

theorem Cleared.append {r : HeaderRec} (h : Cleared anchor lax log r) (seen : Seen) :
    Cleared anchor lax (log ++ [seen]) r where
  hash := h.hash
  work := h.work.imp_left fun hcalled ↦ hcalled.append seen

/-- What is verified is cleared. -/
def AllCleared (anchor : Option Anchor) (lax : Prop) (log : List Seen) (s : Staging) : Prop :=
  ∀ x ∈ s.queue, x.verified = true → Cleared anchor lax log x.record

theorem AllCleared.append (h : AllCleared anchor lax log s) (seen : Seen) :
    AllCleared anchor lax (log ++ [seen]) s :=
  fun x hx hverified ↦ (h x hx hverified).append seen

theorem AllCleared.sublist (h : AllCleared anchor lax log s) (hsub : s'.queue.Sublist s.queue) :
    AllCleared anchor lax log s' := fun x hx ↦ h x (hsub.subset hx)

theorem popFront_queue (s : Staging) : s.popFront.1.queue = s.queue.tail := by
  unfold popFront
  cases hqueue : s.queue with
  | nil => exact hqueue
  | cons x rest => rfl

theorem commitFront_queue (s : Staging) : s.commitFront.1.queue = s.queue.tail := by
  rw [← popFront_queue]
  unfold commitFront popFront
  cases s.queue <;> rfl

theorem commitFront_record (s : Staging) :
    s.commitFront.2 = s.queue.head?.map (·.record) := by
  unfold commitFront popFront
  cases s.queue <;> rfl

/-- A front that is cleared may be marked. -/
theorem AllCleared.mapFront (h : AllCleared anchor lax log s) {f : Staged → Staged}
    (hf : ∀ x, (f x).record = x.record) (hhead : s.queue.head? = some x)
    (hx : Cleared anchor lax log x.record) : AllCleared anchor lax log (s.mapFront f) := by
  obtain ⟨rest, hqueue⟩ := List.head?_eq_some_iff.mp hhead
  intro y hy hverified
  rw [mapFront_queue, hqueue, List.modifyHead_cons, List.mem_cons] at hy
  rcases hy with rfl | hy
  · rw [hf]
    exact hx
  · exact h y (hqueue ▸ List.mem_cons_of_mem x hy) hverified

theorem AllCleared.markFrontVerified (h : AllCleared anchor lax log s)
    (hhead : s.queue.head? = some x) (hx : Cleared anchor lax log x.record) :
    AllCleared anchor lax log s.markFrontVerified := h.mapFront (fun _ ↦ rfl) hhead hx

theorem AllCleared.fastForward (h : AllCleared anchor lax log s)
    (hhead : s.queue.head? = some x) (hx : Cleared anchor lax log x.record) :
    AllCleared anchor lax log s.fastForward := by
  refine (h.markFrontVerified hhead hx).mapFront (fun _ ↦ rfl)
    (x := { x with verified := true }) ?_ hx
  unfold Staging.markFrontVerified
  rw [mapFront_queue, List.head?_modifyHead, hhead]
  rfl

theorem AllCleared.verifyStep (h : AllCleared anchor lax log s)
    (hlax : verifyAll = false → lax) (hstep : Verifies pow anchor verifyAll s t) :
    AllCleared anchor lax (log ++ [{ outcome := t.2.1, calls := t.2.2, committed := none }]) t.1 := by
  have hcalled (x : Staged) (outcome : VerifyOutcome) :
      Called (log ++ [{ outcome, calls := [(x.record.raw, true)], committed := none }]) x.record :=
    ⟨_, List.mem_append_right _ (List.mem_singleton_self _), List.mem_singleton_self _⟩
  cases hstep with
  | idle | again => exact h.append _
  | anchored hhead _ ha hheight hhash =>
    subst ha
    refine (h.append _).markFrontVerified hhead ⟨?_, .inr ⟨_, rfl, .inl hheight⟩⟩
    rintro _ ⟨⟩ _
    exact hhash
  | mismatch =>
    intro x hx
    cases hx
  | passedBy hhead _ ha hlow hall =>
    subst ha
    refine AllCleared.fastForward (h.append _) hhead ⟨?_, .inr ⟨_, rfl, .inr ⟨hlow, hlax hall⟩⟩⟩
    rintro _ ⟨⟩ hheight
    exact absurd hheight hlow.ne
  | sampled hhead _ ha hlow =>
    subst ha
    refine AllCleared.fastForward (h.append _) hhead ⟨?_, .inl (hcalled _ _)⟩
    rintro _ ⟨⟩ hheight
    exact absurd hheight hlow.ne
  | badSample | bad =>
    refine AllCleared.sublist (h.append _) ?_
    rw [popFront_queue]
    exact List.tail_sublist _
  | full hhead _ _ hne =>
    refine AllCleared.markFrontVerified (h.append _) hhead ⟨?_, .inl (hcalled _ _)⟩
    intro a ha hheight
    exact absurd hheight (hne a ha)

/-- An operation that checks all. -/
def Strict : StagingOp → Prop
  | .verify _ verifyAll => verifyAll = true
  | _ => True

theorem AllCleared.push (h : AllCleared anchor lax log s) (r : HeaderRec) (p : PeerId) :
    AllCleared anchor lax log (s.push r p).1 := by
  unfold Staging.push
  split
  case isTrue =>
    intro x hx hverified
    rcases List.mem_append.mp hx with hx | hx
    · exact h x hx hverified
    · cases List.mem_singleton.mp hx
      cases hverified
  case isFalse => exact h

theorem AllCleared.step (h : AllCleared anchor lax log s) (hlax : ¬Strict op → lax) :
    AllCleared anchor lax (log ++ [(s.step anchor op).2]) (s.step anchor op).1 := by
  cases op with
  | push r p => exact (h.push r p).append _
  | verify pow verifyAll =>
    refine h.verifyStep (fun hall ↦ hlax ?_) (s.verifies pow anchor verifyAll)
    intro hstrict
    cases hall.symm.trans hstrict
  | commit =>
    unfold Staging.step
    dsimp only
    split
    case isTrue =>
      refine AllCleared.sublist (h.append _) ?_
      rw [commitFront_queue]
      exact List.tail_sublist _
    case isFalse => exact h.append _
  | truncateFrom height => exact AllCleared.sublist (h.append _) List.filter_sublist
  | clear =>
    intro x hx
    cases hx

/-- What a use commits is cleared. -/
theorem AllCleared.committed (h : AllCleared anchor lax log s) {r : HeaderRec}
    (hr : (s.step anchor op).2.committed = some r) : Cleared anchor lax log r := by
  cases op with
  | push | verify | truncateFrom | clear => cases hr
  | commit =>
    unfold Staging.step at hr
    dsimp only at hr
    split at hr
    case isTrue hverified =>
      rw [commitFront_record, Option.map_eq_some_iff] at hr
      obtain ⟨x, hx, rfl⟩ := hr
      rw [hx] at hverified
      exact h x (List.mem_of_head? hx) hverified
    case isFalse => cases hr

theorem run_cons (anchor : Option Anchor) (s : Staging) (op : StagingOp) (ops : List StagingOp) :
    s.run anchor (op :: ops) = (((s.step anchor op).1.run anchor ops).1,
      (s.step anchor op).2 :: ((s.step anchor op).1.run anchor ops).2) := rfl

theorem AllCleared.run {ops : List StagingOp} (h : AllCleared anchor lax log s)
    (hlax : (∃ op ∈ ops, ¬Strict op) → lax) {before after : List Seen}
    (hlog : (s.run anchor ops).2 = before ++ seen :: after) {r : HeaderRec}
    (hr : seen.committed = some r) : Cleared anchor lax (log ++ before) r := by
  induction ops generalizing s log before with
  | nil => exact absurd hlog (List.append_ne_nil_of_right_ne_nil _ (List.cons_ne_nil _ _)).symm
  | cons op ops ih =>
    have hop : ¬Strict op → lax := fun hop ↦ hlax ⟨op, List.mem_cons_self, hop⟩
    rw [run_cons] at hlog
    cases before with
    | nil =>
      obtain ⟨rfl, -⟩ := List.cons.inj hlog
      rw [List.append_nil]
      exact h.committed hr
    | cons e before =>
      obtain ⟨rfl, htail⟩ := List.cons.inj hlog
      have hrest := ih (h.step hop) (fun hex ↦ hlax ?_) htail
      · rwa [List.append_assoc] at hrest
      · obtain ⟨op', hmem, hnot⟩ := hex
        exact ⟨op', List.mem_cons_of_mem op hmem, hnot⟩

/-! ## Samples -/

/-- A header below the anchor was let through after a call. -/
def Sampled (e : Seen) : Prop := ∃ r p, e.outcome = .fastForwarded r p ∧ e.calls = [(r.raw, true)]

/-- A header below the anchor was let through. -/
def passedBelow (e : Seen) : Bool :=
  match e.outcome with
  | .fastForwarded _ _ => true
  | _ => false

/-- A header below the anchor failed its check. -/
def FailedBelow (anchor : Option Anchor) (e : Seen) : Prop :=
  ∃ a ∈ anchor, ∃ r p, e.outcome = .badPow r p ∧ r.height < a.height

theorem popFront_countdown (s : Staging) : s.popFront.1.countdown = s.countdown := by
  unfold popFront
  cases s.queue <;> rfl

theorem commitFront_countdown (s : Staging) : s.commitFront.1.countdown = s.countdown := by
  unfold commitFront popFront
  cases s.queue <;> rfl

theorem Verifies.countdown (hstep : Verifies pow anchor verifyAll s t) {e : Seen}
    (houtcome : e.outcome = t.2.1) (hcalls : e.calls = t.2.2) (he : ¬FailedBelow anchor e) :
    Sampled e ∨ t.1.countdown + (if passedBelow e then 1 else 0) = s.countdown := by
  unfold passedBelow
  rw [houtcome]
  cases hstep with
  | idle | again | anchored | mismatch | full => exact .inr rfl
  | passedBy _ _ _ _ _ hcount => exact .inr (Nat.sub_add_cancel hcount)
  | sampled => exact .inl ⟨_, _, houtcome, hcalls⟩
  | badSample _ _ ha hlow => exact absurd ⟨_, ha, _, _, houtcome, hlow⟩ he
  | bad => exact .inr (popFront_countdown _)

theorem Verifies.countdown_lt (hstep : Verifies pow anchor verifyAll s t)
    (h : s.countdown < ffSampleRate) : t.1.countdown < ffSampleRate := by
  have hbelow := Rng.below_lt s.rng (show 0 < ffSampleRate by decide)
  cases hstep with
  | idle | again | anchored | mismatch | full => exact h
  | passedBy => exact (Nat.sub_le _ _).trans_lt h
  | sampled => exact hbelow
  | badSample =>
    dsimp only
    rwa [popFront_countdown]
  | bad =>
    dsimp only
    rwa [popFront_countdown]

/-- Every header that is let through below the anchor is a sample or is counted. -/
theorem step_countdown (s : Staging) (op : StagingOp)
    (hop : ¬FailedBelow anchor (s.step anchor op).2) : Sampled (s.step anchor op).2 ∨
      (s.step anchor op).1.countdown + (if passedBelow (s.step anchor op).2 then 1 else 0) =
        s.countdown := by
  cases op with
  | push r p =>
    refine .inr ?_
    unfold step push
    dsimp only
    split <;> rfl
  | commit =>
    refine .inr ?_
    unfold step
    dsimp only
    split
    case isTrue => exact commitFront_countdown s
    case isFalse => rfl
  | truncateFrom | clear => exact .inr rfl
  | verify pow verifyAll => exact (s.verifies pow anchor verifyAll).countdown rfl rfl hop

theorem step_countdown_lt (h : s.countdown < ffSampleRate) (op : StagingOp) :
    (s.step anchor op).1.countdown < ffSampleRate := by
  cases op with
  | push r p =>
    unfold step push
    dsimp only
    split <;> exact h
  | commit =>
    unfold step
    dsimp only
    split
    case isTrue =>
      dsimp only
      rwa [commitFront_countdown]
    case isFalse => exact h
  | truncateFrom | clear => exact h
  | verify pow verifyAll => exact (s.verifies pow anchor verifyAll).countdown_lt h

/-- Until the next sample no more headers pass than are left to count. -/
theorem run_countdown {ops : List StagingOp} {mid after : List Seen}
    (hlog : (s.run anchor ops).2 = mid ++ after) (hmid : ∀ e ∈ mid, ¬FailedBelow anchor e) :
    (∃ e ∈ mid, Sampled e) ∨ mid.countP passedBelow ≤ s.countdown := by
  induction mid generalizing s ops with
  | nil => exact .inr (Nat.zero_le _)
  | cons e mid ih =>
    cases ops with
    | nil => cases hlog
    | cons op ops =>
      rw [run_cons] at hlog
      obtain ⟨rfl, htail⟩ := List.cons.inj hlog
      obtain ⟨hop, hmid⟩ := List.forall_mem_cons.mp hmid
      rcases s.step_countdown op hop with hsampled | hcount
      · exact .inl ⟨_, List.mem_cons_self, hsampled⟩
      · rcases ih htail hmid with ⟨e, he, hsampled⟩ | hle
        · exact .inl ⟨e, List.mem_cons_of_mem _ he, hsampled⟩
        · rw [List.countP_cons, ← hcount]
          exact .inr (Nat.add_le_add_right hle _)

/-- So many headers that pass below the anchor have a sample, if none failed in between. -/
theorem run_sampled {ops : List StagingOp} {before mid after : List Seen}
    (h : s.countdown < ffSampleRate) (hlog : (s.run anchor ops).2 = before ++ mid ++ after)
    (hmid : ∀ e ∈ mid, ¬FailedBelow anchor e) (hlen : ffSampleRate ≤ mid.countP passedBelow) :
    ∃ e ∈ mid, Sampled e := by
  induction before generalizing s ops with
  | nil => exact (run_countdown hlog hmid).resolve_right (h.trans_le hlen).not_ge
  | cons e before ih =>
    cases ops with
    | nil => cases hlog
    | cons op ops =>
      rw [run_cons] at hlog
      exact ih (step_countdown_lt h op) (List.cons.inj hlog).2

/-! ## What is committed -/

/-- What the uses of a new staging commit, sample and index, and what the budget is charged for. -/
theorem run_committed (anchor : Option Anchor) (height : Nat) (tip : Hash32) (seed : UInt64)
    (ops : List StagingOp) :
    (∀ before seen after r, ((new height tip seed).run anchor ops).2 = before ++ seen :: after →
      seen.committed = some r →
        ((∀ a ∈ anchor, a.height < r.height) → Called before r) ∧
        ((∀ op ∈ ops, Strict op) → (∀ a ∈ anchor, r.height ≠ a.height) → Called before r) ∧
        ∀ a ∈ anchor, r.height = a.height → r.hash = a.hash) ∧
    (∀ before mid after, ((new height tip seed).run anchor ops).2 = before ++ mid ++ after →
      (∀ e ∈ mid, ¬FailedBelow anchor e) → ffSampleRate ≤ mid.countP passedBelow →
        ∃ e ∈ mid, Sampled e) ∧
    (FreshRun anchor (new height tip seed) ops → ∀ k,
      k ∈ ((new height tip seed).run anchor ops).1.index ↔
        ∃ x ∈ ((new height tip seed).run anchor ops).1.queue, x.record.hash = k) ∧
    ∀ pow verifyAll,
      ((new height tip seed).run anchor ops).1.frontCostsInterpreter anchor verifyAll = true ↔
        (((new height tip seed).run anchor ops).1.verifyStep pow anchor verifyAll).2.2 ≠ [] := by
  refine ⟨?_, ?_, ?_, ?_⟩
  · intro before seen after r hlog hr
    have hnew : AllCleared anchor (∃ op ∈ ops, ¬Strict op) [] (new height tip seed) := by
      intro x hx
      cases hx
    have hcleared := hnew.run id hlog hr
    rw [List.nil_append] at hcleared
    refine ⟨?_, ?_, hcleared.hash⟩
    · intro habove
      refine hcleared.work.resolve_right ?_
      rintro ⟨a, ha, hheight | ⟨hlow, -⟩⟩
      · exact (habove a ha).ne' hheight
      · exact (habove a ha).not_gt hlow
    · intro hstrict hne
      refine hcleared.work.resolve_right ?_
      rintro ⟨a, ha, hheight | ⟨-, op, hop, hnot⟩⟩
      · exact hne a ha hheight
      · exact hnot (hstrict op hop)
  · intro before mid after hlog hmid hlen
    exact run_sampled (Rng.below_lt _ (by decide)) hlog hmid hlen
  · intro hfresh k
    rw [((Indexed.new height tip seed).run hfresh).mem_iff]
    unfold records
    simp only [List.mem_map, exists_exists_and_eq_and]
  · intro pow verifyAll
    exact frontCostsInterpreter_iff _ pow anchor verifyAll

/-- A header of zeros at a height. -/
def headerAt (height : Nat) : HeaderRec where
  height := height
  hash := zeroHash
  prevHash := zeroHash
  time := 0
  bits := 0
  target := zeroHash
  raw := Arr.zero 132

/-- A header is pushed, verified under an oracle that always answers alike, and committed. -/
def pass (height : Nat) (verifyAll answer : Bool) : List StagingOp :=
  [.push (headerAt height) 0, .verify (fun _ ↦ answer) verifyAll, .commit]

theorem run_append (anchor : Option Anchor) (s : Staging) (ops ops' : List StagingOp) :
    s.run anchor (ops ++ ops') =
      (((s.run anchor ops).1.run anchor ops').1,
        (s.run anchor ops).2 ++ ((s.run anchor ops).1.run anchor ops').2) := by
  induction ops generalizing s with
  | nil => rfl
  | cons op ops ih =>
    rw [List.cons_append, run_cons, run_cons, ih]
    rfl

/-- While the countdown lasts, a header below the anchor passes without a call. -/
theorem run_pass (hqueue : s.queue = []) (hcount : 0 < s.countdown) {a : Anchor} {height : Nat}
    (hlow : height < a.height) (answer : Bool) :
    ((s.run (some a) (pass height false answer)).1.queue = [] ∧
      (s.run (some a) (pass height false answer)).1.countdown = s.countdown - 1 ∧
      (s.run (some a) (pass height false answer)).1.rng = s.rng) ∧
    (s.run (some a) (pass height false answer)).2 =
      [.none, ⟨.fastForwarded (headerAt height) 0, [], none⟩,
        ⟨.idle, [], some (headerAt height)⟩] := by
  obtain ⟨queue, index, verifiedHeight, verifiedTip, rng, countdown, powCalls, fastForwarded⟩ := s
  cases hqueue
  simp [pass, run, step, push, canStage, presyncLeadHeaders, verifyStep, headerAt, hlow, hlow.ne,
    hcount.ne', fastForward, markFrontVerified, mapFront, commitFront, popFront,
    Seen.none]

/-- When the countdown is over, a header that fails its check starts it again. -/
theorem run_fail (hqueue : s.queue = []) (hcount : s.countdown = 0) {a : Anchor} {height : Nat}
    (hlow : height < a.height) :
    ((s.run (some a) (pass height false false)).1.queue = [] ∧
      (s.run (some a) (pass height false false)).1.countdown = (s.rng.below ffSampleRate).1) ∧
    (s.run (some a) (pass height false false)).2 =
      [.none, ⟨.badPow (headerAt height) 0, [((headerAt height).raw, false)], none⟩, .none] := by
  obtain ⟨queue, index, verifiedHeight, verifiedTip, rng, countdown, powCalls, fastForwarded⟩ := s
  cases hqueue
  cases hcount
  simp [pass, run, step, push, canStage, presyncLeadHeaders, verifyStep, headerAt, hlow, hlow.ne,
    check, popFront, Seen.none]

/-- The headers below the anchor that pass until the countdown is over. -/
theorem run_passes (hqueue : s.queue = []) {n : Nat} (hcount : n ≤ s.countdown) {a : Anchor}
    {height : Nat} (hlow : height < a.height) (answer : Bool) :
    ((s.run (some a) (List.replicate n (pass height false answer)).flatten).1.queue = [] ∧
      (s.run (some a) (List.replicate n (pass height false answer)).flatten).1.countdown =
        s.countdown - n ∧
      (s.run (some a) (List.replicate n (pass height false answer)).flatten).1.rng = s.rng) ∧
    (s.run (some a) (List.replicate n (pass height false answer)).flatten).2 =
      (List.replicate n [.none, ⟨.fastForwarded (headerAt height) 0, [], none⟩,
        ⟨.idle, [], some (headerAt height)⟩]).flatten := by
  induction n generalizing s with
  | zero => exact ⟨⟨hqueue, rfl, rfl⟩, rfl⟩
  | succ n ih =>
    obtain ⟨⟨hqueue', hcount', hrng'⟩, hlog⟩ :=
      run_pass hqueue (Nat.lt_of_lt_of_le n.succ_pos hcount) hlow answer
    obtain ⟨⟨hqueue'', hcount'', hrng''⟩, hlog'⟩ :=
      ih hqueue' (hcount' ▸ Nat.le_sub_one_of_lt hcount)
    rw [List.replicate_succ, List.flatten_cons, run_append, List.replicate_succ, List.flatten_cons,
      hlog, hlog', hcount'', hcount', hrng'', hrng', Nat.sub_sub, Nat.add_comm 1]
    exact ⟨⟨hqueue'', rfl, rfl⟩, rfl⟩

/-- Headers below the anchor that all pass, but for one that fails its check. -/
def passBelow : List StagingOp :=
  (List.replicate 116 (pass 1 false true)).flatten ++ (pass 1 false false ++
    (List.replicate 116 (pass 1 false true)).flatten)

theorem run_passBelow : ((new 0 zeroHash 5).run (some ⟨9, zeroHash⟩) passBelow).2 =
    (List.replicate 116 [.none, ⟨.fastForwarded (headerAt 1) 0, [], none⟩,
      ⟨.idle, [], some (headerAt 1)⟩]).flatten ++
    ([.none, ⟨.badPow (headerAt 1) 0, [((headerAt 1).raw, false)], none⟩, .none] ++
    (List.replicate 116 [.none, ⟨.fastForwarded (headerAt 1) 0, [], none⟩,
      ⟨.idle, [], some (headerAt 1)⟩]).flatten) := by
  have hlow : 1 < (Anchor.mk 9 zeroHash).height := by decide
  obtain ⟨⟨hqueue, hcount, hrng⟩, hlog⟩ := run_passes (s := new 0 zeroHash 5) rfl
    (n := 116) (by decide +kernel) hlow true
  obtain ⟨⟨hqueue', hcount'⟩, hlog'⟩ := run_fail hqueue (hcount.trans (by decide +kernel)) hlow
  have hstart : (((new 0 zeroHash 5).rng).below ffSampleRate).1 = 116 := by decide +kernel
  obtain ⟨-, hlog''⟩ := run_passes (n := 116) hqueue' (by rw [hcount', hrng, hstart]) hlow true
  rw [passBelow, run_append, hlog, run_append, hlog', hlog'']

/-- At the anchor nothing is called, also when all is to be checked; a header that fails its check
starts the countdown again; and of two headers with one hash the first takes the second's entry. -/
theorem run_not_committed :
    ((new 0 zeroHash 1).run (some ⟨5, zeroHash⟩) (pass 5 true false)).2 =
        [.none, ⟨.verified (headerAt 5) 0, [], none⟩, ⟨.idle, [], some (headerAt 5)⟩] ∧
    ffSampleRate ≤
        ((new 0 zeroHash 5).run (some ⟨9, zeroHash⟩) passBelow).2.countP passedBelow ∧
    (∀ e ∈ ((new 0 zeroHash 5).run (some ⟨9, zeroHash⟩) passBelow).2, ¬Sampled e) ∧
    ((new 0 zeroHash 1).run none (.push (headerAt 5) 0 :: pass 5 true true)).1.index.lookup
        zeroHash = none ∧
    ((new 0 zeroHash 1).run none (.push (headerAt 5) 0 :: pass 5 true true)).1.records =
        [headerAt 5] := by
  refine ⟨by decide +kernel, ?_, ?_, by decide +kernel, by decide +kernel⟩
  · rw [run_passBelow, List.countP_append, List.countP_append, List.countP_flatten,
      List.map_replicate, List.sum_replicate]
    decide
  · rw [run_passBelow]
    rintro e he ⟨r, p, houtcome, hcalls⟩
    have hpass (he : e ∈ (List.replicate 116 [.none, ⟨.fastForwarded (headerAt 1) 0, [], none⟩,
        ⟨.idle, [], some (headerAt 1)⟩]).flatten) : e.calls = [] := by
      obtain ⟨l, hl, he⟩ := List.mem_flatten.mp he
      rw [List.eq_of_mem_replicate hl] at he
      rcases List.mem_cons.mp he with rfl | he
      · rfl
      · rcases List.mem_pair.mp he with rfl | rfl <;> rfl
    rcases List.mem_append.mp he with he | he
    · rw [hpass he] at hcalls
      cases hcalls
    · rcases List.mem_append.mp he with he | he
      · rcases List.mem_cons.mp he with rfl | he
        · cases houtcome
        · rcases List.mem_pair.mp he with rfl | rfl <;> cases houtcome
      · rw [hpass he] at hcalls
        cases hcalls

end Staging

end Plaine.P2p

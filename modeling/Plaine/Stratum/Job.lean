import Plaine.Stratum.Nonce
import Plaine.Lib.Checked
import Plaine.Consensus.Constants
import Mathlib.Logic.Function.Basic

/-!
# Jobs

`stratum/src/job.rs`, and the targets of `stratum/src/target.rs`.  A session has four jobs a miner
may work on and, for a while after a new tip, the one that was newest before it.  Each job has a
table of the nonces submitted for it.
-/

namespace Plaine.Stratum

open Plaine.Lib Plaine.Consensus

/-- `JOB_SLOTS`. -/
abbrev jobSlots : Nat := 4

instance neZeroJobSlots : NeZero jobSlots := ⟨by decide⟩

/-- `DEDUP_PER_JOB`. -/
def dedupPerJob : Nat := 256

/-- `STALE_CREDIT_GRACE`, in milliseconds. -/
def staleCreditGrace : Nat := 5000

/-! ## Targets -/

/-- `Target`: 32 bytes, the most significant first, as a number. -/
structure Target where
  value : Nat
deriving DecidableEq

namespace Target

/-- `Target::accepts`. -/
def accepts (t : Target) (digest : Nat) : Bool := digest ≤ t.value

/-- `Target::from_difficulty`. -/
def fromDifficulty (d : Nat) : Target := if d ≤ 1 then ⟨2 ^ 256 - 1⟩ else ⟨2 ^ 256 / d⟩

/-- `Target::to_difficulty`. -/
def toDifficulty (t : Target) : Nat :=
  if t.value = 0 then u64Max else min (2 ^ 256 / t.value) u64Max

end Target

/-! ## Templates -/

/-- `Template`, less its number and the body that seals a block. -/
structure Template where
  pre : Arr 124
  height : Nat
  networkTarget : Target
  newTip : Bool
deriving DecidableEq

/-- `JobSource`, as it stands at some moment. -/
structure JobSource where
  current : Address → Option Template
  generation : Nat

/-! ## Duplicates -/

/-- `Dedup::check_and_record`. -/
def Dedup.checkAndRecord (nonces : List UInt64) (nonce : UInt64) : Bool × List UInt64 :=
  if nonce ∈ nonces then (true, nonces)
  else (false, if nonces.length < dedupPerJob then nonces ++ [nonce] else nonces)

/-- `Job`. -/
structure Job where
  jobId : UInt32
  template : Template
  servedTarget : Target
  servedDifficulty : Nat
  dedup : Option (List UInt64)
deriving DecidableEq

/-- `Job::check_and_record`. -/
def Job.checkAndRecord (j : Job) (nonce : UInt64) : Bool × Job :=
  let (seen, nonces) := Dedup.checkAndRecord (j.dedup.getD []) nonce
  (seen, { j with dedup := some nonces })

/-! ## Slots -/

/-- `JobRef`. -/
inductive JobRef where
  | live (i : Fin jobSlots)
  | previous
deriving DecidableEq

/-- `JobLookup`. -/
inductive JobLookup where
  | live (i : Fin jobSlots)
  | staleCredited
  | stale
  | unknown
deriving DecidableEq

/-- `JobLookup::job_ref`. -/
def JobLookup.jobRef : JobLookup → Option JobRef
  | .live i => some (.live i)
  | .staleCredited => some .previous
  | .stale | .unknown => none

/-- `JobSlots`. -/
structure JobSlots where
  ring : Fin jobSlots → Option Job
  nextId : UInt32
  head : Fin jobSlots
  previous : Option Job
  lastCleanMs : Nat

namespace JobSlots

/-- `JobSlots::new`. -/
def new : JobSlots := ⟨fun _ ↦ none, 0, 0, none, 0⟩

variable (s : JobSlots)

/-- What a clean push makes of the slots: the newest job is kept as the previous one. -/
def retire (clean : Bool) (nowMs : Nat) : JobSlots :=
  if clean then
    { s with
      previous := s.ring s.head
      lastCleanMs := nowMs
      ring := fun _ ↦ none
      head := 0 }
  else { s with head := s.head + 1 }

/-- `JobSlots::push`. -/
def push (template : Template) (servedTarget : Target) (servedDifficulty : Nat) (clean : Bool)
    (nowMs : Nat) : UInt32 × JobSlots :=
  let s := s.retire clean nowMs
  let job : Job := ⟨s.nextId, template, servedTarget, servedDifficulty, none⟩
  (s.nextId, { s with nextId := s.nextId + 1, ring := Function.update s.ring s.head (some job) })

/-- `JobSlots::lookup`. -/
def lookup (jobId : UInt32) (nowMs : Nat) : JobLookup :=
  match (List.finRange jobSlots).find? fun i ↦ (s.ring i).any (·.jobId == jobId) with
  | some i => .live i
  | none =>
    if s.previous.map (·.jobId) = some jobId then
      if nowMs - s.lastCleanMs ≤ staleCreditGrace then .staleCredited else .stale
    else if jobId < s.nextId then .stale
    else .unknown

/-- `JobSlots::get`. -/
def get : JobRef → Option Job
  | .live i => s.ring i
  | .previous => s.previous

/-- Write to a slot. -/
def set (r : JobRef) (j : Job) : JobSlots :=
  match r with
  | .live i => { s with ring := Function.update s.ring i (some j) }
  | .previous => { s with previous := some j }

/-- `JobSlots::check_duplicate`. -/
def checkDuplicate (r : JobRef) (nonce : UInt64) : Bool × JobSlots :=
  match s.get r with
  | some j => ((j.checkAndRecord nonce).1, s.set r (j.checkAndRecord nonce).2)
  | none => (false, s)

variable {s} {jobId : UInt32} {nowMs : Nat} {r : JobRef}

/-- A lookup comes to a job of that number. -/
theorem get_lookup (h : (s.lookup jobId nowMs).jobRef = some r) :
    ∃ j, s.get r = some j ∧ j.jobId = jobId := by
  unfold lookup at h
  split at h
  case h_1 i hfind =>
    cases h
    obtain ⟨j, hj, hid⟩ := (Option.any_eq_true _ _).mp (List.find?_some (p := fun i ↦
      (s.ring i).any (·.jobId == jobId)) hfind)
    exact ⟨j, hj, beq_iff_eq.mp hid⟩
  case h_2 =>
    split at h
    case isTrue hid =>
      split at h
      case isTrue =>
        cases h
        exact Option.map_eq_some_iff.mp hid
      case isFalse => cases h
    case isFalse =>
      split at h <;> cases h

/-- Checking for a duplicate writes to the table of the job only. -/
theorem checkDuplicate_spec {j : Job} (h : s.get r = some j) (nonce : UInt64) :
    ((s.checkDuplicate r nonce).1 = true ↔ nonce ∈ j.dedup.getD []) ∧
      (s.checkDuplicate r nonce).2.get r = some (j.checkAndRecord nonce).2 := by
  unfold checkDuplicate
  rw [h]
  refine ⟨?_, ?_⟩
  · unfold Job.checkAndRecord Dedup.checkAndRecord
    dsimp only
    split
    case isTrue hmem => exact iff_of_true rfl hmem
    case isFalse hmem => exact iff_of_false (fun h ↦ (by cases h)) hmem
  · cases r with
    | live i => exact Function.update_self _ _ _
    | previous => rfl

end JobSlots

end Plaine.Stratum

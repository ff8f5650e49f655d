import Plaine.Stratum.Settled

/-!
# Submits that are answered with busy

A share's nonce goes into the table of its job before the share is admitted, and neither a session
that has two shares on their way nor a verifier without room takes it out again.  So a busy answer
leaves no trace exactly when the table took no more nonces; otherwise the share is a duplicate when
it is sent again.
-/

namespace Plaine.Stratum

open Plaine.Lib

namespace JobSlots

variable {s : JobSlots} {r : JobRef} {j j' : Job} {nonce : UInt64} {jobId : UInt32} {nowMs : Nat}

/-- Lookups go by the numbers of the jobs. -/
theorem lookup_set (hj : s.get r = some j) (hid : j'.jobId = j.jobId) :
    (s.set r j').lookup jobId nowMs = s.lookup jobId nowMs := by
  cases r with
  | live i =>
    have hring : (fun i' ↦ ((s.set (.live i) j').ring i').any (·.jobId == jobId)) =
        fun i' ↦ (s.ring i').any (·.jobId == jobId) := by
      funext i'
      show (Function.update s.ring i (some j') i').any _ = _
      by_cases hi : i' = i
      · rw [hi, Function.update_self, show s.ring i = some j from hj]
        exact congrArg (· == jobId) hid
      · rw [Function.update_of_ne hi]
    unfold lookup
    rw [hring]
    rfl
  | previous =>
    have hprevious : ((s.set .previous j').previous.map (·.jobId)) = s.previous.map (·.jobId) := by
      rw [show s.previous = some j from hj]
      exact congrArg some hid
    unfold lookup
    rw [hprevious]
    rfl

/-- A table that is full records nothing. -/
theorem checkDuplicate_of_full (hj : s.get r = some j) (hnew : nonce ∉ j.dedup.getD [])
    (hfull : dedupPerJob ≤ (j.dedup.getD []).length) : (s.checkDuplicate r nonce).2 = s := by
  have hsame : (j.checkAndRecord nonce).2 = j := by
    unfold Job.checkAndRecord Dedup.checkAndRecord
    rw [if_neg hnew, if_neg hfull.not_gt]
    cases hdedup : j.dedup with
    | none =>
      rw [hdedup] at hfull
      exact absurd hfull (by decide)
    | some nonces =>
      obtain ⟨jobId, template, servedTarget, servedDifficulty, dedup⟩ := j
      cases hdedup
      rfl
  unfold checkDuplicate
  rw [hj]
  dsimp only
  rw [hsame]
  cases r with
  | live i =>
    have hring : Function.update s.ring i (some j) = s.ring :=
      (congrArg (Function.update s.ring i) hj.symm).trans (Function.update_eq_self i s.ring)
    show { s with ring := Function.update s.ring i (some j) } = s
    rw [hring]
  | previous =>
    show { s with previous := some j } = s
    rw [← show s.previous = some j from hj]

/-- A table with room has the nonce afterwards. -/
theorem mem_of_checkDuplicate (hj : s.get r = some j)
    (hroom : (j.dedup.getD []).length < dedupPerJob) :
    ∃ j', (s.checkDuplicate r nonce).2.get r = some j' ∧ nonce ∈ j'.dedup.getD [] := by
  refine ⟨_, (checkDuplicate_spec hj nonce).2, ?_⟩
  unfold Job.checkAndRecord Dedup.checkAndRecord
  rw [if_pos hroom]
  dsimp only
  split
  case isTrue hmem => exact hmem
  case isFalse => exact List.mem_append_right _ (List.mem_singleton_self nonce)

/-- A number is found in one place, at whatever time. -/
theorem jobRef_lookup_unique {r' : JobRef} {nowMs' : Nat}
    (h : (s.lookup jobId nowMs).jobRef = some r) (h' : (s.lookup jobId nowMs').jobRef = some r') :
    r = r' := by
  unfold lookup at h h'
  split at h
  case h_1 i hfind =>
    rw [hfind] at h'
    exact Option.some.inj (h.symm.trans h')
  case h_2 hfind =>
    have hprevious {now : Nat} {q : JobRef} (hq : (if s.previous.map (·.jobId) = some jobId then
        if now - s.lastCleanMs ≤ staleCreditGrace then JobLookup.staleCredited else .stale
        else if jobId < s.nextId then .stale else .unknown).jobRef = some q) : q = .previous := by
      split at hq
      · split at hq
        · exact (Option.some.inj hq).symm
        · cases hq
      · split at hq <;> cases hq
    rw [hfind] at h'
    exact (hprevious h).trans (hprevious h').symm

theorem lookup_checkDuplicate (hj : s.get r = some j) :
    (s.checkDuplicate r nonce).2.lookup jobId nowMs = s.lookup jobId nowMs := by
  unfold checkDuplicate
  rw [hj]
  exact lookup_set hj rfl

end JobSlots

namespace Session

variable {σ β ν : Type}

/-- Nothing that counts against a miner has changed, nor its credit. -/
structure Costless (s s' : Session ν β) (sh sh' : Shared σ β) : Prop where
  jobs : s'.jobs = s.jobs
  shares : s'.acceptedShares = s.acceptedShares
  difficulty : s'.acceptedDifficulty = s.acceptedDifficulty
  bans : sh'.bans = sh.bans

/-- At whatever time a share is sent, its nonce is not in the table of its job. -/
def Renews (s : Session ν β) (jobId : UInt32) (nonce : UInt64) : Prop :=
  ∀ nowMs job, (s.jobs.lookup jobId nowMs).jobRef.bind s.jobs.get = some job →
    nonce ∉ job.dedup.getD []

variable {s t u : Session ν β} {sh sh' : Shared σ β} {id : Option Nat} {slot : JobRef}
  {eligible : Bool} {jobId : UInt32} {nonce : UInt64} {nowMs : Nat} {work : ShareWork} {job : Job}

theorem Costless.trans {sh'' : Shared σ β} (h : Costless s t sh sh')
    (h' : Costless t u sh' sh'') : Costless s u sh sh'' :=
  ⟨h'.jobs.trans h.jobs, h'.shares.trans h.shares, h'.difficulty.trans h.difficulty,
    h'.bans.trans h.bans⟩

theorem costless_admitShare (s : Session ν β) (sh : Shared σ β) (work : ShareWork) :
    Costless s (s.admitShare work) sh sh := by
  unfold admitShare
  generalize s.admission.request = a
  obtain ⟨admitted, admission⟩ := a
  cases admitted <;> exact ⟨rfl, rfl, rfl, rfl⟩

theorem costless_onVerifyRefused (s : Session ν β) (sh : Shared σ β) (id : Option Nat) :
    Costless s (s.onVerifyRefused id) sh sh := by
  unfold onVerifyRefused proceed
  dsimp only
  split
  · split <;> exact ⟨rfl, rfl, rfl, rfl⟩
  · exact ⟨rfl, rfl, rfl, rfl⟩

variable [SliceSource σ] [TokenBucket β]

theorem vetNonce_jobs (hjob : s.jobs.get slot = some job)
    (h : vetSubmit.vetNonce s sh id slot eligible nonce nowMs = (some work, t, sh')) :
    ((s.e1.any fun e1 ↦ sliceOwns e1 s.sub (SliceSource.subBits sh.e1) nonce &&
        SliceSource.holds sh.e1 e1 s.sub) = true ∧ (TokenBucket.take s.submits nowMs).1 = true) ∧
      nonce ∉ job.dedup.getD [] ∧
      Costless { s with jobs := (s.jobs.checkDuplicate slot nonce).2 } t sh sh' ∧
      t.admission = s.admission := by
  unfold vetSubmit.vetNonce at h
  split at h
  case h_1 => cases h
  case h_2 e1 he1 =>
    split at h
    case isTrue => cases h
    case isFalse howns =>
      split at h
      case isTrue => cases h
      case isFalse hholds =>
        split at h
        case h_1 => cases h
        case h_2 submits htake =>
          have hdup := (JobSlots.checkDuplicate_spec hjob nonce).1
          dsimp only at h
          split at h
          case h_1 => cases h
          case h_2 jobs hcheck =>
            rw [hcheck] at hdup
            split at h
            case h_1 => cases h
            case h_2 =>
              cases h
              refine ⟨⟨?_, congrArg Prod.fst htake⟩, fun hmem ↦ absurd (hdup.mpr hmem) Bool.false_ne_true,
                ⟨(congrArg Prod.snd hcheck).symm, rfl, rfl, rfl⟩, rfl⟩
              rw [he1, Option.any_some, of_not_not howns, of_not_not hholds]
              rfl

/-- What a submit that makes a work does to the session. -/
theorem vetSubmit_jobs (h : s.vetSubmit sh id jobId nonce nowMs = (some work, t, sh')) :
    ∃ slot job, (s.jobs.lookup jobId nowMs).jobRef = some slot ∧ s.jobs.get slot = some job ∧
      s.weighs sh jobId nonce nowMs = some job ∧ nonce ∉ job.dedup.getD [] ∧
      Costless { s with jobs := (s.jobs.checkDuplicate slot nonce).2 } t sh sh' ∧
      t.admission = s.admission := by
  have hnonce (slot : JobRef) (eligible : Bool) (hphase : s.phase = .authorized)
      (href : (s.jobs.lookup jobId nowMs).jobRef = some slot)
      (hvet : vetSubmit.vetNonce s sh id slot eligible nonce nowMs = (some work, t, sh')) :
      ∃ slot job, (s.jobs.lookup jobId nowMs).jobRef = some slot ∧ s.jobs.get slot = some job ∧
        s.weighs sh jobId nonce nowMs = some job ∧ nonce ∉ job.dedup.getD [] ∧
        Costless { s with jobs := (s.jobs.checkDuplicate slot nonce).2 } t sh sh' ∧
        t.admission = s.admission := by
    obtain ⟨job, hjob, -⟩ := JobSlots.get_lookup href
    obtain ⟨hpasses, hmem, hrest⟩ := vetNonce_jobs hjob hvet
    refine ⟨slot, job, href, hjob, ?_, hmem, hrest⟩
    unfold weighs
    rw [if_pos ⟨hphase, hpasses⟩, href, Option.bind_some, hjob]
  unfold vetSubmit at h
  split at h
  case isTrue => cases h
  case isFalse hphase =>
    split at h
    case h_1 => cases h
    case h_2 => cases h
    case h_3 i hlookup =>
      exact hnonce (.live i) true (of_not_not hphase) (congrArg JobLookup.jobRef hlookup) h
    case h_4 hlookup =>
      exact hnonce .previous false (of_not_not hphase) (congrArg JobLookup.jobRef hlookup) h

/-! ## Busy answers -/

/-- The session after a submit that is answered with busy: it has two shares on their way; or the
share was admitted, and the verifier has no room for it, now or when its turn has come, with the
tables and the credit as the submit left them. -/
inductive Busy (s : Session ν β) (sh : Shared σ β) (id : Option Nat) (jobId : UInt32)
    (nonce : UInt64) (nowMs : Nat) : Session ν β → Prop where
  | admission {work : ShareWork} {t : Session ν β} {sh' : Shared σ β}
      (hvet : s.vetSubmit sh id jobId nonce nowMs = (some work, t, sh'))
      (hfull : s.admission.request.1 = .busy) :
      Busy s sh id jobId nonce nowMs (s.onSubmit sh id jobId nonce nowMs).1
  | verifier {work : ShareWork} {t : Session ν β} {sh' : Shared σ β}
      (hvet : s.vetSubmit sh id jobId nonce nowMs = (some work, t, sh'))
      (hadmitted : s.admission.request.1 ≠ .busy) {u : Session ν β}
      (hu : Costless (s.onSubmit sh id jobId nonce nowMs).1 u sh sh) :
      Busy s sh id jobId nonce nowMs (u.onVerifyRefused work.requestId)

/-- A busy answer leaves what the check for duplicates made of the tables. -/
theorem Busy.record (h : Busy s sh id jobId nonce nowMs u) :
    ∃ slot job, (s.jobs.lookup jobId nowMs).jobRef = some slot ∧ s.jobs.get slot = some job ∧
      s.weighs sh jobId nonce nowMs = some job ∧ nonce ∉ job.dedup.getD [] ∧
      Costless { s with jobs := (s.jobs.checkDuplicate slot nonce).2 } u sh
        (s.onSubmit sh id jobId nonce nowMs).2 := by
  have hsubmit {work : ShareWork} {t : Session ν β} {sh' : Shared σ β}
      (hvet : s.vetSubmit sh id jobId nonce nowMs = (some work, t, sh')) :
      s.onSubmit sh id jobId nonce nowMs = (t.admitShare work, sh') := by
    unfold onSubmit
    rw [hvet]
  cases h with
  | admission hvet hfull =>
    obtain ⟨slot, job, href, hjob, hweighs, hmem, hcost, -⟩ := vetSubmit_jobs hvet
    rw [hsubmit hvet]
    exact ⟨slot, job, href, hjob, hweighs, hmem, hcost.trans (costless_admitShare _ _ _)⟩
  | verifier hvet hadmitted hu =>
    obtain ⟨slot, job, href, hjob, hweighs, hmem, hcost, -⟩ := vetSubmit_jobs hvet
    rw [hsubmit hvet] at hu ⊢
    rename_i work t sh' u
    have hend := (costless_admitShare t sh work).trans
      (hu.trans (costless_onVerifyRefused u sh work.requestId))
    exact ⟨slot, job, href, hjob, hweighs, hmem, hcost.jobs ▸ hend.jobs,
      hend.shares.trans hcost.shares, hend.difficulty.trans hcost.difficulty, hcost.bans⟩

/-- A busy answer costs a miner nothing, and its share is new when it is sent again, exactly when
the table of the job was full before. -/
theorem busy_costless_iff (h : Busy s sh id jobId nonce nowMs u) :
    (Costless s u sh (s.onSubmit sh id jobId nonce nowMs).2 ∧ u.Renews jobId nonce) ↔
      ∃ job, s.weighs sh jobId nonce nowMs = some job ∧
        dedupPerJob ≤ (job.dedup.getD []).length := by
  obtain ⟨slot, job, href, hjob, hweighs, hmem, hcost⟩ := h.record
  constructor
  · rintro ⟨-, hrenews⟩
    refine ⟨job, hweighs, ?_⟩
    by_contra hroom
    obtain ⟨job', hget, hin⟩ := JobSlots.mem_of_checkDuplicate hjob (not_le.mp hroom)
    refine hrenews nowMs job' ?_ hin
    rw [hcost.jobs]
    show ((s.jobs.checkDuplicate slot nonce).2.lookup jobId nowMs).jobRef.bind
      (s.jobs.checkDuplicate slot nonce).2.get = some job'
    rw [JobSlots.lookup_checkDuplicate hjob, href]
    exact hget
  · rintro ⟨job', hweighs', hfull⟩
    cases hweighs.symm.trans hweighs'
    have hsame := JobSlots.checkDuplicate_of_full hjob hmem hfull
    rw [hsame] at hcost
    refine ⟨hcost, fun nowMs' job' hget hin ↦ ?_⟩
    rw [show u.jobs = s.jobs from hcost.jobs] at hget
    obtain ⟨slot', href', hjob'⟩ := Option.bind_eq_some_iff.mp hget
    obtain rfl := JobSlots.jobRef_lookup_unique href href'
    cases hjob.symm.trans hjob'
    exact hmem hin

end Session

/-! ### A share that is sent again -/

section

local instance : TokenBucket Unit := Pipeline.unlimited

local instance : SliceSource Unit := Pipeline.oneSlice

local instance : Vardiff Unit := Pipeline.fixed

/-- A submit for the first job. -/
def submit (id : Nat) (nonce : UInt64) : Nat × Event Unit Unit :=
  (1000, .line (some (.submit (some id) 0 nonce)))

/-- A share goes through the verifier. -/
def verify : List (Nat × Event Unit Unit) :=
  [(1000, .actions), (1000, .begin), (1000, .finish 0 false .accepted), (1000, .result)]

/-- A session with one share at the verifier and one that waits. -/
def laden : Pipeline Unit Unit Unit :=
  (Pipeline.new 1 (.v4 (Arr.ofNat 4 1)) 0 Pipeline.oneTemplate [] []).run (fun _ ↦ 0) 8
    (Pipeline.handshake ++ [submit 5 1, submit 6 2])

/-- The session when a third share has come, and the two before it have been verified. -/
def relieved : Pipeline Unit Unit Unit :=
  laden.run (fun _ ↦ 0) 8 ([submit 7 3] ++ verify ++ verify)

theorem busy_laden :
    laden.session.Busy laden.shared (some 7) 0 3 1000
      (laden.session.onSubmit laden.shared (some 7) 0 3 1000).1 := by
  have hsome : (laden.session.vetSubmit laden.shared (some 7) 0 3 1000).1.isSome = true := by
    decide +kernel
  obtain ⟨work, hwork⟩ := Option.isSome_iff_exists.mp hsome
  exact .admission (Prod.ext hwork rfl) (by decide +kernel)

/-- A third share is answered with busy, and leaves its nonce in the table.  When the two before it
have been verified it is sent again, and scored as a duplicate. -/
theorem busy_share_scored :
    (∃ u, laden.session.Busy laden.shared (some 7) 0 3 1000 u ∧
      u.outbuf.getLast? = some (.error (some 7) .serverBusy) ∧
      u.jobs.get (.live 0) ≠ laden.session.jobs.get (.live 0) ∧ ¬u.Renews 0 3) ∧
    (relieved.shared.bans.score (.v4 (Arr.ofNat 4 1)) 1000).1 = 0 ∧
    (relieved.run (fun _ ↦ 0) 8 [submit 8 3]).session.outbuf.getLast? =
      some (.error (some 8) .duplicateShare) ∧
    ((relieved.run (fun _ ↦ 0) 8 [submit 8 3]).shared.bans.score (.v4 (Arr.ofNat 4 1)) 1000).1 =
      25 := by
  refine ⟨⟨_, busy_laden, by decide +kernel, by decide +kernel, fun h ↦ ?_⟩, by decide +kernel,
    by decide +kernel, by decide +kernel⟩
  have hjob : (((laden.session.onSubmit laden.shared (some 7) 0 3 1000).1.jobs.lookup 0
      1000).jobRef.bind (laden.session.onSubmit laden.shared (some 7) 0 3 1000).1.jobs.get).isSome =
        true := by
    decide +kernel
  obtain ⟨job, hjob⟩ := Option.isSome_iff_exists.mp hjob
  have hin : (((laden.session.onSubmit laden.shared (some 7) 0 3 1000).1.jobs.lookup 0
      1000).jobRef.bind (laden.session.onSubmit laden.shared (some 7) 0 3 1000).1.jobs.get).all
        (fun job ↦ decide (3 ∈ job.dedup.getD [])) = true := by
    decide +kernel
  rw [hjob] at hin
  exact h 1000 job hjob (of_decide_eq_true hin)

/-- The table of the job has room. -/
theorem busy_costless_laden :
    ¬(laden.session.Costless (laden.session.onSubmit laden.shared (some 7) 0 3 1000).1 laden.shared
        (laden.session.onSubmit laden.shared (some 7) 0 3 1000).2 ∧
      (laden.session.onSubmit laden.shared (some 7) 0 3 1000).1.Renews 0 3) := by
  rw [Session.busy_costless_iff busy_laden]
  rintro ⟨job, hjob, hfull⟩
  have hroom : (laden.session.weighs laden.shared 0 3 1000).all
      (fun job ↦ decide ((job.dedup.getD []).length < dedupPerJob)) = true := by
    decide +kernel
  rw [hjob] at hroom
  exact (of_decide_eq_true hroom).not_ge hfull

end

end Plaine.Stratum

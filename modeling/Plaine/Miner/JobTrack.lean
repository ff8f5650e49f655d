import Plaine.Stratum.Issued

/-!
# The jobs a miner tracks

`JobTrack` of `miner/src/client/mod.rs`, which tells which solutions are worth sending, beside the
slots of the server, which tell which are credited.  Both remember the same history: the client in a
list with an expiry of its own, the server in a ring and a previous slot.

Times are in nanoseconds, as the client's instants are; the server sees them in milliseconds.
-/

namespace Plaine.Miner

open Plaine.Stratum

/-- `work::JOB_SLOTS`. -/
def jobSlots : Nat := 4

/-- `work::STALE_CREDIT_GRACE`. -/
def staleCreditGrace : Nat := 5 * 1000000000

/-- A time as the server has it. -/
def millis (now : Nat) : Nat := now / 1000000

/-- `JobTrack`. -/
structure JobTrack where
  live : List UInt32
  displaced : Option (UInt32 × Nat)
  newest : Option UInt32

namespace JobTrack

/-- `JobTrack::default`. -/
def default : JobTrack := ⟨[], none, none⟩

/-- The first jobs go until no more than `JOB_SLOTS` are left. -/
def trim (live : List UInt32) : List UInt32 := live.drop (live.length - jobSlots)

/-- `JobTrack::notify`. -/
def notify (j : JobTrack) (jobId : UInt32) (clean : Bool) (now : Nat) : JobTrack :=
  let j := if clean then { j with displaced := j.live.getLast?.map (·, now), live := [] } else j
  { j with live := trim (j.live ++ [jobId]), newest := some jobId }

/-- `JobTrack::submittable`. -/
def submittable (j : JobTrack) (jobId : UInt32) (now : Nat) : Bool :=
  if jobId ∈ j.live then true
  else j.displaced.any fun (id, since) ↦ id = jobId ∧ now - since < staleCreditGrace

end JobTrack

/-! ## What the client has heard -/

open Issued

variable {j : JobTrack} {h : List Issued} {now : Nat} {jobId : UInt32}

/-- The newest of the live jobs is the newest of all. -/
theorem head_live (h : List Issued) : (live h).head? = h.head? := by
  cases h with
  | nil => rfl
  | cons x h =>
    rw [live, sinceClean]
    split <;> rfl

/-- The client has heard of a history. -/
structure JobTrack.Hears (j : JobTrack) (h : List Issued) : Prop where
  live : j.live = ((Issued.live h).map (·.job.jobId)).reverse
  displaced : ∃ t, cleanedMs h = millis t ∧
    j.displaced = (retired h).map fun x ↦ (x.job.jobId, t)

namespace JobTrack

theorem hears_default : default.Hears [] := ⟨rfl, 0, rfl, rfl⟩

/-- A notify adds its job to the history. -/
theorem Hears.notify (hj : j.Hears h) (job : Job) (clean : Bool) (now : Nat) :
    (j.notify job.jobId clean now).Hears (⟨job, clean, millis now⟩ :: h) := by
  cases clean with
  | true =>
    refine ⟨?_, now, rfl, ?_⟩
    · rw [live_cons_of_clean rfl]
      rfl
    · change j.live.getLast?.map (·, now) = h.head?.map _
      rw [hj.live, List.getLast?_reverse, List.head?_map, head_live, Option.map_map]
      rfl
  | false =>
    refine ⟨?_, hj.displaced⟩
    have htrim : ∀ (l : List UInt32) (a : UInt32),
        trim ((l.take 4).reverse ++ [a]) = (a :: l.take 3).reverse := by
      intro l a
      have h4 : (a :: l.take 4).take 4 = a :: l.take 3 := by
        rw [List.take_succ_cons, List.take_take]
        rfl
      rw [trim, ← List.reverse_cons, List.length_reverse, ← h4]
      exact List.reverse_take.symm
    rw [live_cons_of_not_clean rfl, List.map_cons, List.map_take, ← htrim, ← List.map_take]
    change trim (j.live ++ [job.jobId]) = _
    rw [hj.live]
    rfl

/-- What the client would send is what the history credits, but for the end of the grace. -/
theorem Hears.submittable_iff (hj : j.Hears h) : ∃ t, cleanedMs h = millis t ∧
    (j.submittable jobId now = true ↔ (∃ x ∈ Issued.live h, x.job.jobId = jobId) ∨
      (∃ x, retired h = some x ∧ x.job.jobId = jobId) ∧ now - t < Miner.staleCreditGrace) := by
  obtain ⟨t, ht, hdisplaced⟩ := hj.displaced
  have hlive : jobId ∈ j.live ↔ ∃ x ∈ Issued.live h, x.job.jobId = jobId := by
    rw [hj.live, List.mem_reverse, List.mem_map]
  refine ⟨t, ht, ?_⟩
  rw [← hlive, submittable, hdisplaced]
  split
  case isTrue hmem => exact iff_of_true rfl (.inl hmem)
  case isFalse hmem =>
    rw [or_iff_right hmem, Option.any_map, Option.any_eq_true]
    constructor
    · rintro ⟨x, hx, hgrace⟩
      obtain ⟨hid, hgrace⟩ := of_decide_eq_true hgrace
      exact ⟨⟨x, hx, hid⟩, hgrace⟩
    · rintro ⟨⟨x, hx, hid⟩, hgrace⟩
      exact ⟨x, hx, decide_eq_true ⟨hid, hgrace⟩⟩

end JobTrack

/-! ## Both ends -/

/-- A connection: what the server has, and what the client has. -/
structure Link where
  server : JobSlots
  client : JobTrack

/-- What happens to the jobs of a connection: one is pushed and its notify delivered, or a nonce is
looked up. -/
inductive LinkEvent where
  | notify (template : Template) (servedTarget : Target) (servedDifficulty : Nat) (clean : Bool)
      (now : Nat)
  | checkDuplicate (r : JobRef) (nonce : UInt64)

/-- The connection after an event. -/
def Link.step (w : Link) : LinkEvent → Link
  | .notify template servedTarget servedDifficulty clean now =>
    let (jobId, server) := w.server.push template servedTarget servedDifficulty clean (millis now)
    ⟨server, w.client.notify jobId clean now⟩
  | .checkDuplicate r nonce => { w with server := (w.server.checkDuplicate r nonce).2 }

/-- The connection after a run of events. -/
def Link.run (events : List LinkEvent) : Link :=
  events.foldl Link.step ⟨JobSlots.new, JobTrack.default⟩

/-- Both ends remember one history. -/
theorem Link.exists_history (events : List LinkEvent) :
    ∃ h, (Link.run events).server.Tells h ∧ (Link.run events).client.Hears h := by
  induction events using List.reverseRecOn with
  | nil => exact ⟨[], JobSlots.tells_new, JobTrack.hears_default⟩
  | append_singleton events event ih =>
    obtain ⟨h, hserver, hclient⟩ := ih
    rw [Link.run, List.foldl_append]
    cases event with
    | notify template servedTarget servedDifficulty clean now =>
      refine ⟨_, hserver.push template servedTarget servedDifficulty clean (millis now), ?_⟩
      have hclient' := hclient.notify
        ⟨(Link.run events).server.nextId, template, servedTarget, servedDifficulty, none⟩ clean now
      cases clean <;> exact hclient'
    | checkDuplicate r nonce => exact ⟨h, hserver.checkDuplicate r nonce, hclient⟩

/-- In every run and at every time, what the client would send the server would credit, and what the
server would credit the client would send, unless the grace period is just at its end. -/
theorem client_agrees (events : List LinkEvent) (jobId : UInt32) (now : Nat) :
    let w := Link.run events
    (w.client.submittable jobId now = true →
      (∃ i, w.server.lookup jobId (millis now) = .live i) ∨
        w.server.lookup jobId (millis now) = .staleCredited) ∧
    ((∃ i, w.server.lookup jobId (millis now) = .live i) ∨
        w.server.lookup jobId (millis now) = .staleCredited →
      w.client.submittable jobId now = true ∨
        millis now - w.server.lastCleanMs = Stratum.staleCreditGrace) := by
  intro w
  obtain ⟨h, hserver, hclient⟩ := Link.exists_history events
  obtain ⟨t, ht, hsubmittable⟩ := @hclient.submittable_iff _ _ now jobId
  have hlive : (∃ i, w.server.lookup jobId (millis now) = .live i) ↔
      ∃ x ∈ live h, x.job.jobId = jobId := hserver.live_iff
  rw [hsubmittable, hlive]
  by_cases hl : ∃ x ∈ live h, x.job.jobId = jobId
  · exact ⟨fun _ ↦ .inl hl, fun _ ↦ .inl (.inl hl)⟩
  · have hcredited := hserver.credited_iff (hlive.not.mpr hl)
    rw [Credited, ht] at hcredited
    have hsooner : now - t < staleCreditGrace →
        millis now - millis t ≤ Stratum.staleCreditGrace := by
      unfold millis staleCreditGrace Stratum.staleCreditGrace
      omega
    have hlater : millis now - millis t ≤ Stratum.staleCreditGrace →
        now - t < staleCreditGrace ∨ millis now - millis t = Stratum.staleCreditGrace := by
      unfold millis staleCreditGrace Stratum.staleCreditGrace
      omega
    rw [or_iff_right hl, or_iff_right hl, hcredited, hserver.lastCleanMs, ht]
    constructor
    · rintro ⟨hid, hgrace⟩
      exact ⟨hid, hsooner hgrace⟩
    · rintro ⟨hid, hgrace⟩
      exact (hlater hgrace).imp_left fun h ↦ ⟨hid, h⟩

end Plaine.Miner

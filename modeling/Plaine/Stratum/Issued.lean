import Plaine.Stratum.Job

/-!
# The jobs that were issued

The history of a session's jobs, the newest first, and what the ring of `stratum/src/job.rs` with its
moving head and its previous slot says of it.  The ring is read from its head backwards: there it has
the live jobs of the history in their order.
-/

namespace Plaine.Stratum

open Plaine.Lib

/-! ## Histories -/

/-- A job as it was pushed. -/
structure Issued where
  job : Job
  clean : Bool
  nowMs : Nat
deriving DecidableEq

namespace Issued

/-- The jobs pushed since the last clean push, and the job of that push. -/
def sinceClean : List Issued → List Issued
  | [] => []
  | x :: h => if x.clean then [x] else x :: sinceClean h

/-- The jobs a miner may work on: the last of those since the last clean push. -/
def live (h : List Issued) : List Issued := (sinceClean h).take jobSlots

/-- The newest job before the last clean push. -/
def retired : List Issued → Option Issued
  | [] => none
  | x :: h => if x.clean then h.head? else retired h

/-- When the last clean push was. -/
def cleanedMs : List Issued → Nat
  | [] => 0
  | x :: h => if x.clean then x.nowMs else cleanedMs h

/-- The jobs are numbered as they come. -/
def Numbered : List Issued → Prop
  | [] => True
  | x :: h => x.job.jobId = UInt32.ofNat h.length ∧ Numbered h

/-- The last job before the last clean push is credited for a while. -/
def Credited (h : List Issued) (jobId : UInt32) (nowMs : Nat) : Prop :=
  (∃ x, retired h = some x ∧ x.job.jobId = jobId) ∧ nowMs - cleanedMs h ≤ staleCreditGrace

variable {x y : Issued} {h : List Issued} {jobId : UInt32}

theorem live_cons_of_clean (hx : x.clean = true) : live (x :: h) = [x] := by
  rw [live, sinceClean, if_pos hx]
  rfl

theorem live_cons_of_not_clean (hx : x.clean = false) :
    live (x :: h) = x :: (sinceClean h).take 3 := by
  rw [live, sinceClean, if_neg (Bool.not_eq_true _ ▸ hx)]
  rfl

/-- What is not since the last clean push begins with the job that push retired. -/
theorem sinceClean_append (h : List Issued) :
    ∃ rest, h = sinceClean h ++ rest ∧ ∀ y, retired h = some y → y ∈ rest := by
  induction h with
  | nil => exact ⟨[], rfl, fun y hy ↦ (by cases hy)⟩
  | cons x h ih =>
    rw [sinceClean, retired]
    split
    case isTrue => exact ⟨h, rfl, fun y hy ↦ List.mem_of_mem_head? hy⟩
    case isFalse =>
      obtain ⟨rest, hh, hrest⟩ := ih
      exact ⟨rest, congrArg (x :: ·) hh, hrest⟩

theorem mem_of_mem_live (hx : x ∈ live h) : x ∈ h := by
  obtain ⟨rest, hh, -⟩ := sinceClean_append h
  rw [hh]
  exact List.mem_append_left _ (List.mem_of_mem_take hx)

/-- A live job was pushed with at most three after it, and none of those was clean. -/
theorem exists_of_mem_live (hx : x ∈ live h) :
    ∃ later earlier, h = later ++ x :: earlier ∧ (∀ y ∈ later, y.clean = false) ∧
      later.length < jobSlots := by
  have hsplit (k : Nat) (h : List Issued) (hx : x ∈ (sinceClean h).take k) :
      ∃ later earlier, h = later ++ x :: earlier ∧ (∀ y ∈ later, y.clean = false) ∧
        later.length < k := by
    induction h generalizing k with
    | nil =>
      rw [sinceClean, List.take_nil] at hx
      cases hx
    | cons y h ih =>
      cases k with
      | zero => cases hx
      | succ k =>
        rw [sinceClean] at hx
        split at hx
        case isTrue =>
          rw [List.take_succ_cons, List.take_nil, List.mem_singleton] at hx
          exact ⟨[], h, congrArg (· :: h) hx.symm, fun z hz ↦ (by cases hz), Nat.succ_pos k⟩
        case isFalse hclean =>
          rw [List.take_succ_cons, List.mem_cons] at hx
          rcases hx with rfl | hx
          · exact ⟨[], h, rfl, fun z hz ↦ (by cases hz), Nat.succ_pos k⟩
          · obtain ⟨later, earlier, rfl, hlater, hk⟩ := ih k hx
            refine ⟨y :: later, earlier, rfl, ?_, Nat.succ_lt_succ hk⟩
            exact List.forall_mem_cons.mpr ⟨Bool.not_eq_true _ ▸ hclean, hlater⟩
  exact hsplit jobSlots h hx

theorem mem_of_retired (hx : retired h = some x) : x ∈ h := by
  obtain ⟨rest, hh, hrest⟩ := sinceClean_append h
  rw [hh]
  exact List.mem_append_right _ (hrest x hx)

/-- A number was issued when it is below the number of jobs. -/
theorem Numbered.exists_iff (hn : Numbered h) (hlt : h.length < 2 ^ 32) :
    (∃ x ∈ h, x.job.jobId = jobId) ↔ jobId.toNat < h.length := by
  induction h with
  | nil =>
    refine iff_of_false ?_ (Nat.not_lt_zero _)
    rintro ⟨x, hx, -⟩
    cases hx
  | cons x h ih =>
    obtain ⟨hx, hn⟩ := hn
    have hlt' : h.length < 2 ^ 32 := Nat.lt_of_succ_lt hlt
    rw [List.length_cons, Nat.lt_succ_iff_lt_or_eq, ← ih hn hlt', List.exists_mem_cons_iff, hx,
      ← UInt32.toNat_inj, UInt32.toNat_ofNat_of_lt' hlt', or_comm, eq_comm]

/-- No number is issued twice. -/
theorem Numbered.nodup (hn : Numbered h) (hlt : h.length < 2 ^ 32) :
    (h.map (·.job.jobId)).Nodup := by
  induction h with
  | nil => exact List.nodup_nil
  | cons x h ih =>
    obtain ⟨hx, hn⟩ := hn
    have hlt' : h.length < 2 ^ 32 := Nat.lt_of_succ_lt hlt
    rw [List.map_cons, List.nodup_cons]
    refine ⟨fun hmem ↦ ?_, ih hn hlt'⟩
    have hlast := (hn.exists_iff hlt').mp (List.mem_map.mp hmem)
    rw [hx, UInt32.toNat_ofNat_of_lt' hlt'] at hlast
    exact lt_irrefl _ hlast

/-- The job that was retired has not the number of a live one. -/
theorem Numbered.live_ne_retired (hn : Numbered h) (hlt : h.length < 2 ^ 32) (hx : x ∈ live h)
    (hy : retired h = some y) : x.job.jobId ≠ y.job.jobId := by
  obtain ⟨rest, hh, hrest⟩ := sinceClean_append h
  have hnodup := hn.nodup hlt
  rw [hh, List.map_append, List.nodup_append] at hnodup
  exact hnodup.2.2 _ (List.mem_map_of_mem (List.mem_of_mem_take hx)) _
    (List.mem_map_of_mem (hrest y hy))

end Issued

/-! ## Slots -/

section

variable (a d : Fin jobSlots)

theorem slot_sub_zero : a - 0 = a := by
  revert a
  decide

theorem slot_sub_sub : a - (a - d) = d := by
  revert a d
  decide

theorem slot_zero_sub : 0 - d = 0 ↔ d = 0 := by
  revert d
  decide

theorem slot_succ_sub_succ : a + 1 - (d + 1) = a - d := by
  revert a d
  decide

theorem slot_sub_ne_succ : d.1 < 3 → a - d ≠ a + 1 := by
  revert a d
  decide

end

/-- A job less its table of nonces. -/
def Job.bare (j : Job) : Job := { j with dedup := none }

@[simp]
theorem Job.bare_jobId (j : Job) : j.bare.jobId = j.jobId := rfl

@[simp]
theorem Job.bare_checkAndRecord (j : Job) (nonce : UInt64) : (j.checkAndRecord nonce).2.bare = j.bare :=
  rfl

namespace JobSlots

open Issued

/-- The slots tell of a history. -/
structure Tells (s : JobSlots) (h : List Issued) : Prop where
  numbered : Numbered h
  nextId : s.nextId = UInt32.ofNat h.length
  ring : ∀ d : Fin jobSlots, (s.ring (s.head - d)).map Job.bare = (live h)[d.1]?.map (·.job)
  previous : s.previous.map Job.bare = (retired h).map (·.job)
  lastCleanMs : s.lastCleanMs = cleanedMs h

variable {s : JobSlots} {h : List Issued} {jobId : UInt32} {nowMs : Nat} {r : JobRef}

theorem tells_new : new.Tells [] := ⟨trivial, rfl, fun _ ↦ rfl, rfl, rfl⟩

/-- A push adds its job to the history. -/
theorem Tells.push (hs : s.Tells h) (template : Template) (servedTarget : Target)
    (servedDifficulty : Nat) (clean : Bool) (nowMs : Nat) :
    (s.push template servedTarget servedDifficulty clean nowMs).2.Tells
      (⟨⟨s.nextId, template, servedTarget, servedDifficulty, none⟩, clean, nowMs⟩ :: h) := by
  have hnext : s.nextId + 1 = UInt32.ofNat (h.length + 1) := by
    rw [hs.nextId, UInt32.ofNat_add]
    rfl
  cases clean with
  | true =>
    refine ⟨⟨hs.nextId, hs.numbered⟩, hnext, fun d ↦ ?_, ?_, rfl⟩
    · rw [live_cons_of_clean rfl]
      show (Function.update (fun _ ↦ none) (0 : Fin jobSlots) (some _) (0 - d)).map Job.bare = _
      by_cases hd : d = 0
      · rw [hd, slot_sub_zero, Function.update_self]
        rfl
      · rw [Function.update_of_ne ((slot_zero_sub d).not.mpr hd)]
        cases hval : d.1 with
        | zero => exact absurd (Fin.ext hval) hd
        | succ n => rfl
    · -- The newest job of the history is the one at the head.
      show (s.ring s.head).map Job.bare = _
      have hhead := hs.ring 0
      rw [slot_sub_zero] at hhead
      rw [hhead]
      cases h with
      | nil => rfl
      | cons x h =>
        show _ = some x.job
        rw [live, sinceClean]
        split <;> rfl
  | false =>
    refine ⟨⟨hs.nextId, hs.numbered⟩, hnext, fun d ↦ ?_, hs.previous, hs.lastCleanMs⟩
    rw [live_cons_of_not_clean rfl]
    show (Function.update s.ring (s.head + 1) (some _) (s.head + 1 - d)).map Job.bare = _
    cases hval : d.1 with
    | zero =>
      rw [show d = 0 from Fin.ext hval, slot_sub_zero, Function.update_self]
      rfl
    | succ n =>
      -- Three of the jobs before are one place further from the head.
      have hn : n < 3 := Nat.lt_of_succ_lt_succ (lt_of_eq_of_lt hval.symm d.2)
      have hn' : n < jobSlots := hn.trans (by decide)
      have hsucc : d = (⟨n, hn'⟩ : Fin jobSlots) + 1 := by
        refine Fin.ext (hval.trans (Nat.mod_eq_of_lt ?_).symm)
        exact Nat.succ_lt_succ hn
      rw [hsucc, slot_succ_sub_succ, Function.update_of_ne (slot_sub_ne_succ s.head ⟨n, hn'⟩ hn),
        hs.ring, live, List.getElem?_cons_succ]
      show Option.map _ (_[n]?) = _
      rw [List.getElem?_take_of_lt (hn.trans (by decide)), List.getElem?_take_of_lt hn]

/-! ### Runs of the slots -/

/-- What slots are asked to do. -/
inductive SlotOp where
  | push (template : Template) (servedTarget : Target) (servedDifficulty : Nat) (clean : Bool)
      (nowMs : Nat)
  | checkDuplicate (r : JobRef) (nonce : UInt64)

/-- The slots after an operation. -/
def perform (s : JobSlots) : SlotOp → JobSlots
  | .push template servedTarget servedDifficulty clean nowMs =>
    (s.push template servedTarget servedDifficulty clean nowMs).2
  | .checkDuplicate r nonce => (s.checkDuplicate r nonce).2

/-- The history of a run. -/
def history (ops : List SlotOp) : List Issued := ops.foldl
  (fun h op ↦ match op with
    | .push template servedTarget servedDifficulty clean nowMs =>
      ⟨⟨UInt32.ofNat h.length, template, servedTarget, servedDifficulty, none⟩, clean, nowMs⟩ :: h
    | .checkDuplicate _ _ => h) []

/-- What is kept when slots are written to, if they stay the same but for tables of nonces. -/
theorem Tells.set (hs : s.Tells h) {j j' : Job} (hj : s.get r = some j) (hbare : j'.bare = j.bare) :
    (s.set r j').Tells h := by
  cases r with
  | live i =>
    refine ⟨hs.numbered, hs.nextId, fun d ↦ ?_, hs.previous, hs.lastCleanMs⟩
    rw [← hs.ring d]
    show (Function.update s.ring i (some j') (s.head - d)).map Job.bare = _
    by_cases hi : s.head - d = i
    · rw [hi, Function.update_self, show s.ring i = some j from hj]
      exact congrArg some hbare
    · rw [Function.update_of_ne hi]
  | previous =>
    refine ⟨hs.numbered, hs.nextId, hs.ring, ?_, hs.lastCleanMs⟩
    rw [← hs.previous, show s.previous = some j from hj]
    exact congrArg some hbare

theorem Tells.checkDuplicate (hs : s.Tells h) (r : JobRef) (nonce : UInt64) :
    (s.checkDuplicate r nonce).2.Tells h := by
  unfold JobSlots.checkDuplicate
  split
  case h_1 j hj => exact hs.set hj (Job.bare_checkAndRecord j nonce)
  case h_2 => exact hs

/-- In every run. -/
theorem tells_run (ops : List SlotOp) : (ops.foldl perform new).Tells (history ops) := by
  induction ops using List.reverseRecOn with
  | nil => exact tells_new
  | append_singleton ops op ih =>
    rw [history, List.foldl_append, List.foldl_append]
    cases op with
    | push template servedTarget servedDifficulty clean nowMs =>
      have hpush := ih.push template servedTarget servedDifficulty clean nowMs
      rw [ih.nextId] at hpush
      exact hpush
    | checkDuplicate r nonce => exact ih.checkDuplicate r nonce

/-! ## Lookups -/

/-- The jobs in the ring are the live ones. -/
theorem Tells.exists_ring_iff (hs : s.Tells h) (j : Job) :
    (∃ i, (s.ring i).map Job.bare = some j) ↔ ∃ x ∈ live h, x.job = j := by
  constructor
  · rintro ⟨i, hi⟩
    have hring := hs.ring (s.head - i)
    rw [slot_sub_sub, hi] at hring
    obtain ⟨x, hx, rfl⟩ := Option.map_eq_some_iff.mp hring.symm
    exact ⟨x, List.mem_of_getElem? hx, rfl⟩
  · rintro ⟨x, hx, rfl⟩
    obtain ⟨d, hd, hget⟩ := List.getElem_of_mem hx
    have hlt : d < jobSlots := hd.trans_le (List.length_take_le _ _)
    refine ⟨s.head - ⟨d, hlt⟩, (hs.ring ⟨d, hlt⟩).trans ?_⟩
    rw [List.getElem?_eq_getElem hd, hget]
    rfl

/-- A number that is found in the ring is that of a live job. -/
theorem Tells.live_iff (hs : s.Tells h) :
    (∃ i, s.lookup jobId nowMs = .live i) ↔ ∃ x ∈ live h, x.job.jobId = jobId := by
  have hring : (∃ i, ((s.ring i).any (·.jobId == jobId)) = true) ↔
      ∃ x ∈ live h, x.job.jobId = jobId := by
    constructor
    · rintro ⟨i, hi⟩
      obtain ⟨j, hj, hid⟩ := (Option.any_eq_true _ _).mp hi
      obtain ⟨x, hx, hxj⟩ := (hs.exists_ring_iff j.bare).mp ⟨i, congrArg (Option.map _) hj⟩
      exact ⟨x, hx, (congrArg Job.jobId hxj).trans (beq_iff_eq.mp hid)⟩
    · rintro ⟨x, hx, hid⟩
      obtain ⟨i, hi⟩ := (hs.exists_ring_iff x.job).mpr ⟨x, hx, rfl⟩
      obtain ⟨j, hj, hbare⟩ := Option.map_eq_some_iff.mp hi
      refine ⟨i, (Option.any_eq_true _ _).mpr ⟨j, hj, beq_iff_eq.mpr ?_⟩⟩
      rw [← hid, ← hbare, Job.bare_jobId]
  rw [← hring]
  constructor
  · rintro ⟨i, hi⟩
    unfold lookup at hi
    split at hi
    case h_1 i' hfind =>
      exact ⟨i', List.find?_some (p := fun i ↦ (s.ring i).any (·.jobId == jobId)) hfind⟩
    case h_2 =>
      split at hi
      · split at hi <;> cases hi
      · split at hi <;> cases hi
  · rintro ⟨i, hi⟩
    unfold lookup
    split
    case h_1 i' hfind => exact ⟨i', rfl⟩
    case h_2 hfind => exact absurd hi (List.find?_eq_none.mp hfind i (List.mem_finRange i))

/-- A number that is not in the ring is looked for in the previous slot, then among the numbers that
were issued. -/
theorem lookup_of_not_live (hlive : ¬∃ i, s.lookup jobId nowMs = .live i) :
    s.lookup jobId nowMs =
      if s.previous.map (·.jobId) = some jobId then
        if nowMs - s.lastCleanMs ≤ staleCreditGrace then .staleCredited else .stale
      else if jobId < s.nextId then .stale
      else .unknown := by
  have hdef : s.lookup jobId nowMs = s.lookup jobId nowMs := rfl
  conv_rhs at hdef => unfold lookup
  split at hdef
  case h_1 i _ => exact absurd ⟨i, hdef⟩ hlive
  case h_2 => exact hdef

theorem Tells.previous_iff (hs : s.Tells h) :
    s.previous.map (·.jobId) = some jobId ↔ ∃ x, retired h = some x ∧ x.job.jobId = jobId := by
  have hmap : s.previous.map (·.jobId) = (retired h).map (·.job.jobId) := by
    have hbare := congrArg (Option.map Job.jobId) hs.previous
    rw [Option.map_map, Option.map_map] at hbare
    exact hbare
  rw [hmap, Option.map_eq_some_iff]

/-- A number that is not live is credited in the grace of the job before the last clean push. -/
theorem Tells.credited_iff (hs : s.Tells h) (hlive : ¬∃ i, s.lookup jobId nowMs = .live i) :
    s.lookup jobId nowMs = .staleCredited ↔ Credited h jobId nowMs := by
  rw [lookup_of_not_live hlive, Credited, ← hs.previous_iff, hs.lastCleanMs]
  split
  case isTrue hid =>
    rw [and_iff_right hid]
    split
    case isTrue hgrace => exact iff_of_true rfl hgrace
    case isFalse hgrace => exact iff_of_false (fun h ↦ (by cases h)) hgrace
  case isFalse hid =>
    refine iff_of_false ?_ fun h ↦ hid h.1
    split <;> exact fun h ↦ (by cases h)

/-- A lookup tells where in the history the number is. -/
theorem Tells.lookup_spec (hs : s.Tells h) (hlt : h.length < 2 ^ 32) (jobId : UInt32)
    (nowMs : Nat) :
    ((∃ i, s.lookup jobId nowMs = .live i) ↔ ∃ x ∈ live h, x.job.jobId = jobId) ∧
      (s.lookup jobId nowMs = .staleCredited ↔ Credited h jobId nowMs) ∧
      (s.lookup jobId nowMs = .stale ↔ (∃ x ∈ h, x.job.jobId = jobId) ∧
        (¬∃ x ∈ live h, x.job.jobId = jobId) ∧ ¬Credited h jobId nowMs) ∧
      (s.lookup jobId nowMs = .unknown ↔ ¬∃ x ∈ h, x.job.jobId = jobId) := by
  have hlive : (∃ i, s.lookup jobId nowMs = .live i) ↔ ∃ x ∈ live h, x.job.jobId = jobId :=
    hs.live_iff
  have hissued : jobId < s.nextId ↔ ∃ x ∈ h, x.job.jobId = jobId := by
    rw [hs.numbered.exists_iff hlt, hs.nextId, UInt32.lt_iff_toNat_lt,
      UInt32.toNat_ofNat_of_lt' hlt]
  by_cases hl : ∃ x ∈ live h, x.job.jobId = jobId
  · obtain ⟨i, hi⟩ := hlive.mpr hl
    obtain ⟨x, hx, hid⟩ := hl
    rw [hi]
    refine ⟨iff_of_true ⟨i, rfl⟩ ⟨x, hx, hid⟩, iff_of_false (fun h ↦ (by cases h)) ?_,
      iff_of_false (fun h ↦ (by cases h)) fun h ↦ h.2.1 ⟨x, hx, hid⟩,
      iff_of_false (fun h ↦ (by cases h)) fun h ↦ h ⟨x, mem_of_mem_live hx, hid⟩⟩
    rintro ⟨⟨y, hy, hyid⟩, -⟩
    exact hs.numbered.live_ne_retired hlt hx hy (hid.trans hyid.symm)
  · have hnot : ¬∃ i, s.lookup jobId nowMs = .live i := hlive.not.mpr hl
    refine ⟨hlive, ?_⟩
    rw [lookup_of_not_live hnot, hs.lastCleanMs]
    by_cases hp : s.previous.map (·.jobId) = some jobId
    · rw [if_pos hp]
      obtain ⟨y, hy, hid⟩ := hs.previous_iff.mp hp
      have hmem : ∃ x ∈ h, x.job.jobId = jobId := ⟨y, mem_of_retired hy, hid⟩
      by_cases hgrace : nowMs - cleanedMs h ≤ staleCreditGrace
      · rw [if_pos hgrace]
        have hcredited : Credited h jobId nowMs := ⟨⟨y, hy, hid⟩, hgrace⟩
        exact ⟨iff_of_true rfl hcredited,
          iff_of_false (fun h ↦ (by cases h)) fun h ↦ h.2.2 hcredited,
          iff_of_false (fun h ↦ (by cases h)) fun h ↦ h hmem⟩
      · rw [if_neg hgrace]
        have hcredited : ¬Credited h jobId nowMs := fun h ↦ hgrace h.2
        exact ⟨iff_of_false (fun h ↦ (by cases h)) hcredited,
          iff_of_true rfl ⟨hmem, hl, hcredited⟩,
          iff_of_false (fun h ↦ (by cases h)) fun h ↦ h hmem⟩
    · rw [if_neg hp]
      have hcredited : ¬Credited h jobId nowMs := fun h ↦ hp (hs.previous_iff.mpr h.1)
      by_cases hid : jobId < s.nextId
      · rw [if_pos hid]
        exact ⟨iff_of_false (fun h ↦ (by cases h)) hcredited,
          iff_of_true rfl ⟨hissued.mp hid, hl, hcredited⟩,
          iff_of_false (fun h ↦ (by cases h)) fun h ↦ h (hissued.mp hid)⟩
      · rw [if_neg hid]
        exact ⟨iff_of_false (fun h ↦ (by cases h)) hcredited,
          iff_of_false (fun h ↦ (by cases h)) fun h ↦ hid (hissued.mpr h.1),
          iff_of_true rfl (hissued.not.mp hid)⟩

/-- A lookup that finds a job finds that of the number in the history. -/
theorem Tells.get_lookup (hs : s.Tells h) (href : (s.lookup jobId nowMs).jobRef = some r) :
    ∃ x ∈ h, x.job.jobId = jobId ∧ (s.get r).map Job.bare = some x.job := by
  obtain ⟨j, hj, rfl⟩ := JobSlots.get_lookup href
  have hbare : (s.get r).map Job.bare = some j.bare := congrArg (Option.map _) hj
  rw [hbare]
  cases r with
  | live i =>
    obtain ⟨x, hx, hxj⟩ := (hs.exists_ring_iff j.bare).mp ⟨i, hbare⟩
    exact ⟨x, mem_of_mem_live hx, (congrArg Job.jobId hxj).trans (Job.bare_jobId j),
      congrArg some hxj.symm⟩
  | previous =>
    obtain ⟨x, hx, hxj⟩ := Option.map_eq_some_iff.mp (hs.previous.symm.trans hbare)
    exact ⟨x, mem_of_retired hx, (congrArg Job.jobId hxj).trans (Job.bare_jobId j),
      congrArg some hxj.symm⟩

end JobSlots

end Plaine.Stratum

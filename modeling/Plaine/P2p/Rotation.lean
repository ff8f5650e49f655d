import Mathlib.Data.List.MinMax
import Plaine.Lib.Pick
import Plaine.P2p.Score

/-!
# Rotation

`Rotator::select` of `sync/rotation.rs`, which designates the peer to sync from: of the eligible ones
the one that has delivered fastest, but not one of the group that was designated last while there
is another.
-/

namespace Plaine.P2p

open Plaine.Lib

/-- `SYNC_ELIGIBILITY_FLOOR_MS`. -/
def syncEligibilityFloorMs : Nat := 30000

/-- `Rotator`, as far as the choice goes. -/
structure Rotator where
  lastGroup : Option Group
  sinceNoneEligible : Option Mono

/-- `Designation`. -/
inductive Designation where
  | peer (id : PeerId)
  | noneYet
  | waive (id : PeerId)
deriving DecidableEq

namespace Rotator

/-- `better` in the loop of `select` over `count` eligible sessions. -/
def better (r : Rotator) (count : Nat) (best : Option (Session × Nat × Bool)) (s : Session)
    (key : Nat) (proven : Bool) : Bool :=
  let sameGroup := r.lastGroup = some s.group
  match best with
  | none => true
  | some (_, bk, bp) =>
    if sameGroup ∧ 1 < count then false
    else if proven ≠ bp then proven
    else bk < key

/-- A round of the loop. -/
def consider (r : Rotator) (now : Mono) (count : Nat) (best : Option (Session × Nat × Bool))
    (s : Session) : Option (Session × Nat × Bool) :=
  let rate := s.deliveryRate now
  let proven := rate.isSome
  let key := rate.getD 0
  if r.better count best s key proven then some (s, key, proven) else best

/-- The waiver at the end of `select`: of the peers that may be waived the one penalised least
recently. -/
def waive (r : Rotator) (peers : List Session) (now : Mono) (ahead : Session → Bool) :
    Rotator × Designation :=
  let started := r.sinceNoneEligible.getD now
  let victims := peers.filter fun s ↦
    s.outbound && s.isReady && !s.score.syncDisqualified && ahead s
  if expired now started syncEligibilityFloorMs then
    match victims.argmin fun s ↦ s.lastPenalised.getD 0 with
    | some v => ({ r with sinceNoneEligible := none }, .waive v.id)
    | none => ({ r with sinceNoneEligible := some started }, .noneYet)
  else ({ r with sinceNoneEligible := some started }, .noneYet)

/-- The sessions that `select` chooses from. -/
def eligible (peers : List Session) (now : Mono) (ahead : Session → Bool) : List Session :=
  peers.filter fun s ↦ s.outbound && s.syncEligible now && ahead s

/-- `Rotator::select`. -/
def select (r : Rotator) (peers : List Session) (now : Mono) (ahead : Session → Bool) :
    Rotator × Designation :=
  let eligible := eligible peers now ahead
  let r := if eligible = [] then r else { r with sinceNoneEligible := none }
  match eligible.foldl (r.consider now eligible.length) none with
  | some (s, _, _) => (r, .peer s.id)
  | none => r.waive peers now ahead

/-! ## What is asked of a choice -/

/-- How a session ranks: one without a delivery rate below all that have one. -/
def rank (now : Mono) (s : Session) : Nat :=
  match s.deliveryRate now with
  | none => 0
  | some rate => rate + 1

/-- A session is of another group than the one designated last. -/
def Elsewhere (r : Rotator) (s : Session) : Prop := r.lastGroup ≠ some s.group

instance (r : Rotator) : DecidablePred r.Elsewhere := fun s ↦
  inferInstanceAs (Decidable (r.lastGroup ≠ some s.group))

/-- The sessions that may be chosen: those of another group, if there are any. -/
def choosable (r : Rotator) (l : List Session) : List Session :=
  if ∃ s ∈ l, r.Elsewhere s then l.filter r.Elsewhere else l

/-- A session may be chosen, and none that may ranks higher. -/
def Leaves (r : Rotator) (now : Mono) (l : List Session) (s : Session) : Prop :=
  s ∈ r.choosable l ∧ ∀ x ∈ r.choosable l, rank now x ≤ rank now s

/-- The first of some sessions is of another group, or one of another group ranks higher than it,
or all are of the group designated last and none ranks higher. -/
def HeadFits (r : Rotator) (now : Mono) : List Session → Prop
  | [] => True
  | first :: rest => r.Elsewhere first ∨
    (∃ s ∈ rest, r.Elsewhere s ∧ rank now first < rank now s) ∨
    ∀ s ∈ first :: rest, ¬r.Elsewhere s ∧ rank now s ≤ rank now first

/-! ## The loop -/

variable {r : Rotator} {now : Mono} {s b : Session} {l rest : List Session}

/-- What the loop keeps of a session. -/
def entry (now : Mono) (s : Session) : Session × Nat × Bool :=
  (s, (s.deliveryRate now).getD 0, (s.deliveryRate now).isSome)

theorem consider_none (count : Nat) : r.consider now count none s = some (entry now s) := rfl

/-- A session is better than the best so far if it is not of the last group, unless it is alone, and
ranks higher. -/
theorem better_iff (count : Nat) :
    r.better count (some (entry now b)) s ((s.deliveryRate now).getD 0)
        (s.deliveryRate now).isSome = true ↔
      (r.Elsewhere s ∨ count ≤ 1) ∧ rank now b < rank now s := by
  have hsame : (r.Elsewhere s ∨ count ≤ 1) ↔ ¬(r.lastGroup = some s.group ∧ 1 < count) := by
    rw [Elsewhere, not_and_or, not_lt]
  rw [hsame]
  unfold better entry rank
  dsimp only
  split
  case isTrue h => simp [h]
  case isFalse h =>
    rw [and_iff_right h]
    cases s.deliveryRate now <;> cases b.deliveryRate now <;> simp

/-- A round of the loop picks. -/
theorem consider_some (count : Nat) : r.consider now count (some (entry now b)) s =
    some (entry now (pick (rank now) (fun x ↦ r.Elsewhere x ∨ count ≤ 1) b s)) := by
  unfold consider pick
  dsimp only
  by_cases h : (r.Elsewhere s ∨ count ≤ 1) ∧ rank now b < rank now s
  · rw [if_pos ((better_iff count).mpr h), if_pos h]
    rfl
  · rw [if_neg (mt (better_iff count).mp h), if_neg h]

theorem foldl_consider (count : Nat) (b : Session) (rest : List Session) :
    rest.foldl (r.consider now count) (some (entry now b)) =
      some (entry now (rest.foldl (pick (rank now) fun x ↦ r.Elsewhere x ∨ count ≤ 1) b)) := by
  induction rest generalizing b with
  | nil => rfl
  | cons s rest ih => rw [List.foldl_cons, List.foldl_cons, consider_some, ih]

/-- The session that is designated. -/
def designated (r : Rotator) (now : Mono) (l : List Session) : Option Session :=
  (l.foldl (r.consider now l.length) none).map (·.1)

theorem designated_cons (first : Session) (rest : List Session) :
    r.designated now (first :: rest) =
      some (rest.foldl (pick (rank now) fun x ↦ r.Elsewhere x ∨ (first :: rest).length ≤ 1)
        first) := by
  unfold designated
  rw [List.foldl_cons, consider_none, foldl_consider]
  rfl

theorem select_eq {peers : List Session} {ahead : Session → Bool}
    (h : r.designated now (eligible peers now ahead) = some s) :
    (r.select peers now ahead).2 = .peer s.id := by
  have hne : eligible peers now ahead ≠ [] := by
    intro hnil
    rw [hnil] at h
    cases h
  have hr : ({ r with sinceNoneEligible := none } : Rotator).consider now
      (eligible peers now ahead).length = r.consider now (eligible peers now ahead).length := rfl
  obtain ⟨x, hx, rfl⟩ := Option.map_eq_some_iff.mp h
  unfold select
  dsimp only
  rw [if_neg hne, hr, hx]

/-! ## When the choice leaves the last group -/

theorem mem_choosable : s ∈ r.choosable l ↔ s ∈ l ∧ ((∃ x ∈ l, r.Elsewhere x) → r.Elsewhere s) := by
  unfold choosable
  split
  case isTrue h => simp [h]
  case isFalse h => simp [h]

/-- The loop finds what it should exactly when the first session does not stand in its way. -/
theorem leaves_iff (h : r.designated now l = some s) : r.Leaves now l s ↔ r.HeadFits now l := by
  cases l with
  | nil => cases h
  | cons first rest =>
    rw [designated_cons] at h
    cases rest with
    | nil =>
      cases h
      refine iff_of_true ⟨mem_choosable.mpr ⟨List.mem_cons_self, ?_⟩, fun x hx ↦ ?_⟩ ?_
      · rintro ⟨x, hx, hother⟩
        rwa [List.mem_singleton.mp hx] at hother
      · rw [List.mem_singleton.mp (mem_choosable.mp hx).1]
        exact le_rfl
      · by_cases hother : r.Elsewhere first
        · exact .inl hother
        · refine .inr (.inr fun x hx ↦ ?_)
          rw [List.mem_singleton.mp hx]
          exact ⟨hother, le_rfl⟩
    | cons second rest =>
      have hmay (x : Session) : r.Elsewhere x ∨ (first :: second :: rest).length ≤ 1 ↔
          r.Elsewhere x := or_iff_left (by simp)
      have hbest := @best_pick_iff Session (rank now)
        (fun x ↦ r.Elsewhere x ∨ (first :: second :: rest).length ≤ 1) _ first (second :: rest)
      obtain ⟨hfrom, -⟩ := @foldl_pick Session (rank now)
        (fun x ↦ r.Elsewhere x ∨ (first :: second :: rest).length ≤ 1) _ first (second :: rest)
      rw [Option.some.inj h] at hbest hfrom
      simp only [hmay] at hbest hfrom
      have hmem : s ∈ first :: second :: rest := by
        rcases hfrom with rfl | ⟨hs, -⟩
        · exact List.mem_cons_self
        · exact List.mem_cons_of_mem _ hs
      by_cases hothers : ∃ x ∈ first :: second :: rest, r.Elsewhere x
      · have hleaves : r.Leaves now (first :: second :: rest) s ↔ r.Elsewhere s ∧
            ∀ x ∈ first :: second :: rest, r.Elsewhere x → rank now x ≤ rank now s := by
          simp only [Leaves, mem_choosable, hothers, true_imp_iff, hmem, true_and, and_imp]
        rw [hleaves, hbest, HeadFits, ← or_assoc]
        refine (or_iff_left fun hall ↦ ?_).symm
        obtain ⟨x, hx, hother⟩ := hothers
        exact (hall x hx).1 hother
      · have hnone : ∀ x ∈ first :: second :: rest, ¬r.Elsewhere x := fun x hx hother ↦
          hothers ⟨x, hx, hother⟩
        obtain rfl : s = first := by
          rcases hfrom with rfl | ⟨hs, hother, -⟩
          · rfl
          · exact absurd hother (hnone _ hmem)
        have hleaves : r.Leaves now (s :: second :: rest) s ↔
            ∀ x ∈ s :: second :: rest, rank now x ≤ rank now s := by
          simp only [Leaves, mem_choosable, hothers, false_imp_iff, and_true, hmem, true_and]
        rw [hleaves, HeadFits]
        constructor
        · exact fun hrank ↦ .inr (.inr fun x hx ↦ ⟨hnone x hx, hrank x hx⟩)
        · rintro (hother | ⟨x, hx, hother, -⟩ | hall)
          · exact absurd hother (hnone s List.mem_cons_self)
          · exact absurd hother (hnone x (List.mem_cons_of_mem _ hx))
          · exact fun x hx ↦ (hall x hx).2

/-- Two choices that are as they should be, from the same sessions in any order, rank the same. -/
theorem Leaves.rank_eq {l' : List Session} {s' : Session} (h : r.Leaves now l s)
    (h' : r.Leaves now l' s') (hperm : l.Perm l') : rank now s = rank now s' := by
  have hmem (x : Session) : x ∈ r.choosable l ↔ x ∈ r.choosable l' := by
    simp only [mem_choosable, hperm.mem_iff]
  exact le_antisymm (h'.2 s ((hmem s).mp h.1)) (h.2 s' ((hmem s').mpr h'.1))

theorem exists_designated (r : Rotator) (now : Mono) (hne : l ≠ []) :
    ∃ s ∈ l, r.designated now l = some s := by
  cases l with
  | nil => exact absurd rfl hne
  | cons first rest =>
    refine ⟨_, ?_, designated_cons first rest⟩
    rcases (@foldl_pick Session (rank now) (fun x ↦ r.Elsewhere x ∨ (first :: rest).length ≤ 1) _
      first rest).1 with heq | ⟨hmem, -⟩
    · rw [heq]
      exact List.mem_cons_self
    · exact List.mem_cons_of_mem _ hmem

/-- If a session is eligible, one is designated.  It is of another group than the last if there is such
a session, and the best of those, exactly when the first session in the list does not stand in the way;
and in whatever order the list is, as long as this holds the session that is designated ranks the
same. -/
theorem select_leaves (r : Rotator) (peers : List Session) (now : Mono) (ahead : Session → Bool)
    (hne : eligible peers now ahead ≠ []) :
    ∃ s ∈ eligible peers now ahead, (r.select peers now ahead).2 = .peer s.id ∧
      (r.Leaves now (eligible peers now ahead) s ↔ r.HeadFits now (eligible peers now ahead)) ∧
      ∀ peers', peers.Perm peers' → r.HeadFits now (eligible peers now ahead) →
        r.HeadFits now (eligible peers' now ahead) →
          ∃ s' ∈ eligible peers' now ahead, (r.select peers' now ahead).2 = .peer s'.id ∧
            rank now s = rank now s' := by
  obtain ⟨s, hs, hdesignated⟩ := r.exists_designated now hne
  refine ⟨s, hs, select_eq hdesignated, leaves_iff hdesignated, fun peers' hperm hfits hfits' ↦ ?_⟩
  have hsame : (eligible peers now ahead).Perm (eligible peers' now ahead) := hperm.filter _
  have hne' : eligible peers' now ahead ≠ [] := by
    rintro hnil
    rw [hnil] at hsame
    exact hne hsame.eq_nil
  obtain ⟨s', hs', hdesignated'⟩ := r.exists_designated now hne'
  exact ⟨s', hs', select_eq hdesignated', ((leaves_iff hdesignated).mpr hfits).rank_eq
    ((leaves_iff hdesignated').mpr hfits') hsame⟩

end Rotator

namespace RotationSample

/-- A peer that is ready and has delivered nothing yet. -/
def ready (id : PeerId) (group : Nat) : Session :=
  { Session.new id (.zero 16) true 0 with
    state := .ready
    group := .ofNat 4 group }

/-- The last peer was of group 1. -/
def rotator : Rotator := ⟨some (.ofNat 4 1), none⟩

end RotationSample

open RotationSample Rotator

/-- Of two peers that have delivered nothing the first one is designated, though it alone is of the
group that was designated last. -/
theorem select_stays :
    ¬∀ (r : Rotator) (peers : List Session) (now : Mono) (ahead : Session → Bool) (s : Session),
      s ∈ eligible peers now ahead → (∃ x ∈ eligible peers now ahead, r.Elsewhere x) →
        (r.select peers now ahead).2 = .peer s.id → r.Elsewhere s := by
  intro hclaim
  exact absurd rfl (hclaim rotator [ready 1 1, ready 2 2] 0 (fun _ ↦ true) (ready 1 1) (by decide)
    ⟨ready 2 2, by decide, by decide⟩ (by decide +kernel))

/-- The law where the peer of another group comes first. -/
theorem select_leaves_sample :
    ∃ s ∈ eligible [ready 2 2, ready 1 1] 0 fun _ ↦ true,
      (rotator.select [ready 2 2, ready 1 1] 0 fun _ ↦ true).2 = .peer s.id ∧
        rotator.Leaves 0 (eligible [ready 2 2, ready 1 1] 0 fun _ ↦ true) s := by
  obtain ⟨s, hs, hselect, hiff, -⟩ :=
    select_leaves rotator [ready 2 2, ready 1 1] 0 (fun _ ↦ true) (by decide)
  exact ⟨s, hs, hselect, hiff.mpr (.inl (by decide))⟩

end Plaine.P2p

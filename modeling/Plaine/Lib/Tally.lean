import Mathlib.Data.Finset.Card
import Mathlib.Data.Finset.Filter

/-!
# Tallies

Ballots are gone through until enough voters of a roll have cast a good one.  A voter is struck off
the roll at the first ballot of theirs, good or not, so what is counted are the voters whose first
ballot is good: later ballots of theirs, and those of others, count for nothing.
-/

namespace Plaine.Lib.Tally

variable {V B : Type*} [DecidableEq V] (voter : B → V) (good : B → Bool)

/-- Whether the first ballot of a voter is good. -/
def elects (ballots : List B) (v : V) : Bool := (ballots.find? fun b ↦ voter b = v).any good

/-- The voters of a roll whose first ballot is good. -/
def voters (roll : Finset V) (ballots : List B) : Finset V := {v ∈ roll | elects voter good ballots v}

/-- The count: who is still on the roll, and how many good ballots there were. -/
def reaches (threshold : Nat) : Finset V → Nat → List B → Bool
  | _, _, [] => false
  | roll, valid, b :: ballots =>
    if voter b ∈ roll then
      if good b then
        if threshold ≤ valid + 1 then true
        else reaches threshold (roll.erase (voter b)) (valid + 1) ballots
      else reaches threshold (roll.erase (voter b)) valid ballots
    else reaches threshold roll valid ballots

variable {voter good} {roll : Finset V} {ballots ballots' : List B} {b : B} {v : V}

theorem elects_cons_self : elects voter good (b :: ballots) (voter b) = good b := by
  rw [elects, List.find?_cons_of_pos (by simp), Option.any_some]

theorem elects_cons_of_ne (h : v ≠ voter b) :
    elects voter good (b :: ballots) v = elects voter good ballots v := by
  rw [elects, List.find?_cons_of_neg fun heq ↦ h (of_decide_eq_true heq).symm, elects]

@[simp] theorem voters_nil : voters voter good roll [] = ∅ := by
  ext v
  simp [voters, elects]

/-- A ballot of somebody who is not on the roll. -/
theorem voters_cons_of_notMem (h : voter b ∉ roll) :
    voters voter good roll (b :: ballots) = voters voter good roll ballots := by
  ext v
  simp only [voters, Finset.mem_filter]
  refine and_congr_right fun hv ↦ ?_
  rw [elects_cons_of_ne]
  rintro rfl
  exact h hv

/-- A bad first ballot. -/
theorem voters_cons_of_bad (hb : good b = false) :
    voters voter good roll (b :: ballots) = voters voter good (roll.erase (voter b)) ballots := by
  ext v
  simp only [voters, Finset.mem_filter, Finset.mem_erase]
  by_cases hv : v = voter b
  · subst hv
    simp [elects_cons_self, hb]
  · simp [elects_cons_of_ne hv, hv]

/-- A good first ballot. -/
theorem card_voters_cons_of_good (h : voter b ∈ roll) (hb : good b = true) :
    (voters voter good roll (b :: ballots)).card =
      (voters voter good (roll.erase (voter b)) ballots).card + 1 := by
  have hinsert : voters voter good roll (b :: ballots) =
      insert (voter b) (voters voter good (roll.erase (voter b)) ballots) := by
    ext v
    simp only [voters, Finset.mem_filter, Finset.mem_erase, Finset.mem_insert]
    by_cases hv : v = voter b
    · subst hv
      simp [elects_cons_self, hb, h]
    · simp [elects_cons_of_ne hv, hv]
  rw [hinsert, Finset.card_insert_of_notMem]
  simp [voters]

/-- The count comes to an end early exactly if there are enough voters. -/
theorem reaches_iff {threshold valid : Nat} (h : valid < threshold) :
    reaches voter good threshold roll valid ballots = true ↔
      threshold ≤ valid + (voters voter good roll ballots).card := by
  induction ballots generalizing roll valid with
  | nil =>
    rw [reaches, voters_nil, Finset.card_empty, Nat.add_zero]
    exact iff_of_false Bool.false_ne_true (Nat.not_le.mpr h)
  | cons b ballots ih =>
    rw [reaches]
    by_cases hv : voter b ∈ roll
    · rw [if_pos hv]
      cases hb : good b with
      | true =>
        rw [if_pos rfl, card_voters_cons_of_good hv hb]
        split
        case isTrue henough => exact iff_of_true rfl (by omega)
        case isFalse hmore =>
          rw [ih (Nat.lt_of_not_le hmore)]
          omega
      | false => rw [if_neg Bool.false_ne_true, ih h, voters_cons_of_bad hb]
    · rw [if_neg hv, ih h, voters_cons_of_notMem hv]

/-- Only the first ballots of those on the roll matter. -/
theorem voters_congr (h : ∀ v ∈ roll, (ballots.find? fun b ↦ voter b = v) =
    ballots'.find? fun b ↦ voter b = v) :
    voters voter good roll ballots = voters voter good roll ballots' := by
  ext v
  simp only [voters, Finset.mem_filter]
  refine and_congr_right fun hv ↦ ?_
  rw [elects, h v hv, elects]

end Plaine.Lib.Tally

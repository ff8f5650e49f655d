import Mathlib.Data.List.Induction
import Mathlib.Logic.Basic

/-!
# Runs

A run folds a step over a list.  What is asked of each step of a run, in the state before it, is
asked of the steps before the last and of the last.
-/

namespace Plaine.Lib

variable {σ α : Type} {step : σ → α → σ} {s : σ}

/-- Each step of a run is taken from a state in which it may be. -/
def Runs (step : σ → α → σ) (ok : σ → α → Prop) (s : σ) (l : List α) : Prop :=
  ∀ xs x ys, l = xs ++ x :: ys → ok (xs.foldl step s) x

variable {ok : σ → α → Prop} {l : List α}

theorem runs_nil : Runs step ok s [] := by
  rintro xs x ys h
  cases xs <;> cases h

theorem runs_concat {x : α} :
    Runs step ok s (l ++ [x]) ↔ Runs step ok s l ∧ ok (l.foldl step s) x := by
  constructor
  · intro h
    refine ⟨fun xs y ys hl ↦ h xs y (ys ++ [x]) ?_, h l x [] rfl⟩
    rw [hl, List.append_assoc, List.cons_append]
  · rintro ⟨hl, hx⟩ xs y ys h
    rcases List.eq_nil_or_concat ys with rfl | ⟨ys, z, rfl⟩
    · obtain ⟨rfl, hy⟩ := List.append_inj' h rfl
      cases hy
      exact hx
    · rw [List.concat_eq_append, ← List.cons_append, ← List.append_assoc] at h
      exact hl xs y ys (List.append_inj' h rfl).1

theorem runs_cons {x : α} : Runs step ok s (x :: l) ↔ ok s x ∧ Runs step ok (step s x) l := by
  constructor
  · intro h
    exact ⟨h [] x l rfl, fun xs y ys hl ↦ h (x :: xs) y ys (congrArg (x :: ·) hl)⟩
  · rintro ⟨hx, hl⟩ xs y ys h
    cases xs with
    | nil =>
      cases h
      exact hx
    | cons x' xs =>
      injection h with hx' h
      subst hx'
      exact hl xs y ys h

/-- A run may be broken off. -/
theorem Runs.of_prefix {l' : List α} (h : Runs step ok s l) (hl : l' <+: l) :
    Runs step ok s l' := by
  obtain ⟨rest, rfl⟩ := hl
  rintro xs x ys rfl
  refine h xs x (ys ++ rest) ?_
  rw [List.append_assoc, List.cons_append]

/-- What a step keeps where it may be taken, a run keeps. -/
theorem Runs.keeps {P : σ → Prop} (h : Runs step ok s l) (hs : P s)
    (hstep : ∀ s x, P s → ok s x → P (step s x)) : P (l.foldl step s) := by
  induction l generalizing s with
  | nil => exact hs
  | cons x l ih =>
    obtain ⟨hx, hl⟩ := runs_cons.mp h
    exact ih hl (hstep s x hs hx)

/-- What a step keeps exactly where it may be taken, a run keeps exactly when each step of it may
be. -/
theorem runs_iff {P : σ → Prop} (hs : P s) (hstep : ∀ s x, P s → (P (step s x) ↔ ok s x))
    (hback : ∀ s x, P (step s x) → P s) : Runs step ok s l ↔ P (l.foldl step s) := by
  induction l using List.reverseRecOn with
  | nil => exact iff_of_true runs_nil hs
  | append_singleton l x ih =>
    rw [runs_concat, ih, List.foldl_append, List.foldl_cons, List.foldl_nil]
    constructor
    · rintro ⟨hl, hx⟩
      exact (hstep _ x hl).mpr hx
    · intro h
      exact ⟨hback _ x h, (hstep _ x (hback _ x h)).mp h⟩

end Plaine.Lib

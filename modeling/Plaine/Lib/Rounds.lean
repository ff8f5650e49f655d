import Plaine.Lib.Result

/-!
# Rounds and failures

`Fails P x` says that whatever `x` fails with meets `P`; its rules follow the shape of the
computation.

A loop whose rounds may fail goes on until a round ends it.  `Rounds step s a` says that it ends with
`a` from `s`.  The loop itself is given a bound on its rounds; if every round that goes on lowers a
measure, a bound above the measure is never met, and what it is does not matter.
-/

namespace Except

variable {ε σ α : Type} {step : σ → Except ε (σ ⊕ α)} {stuck : ε} {s t : σ} {a : α} {n m : Nat}

/-! ## Failures -/

/-- What a computation fails with meets a condition. -/
def Fails (P : ε → Prop) (x : Except ε α) : Prop := ∀ e, x = .error e → P e

namespace Fails

variable {β : Type} {P : ε → Prop} {x : Except ε α} {f : α → Except ε β}

theorem ok (a : α) : Fails P (.ok a) := nofun

theorem error {e : ε} (h : P e) : Fails P (.error e : Except ε α) := by
  rintro _ ⟨⟩
  exact h

theorem bind (hx : Fails P x) (hf : ∀ a, Fails P (f a)) : Fails P (x >>= f) := by
  intro e he
  cases x with
  | error e' =>
    cases he
    exact hx _ rfl
  | ok a => exact hf a e he

end Fails

/-! ## Rounds -/

/-- Repeat a step until it is done, `n` times at most. -/
def rounds (step : σ → Except ε (σ ⊕ α)) (stuck : ε) : Nat → σ → Except ε α
  | 0, _ => .error stuck
  | n + 1, s =>
    match step s with
    | .error e => .error e
    | .ok (.inl s) => rounds step stuck n s
    | .ok (.inr a) => .ok a

/-- Repeated from `s`, the step ends with `a`. -/
inductive Rounds (step : σ → Except ε (σ ⊕ α)) : σ → α → Prop
  | done {s : σ} {a : α} : step s = .ok (.inr a) → Rounds step s a
  | more {s t : σ} {a : α} : step s = .ok (.inl t) → Rounds step t a → Rounds step s a

theorem Rounds.of_ok (h : rounds step stuck n s = .ok a) : Rounds step s a := by
  induction n generalizing s with
  | zero => cases h
  | succ n ih =>
    rw [rounds] at h
    split at h
    case h_1 => cases h
    case h_2 t hstep => exact .more hstep (ih h)
    case h_3 b hstep =>
      cases h
      exact .done hstep

/-- A step that goes on lowers the measure. -/
def Lowers (step : σ → Except ε (σ ⊕ α)) (μ : σ → Nat) : Prop :=
  ∀ s t, step s = .ok (.inl t) → μ t < μ s

variable {μ : σ → Nat}

/-- Under a bound above the measure, the loop ends as its rounds do. -/
theorem rounds_eq_ok (hμ : Lowers step μ) (hn : μ s < n) :
    rounds step stuck n s = .ok a ↔ Rounds step s a := by
  refine ⟨.of_ok, fun h ↦ ?_⟩
  induction h generalizing n with
  | done hstep =>
    cases n with
    | zero => exact absurd hn (Nat.not_lt_zero _)
    | succ n => rw [rounds, hstep]
  | more hstep _ ih =>
    cases n with
    | zero => exact absurd hn (Nat.not_lt_zero _)
    | succ n =>
      rw [rounds, hstep]
      exact ih (Nat.lt_of_lt_of_le (hμ _ _ hstep) (Nat.lt_succ_iff.mp hn))

end Except

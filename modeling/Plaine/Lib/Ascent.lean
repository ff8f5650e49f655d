import Mathlib.Data.Set.Finite.Basic
import Mathlib.Data.Set.Finite.Lattice
import Mathlib.Order.Defs.Unbundled

/-!
# Sequences that move up

A sequence moves up in a strict order when each of its elements is the one before it or lies
above it.  Such a sequence never comes back to an element it has left, and is constant from
some point on if it stays in a finite set.
-/

namespace Plaine.Lib

variable {α : Type} {r : α → α → Prop} {f : ℕ → α}

/-- Each element is the one before it or lies above it. -/
def MovesUp (r : α → α → Prop) (f : ℕ → α) : Prop := ∀ n, f (n + 1) = f n ∨ r (f n) (f (n + 1))

namespace MovesUp

/-- Later elements are equal to earlier ones or above them. -/
theorem le [IsTrans α r] (h : MovesUp r f) {m n : ℕ} (hmn : m ≤ n) : f n = f m ∨ r (f m) (f n) := by
  induction n, hmn using Nat.le_induction with
  | base => exact .inl rfl
  | succ n _ ih =>
    rcases h n with heq | hup
    · rw [heq]
      exact ih
    · rcases ih with heq | hup'
      · exact .inr (heq ▸ hup)
      · exact .inr (IsTrans.trans _ _ _ hup' hup)

/-- An element that was left is never reached again. -/
theorem eq_of_eq [IsTrans α r] [Std.Irrefl r] (h : MovesUp r f) {m k n : ℕ} (hmk : m ≤ k)
    (hkn : k ≤ n) (heq : f n = f m) : f k = f m := by
  rcases h.le hmk with hk | hk
  · exact hk
  · rcases h.le hkn with hn | hn
    · rw [← hn, heq]
    · rw [heq] at hn
      exact absurd (IsTrans.trans _ _ _ hk hn) (Std.Irrefl.irrefl _)

/-- In a finite set the moves come to an end. -/
theorem eventually_eq [IsTrans α r] [Std.Irrefl r] (h : MovesUp r f) (hfin : (Set.range f).Finite) :
    ∃ n, ∀ m, n ≤ m → f m = f n := by
  classical
  -- The place where each element of the range first occurs; past all of these nothing is new.
  choose! first hfirst using fun a (ha : a ∈ Set.range f) ↦ ha
  obtain ⟨n, hn⟩ := (hfin.image first).bddAbove
  refine ⟨n, fun m hm ↦ ?_⟩
  have hle : first (f m) ≤ n := hn (Set.mem_image_of_mem _ ⟨m, rfl⟩)
  have hval : f (first (f m)) = f m := hfirst (f m) ⟨m, rfl⟩
  have hmid := h.eq_of_eq hle hm hval.symm
  rw [hmid, hval]

end MovesUp

end Plaine.Lib

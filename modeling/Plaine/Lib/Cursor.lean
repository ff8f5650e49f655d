import Plaine.Lib.Ends
import Mathlib.Algebra.BigOperators.Group.List.Basic
import Mathlib.Algebra.GroupWithZero.Nat

/-!
# Writing with a cursor

A state with a place, counted in units, and some room, and commands that move the place on.  `Advances` says how far a
command gets from a given place, so that what it reads of the place is known; `Writes n` says that a
command gets `n` further from anywhere, and never fails while there is room.
-/

namespace Plaine.Lib

/-- Where a state writes next, and where it has to stop. -/
structure Cursor (σ : Type) where
  unit : Nat
  place : σ → Nat
  room : σ → Nat

namespace Cursor

variable {ε σ α β : Type} (cur : Cursor σ) {p c n k : Nat}
variable {m : EStateM ε σ α} {f : α → EStateM ε σ β} {Q Q' : α → Prop} {R : β → Prop}
variable {u v : EStateM ε σ PUnit}

/-- From the place `p`, with room for `c`, the command gets `n` further and returns with `Q`. -/
structure Advances (p n c : Nat) (m : EStateM ε σ α) (Q : α → Prop) : Prop where
  ends (s : σ) : cur.place s = p → cur.room s = c → cur.unit * (p + n) ≤ c →
    Ends m s (fun a s' ↦ Q a ∧ cur.place s' = p + n ∧ cur.room s' = c) Never

/-- From any place the command gets `n` further. -/
def Writes (n : Nat) (u : EStateM ε σ PUnit) : Prop := ∀ p c, cur.Advances p n c u fun _ ↦ True

variable {cur}

theorem Advances.bind (hm : cur.Advances p n c m Q) (hf : ∀ a, Q a → cur.Advances (p + n) k c (f a) R) :
    cur.Advances p (n + k) c (m >>= f) R := by
  constructor
  intro s hp hc hle
  rw [← Nat.add_assoc] at hle ⊢
  refine (hm.ends s hp hc (Nat.le_trans (Nat.mul_le_mul_left _ (Nat.le_add_right _ k)) hle)).bind ?_
  rintro a s' ⟨ha, hp', hc'⟩
  exact (hf a ha).ends s' hp' hc' hle

theorem Advances.cast (hm : cur.Advances p n c m Q) (h : n = k) : cur.Advances p k c m Q := h ▸ hm

theorem advances_pure {a : α} (h : Q a) : cur.Advances p 0 c (pure a : EStateM ε σ α) Q :=
  ⟨fun _ hp hc _ ↦ ⟨h, hp, hc⟩⟩

/-- A command that reads the place and stays there. -/
theorem advances_read {r : EStateM ε σ Nat} (h : ∀ s, r s = .ok (cur.place s) s) (hk : p = k) :
    cur.Advances p 0 c r (· = k) := by
  constructor
  intro s hp hc _
  exact (ends_ok (h s)).mpr ⟨hp.trans hk, hp, hc⟩

/-- What follows a read knows the place. -/
theorem Advances.read {r : EStateM ε σ Nat} {g : Nat → EStateM ε σ β}
    (h : ∀ s, r s = .ok (cur.place s) s) (hg : cur.Advances p k c (g p) R) :
    cur.Advances p k c (r >>= g) R := by
  refine ((advances_read h rfl).bind ?_).cast (Nat.zero_add k)
  rintro _ rfl
  exact hg

/-- In front of what writes there is what writes. -/
theorem Writes.bind (hu : cur.Writes n u) {g : PUnit → EStateM ε σ β}
    (hg : cur.Advances (p + n) k c (g ⟨⟩) R) : cur.Advances p (n + k) c (u >>= g) R :=
  (hu p c).bind fun _ _ ↦ hg

theorem Writes.seq (hu : cur.Writes n u) (hv : cur.Writes k v) :
    cur.Writes (n + k) (u >>= fun _ ↦ v) := fun _ _ ↦ hu.bind (hv _ _)

theorem Writes.cast (hu : cur.Writes n u) (h : n = k) : cur.Writes k u := h ▸ hu

theorem writes_pure : cur.Writes 0 (pure ⟨⟩ : EStateM ε σ PUnit) := fun _ _ ↦ advances_pure trivial

theorem writes_ite {P : Prop} [Decidable P] (hu : cur.Writes n u) (hv : cur.Writes k v) :
    cur.Writes (if P then n else k) (if P then u else v) := by
  split
  · exact hu
  · exact hv

/-- A loop writes what its rounds write. -/
theorem writes_forM {γ : Type} {l : List γ} {g : γ → EStateM ε σ PUnit} {len : γ → Nat}
    (h : ∀ x ∈ l, cur.Writes (len x) (g x)) : cur.Writes (l.map len).sum (l.forM g) := by
  induction l with
  | nil => exact writes_pure
  | cons x l ih =>
    obtain ⟨hx, hl⟩ := List.forall_mem_cons.mp h
    exact hx.seq (ih hl)

/-- A command that is run from the start of as much room as it needs fills it. -/
theorem Advances.fills (h : cur.Advances 0 n c m Q) {s : σ} (hp : cur.place s = 0)
    (hc : cur.room s = c) (hn : cur.unit * n = c) :
    ∃ a s', m s = .ok a s' ∧ Q a ∧ cur.place s' = n ∧ cur.room s' = c := by
  rw [← Nat.zero_add n] at hn
  obtain ⟨a, s', hok, ha, hp', hc'⟩ := (h.ends s hp hc (Nat.le_of_eq hn)).exists_ok
  exact ⟨a, s', hok, ha, hp'.trans (Nat.zero_add n), hc'⟩

end Cursor

end Plaine.Lib

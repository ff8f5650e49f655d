import Mathlib.Init
import Mathlib.Data.List.Basic
import Mathlib.Data.List.Forall2

/-!
# Fallible computations

A function that may refuse returns `Except ε α`.  A do-block of such calls is taken
apart with `Except.bind_eq_ok`, a guard with `Except.require_eq_ok`, and a loop that
stops at the first error is `List.foldlM`, taken apart at any of its steps.
-/

namespace Except

variable {ε ε' α β : Type}

theorem bind_eq_ok {x : Except ε α} {f : α → Except ε β} {b : β} :
    (x >>= f) = .ok b ↔ ∃ a, x = .ok a ∧ f a = .ok b := by
  cases x with
  | error e =>
    constructor
    · intro h; cases h
    · rintro ⟨a, h, -⟩; cases h
  | ok a =>
    constructor
    · intro h; exact ⟨a, rfl, h⟩
    · rintro ⟨a', h, hf⟩; cases h; exact hf

@[simp] theorem map_eq_ok {x : Except ε α} {f : α → β} {b : β} :
    f <$> x = .ok b ↔ ∃ a, x = .ok a ∧ f a = b := by
  cases x with
  | error e => simp [Functor.map, Except.map]
  | ok a => simp [Functor.map, Except.map]

@[simp] theorem ok_bind (a : α) (f : α → Except ε β) : (Except.ok a >>= f) = f a := rfl

@[simp] theorem error_bind (e : ε) (f : α → Except ε β) :
    (Except.error e >>= f) = .error e := rfl

@[simp] theorem mapError_eq_ok {x : Except ε α} {g : ε → ε'} {a : α} :
    x.mapError g = .ok a ↔ x = .ok a := by
  cases x with
  | error e => simp [Except.mapError]
  | ok b => simp [Except.mapError]

/-- Go on if `p` holds, refuse with `e` if not. -/
def require (p : Prop) [Decidable p] (e : ε) : Except ε Unit :=
  if p then .ok () else .error e

@[simp] theorem require_eq_ok {p : Prop} [Decidable p] {e : ε} {u : Unit} :
    require p e = .ok u ↔ p := by
  unfold require
  split <;> simp_all

theorem require_of {p : Prop} [Decidable p] (h : p) (e : ε) :
    require p e = (.ok () : Except ε Unit) := if_pos h

/-- `ok_or`: the value, or the error when there is none. -/
def ofOption (e : ε) : Option α → Except ε α
  | some a => .ok a
  | none => .error e

@[simp] theorem ofOption_eq_ok {e : ε} {o : Option α} {a : α} :
    ofOption e o = .ok a ↔ o = some a := by
  cases o with
  | none => simp [ofOption]
  | some b => simp [ofOption]

end Except

namespace List

variable {ε σ α : Type}

/-- A successful loop is a first step and a successful rest. -/
theorem foldlM_cons_eq_ok {f : σ → α → Except ε σ} {s t : σ} {a : α} {l : List α} :
    (a :: l).foldlM f s = .ok t ↔ ∃ m, f s a = .ok m ∧ l.foldlM f m = .ok t := by
  rw [foldlM_cons, Except.bind_eq_ok]

/-- A successful loop passes a state between any two parts of its list. -/
theorem foldlM_append_eq_ok {f : σ → α → Except ε σ} {s t : σ} {l l' : List α} :
    (l ++ l').foldlM f s = .ok t ↔ ∃ m, l.foldlM f s = .ok m ∧ l'.foldlM f m = .ok t := by
  rw [foldlM_append, Except.bind_eq_ok]

/-- A loop each of whose steps succeeds from any state succeeds. -/
theorem foldlM_ok {f : σ → α → Except ε σ} {l : List α} (h : ∀ s, ∀ a ∈ l, ∃ t, f s a = .ok t)
    (s : σ) : ∃ t, l.foldlM f s = .ok t := by
  induction l generalizing s with
  | nil => exact ⟨s, rfl⟩
  | cons a l ih =>
    obtain ⟨m, hm⟩ := h s a List.mem_cons_self
    obtain ⟨t, ht⟩ := ih (fun s b hb ↦ h s b (List.mem_cons_of_mem _ hb)) m
    exact ⟨t, foldlM_cons_eq_ok.mpr ⟨m, hm, ht⟩⟩

/-- A fallible map that succeeds has mapped every element. -/
theorem forall₂_of_mapM_ok {β : Type} {f : α → Except ε β} {l : List α} {l' : List β}
    (h : l.mapM f = .ok l') : Forall₂ (fun a b ↦ f a = .ok b) l l' := by
  induction l generalizing l' with
  | nil => cases h; exact .nil
  | cons a l ih =>
    simp only [mapM_cons, Except.bind_eq_ok] at h
    obtain ⟨b, hb, l'', hl, h⟩ := h
    cases h
    exact .cons hb (ih hl)

theorem forall₂_of_mapM_some {β : Type} {f : α → Option β} {l : List α} {l' : List β}
    (h : l.mapM f = some l') : Forall₂ (fun a b ↦ f a = some b) l l' := by
  induction l generalizing l' with
  | nil => cases h; exact .nil
  | cons a l ih =>
    simp only [mapM_cons, Option.bind_eq_bind, Option.bind_eq_some_iff] at h
    obtain ⟨b, hb, l'', hl, h⟩ := h
    cases h
    exact .cons hb (ih hl)

theorem Forall₂.exists_of_mem_right {β : Type} {R : α → β → Prop} {l : List α} {l' : List β} {b : β}
    (h : Forall₂ R l l') (hb : b ∈ l') : ∃ a ∈ l, R a b := by
  induction h with
  | nil => cases hb
  | cons hab _ ih =>
    rcases mem_cons.mp hb with rfl | hb
    · exact ⟨_, mem_cons_self, hab⟩
    · obtain ⟨a, ha, hab⟩ := ih hb
      exact ⟨a, mem_cons_of_mem _ ha, hab⟩

/-- Lists related element by element are related in their last ones. -/
theorem Forall₂.getLast? {β : Type} {R : α → β → Prop} {l : List α} {l' : List β} {a : α}
    (h : Forall₂ R l l') (ha : l.getLast? = some a) : ∃ b, l'.getLast? = some b ∧ R a b := by
  rw [getLast?_eq_getElem?, getElem?_eq_some_iff] at ha
  obtain ⟨hlt, rfl⟩ := ha
  have hlt' : l.length - 1 < l'.length := h.length_eq ▸ hlt
  refine ⟨l'[l.length - 1], ?_, (forall₂_iff_get.mp h).2 _ hlt hlt'⟩
  rw [getLast?_eq_getElem?, ← h.length_eq, getElem?_eq_getElem hlt']

/-- Lists related by equal images have one image. -/
theorem Forall₂.map_eq_map {β γ : Type} {f : α → γ} {g : β → γ} {l : List α} {l' : List β}
    (h : Forall₂ (fun a b ↦ f a = g b) l l') : l.map f = l'.map g := by
  induction h with
  | nil => rfl
  | cons hab _ ih => rw [map_cons, map_cons, hab, ih]

/-- A loop of checks goes through when every check does. -/
theorem forM_eq_ok {f : α → Except ε Unit} {l : List α} :
    l.forM f = .ok () ↔ ∀ a ∈ l, f a = .ok () := by
  induction l with
  | nil => exact ⟨fun _ _ h ↦ absurd h not_mem_nil, fun _ ↦ rfl⟩
  | cons a l ih =>
    change (f a >>= fun _ ↦ l.forM f) = .ok () ↔ _
    rw [Except.bind_eq_ok, forall_mem_cons]
    constructor
    · rintro ⟨_, ha, hl⟩
      exact ⟨ha, ih.mp hl⟩
    · rintro ⟨ha, hl⟩
      exact ⟨_, ha, ih.mpr hl⟩

/-- The rule of loops: what every step preserves, a successful loop preserves. -/
theorem foldlM_invariant {f : σ → α → Except ε σ} {P : σ → Prop}
    (step : ∀ s a t, P s → f s a = .ok t → P t) {l : List α} {s t : σ} (hs : P s)
    (h : l.foldlM f s = .ok t) : P t := by
  induction l generalizing s with
  | nil => cases h; exact hs
  | cons a l ih =>
    obtain ⟨m, ha, hl⟩ := foldlM_cons_eq_ok.mp h
    exact ih (step s a m hs ha) hl

end List

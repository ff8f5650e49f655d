import Mathlib.Logic.Function.Iterate
import Mathlib.Logic.Basic

/-!
# Syndromes

A linear register advances and adds a symbol, again and again; what it holds after a word is the
word's syndrome, and a code is the words with one syndrome.  A change of the word changes the
syndrome by what the change alone leaves in an empty register.  So a register that loses nothing
tells words apart that differ in one place (`syndrome_ne_of_one`), and words that differ in two
places not too far from each other if no symbol ever comes back as a symbol (`syndrome_ne_of_two`).
-/

namespace Plaine.Lib.Syndrome

variable {w : Nat} (advance : BitVec w → BitVec w)

/-- The register advances by sums. -/
def Additive : Prop := ∀ r s, advance (r ^^^ s) = advance r ^^^ advance s

/-- A symbol goes in. -/
def feed (r v : BitVec w) : BitVec w := advance r ^^^ v

/-- The register after a word. -/
def syndrome (r : BitVec w) (vs : List (BitVec w)) : BitVec w := vs.foldl (feed advance) r

/-- No difference of two symbols is one again after one to `n` steps. -/
def Apart (P : BitVec w → Prop) (n : Nat) : Prop :=
  ∀ d, 0 < d → d ≤ n → ∀ x, P x → P (advance^[d] x) → x = 0#w

variable {advance} {r s a b a' b' : BitVec w} {us vs ws : List (BitVec w)} {P : BitVec w → Prop}
  {n : Nat}

@[simp] theorem syndrome_nil : syndrome advance r [] = r := rfl

@[simp] theorem syndrome_cons :
    syndrome advance r (a :: vs) = syndrome advance (advance r ^^^ a) vs := rfl

@[simp] theorem syndrome_append :
    syndrome advance r (us ++ vs) = syndrome advance (syndrome advance r us) vs := List.foldl_append

/-! ## Linearity -/

theorem Additive.zero (h : Additive advance) : advance 0#w = 0#w := by
  have hsum := h 0#w 0#w
  rwa [BitVec.xor_self, BitVec.xor_self] at hsum

theorem Additive.iterate (h : Additive advance) (n : Nat) : Additive advance^[n] := by
  induction n with
  | zero => exact fun _ _ ↦ rfl
  | succ n ih =>
    intro r s
    rw [Function.iterate_succ_apply, h, ih, ← Function.iterate_succ_apply,
      ← Function.iterate_succ_apply]

/-- A register that only an empty one advances to the empty one from loses nothing. -/
theorem Additive.injective (h : Additive advance) (hker : ∀ r, advance r = 0#w → r = 0#w) :
    Function.Injective advance := by
  intro r s heq
  refine BitVec.xor_eq_zero_iff.mp (hker _ ?_)
  rw [h, heq, BitVec.xor_self]

/-- One word after two registers. -/
theorem syndrome_xor (h : Additive advance) :
    syndrome advance r vs ^^^ syndrome advance s vs = advance^[vs.length] (r ^^^ s) := by
  induction vs generalizing r s with
  | nil => rfl
  | cons v vs ih =>
    have hv : (advance r ^^^ v) ^^^ (advance s ^^^ v) = advance r ^^^ advance s := by
      rw [BitVec.xor_assoc, BitVec.xor_comm v, BitVec.xor_assoc, BitVec.xor_self, BitVec.xor_zero]
    rw [syndrome_cons, syndrome_cons, ih, hv, ← h, List.length_cons, Function.iterate_succ_apply]

/-- The register and the word leave what they leave alone. -/
theorem syndrome_eq (h : Additive advance) :
    syndrome advance r vs = advance^[vs.length] r ^^^ syndrome advance 0#w vs := by
  have hx := @syndrome_xor _ _ r 0#w vs h
  rw [BitVec.xor_zero] at hx
  rw [← hx, BitVec.xor_assoc, BitVec.xor_self, BitVec.xor_zero]

/-- A word of zeros only advances. -/
theorem syndrome_replicate (n : Nat) :
    syndrome advance r (List.replicate n 0#w) = advance^[n] r := by
  induction n generalizing r with
  | zero => rfl
  | succ n ih => rw [List.replicate_succ, syndrome_cons, BitVec.xor_zero, ih,
      Function.iterate_succ_apply]

/-! ## Distance -/

theorem syndrome_injective (hinj : Function.Injective advance) (vs : List (BitVec w)) :
    Function.Injective fun r ↦ syndrome advance r vs := by
  induction vs with
  | nil => exact Function.injective_id
  | cons v vs ih =>
    intro r s heq
    exact hinj ((BitVec.xor_left_inj v).mp (ih heq))

/-- Whether a register is one of these after one to `n` steps. -/
def comesBack (advance : BitVec w → BitVec w) (P : BitVec w → Prop) [DecidablePred P] :
    Nat → BitVec w → Bool
  | 0, _ => false
  | n + 1, r => decide (P (advance r)) || comesBack advance P n (advance r)

theorem comesBack_eq_true [DecidablePred P] {d : Nat} (hpos : 0 < d) (hle : d ≤ n)
    (h : P (advance^[d] r)) : comesBack advance P n r = true := by
  induction n generalizing r d with
  | zero => exact absurd hpos (Nat.not_lt.mpr hle)
  | succ n ih =>
    obtain _ | d := d
    · exact absurd hpos (Nat.lt_irrefl 0)
    rw [Function.iterate_succ_apply] at h
    rw [comesBack, Bool.or_eq_true]
    obtain rfl | hd := Nat.eq_zero_or_pos d
    · exact .inl (decide_eq_true h)
    · exact .inr (ih hd (Nat.le_of_succ_le_succ hle) h)

/-- The differences can be tried one by one. -/
theorem apart_of_comesBack [DecidablePred P]
    (h : ∀ x, P x → x ≠ 0#w → comesBack advance P n x = false) : Apart advance P n := by
  intro d hpos hle x hx hback
  by_contra hne
  exact Bool.false_ne_true ((h x hx hne).symm.trans (comesBack_eq_true hpos hle hback))

/-- A change in one place shows. -/
theorem syndrome_ne_of_one (hinj : Function.Injective advance) (hne : a ≠ a') :
    syndrome advance r (us ++ a :: vs) ≠ syndrome advance r (us ++ a' :: vs) := by
  intro heq
  rw [syndrome_append, syndrome_append] at heq
  exact hne ((BitVec.xor_right_inj _).mp (syndrome_injective hinj vs heq))

/-- A change in two places shows. -/
theorem syndrome_ne_of_two (h : Additive advance) (hinj : Function.Injective advance)
    (hapart : Apart advance P n) (hlen : vs.length < n) (hne : a ≠ a') (hP : P (a ^^^ a'))
    (hP' : P (b ^^^ b')) :
    syndrome advance r (us ++ a :: (vs ++ b :: ws)) ≠
      syndrome advance r (us ++ a' :: (vs ++ b' :: ws)) := by
  intro heq
  rw [syndrome_append, syndrome_append, syndrome_cons, syndrome_cons, syndrome_append,
    syndrome_append] at heq
  have hb := syndrome_injective hinj ws heq
  -- The first change, when it meets the second.
  have hmeet : advance^[vs.length + 1] (a ^^^ a') = b ^^^ b' := by
    have hsum : ∀ x x' y y' : BitVec w, x ^^^ y = x' ^^^ y' → x ^^^ x' = y ^^^ y' := by
      intro x x' y y' hxy
      rw [← BitVec.xor_eq_zero_iff] at hxy ⊢
      rw [← hxy]
      ac_rfl
    have hdiff := hsum _ _ _ _ hb
    have hhead (x : BitVec w) : (x ^^^ a) ^^^ (x ^^^ a') = a ^^^ a' := by
      rw [BitVec.xor_comm x a, BitVec.xor_assoc, ← BitVec.xor_assoc x, BitVec.xor_self,
        BitVec.zero_xor]
    rwa [← h, syndrome_xor h, hhead, ← Function.iterate_succ_apply' advance] at hdiff
  have hzero := hapart _ (Nat.succ_pos _) hlen _ hP (by rwa [hmeet])
  exact hne (BitVec.xor_eq_zero_iff.mp hzero)

end Plaine.Lib.Syndrome

import Mathlib.Algebra.Order.Ring.Nat
import Mathlib.Data.Nat.Log
import Mathlib.Tactic.Ring

/-!
# Scaled numbers

A mantissa `m` and an exponent `s` denote the floor of `m * B ^ s / B ^ k`.  A number is normal at
an exponent if the mantissa it has there is neither too long nor could be one digit longer.  Cut to
its normal exponent, a number becomes the greatest one that some mantissa denotes and that is not
above it.
-/

namespace Plaine.Lib.Scaled

variable {B k low : Nat}

/-- The number a mantissa denotes at an exponent. -/
def value (B k m s : Nat) : Nat := m * B ^ s / B ^ k

/-- The mantissa of a number at an exponent, the rest cut off. -/
def mantissa (B k t s : Nat) : Nat := t * B ^ k / B ^ s

/-- The mantissa at this exponent has its full length. -/
structure Normal (B k low t s : Nat) : Prop where
  le : low * B ^ s ≤ t * B ^ k
  lt : t * B ^ k < low * B * B ^ s

variable {t u m s r : Nat}

section Normal

theorem Normal.low_le_mantissa (hB : 0 < B) (h : Normal B k low t s) : low ≤ mantissa B k t s :=
  (Nat.le_div_iff_mul_le (Nat.pow_pos hB)).mpr h.le

theorem Normal.mantissa_lt (hB : 0 < B) (h : Normal B k low t s) :
    mantissa B k t s < low * B := (Nat.div_lt_iff_lt_mul (Nat.pow_pos hB)).mpr h.lt

theorem normal_iff (hB : 0 < B) :
    Normal B k low t s ↔ low ≤ mantissa B k t s ∧ mantissa B k t s < low * B := by
  constructor
  · exact fun h ↦ ⟨h.low_le_mantissa hB, h.mantissa_lt hB⟩
  · rintro ⟨hle, hlt⟩
    exact ⟨(Nat.le_div_iff_mul_le (Nat.pow_pos hB)).mp hle,
      (Nat.div_lt_iff_lt_mul (Nat.pow_pos hB)).mp hlt⟩

/-- A greater number has no smaller exponent. -/
theorem Normal.exponent_le (hB : 0 < B) (ht : Normal B k low t s) (hu : Normal B k low u r)
    (h : t ≤ u) : s ≤ r := by
  by_contra hlt
  have hpow : B * B ^ r ≤ B ^ s := by
    rw [← Nat.pow_succ']
    exact Nat.pow_le_pow_right hB (Nat.lt_of_not_le hlt)
  have hchain : u * B ^ k < u * B ^ k :=
    calc u * B ^ k < low * B * B ^ r := hu.lt
      _ = low * (B * B ^ r) := Nat.mul_assoc ..
      _ ≤ low * B ^ s := Nat.mul_le_mul_left _ hpow
      _ ≤ t * B ^ k := ht.le
      _ ≤ u * B ^ k := Nat.mul_le_mul_right _ h
  exact hchain.false

/-- There is one normal exponent. -/
theorem Normal.exponent_unique (hB : 0 < B) (hs : Normal B k low t s) (hr : Normal B k low t r) :
    s = r :=
  le_antisymm (hs.exponent_le hB hr le_rfl) (hr.exponent_le hB hs le_rfl)

/-- One exponent up, the last digit is cut off. -/
theorem mantissa_succ : mantissa B k t (s + 1) = mantissa B k t s / B := by
  rw [mantissa, Nat.pow_succ, ← Nat.div_div_eq_div_mul, mantissa]

theorem mantissa_mono (h : t ≤ u) : mantissa B k t s ≤ mantissa B k u s :=
  Nat.div_le_div_right (Nat.mul_le_mul_right _ h)

end Normal

section Cut

theorem value_mantissa_le (hB : 0 < B) : value B k (mantissa B k t s) s ≤ t :=
  (Nat.div_le_iff_le_mul_add_pred (Nat.pow_pos hB)).mpr <|
    calc mantissa B k t s * B ^ s ≤ t * B ^ k := Nat.div_mul_le_self _ _
      _ = B ^ k * t := Nat.mul_comm ..
      _ ≤ B ^ k * t + (B ^ k - 1) := Nat.le_add_right _ _

theorem mantissa_of_ge (hB : 0 < B) (hs : s ≤ k) : mantissa B k t s = t * B ^ (k - s) := by
  obtain ⟨d, rfl⟩ := Nat.exists_eq_add_of_le hs
  rw [mantissa, Nat.pow_add, Nat.add_sub_cancel_left, Nat.mul_comm (B ^ s), ← Nat.mul_assoc,
    Nat.mul_div_cancel _ (Nat.pow_pos hB)]

/-- A number with no more digits than a mantissa is not cut. -/
theorem value_mantissa_of_le (hB : 0 < B) (hs : s ≤ k) :
    value B k (mantissa B k t s) s = t := by
  rw [mantissa_of_ge hB hs, value, Nat.mul_assoc, ← Nat.pow_add, Nat.sub_add_cancel hs,
    Nat.mul_div_cancel _ (Nat.pow_pos hB)]

theorem value_of_ge (hB : 0 < B) (hs : s ≤ k) : value B k m s = m / B ^ (k - s) := by
  obtain ⟨d, rfl⟩ := Nat.exists_eq_add_of_le hs
  rw [value, Nat.pow_add, Nat.add_sub_cancel_left, Nat.mul_comm m,
    Nat.mul_div_mul_left _ _ (Nat.pow_pos hB)]

theorem value_of_le (hB : 0 < B) (hs : k ≤ s) : value B k m s = m * B ^ (s - k) := by
  obtain ⟨d, rfl⟩ := Nat.exists_eq_add_of_le hs
  rw [value, Nat.pow_add, Nat.add_sub_cancel_left, Nat.mul_comm (B ^ k), ← Nat.mul_assoc,
    Nat.mul_div_cancel _ (Nat.pow_pos hB)]

theorem mantissa_of_le (hB : 0 < B) (hs : k ≤ s) : mantissa B k t s = t / B ^ (s - k) := by
  obtain ⟨d, rfl⟩ := Nat.exists_eq_add_of_le hs
  rw [mantissa, Nat.pow_add, Nat.add_sub_cancel_left, Nat.mul_comm t,
    Nat.mul_div_mul_left _ _ (Nat.pow_pos hB)]

/-- What is left of a number is the greatest below it that a mantissa denotes. -/
theorem Normal.value_le (hB : 0 < B) (h : Normal B k low t s) (hm : m < low * B)
    (hle : value B k m r ≤ t) : value B k m r ≤ value B k (mantissa B k t s) s := by
  by_cases hs : s ≤ k
  · rwa [value_mantissa_of_le hB hs]
  · have hk : k ≤ s := Nat.le_of_not_le hs
    rcases Nat.lt_or_ge r s with hr | hr
    · -- a smaller exponent: even the longest mantissa stays below
      refine Nat.div_le_div_right ?_
      calc m * B ^ r ≤ low * B * B ^ r := Nat.mul_le_mul_right _ hm.le
        _ = low * B ^ (r + 1) := by rw [Nat.pow_succ', Nat.mul_assoc]
        _ ≤ low * B ^ s := Nat.mul_le_mul_left _ (Nat.pow_le_pow_right hB hr)
        _ ≤ mantissa B k t s * B ^ s := Nat.mul_le_mul_right _ (h.low_le_mantissa hB)
    · -- a greater one: a multiple of the unit that is cut at
      obtain ⟨d, rfl⟩ := Nat.exists_eq_add_of_le hr
      have hsplit : value B k m (s + d) = m * B ^ d * B ^ (s - k) := by
        rw [value_of_le hB (hk.trans hr), show s + d - k = d + (s - k) by omega, Nat.pow_add,
          Nat.mul_assoc]
      rw [hsplit] at hle ⊢
      rw [value_of_le hB hk, mantissa_of_le hB hk]
      exact Nat.mul_le_mul_right _ ((Nat.le_div_iff_mul_le (Nat.pow_pos hB)).mpr hle)

/-- What is left of a number has the same exponent and mantissa. -/
theorem Normal.cut (hB : 0 < B) (h : Normal B k low t s) :
    Normal B k low (value B k (mantissa B k t s) s) s ∧
      mantissa B k (value B k (mantissa B k t s) s) s = mantissa B k t s := by
  by_cases hs : s ≤ k
  · rw [value_mantissa_of_le hB hs]
    exact ⟨h, rfl⟩
  · have hk : k ≤ s := Nat.le_of_not_le hs
    have hvalue : value B k (mantissa B k t s) s * B ^ k = mantissa B k t s * B ^ s := by
      rw [value_of_le hB hk, Nat.mul_assoc, ← Nat.pow_add, Nat.sub_add_cancel hk]
    have hsame : mantissa B k (value B k (mantissa B k t s) s) s = mantissa B k t s := by
      rw [mantissa, hvalue, Nat.mul_div_cancel _ (Nat.pow_pos hB)]
    refine ⟨⟨?_, ?_⟩, hsame⟩
    · rw [hvalue]
      exact Nat.mul_le_mul_right _ (h.low_le_mantissa hB)
    · rw [hvalue]
      exact Nat.mul_lt_mul_of_pos_right (h.mantissa_lt hB) (Nat.pow_pos hB)

end Cut

end Plaine.Lib.Scaled

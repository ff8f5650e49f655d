import Plaine.Consensus.Asert
import Plaine.Lib.Scaled
import Mathlib.Data.Nat.Size
import Mathlib.Algebra.Order.Floor.Semifield
import Mathlib.Data.Rat.Floor

/-!
# Compact targets

A compact target is a scaled number of three bytes whose highest bit is the sign, so the mantissa
of a normal one is at least `2 ^ 15`.  `Target.toCompact` cuts a target to its normal exponent.
-/

namespace Plaine.Consensus

open Plaine.Lib

theorem bitLen_eq_size (n : Nat) : bitLen n = Nat.size n := by
  unfold bitLen
  split
  case isTrue h => rw [h, Nat.size_zero]
  case isFalse h =>
    refine le_antisymm (Nat.lt_size.mpr (Nat.log2_self_le h)) (Nat.size_le.mpr ?_)
    exact Nat.lt_log2_self

/-- The mantissa of compact bits. -/
def compactMantissa (bits : UInt32) : Nat := bits.toNat % 2 ^ 23

/-- The exponent of compact bits, in bytes. -/
def compactSize (bits : UInt32) : Nat := bits.toNat / 2 ^ 24

/-- The sign bit of compact bits. -/
abbrev compactNegative (bits : UInt32) : Prop := bits.toNat / 2 ^ 23 % 2 = 1

/-- The floor of what compact bits denote. -/
def compactValue (bits : UInt32) : Nat :=
  Scaled.value 256 3 (compactMantissa bits) (compactSize bits)

/-- A target at its normal exponent. -/
abbrev CompactNormal (t s : Nat) : Prop := Scaled.Normal 256 3 (2 ^ 15) t s

/-! ## Decoding -/

theorem compactMantissa_lt (bits : UInt32) : compactMantissa bits < 2 ^ 15 * 256 :=
  Nat.mod_lt _ (by decide)

theorem compactValue_of_le {bits : UInt32} (h : compactSize bits ≤ 3) :
    compactValue bits = compactMantissa bits / 2 ^ (8 * (3 - compactSize bits)) := by
  rw [compactValue, Scaled.value_of_ge (by decide) h, show 256 = 2 ^ 8 from rfl, ← Nat.pow_mul]

theorem compactValue_of_ge {bits : UInt32} (h : 3 ≤ compactSize bits) :
    compactValue bits = compactMantissa bits * 2 ^ (8 * (compactSize bits - 3)) := by
  rw [compactValue, Scaled.value_of_le (by decide) h, show 256 = 2 ^ 8 from rfl, ← Nat.pow_mul]

/-- The three tests on the size are one on the value. -/
theorem overflow_iff {bits : UInt32} (hm : 0 < compactMantissa bits) :
    (34 < compactSize bits ∨ (0xff < compactMantissa bits ∧ 33 < compactSize bits) ∨
      (0xffff < compactMantissa bits ∧ 32 < compactSize bits)) ↔
      2 ^ 256 ≤ compactValue bits := by
  have hlt := compactMantissa_lt bits
  rcases Nat.lt_or_ge 34 (compactSize bits) with hbig | hsmall
  · have hpow : 2 ^ 256 ≤ 2 ^ (8 * (compactSize bits - 3)) :=
      Nat.pow_le_pow_right (by decide) (by omega)
    rw [compactValue_of_ge (by omega)]
    exact iff_of_true (.inl hbig) (hpow.trans (Nat.le_mul_of_pos_left _ hm))
  · rcases Nat.lt_or_ge 32 (compactSize bits) with hmid | hlow
    · rw [compactValue_of_ge (by omega)]
      obtain h | h : compactSize bits = 33 ∨ compactSize bits = 34 := by omega
      · rw [h]
        omega
      · rw [h]
        omega
    · have hpow : 256 ^ compactSize bits ≤ 256 ^ 32 := Nat.pow_le_pow_right (by decide) hlow
      have hvalue : compactValue bits < 2 ^ 256 := by
        refine (Nat.div_lt_iff_lt_mul (by decide)).mpr ?_
        calc compactMantissa bits * 256 ^ compactSize bits
            ≤ (2 ^ 15 * 256) * 256 ^ 32 := Nat.mul_le_mul hlt.le hpow
          _ < 2 ^ 256 * 256 ^ 3 := by decide
      exact iff_of_false (by omega) (Nat.not_le.mpr hvalue)

/-- `Target::from_compact` refuses a sign and what has no 256 bits, and rounds down. -/
theorem fromCompact_eq_ok {bits : UInt32} {t : Nat} : Target.fromCompact bits = .ok t ↔
    ¬(compactMantissa bits ≠ 0 ∧ compactNegative bits) ∧ compactValue bits < 2 ^ 256 ∧
      t = compactValue bits := by
  have hvalue : (if compactSize bits ≤ 3 then
      compactMantissa bits / 2 ^ (8 * (3 - compactSize bits))
      else compactMantissa bits * 2 ^ (8 * (compactSize bits - 3))) = compactValue bits := by
    split
    case isTrue h => exact (compactValue_of_le h).symm
    case isFalse h => exact (compactValue_of_ge (Nat.le_of_not_le h)).symm
  unfold Target.fromCompact
  change (Except.require (¬(compactMantissa bits ≠ 0 ∧ compactNegative bits)) _ >>= fun _ ↦
    if compactMantissa bits = 0 then Except.ok 0 else
      Except.require (¬(34 < compactSize bits ∨ (0xff < compactMantissa bits ∧
        33 < compactSize bits) ∨ (0xffff < compactMantissa bits ∧ 32 < compactSize bits))) _ >>=
        fun _ ↦ Except.ok (if compactSize bits ≤ 3 then
          compactMantissa bits / 2 ^ (8 * (3 - compactSize bits))
          else compactMantissa bits * 2 ^ (8 * (compactSize bits - 3)))) = _ ↔ _
  rw [hvalue, Except.bind_eq_ok]
  constructor
  · rintro ⟨_, hsign, h⟩
    refine ⟨Except.require_eq_ok.mp hsign, ?_⟩
    split at h
    case isTrue hzero =>
      have hdenotes : compactValue bits = 0 := by
        rw [compactValue, hzero, Scaled.value, Nat.zero_mul, Nat.zero_div]
      cases h
      exact ⟨hdenotes ▸ (by decide), hdenotes.symm⟩
    case isFalse hne =>
      obtain ⟨_, hroom, h⟩ := Except.bind_eq_ok.mp h
      cases h
      rw [Except.require_eq_ok, overflow_iff (Nat.pos_of_ne_zero hne)] at hroom
      exact ⟨Nat.lt_of_not_le hroom, rfl⟩
  · rintro ⟨hsign, hroom, rfl⟩
    refine ⟨(), Except.require_of hsign _, ?_⟩
    split
    case isTrue hzero =>
      rw [compactValue, hzero, Scaled.value, Nat.zero_mul, Nat.zero_div]
    case isFalse hne =>
      rw [Except.require_of (mt (overflow_iff (Nat.pos_of_ne_zero hne)).mp (Nat.not_le.mpr hroom)),
        Except.ok_bind]

/-! ## Encoding -/

/-- The bits of a mantissa and an exponent. -/
theorem compact_toNat {m s : Nat} (hm : m < 2 ^ 15 * 256) (hs : s < 2 ^ 8) :
    compactMantissa (UInt32.ofNat (m + s * 2 ^ 24)) = m ∧
      compactSize (UInt32.ofNat (m + s * 2 ^ 24)) = s ∧
      ¬compactNegative (UInt32.ofNat (m + s * 2 ^ 24)) := by
  have hbits : (UInt32.ofNat (m + s * 2 ^ 24)).toNat = m + s * 2 ^ 24 :=
    UInt32.toNat_ofNat_of_lt' (show _ < 2 ^ 32 by omega)
  unfold compactMantissa compactSize compactNegative
  rw [hbits]
  omega

/-- The number of bytes of a target. -/
theorem bytes_bounds {t : Nat} (ht : t ≠ 0) :
    256 ^ ((Nat.size t + 7) / 8 - 1) ≤ t ∧ t < 256 ^ ((Nat.size t + 7) / 8) := by
  have hpos : 0 < Nat.size t := Nat.size_pos.mpr (Nat.pos_of_ne_zero ht)
  rw [show 256 = 2 ^ 8 from rfl, ← Nat.pow_mul, ← Nat.pow_mul, ← Nat.lt_size, ← Nat.size_le]
  omega

/-- The word of a target that the bits are taken from. -/
theorem compactWord_eq {t size : Nat} (h : t < 256 ^ size) :
    (if size ≤ 3 then t % 2 ^ 64 * 2 ^ (8 * (3 - size))
      else t / 2 ^ (8 * (size - 3)) % 2 ^ 64) = Scaled.mantissa 256 3 t size ∧
    Scaled.mantissa 256 3 t size < 2 ^ 24 := by
  have h256 : 0 < 256 := by decide
  have hup : Scaled.mantissa 256 3 t size < 2 ^ 24 := by
    refine (Nat.div_lt_iff_lt_mul (Nat.pow_pos h256)).mpr ?_
    rw [Nat.mul_comm (2 ^ 24)]
    exact Nat.mul_lt_mul_of_pos_right h (by decide)
  refine ⟨?_, hup⟩
  split
  case isTrue hsize =>
    have hsmall : t < 2 ^ 64 :=
      (h.trans_le (Nat.pow_le_pow_right h256 hsize)).trans (by decide)
    rw [Nat.mod_eq_of_lt hsmall, Scaled.mantissa_of_ge h256 hsize, Nat.pow_mul]
  case isFalse hsize =>
    have hm : Scaled.mantissa 256 3 t size = t / 2 ^ (8 * (size - 3)) := by
      rw [Scaled.mantissa_of_le h256 (Nat.le_of_not_le hsize), Nat.pow_mul]
    rw [← hm, Nat.mod_eq_of_lt (hup.trans (by decide))]

/-- `Target::to_compact` cuts a target to its normal exponent. -/
theorem toCompact_eq {t : Nat} (ht : t ≠ 0) (hlt : t < 2 ^ 256) :
    ∃ s ≤ 33, CompactNormal t s ∧
      Target.toCompact t = UInt32.ofNat (Scaled.mantissa 256 3 t s + s * 2 ^ 24) := by
  have h256 : 0 < 256 := by decide
  obtain ⟨hlow, hhigh⟩ := bytes_bounds ht
  have hsize : Nat.size t ≤ 256 := Nat.size_le.mpr hlt
  have hpos : 0 < Nat.size t := Nat.size_pos.mpr (Nat.pos_of_ne_zero ht)
  obtain ⟨size, hs⟩ : ∃ size, (Nat.size t + 7) / 8 = size + 1 := ⟨(Nat.size t - 1) / 8, by omega⟩
  rw [hs, Nat.add_sub_cancel] at hlow
  rw [hs] at hhigh
  have hge : 2 ^ 16 ≤ Scaled.mantissa 256 3 t (size + 1) := by
    refine (Nat.le_div_iff_mul_le (Nat.pow_pos h256)).mpr ?_
    calc 2 ^ 16 * 256 ^ (size + 1) = 256 ^ size * 256 ^ 3 := by rw [Nat.pow_succ]; ring
      _ ≤ t * 256 ^ 3 := Nat.mul_le_mul_right _ hlow
  obtain ⟨hcompact, hup⟩ := compactWord_eq hhigh
  unfold Target.toCompact
  rw [bitLen_eq_size, hs]
  dsimp only
  rw [hcompact]
  split
  case isTrue hbit =>
    refine ⟨size + 1 + 1, by omega, (Scaled.normal_iff h256).mpr ?_, ?_⟩
    · rw [Scaled.mantissa_succ]
      omega
    · rw [Scaled.mantissa_succ (s := size + 1)]
      rfl
  case isFalse hbit =>
    refine ⟨size + 1, by omega, (Scaled.normal_iff h256).mpr ?_, rfl⟩
    omega

/-- What a target that is not `0` becomes, and the bits for it. -/
theorem fromCompact_mantissa {t s : Nat} (hlt : t < 2 ^ 256) (hs : s ≤ 33)
    (hnormal : CompactNormal t s) :
    Target.fromCompact (UInt32.ofNat (Scaled.mantissa 256 3 t s + s * 2 ^ 24)) =
      .ok (Scaled.value 256 3 (Scaled.mantissa 256 3 t s) s) := by
  have h256 : 0 < 256 := by decide
  obtain ⟨hm, hsize, hsign⟩ := compact_toNat (hnormal.mantissa_lt h256) (show s < 2 ^ 8 by omega)
  have hvalue : compactValue (UInt32.ofNat (Scaled.mantissa 256 3 t s + s * 2 ^ 24)) =
      Scaled.value 256 3 (Scaled.mantissa 256 3 t s) s := by rw [compactValue, hm, hsize]
  rw [fromCompact_eq_ok, hvalue]
  exact ⟨fun h ↦ hsign h.2, (Scaled.value_mantissa_le h256).trans_lt hlt, rfl⟩

theorem toCompact_zero : Target.toCompact 0 = 0 := rfl

theorem fromCompact_zero : Target.fromCompact 0 = .ok 0 := rfl

/-- Encoding rounds down to the greatest target that some bits denote. -/
theorem fromCompact_toCompact {t : Nat} (hlt : t < 2 ^ 256) :
    ∃ u, Target.fromCompact (Target.toCompact t) = .ok u ∧ u ≤ t ∧
      ∀ bits v, Target.fromCompact bits = .ok v → v ≤ t → v ≤ u := by
  have h256 : 0 < 256 := by decide
  by_cases ht : t = 0
  · subst ht
    exact ⟨0, fromCompact_zero, le_rfl, fun _ _ _ hv ↦ hv⟩
  · obtain ⟨s, hs, hnormal, henc⟩ := toCompact_eq ht hlt
    refine ⟨_, henc ▸ fromCompact_mantissa hlt hs hnormal, Scaled.value_mantissa_le h256, ?_⟩
    intro bits v hbits hv
    obtain ⟨-, -, rfl⟩ := fromCompact_eq_ok.mp hbits
    exact hnormal.value_le h256 (compactMantissa_lt bits) hv

/-- A target that some bits denote is encoded without loss. -/
theorem fromCompact_reencode {bits : UInt32} {t : Nat} (h : Target.fromCompact bits = .ok t) :
    Target.fromCompact (Target.toCompact t) = .ok t := by
  have hlt : t < 2 ^ 256 := by
    obtain ⟨-, hroom, rfl⟩ := fromCompact_eq_ok.mp h
    exact hroom
  obtain ⟨u, hu, hle, hgreatest⟩ := fromCompact_toCompact hlt
  rwa [le_antisymm hle (hgreatest bits t h le_rfl)] at hu

/-- Encoding what bits of an encoding denote gives the same bits. -/
theorem toCompact_fromCompact_toCompact {t u : Nat} (hlt : t < 2 ^ 256)
    (h : Target.fromCompact (Target.toCompact t) = .ok u) :
    Target.toCompact u = Target.toCompact t := by
  have h256 : 0 < 256 := by decide
  by_cases ht : t = 0
  · subst ht
    cases (fromCompact_zero.symm.trans h)
    rfl
  · obtain ⟨s, hs, hnormal, henc⟩ := toCompact_eq ht hlt
    rw [henc, fromCompact_mantissa hlt hs hnormal] at h
    obtain ⟨hcut, hsame⟩ := hnormal.cut h256
    cases h
    have hne : Scaled.value 256 3 (Scaled.mantissa 256 3 t s) s ≠ 0 := by
      intro hzero
      rw [hzero, Scaled.mantissa, Nat.zero_mul, Nat.zero_div] at hsame
      exact absurd (hnormal.low_le_mantissa h256) (by rw [← hsame]; decide)
    obtain ⟨r, -, hr, henc'⟩ :=
      toCompact_eq hne ((Scaled.value_mantissa_le h256).trans_lt hlt)
    rw [henc', henc, hr.exponent_unique h256 hcut, hsame]

theorem toCompact_mono {t u : Nat} (hlt : u < 2 ^ 256) (h : t ≤ u) :
    (Target.toCompact t).toNat ≤ (Target.toCompact u).toNat := by
  have h256 : 0 < 256 := by decide
  by_cases ht : t = 0
  · subst ht
    exact Nat.zero_le _
  · have hu : u ≠ 0 := by omega
    obtain ⟨s, hs, hnormal, henc⟩ := toCompact_eq ht (h.trans_lt hlt)
    obtain ⟨r, hr, hnormal', henc'⟩ := toCompact_eq hu hlt
    have hm := hnormal.mantissa_lt h256
    have hm' := hnormal'.mantissa_lt h256
    rw [henc, henc', UInt32.toNat_ofNat_of_lt' (show _ < 2 ^ 32 by omega),
      UInt32.toNat_ofNat_of_lt' (show _ < 2 ^ 32 by omega)]
    rcases (hnormal.exponent_le h256 hnormal' h).lt_or_eq with hsr | rfl
    · omega
    · exact Nat.add_le_add_right (Scaled.mantissa_mono h) _

/-! ## The exact value -/

/-- What compact bits denote before rounding. -/
def compactExact (bits : UInt32) : ℚ :=
  compactMantissa bits * 256 ^ ((compactSize bits : ℤ) - 3)

theorem compactExact_eq (bits : UInt32) :
    compactExact bits = ((compactMantissa bits * 256 ^ compactSize bits : Nat) : ℚ) /
      ((256 ^ 3 : Nat) : ℚ) := by
  rw [compactExact, zpow_sub₀ (by decide), zpow_natCast]
  push_cast
  ring

theorem floor_compactExact (bits : UInt32) : ⌊compactExact bits⌋₊ = compactValue bits := by
  rw [compactExact_eq, Nat.floor_div_eq_div]
  rfl

theorem le_compactExact_iff {bits : UInt32} {n : Nat} :
    (n : ℚ) ≤ compactExact bits ↔ n ≤ compactValue bits := by
  rw [← floor_compactExact, Nat.le_floor_iff]
  rw [compactExact_eq]
  positivity

end Plaine.Consensus

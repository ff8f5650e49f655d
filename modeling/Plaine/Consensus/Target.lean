import Plaine.Consensus.Compact
import Plaine.Lib.WordBits
import Mathlib.Data.Nat.Bitwise

/-!
# Targets in limbs

`Target` of `asert.rs` as the source keeps it, four words with the least significant first.  Each
operation has the number that `Asert` computes with.
-/

namespace Plaine.Consensus.Limbs

open Plaine.Lib

/-- `Target`. -/
abbrev Target := Words 4

/-- `Target::from_compact`. -/
def Target.fromCompact (bits : UInt32) : Except AsertError Target := do
  let size := (bits >>> 24).toNat
  let word := (bits &&& 0x007fffff).toUInt64
  Except.require (¬(word ≠ 0 ∧ bits &&& 0x00800000 ≠ 0)) .negativeCompact
  if word = 0 then
    return Words.zero 4
  Except.require (¬(34 < size ∨ (0xff < word ∧ 33 < size) ∨ (0xffff < word ∧ 32 < size)))
    .overflowCompact
  return if size ≤ 3 then Words.ofWord 3 (word >>> UInt64.ofNat (8 * (3 - size)))
    else (Words.ofWord 3 word).shl (8 * (size - 3))

/-- `Target::to_compact`. -/
def Target.toCompact (t : Target) : UInt32 :=
  let size := (t.bitLen + 7) / 8
  let compact := if size ≤ 3 then t.get 0 <<< UInt64.ofNat (8 * (3 - size))
    else (t.shr (8 * (size - 3))).get 0
  if compact &&& 0x00800000 ≠ 0 then
    (compact >>> 8).toUInt32 ||| UInt32.ofNat (size + 1) <<< 24
  else compact.toUInt32 ||| UInt32.ofNat size <<< 24

/-! ## Single words -/

theorem compactWord_toNat (bits : UInt32) :
    (bits &&& 0x007fffff).toUInt64.toNat = compactMantissa bits := by
  rw [UInt32.toNat_toUInt64, UInt32.toNat_and]
  exact Nat.and_two_pow_sub_one_eq_mod bits.toNat 23

theorem compactWord_size (bits : UInt32) : (bits >>> 24).toNat = compactSize bits := by
  rw [UInt32.toNat_shiftRight]
  exact Nat.shiftRight_eq_div_pow bits.toNat 24

/-- A mask of one bit. -/
theorem and_two_pow_ne_zero {m i : Nat} : m &&& 2 ^ i ≠ 0 ↔ m / 2 ^ i % 2 = 1 := by
  rw [Nat.and_two_pow, ← Nat.toNat_testBit]
  cases m.testBit i with
  | false => simp
  | true => simp

theorem compactWord_sign (bits : UInt32) :
    bits &&& 0x00800000 ≠ 0 ↔ compactNegative bits := by
  rw [Ne, ← UInt32.toNat_inj, UInt32.toNat_and]
  exact and_two_pow_ne_zero (i := 23)

theorem word_sign (w : UInt64) : w &&& 0x00800000 ≠ 0 ↔ w.toNat / 2 ^ 23 % 2 = 1 := by
  rw [Ne, ← UInt64.toNat_inj, UInt64.toNat_and]
  exact and_two_pow_ne_zero (i := 23)

theorem toNat_get_zero (t : Target) : (t.get 0).toNat = t.value % 2 ^ 64 := by
  have h := t.value_mod_succ 0
  rw [Nat.mul_zero, Nat.zero_add, Nat.pow_zero, Nat.mod_one, Nat.zero_add, Nat.one_mul] at h
  exact h.symm

/-! ## Decoding -/

theorem toNat_shiftRight_ofNat (w : UInt64) {s : Nat} (hs : s < 64) :
    (w >>> UInt64.ofNat s).toNat = w.toNat / 2 ^ s := by
  rw [UInt64.toNat_shiftRight, UInt64.toNat_ofNat_of_lt' (hs.trans (by decide)),
    Nat.mod_eq_of_lt hs, Nat.shiftRight_eq_div_pow]

theorem toNat_shiftLeft_ofNat (w : UInt64) {s : Nat} (hs : s < 64) :
    (w <<< UInt64.ofNat s).toNat = w.toNat * 2 ^ s % 2 ^ 64 := by
  rw [UInt64.toNat_shiftLeft, UInt64.toNat_ofNat_of_lt' (hs.trans (by decide)),
    Nat.mod_eq_of_lt hs, Nat.shiftLeft_eq]

/-- The target of a mantissa and an exponent. -/
theorem value_ofWord_shifted {word : UInt64} {m size : Nat} (hword : word.toNat = m)
    (hroom : 3 < size → m * 2 ^ (8 * (size - 3)) < 2 ^ 256) :
    (if size ≤ 3 then Words.ofWord 3 (word >>> UInt64.ofNat (8 * (3 - size)))
      else (Words.ofWord 3 word).shl (8 * (size - 3))).value =
      if size ≤ 3 then m / 2 ^ (8 * (3 - size)) else m * 2 ^ (8 * (size - 3)) := by
  split
  case isTrue h =>
    rw [Words.value_ofWord, toNat_shiftRight_ofNat word (by omega), hword]
  case isFalse h =>
    rw [Words.value_shl, Words.value_ofWord, hword]
    exact Nat.mod_eq_of_lt (hroom (Nat.lt_of_not_le h))

theorem map_require_bind {ε α β : Type} {p : Prop} [Decidable p] (e : ε) (g : α → β)
    (f : Unit → Except ε α) :
    (Except.require p e >>= f).map g = (Except.require p e >>= fun u ↦ (f u).map g) := by
  unfold Except.require
  split
  · rfl
  · rfl

/-- Decoding in limbs is decoding in numbers. -/
theorem map_value_fromCompact (bits : UInt32) :
    (Target.fromCompact bits).map Words.value = Consensus.Target.fromCompact bits := by
  have hsign := compactWord_sign bits
  have hword := compactWord_toNat bits
  have hzero : (bits &&& 0x007fffff).toUInt64 = 0 ↔ compactMantissa bits = 0 := by
    rw [← UInt64.toNat_inj, hword, UInt64.toNat_zero]
  have hbyte : 0xff < (bits &&& 0x007fffff).toUInt64 ↔ 0xff < compactMantissa bits := by
    rw [UInt64.lt_iff_toNat_lt, hword]
    rfl
  have hshort : 0xffff < (bits &&& 0x007fffff).toUInt64 ↔ 0xffff < compactMantissa bits := by
    rw [UInt64.lt_iff_toNat_lt, hword]
    rfl
  unfold Target.fromCompact Consensus.Target.fromCompact
  simp only [ne_eq, hzero, hsign, hbyte, hshort, compactWord_size]
  rw [map_require_bind]
  refine congrArg (Except.require _ _ >>= ·) (funext fun _ ↦ ?_)
  change Except.map _ (if _ then _ else _) = if compactMantissa bits = 0 then _ else _
  split
  case isTrue => rfl
  case isFalse hne =>
    rw [map_require_bind]
    change (Except.require (¬(34 < compactSize bits ∨ _)) _ >>= _) =
      (Except.require (¬(34 < compactSize bits ∨ _)) _ >>= _)
    by_cases hover : 34 < compactSize bits ∨ (0xff < compactMantissa bits ∧
        33 < compactSize bits) ∨ (0xffff < compactMantissa bits ∧ 32 < compactSize bits)
    · unfold Except.require
      rw [if_neg (not_not.mpr hover)]
      exact (if_neg (not_not.mpr hover)).symm ▸ rfl
    · have hroom := mt (overflow_iff (Nat.pos_of_ne_zero hne)).mpr hover
      rw [Except.require_of hover, Except.ok_bind]
      refine (congrArg Except.ok (value_ofWord_shifted hword fun h ↦ ?_)).trans ?_
      · rw [← compactValue_of_ge h.le]
        exact Nat.lt_of_not_le hroom
      · exact (Except.require_of hover _ ▸ rfl)

/-! ## Encoding -/

/-- The number of bytes of a target. -/
theorem value_lt_bytes (t : Target) : t.value < 256 ^ ((t.bitLen + 7) / 8) := by
  rw [Words.bitLen_eq, show 256 = 2 ^ 8 from rfl, ← Nat.pow_mul, ← Nat.size_le]
  omega

/-- The word that the bits are taken from. -/
theorem toNat_compactWord (t : Target) {size : Nat} (h : t.value < 256 ^ size) :
    (if size ≤ 3 then t.get 0 <<< UInt64.ofNat (8 * (3 - size))
      else (t.shr (8 * (size - 3))).get 0).toNat = Scaled.mantissa 256 3 t.value size := by
  obtain ⟨hword, hlt⟩ := compactWord_eq h
  rw [← hword] at hlt ⊢
  split
  case isTrue hsize =>
    rw [if_pos hsize] at hlt
    rw [toNat_shiftLeft_ofNat _ (by omega), toNat_get_zero, Nat.mod_eq_of_lt (by omega)]
  case isFalse hsize => rw [toNat_get_zero, Words.value_shr]

/-- The size goes above the mantissa. -/
theorem or_size {w : UInt64} {m s : Nat} (hw : w.toNat = m) (hm : m < 2 ^ 24) (hs : s < 2 ^ 8) :
    w.toUInt32 ||| UInt32.ofNat s <<< 24 = UInt32.ofNat (m + s * 2 ^ 24) := by
  have hsize : (UInt32.ofNat s <<< 24).toNat = 2 ^ 24 * s := by
    rw [UInt32.toNat_shiftLeft, UInt32.toNat_ofNat_of_lt' (show s < 2 ^ 32 by omega)]
    change s <<< 24 % 2 ^ 32 = _
    rw [Nat.shiftLeft_eq]
    omega
  rw [← UInt32.toNat_inj, UInt32.toNat_or, hsize, UInt64.toNat_toUInt32, hw,
    Nat.mod_eq_of_lt (show m < 2 ^ 32 by omega), Nat.or_comm, ← Nat.two_pow_add_eq_or_of_lt hm,
    UInt32.toNat_ofNat_of_lt' (show _ < 2 ^ 32 by omega)]
  omega

/-- Encoding in limbs is encoding in numbers. -/
theorem toCompact_eq_value (t : Target) :
    Target.toCompact t = Consensus.Target.toCompact t.value := by
  have hbits : t.bitLen ≤ 256 := by
    rw [Words.bitLen_eq]
    exact Nat.size_le.mpr t.value_lt
  have hvalue := value_lt_bytes t
  have hword := toNat_compactWord t hvalue
  obtain ⟨hcompact, hlt⟩ := compactWord_eq hvalue
  unfold Target.toCompact Consensus.Target.toCompact
  rw [bitLen_eq_size, ← Words.bitLen_eq]
  dsimp only
  rw [hcompact]
  have hsize : (t.bitLen + 7) / 8 ≤ 32 := by omega
  generalize (t.bitLen + 7) / 8 = size at hsize hword hlt ⊢
  generalize (if size ≤ 3 then t.get 0 <<< UInt64.ofNat (8 * (3 - size))
    else (t.shr (8 * (size - 3))).get 0) = word at hword ⊢
  have hsign := word_sign word
  rw [hword] at hsign
  by_cases hbit : Scaled.mantissa 256 3 t.value size / 2 ^ 23 % 2 = 1
  · have hshift : (word >>> 8).toNat = Scaled.mantissa 256 3 t.value size / 2 ^ 8 := by
      rw [UInt64.toNat_shiftRight, hword]
      exact Nat.shiftRight_eq_div_pow _ 8
    rw [if_pos (hsign.mpr hbit), if_pos hbit]
    exact or_size hshift (by omega) (by omega)
  · rw [if_neg (mt hsign.mp hbit), if_neg hbit]
    exact or_size hword hlt (by omega)

end Plaine.Consensus.Limbs

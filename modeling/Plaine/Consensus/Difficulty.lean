import Plaine.Consensus.Target
import Mathlib.Order.SuccPred.IntervalSucc

/-!
# ASERT in limbs

`asert_next_target_from_ref` with the integers the source computes in: the exponent in `i128`, the
cubic in `u128`, the product in five words.  A step that leaves its type is `none`; none does, and
the result is the exact one.
-/

namespace Plaine.Consensus

open Plaine.Lib

/-! ## The exact value -/

/-- The exponent, in steps of `2 ^ -16`. -/
def asertExponent (heightDiff : Nat) (timeDiff : Int) : Int :=
  ((timeDiff - asertTargetSpacingSecs * (heightDiff + 1)) * radix).tdiv asertHalfLifeSecs

/-- What a target is multiplied by at an exponent: the factor of the fraction, and a power of two. -/
def asertScale (exponent : Int) : ℚ :=
  asertFactor (exponent % radix).toNat * 2 ^ (exponent / radix - 16)

/-- The next target over unbounded numbers, clamped at the end. -/
def asertExact (refTarget heightDiff : Nat) (timeDiff : Int) (powLimit : Nat) : Nat :=
  max 1 (min powLimit ⌊refTarget * asertScale (asertExponent heightDiff timeDiff)⌋₊)

theorem asertFactor_mono {f g : Nat} (h : f ≤ g) : asertFactor f ≤ asertFactor g := by
  refine Nat.add_le_add_left (Nat.div_le_div_right (Nat.add_le_add_right ?_ _)) _
  have hlinear : 195766423245049 * f ≤ 195766423245049 * g := Nat.mul_le_mul_left _ h
  have hsquare : 971821376 * f * f ≤ 971821376 * g * g :=
    Nat.mul_le_mul (Nat.mul_le_mul_left _ h) h
  have hcube : 5127 * f * f * f ≤ 5127 * g * g * g :=
    Nat.mul_le_mul (Nat.mul_le_mul (Nat.mul_le_mul_left _ h) h) h
  exact Nat.add_le_add (Nat.add_le_add hlinear hsquare) hcube

/-- The fit does not reach two before the next whole exponent. -/
theorem asertFactor_le {f : Nat} (h : f < radix) : asertFactor f ≤ 2 * radix :=
  (asertFactor_mono (Nat.le_sub_one_of_lt h)).trans (by decide)

theorem asertFactor_zero : asertFactor 0 = radix := by decide

/-- From one step of the exponent to the next the scale does not fall, over the seam of whole
exponents neither. -/
theorem asertScale_succ (e : Int) : asertScale e ≤ asertScale (e + 1) := by
  have hradix : (radix : Int) = 65536 := rfl
  have htwo : (0 : ℚ) < 2 := by norm_num
  have hlt : (e % radix).toNat < radix := by
    rw [hradix]
    change _ < 65536
    omega
  rcases Nat.lt_or_ge ((e % radix).toNat + 1) radix with hinside | hseam
  · have hfrac : ((e + 1) % radix).toNat = (e % radix).toNat + 1 := by
      rw [hradix] at hinside ⊢
      change _ < 65536 at hinside
      omega
    have hshift : (e + 1) / radix = e / radix := by
      rw [hradix] at hinside ⊢
      change _ < 65536 at hinside
      omega
    unfold asertScale
    rw [hfrac, hshift]
    have hfactor : (asertFactor (e % radix).toNat : ℚ) ≤ asertFactor ((e % radix).toNat + 1) :=
      Nat.cast_le.mpr (asertFactor_mono (Nat.le_succ _))
    exact mul_le_mul_of_nonneg_right hfactor (zpow_nonneg htwo.le _)
  · have hfrac : ((e + 1) % radix).toNat = 0 := by
      rw [hradix] at hseam ⊢
      change 65536 ≤ _ at hseam
      omega
    have hshift : (e + 1) / radix - 16 = (e / radix - 16) + 1 := by
      rw [hradix] at hseam ⊢
      change 65536 ≤ _ at hseam
      omega
    unfold asertScale
    rw [hfrac, hshift, asertFactor_zero, zpow_add_one₀ htwo.ne', mul_comm (2 ^ _ : ℚ), ← mul_assoc]
    have hfactor : (asertFactor (e % radix).toNat : ℚ) ≤ radix * 2 := by
      exact_mod_cast (asertFactor_le hlt).trans_eq (Nat.mul_comm _ _)
    exact mul_le_mul_of_nonneg_right hfactor (zpow_nonneg htwo.le _)

theorem asertScale_mono {e e' : Int} (h : e ≤ e') : asertScale e ≤ asertScale e' :=
  monotone_int_of_le_succ asertScale_succ h

theorem asertScale_nonneg (e : Int) : 0 ≤ asertScale e :=
  mul_nonneg (Nat.cast_nonneg _) (zpow_nonneg (by norm_num) _)

theorem asertExponent_mono {h h' : Nat} {d d' : Int} (hh : h' ≤ h) (hd : d ≤ d') :
    asertExponent h d ≤ asertExponent h' d' := by
  refine Int.tdiv_le_tdiv (by decide) (Int.mul_le_mul_of_nonneg_right ?_ (by decide))
  unfold asertTargetSpacingSecs
  push_cast
  omega

/-- A later block and a higher reference make the target no lower, a higher one no higher. -/
theorem asertExact_mono {r r' h h' : Nat} {d d' : Int} (powLimit : Nat) (hr : r ≤ r')
    (hh : h' ≤ h) (hd : d ≤ d') : asertExact r h d powLimit ≤ asertExact r' h' d' powLimit := by
  refine max_le_max_left 1 (min_le_min_left powLimit (Nat.floor_le_floor ?_))
  exact mul_le_mul (Nat.cast_le.mpr hr) (asertScale_mono (asertExponent_mono hh hd))
    (asertScale_nonneg _) (Nat.cast_nonneg _)

/-! ## The numbers of `Asert` -/

theorem asertFactor_lt {f : Nat} (h : f < radix) : asertFactor f < 2 ^ 64 :=
  (asertFactor_le h).trans_lt (by decide)

/-- Clamping at the end. -/
theorem clamp_eq {wide powLimit : Nat} (hpos : 1 ≤ powLimit) (hlt : powLimit < 2 ^ 256) :
    (if 2 ^ 256 ≤ wide then powLimit else if wide = 0 then 1
      else if powLimit < wide then powLimit else wide) = max 1 (min powLimit wide) := by
  split
  · omega
  · split
    · omega
    · split
      · omega
      · omega

/-- The floor of a number times a power of two. -/
theorem floor_mul_zpow (wide : Nat) (shifts : Int) :
    ⌊(wide : ℚ) * 2 ^ shifts⌋₊ =
      if shifts ≤ 0 then wide / 2 ^ (-shifts).toNat else wide * 2 ^ shifts.toNat := by
  split
  case isTrue h =>
    obtain ⟨k, hk⟩ := Int.eq_ofNat_of_zero_le (Int.neg_nonneg_of_nonpos h)
    obtain rfl : shifts = -(k : Int) := by omega
    have hquot : (wide : ℚ) * 2 ^ (-(k : Int)) = (wide : ℚ) / ((2 ^ k : Nat) : ℚ) := by
      rw [zpow_neg, zpow_natCast, ← div_eq_mul_inv]
      push_cast
      rfl
    rw [hquot, Nat.floor_div_eq_div, Int.neg_neg, Int.toNat_natCast]
  case isFalse h =>
    obtain ⟨k, rfl⟩ := Int.eq_ofNat_of_zero_le (show 0 ≤ shifts by omega)
    have hprod : (wide : ℚ) * 2 ^ (k : Int) = ((wide * 2 ^ k : Nat) : ℚ) := by
      rw [zpow_natCast]
      push_cast
      rfl
    rw [hprod, Nat.floor_natCast, Int.toNat_natCast]

/-- A product of five words is shifted out by as many bits. -/
theorem div_two_pow_min {wide k : Nat} (h : wide < 2 ^ 320) :
    wide / 2 ^ min k 320 = wide / 2 ^ k := by
  rcases Nat.le_total k 320 with hk | hk
  · rw [Nat.min_eq_left hk]
  · have hpow : 2 ^ 320 ≤ 2 ^ k := pow_le_pow_right₀ (by decide) hk
    rw [Nat.min_eq_right hk, Nat.div_eq_of_lt h, Nat.div_eq_of_lt (h.trans_le hpow)]

/-- More bits than a target has are beyond the limit. -/
theorem two_pow_le_of_bitLen {wide k : Nat} (hne : bitLen wide ≠ 0) (h : 256 < bitLen wide + k) :
    2 ^ 256 ≤ wide * 2 ^ k := by
  rw [bitLen_eq_size] at hne h
  have htop : 2 ^ (Nat.size wide - 1) ≤ wide := Nat.lt_size.mp (by omega)
  calc 2 ^ 256 ≤ 2 ^ (Nat.size wide - 1 + k) := Nat.pow_le_pow_right (by decide) (by omega)
    _ = 2 ^ (Nat.size wide - 1) * 2 ^ k := Nat.pow_add ..
    _ ≤ wide * 2 ^ k := Nat.mul_le_mul_right _ htop

theorem wide_lt {refTarget f : Nat} (href : refTarget < 2 ^ 256) (hf : f < radix) :
    refTarget * asertFactor f < 2 ^ 320 :=
  calc refTarget * asertFactor f < 2 ^ 256 * 2 ^ 64 :=
        Nat.mul_lt_mul'' href (asertFactor_lt hf)
    _ = 2 ^ 320 := by decide +kernel

theorem fraction_lt (e : Int) : (e % radix).toNat < radix := by
  have hradix : (radix : Int) = 65536 := rfl
  rw [hradix]
  change _ < 65536
  omega

/-- The target of `Asert` is the exact one. -/
theorem asertNextTargetFromRef_exact {refTarget heightDiff powLimit : Nat} {timeDiff : Int}
    (href : refTarget < 2 ^ 256) (hpos : 1 ≤ powLimit) (hlt : powLimit < 2 ^ 256) :
    asertNextTargetFromRef refTarget heightDiff timeDiff powLimit =
      asertExact refTarget heightDiff timeDiff powLimit := by
  have hwide := wide_lt href (fraction_lt (asertExponent heightDiff timeDiff))
  have hfloor : ⌊refTarget * asertScale (asertExponent heightDiff timeDiff)⌋₊ = _ :=
    (congrArg _ (by rw [asertScale, ← mul_assoc, ← Nat.cast_mul])).trans
      (floor_mul_zpow (refTarget *
        asertFactor (asertExponent heightDiff timeDiff % radix).toNat) _)
  unfold asertNextTargetFromRef asertExact
  rw [hfloor]
  dsimp only
  change (if asertExponent heightDiff timeDiff / radix - 16 ≤ 0 then _ else _) = _
  split
  case isTrue h =>
    rw [← clamp_eq hpos hlt, ← div_two_pow_min hwide]
    rfl
  case isFalse h =>
    rw [← clamp_eq hpos hlt]
    split
    case isTrue hbig => exact (if_pos (two_pow_le_of_bitLen hbig.1 hbig.2)).symm
    case isFalse => rfl

namespace Limbs

/-! ## The code -/

/-- A result in `i128`. -/
def i128 (x : Int) : Option Int := if -2 ^ 127 ≤ x ∧ x < 2 ^ 127 then some x else none

/-- A result in `u128`. -/
def u128 (n : Nat) : Option Nat := if n < 2 ^ 128 then some n else none

def cubeC1 : Nat := 195766423245049

def cubeC2 : Nat := 971821376

def cubeC3 : Nat := 5127

/-- The factor of a fraction. -/
def asertFactor (f : Nat) : Option UInt64 := do
  let linear ← u128 (cubeC1 * f)
  let square ← u128 (cubeC2 * f)
  let square ← u128 (square * f)
  let cube ← u128 (cubeC3 * f)
  let cube ← u128 (cube * f)
  let cube ← u128 (cube * f)
  let sum ← u128 (linear + square)
  let sum ← u128 (sum + cube)
  let sum ← u128 (sum + 2 ^ 47)
  let rounded := sum / 2 ^ 48 % 2 ^ 64
  if radix + rounded < 2 ^ 64 then some (UInt64.ofNat (radix + rounded)) else none

/-- `shl_320`. -/
def shl320 (v : Words 5) (n : Nat) : Option (Words 5) := if n < 320 then some (v.shl n) else none

/-- The last steps of `asert_next_target_from_ref`. -/
def clampWide (wide : Words 5) (powLimit : Target) : Target :=
  if wide.get 4 ≠ 0 then powLimit
  else
    let next : Target := Words.ofFn 4 wide.get
    if next = Words.zero 4 then Words.ofWord 3 1
    else if powLimit < next then powLimit
    else next

/-- `asert_next_target_from_ref`. -/
def asertNextTargetFromRef (refTarget : Target) (heightDiff : UInt64) (timeDiff : Int)
    (powLimit : Target) : Option Target := do
  let blocks ← i128 (heightDiff.toNat + 1)
  let ideal ← i128 (asertTargetSpacingSecs * blocks)
  let late ← i128 (timeDiff - ideal)
  let scaled ← i128 (late * radix)
  let exponent := scaled.tdiv asertHalfLifeSecs
  let factor ← asertFactor (exponent % radix).toNat
  let wide := refTarget.mulWord factor
  let shifts ← i128 (exponent / radix - 16)
  if shifts ≤ 0 then
    return clampWide (wide.shr (min (-shifts) 320).toNat) powLimit
  else if wide.bitLen ≠ 0 then
    if 256 < wide.bitLen + shifts then
      return powLimit
    else
      return clampWide (← shl320 wide shifts.toNat) powLimit
  else
    return clampWide wide powLimit

/-- `asert_next_target`. -/
def asertNextTarget (anchorBits : UInt32) (anchorHeight anchorParentTime parentHeight
    parentTime : UInt64) (powLimit : Target) : Option (Except AsertError Target) :=
  if parentHeight < anchorHeight then some (.error .parentBelowAnchor)
  else match Target.fromCompact anchorBits with
    | .error e => some (.error e)
    | .ok refTarget => do
      return .ok (← asertNextTargetFromRef refTarget (parentHeight - anchorHeight)
        ((parentTime.toNat : Int) - anchorParentTime.toNat) powLimit)

/-- `asert_next_bits`. -/
def asertNextBits (anchorBits : UInt32) (anchorHeight anchorParentTime parentHeight
    parentTime : UInt64) (powLimit : Target) : Option (Except AsertError UInt32) := do
  let next ← asertNextTarget anchorBits anchorHeight anchorParentTime parentHeight parentTime
    powLimit
  return Target.toCompact <$> next

/-! ## No step leaves its type -/

theorem i128_bind {α : Type} {x : Int} (h : -2 ^ 127 ≤ x ∧ x < 2 ^ 127) (f : Int → Option α) :
    (i128 x >>= f) = f x := by rw [i128, if_pos h, Option.bind_eq_bind, Option.bind_some]

theorem u128_bind {α : Type} {n : Nat} (h : n < 2 ^ 128) (f : Nat → Option α) :
    (u128 n >>= f) = f n := by rw [u128, if_pos h, Option.bind_eq_bind, Option.bind_some]

theorem asertFactor_eq {f : Nat} (hf : f < radix) :
    ∃ factor, asertFactor f = some factor ∧ factor.toNat = Consensus.asertFactor f := by
  have hle : f ≤ 65535 := Nat.le_sub_one_of_lt hf
  have hfit {n : Nat} (h : n ≤ 2 ^ 64) : n < 2 ^ 128 := h.trans_lt (by decide)
  have hlinear : cubeC1 * f ≤ cubeC1 * 65535 := Nat.mul_le_mul_left _ hle
  have hsquare₁ : cubeC2 * f ≤ cubeC2 * 65535 := Nat.mul_le_mul_left _ hle
  have hsquare₂ : cubeC2 * f * f ≤ cubeC2 * 65535 * 65535 := Nat.mul_le_mul hsquare₁ hle
  have hcube₁ : cubeC3 * f ≤ cubeC3 * 65535 := Nat.mul_le_mul_left _ hle
  have hcube₂ : cubeC3 * f * f ≤ cubeC3 * 65535 * 65535 := Nat.mul_le_mul hcube₁ hle
  have hcube₃ : cubeC3 * f * f * f ≤ cubeC3 * 65535 * 65535 * 65535 := Nat.mul_le_mul hcube₂ hle
  have hsum₁ := Nat.add_le_add hlinear hsquare₂
  have hsum₂ := Nat.add_le_add hsum₁ hcube₃
  have hsum₃ := Nat.add_le_add_right hsum₂ (2 ^ 47)
  have hfactor := asertFactor_lt hf
  have hrounded : (cubeC1 * f + cubeC2 * f * f + cubeC3 * f * f * f + 2 ^ 47) / 2 ^ 48 % 2 ^ 64 =
      (cubeC1 * f + cubeC2 * f * f + cubeC3 * f * f * f + 2 ^ 47) / 2 ^ 48 :=
    Nat.mod_eq_of_lt (((Nat.div_le_self _ _).trans hsum₃).trans_lt (by decide))
  refine ⟨UInt64.ofNat (Consensus.asertFactor f), ?_, UInt64.toNat_ofNat_of_lt' hfactor⟩
  unfold asertFactor
  rw [u128_bind (hfit (hlinear.trans (by decide))), u128_bind (hfit (hsquare₁.trans (by decide))),
    u128_bind (hfit (hsquare₂.trans (by decide))), u128_bind (hfit (hcube₁.trans (by decide))),
    u128_bind (hfit (hcube₂.trans (by decide))), u128_bind (hfit (hcube₃.trans (by decide))),
    u128_bind (hfit (hsum₁.trans (by decide))), u128_bind (hfit (hsum₂.trans (by decide))),
    u128_bind (hfit (hsum₃.trans (by decide)))]
  dsimp only
  rw [hrounded]
  exact if_pos hfactor

/-- The four low words of five. -/
theorem value_ofFn_get {n : Nat} (wide : Words n) :
    (Words.ofFn 4 wide.get : Target).value = wide.value % 2 ^ 256 :=
  Words.value_ofFn fun i _ _ hj ↦ Words.testBit_get wide i hj

theorem value_clampWide (wide : Words 5) (powLimit : Target) :
    (clampWide wide powLimit).value =
      if 2 ^ 256 ≤ wide.value then powLimit.value else if wide.value = 0 then 1
        else if powLimit.value < wide.value then powLimit.value else wide.value := by
  have hsplit := wide.value_mod_succ 4
  rw [show 4 + 1 = 5 from rfl, Nat.mod_eq_of_lt wide.value_lt] at hsplit
  have hmod : wide.value % 2 ^ 256 < 2 ^ 256 := Nat.mod_lt _ (by decide)
  have hnext := value_ofFn_get wide
  unfold clampWide
  by_cases htop : wide.get 4 = 0
  · have hlt : wide.value < 2 ^ 256 := by
      rw [htop, UInt64.toNat_zero, Nat.mul_zero, Nat.add_zero] at hsplit
      exact hsplit ▸ hmod
    rw [Nat.mod_eq_of_lt hlt] at hnext
    rw [if_neg (not_not.mpr htop), if_neg (Nat.not_le.mpr hlt), ← hnext]
    dsimp only
    generalize (Words.ofFn 4 wide.get : Target) = next
    by_cases hzero : next.value = 0
    · rw [if_pos (Words.value_eq_zero.mp hzero), if_pos hzero]
      exact Words.value_ofWord 3 1
    · rw [if_neg (mt Words.value_eq_zero.mpr hzero), if_neg hzero]
      by_cases hlimit : powLimit < next
      · rw [if_pos hlimit, if_pos (Words.lt_iff.mp hlimit)]
      · rw [if_neg hlimit, if_neg (mt Words.lt_iff.mpr hlimit)]
  · have hpos : 0 < (wide.get 4).toNat :=
      Nat.pos_of_ne_zero fun h ↦ htop (UInt64.toNat_inj.mp h)
    have hge : 2 ^ 256 ≤ wide.value :=
      (Nat.le_mul_of_pos_right _ hpos).trans ((Nat.le_add_left _ _).trans_eq hsplit.symm)
    rw [if_pos htop, if_pos hge]

/-- As long as all bits stay within a target none is lost. -/
theorem mul_two_pow_lt {wide : Words 5} {k : Nat} (h : wide.bitLen + k ≤ 256) :
    wide.value * 2 ^ k < 2 ^ (64 * 5) := by
  have hlt : wide.value < 2 ^ wide.bitLen := wide.bitLen_eq ▸ Nat.lt_size_self wide.value
  calc wide.value * 2 ^ k < 2 ^ wide.bitLen * 2 ^ k :=
        Nat.mul_lt_mul_of_pos_right hlt (Nat.two_pow_pos k)
    _ = 2 ^ (wide.bitLen + k) := (pow_add ..).symm
    _ ≤ 2 ^ (64 * 5) := pow_le_pow_right₀ (by decide) (h.trans (by decide))

/-- Timestamps and heights keep the exponent far from the ends of its type. -/
theorem asertExponent_bounds {heightDiff : Nat} {timeDiff : Int} (hheight : heightDiff < 2 ^ 64)
    (htime : -2 ^ 64 < timeDiff ∧ timeDiff < 2 ^ 64) :
    -2 ^ 100 < asertExponent heightDiff timeDiff ∧ asertExponent heightDiff timeDiff < 2 ^ 100 := by
  have hspacing : (asertTargetSpacingSecs : Int) = 60 := rfl
  have hradix : (radix : Int) = 65536 := rfl
  have habs := Int.natAbs_tdiv_le_natAbs
    ((timeDiff - asertTargetSpacingSecs * (heightDiff + 1)) * radix) asertHalfLifeSecs
  unfold asertExponent
  generalize Int.tdiv _ _ = e at habs ⊢
  rw [hspacing, hradix] at habs
  omega

/-- In range of two timestamps every step fits, and the limbs have the number of `Asert`. -/
theorem asertNextTargetFromRef_eq (refTarget : Target) (heightDiff parentTime anchorTime : UInt64)
    (powLimit : Target) : ∃ next,
    asertNextTargetFromRef refTarget heightDiff ((parentTime.toNat : Int) - anchorTime.toNat)
      powLimit = some next ∧
    next.value = Consensus.asertNextTargetFromRef refTarget.value heightDiff.toNat
      ((parentTime.toNat : Int) - anchorTime.toNat) powLimit.value := by
  have hheight : heightDiff.toNat < 2 ^ 64 := heightDiff.toNat_lt
  have hparent : parentTime.toNat < 2 ^ 64 := parentTime.toNat_lt
  have hanchor : anchorTime.toNat < 2 ^ 64 := anchorTime.toNat_lt
  generalize hdiff : (parentTime.toNat : Int) - anchorTime.toNat = timeDiff
  have htime : -2 ^ 64 < timeDiff ∧ timeDiff < 2 ^ 64 := by omega
  have hspacing : (asertTargetSpacingSecs : Int) = 60 := rfl
  have hradix : (radix : Int) = 65536 := rfl
  obtain ⟨hlow, hhigh⟩ := asertExponent_bounds hheight htime
  obtain ⟨factor, hfactor, hvalue⟩ :=
    asertFactor_eq (fraction_lt (asertExponent heightDiff.toNat timeDiff))
  unfold asertNextTargetFromRef Consensus.asertNextTargetFromRef
  rw [i128_bind (by omega), i128_bind (by rw [hspacing]; omega),
    i128_bind (by rw [hspacing]; omega), i128_bind (by rw [hspacing, hradix]; omega)]
  dsimp only
  rw [show ((timeDiff - asertTargetSpacingSecs * (heightDiff.toNat + 1)) * radix).tdiv
      asertHalfLifeSecs = asertExponent heightDiff.toNat timeDiff from rfl,
    hfactor, Option.bind_eq_bind, Option.bind_some, i128_bind (by rw [hradix]; omega), ← hvalue,
    ← Words.value_mulWord, bitLen_eq_size, ← Words.bitLen_eq]
  generalize asertExponent heightDiff.toNat timeDiff / radix - 16 = shifts
  generalize refTarget.mulWord factor = wide
  by_cases hright : shifts ≤ 0
  · have hmin : (min (-shifts) 320).toNat = min (-shifts).toNat 320 := by omega
    rw [if_pos hright, if_pos hright, hmin]
    exact ⟨_, rfl, by rw [value_clampWide, Words.value_shr]⟩
  · rw [if_neg hright, if_neg hright]
    by_cases hlen : wide.bitLen = 0
    · have hzero : wide.value = 0 := Nat.size_eq_zero.mp (wide.bitLen_eq ▸ hlen)
      rw [if_neg (not_not.mpr hlen), if_neg fun h ↦ h.1 hlen]
      exact ⟨_, rfl, by rw [value_clampWide, hzero, Nat.zero_mul]⟩
    · rw [if_pos hlen]
      by_cases hbig : 256 < (wide.bitLen : Int) + shifts
      · rw [if_pos hbig, if_pos ⟨hlen, by omega⟩]
        exact ⟨_, rfl, rfl⟩
      · have hsmall : ¬(wide.bitLen ≠ 0 ∧ 256 < wide.bitLen + shifts.toNat) := by omega
        have hshift : shl320 wide shifts.toNat = some (wide.shl shifts.toNat) :=
          if_pos (by omega)
        have hfit := mul_two_pow_lt (show wide.bitLen + shifts.toNat ≤ 256 by omega)
        rw [if_neg hbig, if_neg hsmall, hshift]
        exact ⟨_, rfl, by rw [value_clampWide, Words.value_shl, Nat.mod_eq_of_lt hfit]⟩

/-- The bits computed in limbs are those of `Asert`. -/
theorem asertNextBits_eq (anchorBits : UInt32) (anchorHeight anchorParentTime parentHeight
    parentTime : UInt64) (powLimit : Target) :
    asertNextBits anchorBits anchorHeight anchorParentTime parentHeight parentTime powLimit =
      some (Consensus.asertNextBits anchorBits anchorHeight.toNat anchorParentTime.toNat
        parentHeight.toNat parentTime.toNat powLimit.value) := by
  unfold asertNextBits asertNextTarget Consensus.asertNextBits Consensus.asertNextTarget
  by_cases hheight : parentHeight < anchorHeight
  · rw [if_pos hheight, Except.require, if_neg (Nat.not_le.mpr (UInt64.lt_iff_toNat_lt.mp hheight))]
    rfl
  · have hle : anchorHeight ≤ parentHeight := UInt64.not_lt.mp hheight
    rw [if_neg hheight, Except.require_of (UInt64.le_iff_toNat_le.mp hle), Except.ok_bind,
      ← map_value_fromCompact]
    cases Target.fromCompact anchorBits with
    | error e => rfl
    | ok refTarget =>
      obtain ⟨next, hnext, hvalue⟩ := asertNextTargetFromRef_eq refTarget
        (parentHeight - anchorHeight) parentTime anchorParentTime powLimit
      rw [UInt64.toNat_sub_of_le _ _ hle] at hvalue
      dsimp only
      rw [hnext]
      change some (Except.ok next.toCompact) = some (Except.ok (Consensus.Target.toCompact _))
      rw [toCompact_eq_value, hvalue]

/-- ASERT is exact over unbounded numbers, no step wraps, and the target falls neither with time nor
with the reference, nor rises with the height. -/
theorem asert_exact :
    (∀ (refTarget : Target) (heightDiff parentTime anchorTime : UInt64) (powLimit : Target),
      1 ≤ powLimit.value → ∃ next,
        asertNextTargetFromRef refTarget heightDiff ((parentTime.toNat : Int) - anchorTime.toNat)
          powLimit = some next ∧
        next.value = asertExact refTarget.value heightDiff.toNat
          ((parentTime.toNat : Int) - anchorTime.toNat) powLimit.value) ∧
    (∀ (r r' : Target) (h h' parent anchor parent' anchor' : UInt64) (powLimit next next' : Target),
      1 ≤ powLimit.value → r ≤ r' → h' ≤ h →
      (parent.toNat : Int) - anchor.toNat ≤ (parent'.toNat : Int) - anchor'.toNat →
      asertNextTargetFromRef r h ((parent.toNat : Int) - anchor.toNat) powLimit = some next →
      asertNextTargetFromRef r' h' ((parent'.toNat : Int) - anchor'.toNat) powLimit = some next' →
      next ≤ next') := by
  have hexact : ∀ (refTarget : Target) (heightDiff parentTime anchorTime : UInt64)
      (powLimit : Target), 1 ≤ powLimit.value → ∃ next,
        asertNextTargetFromRef refTarget heightDiff ((parentTime.toNat : Int) - anchorTime.toNat)
          powLimit = some next ∧
        next.value = asertExact refTarget.value heightDiff.toNat
          ((parentTime.toNat : Int) - anchorTime.toNat) powLimit.value := by
    intro refTarget heightDiff parentTime anchorTime powLimit hpos
    obtain ⟨next, hnext, hvalue⟩ :=
      asertNextTargetFromRef_eq refTarget heightDiff parentTime anchorTime powLimit
    refine ⟨next, hnext, hvalue.trans ?_⟩
    exact asertNextTargetFromRef_exact refTarget.value_lt hpos powLimit.value_lt
  refine ⟨hexact, ?_⟩
  intro r r' h h' parent anchor parent' anchor' powLimit next next' hpos hr hh hd hnext hnext'
  obtain ⟨_, hsame, hvalue⟩ := hexact r h parent anchor powLimit hpos
  obtain ⟨_, hsame', hvalue'⟩ := hexact r' h' parent' anchor' powLimit hpos
  cases hnext.symm.trans hsame
  cases hnext'.symm.trans hsame'
  rw [Words.le_iff, hvalue, hvalue']
  exact asertExact_mono powLimit.value (Words.le_iff.mp hr) (UInt64.le_iff_toNat_le.mp hh) hd

theorem asert_exact_sample :
    (∃ next, asertNextTargetFromRef (Words.ofWord 3 1) 0 ((5 : UInt64).toNat - (2 : UInt64).toNat)
      (Words.ofWord 3 9) = some next ∧ next.value = asertExact 1 0 3 9) ∧
    ∀ next next', asertNextTargetFromRef (Words.ofWord 3 1) 7
        ((5 : UInt64).toNat - (2 : UInt64).toNat) (Words.ofWord 3 9) = some next →
      asertNextTargetFromRef (Words.ofWord 3 2) 0 ((6 : UInt64).toNat - (2 : UInt64).toNat)
        (Words.ofWord 3 9) = some next' → next ≤ next' := by
  obtain ⟨hexact, hmono⟩ := asert_exact
  refine ⟨hexact (Words.ofWord 3 1) 0 5 2 (Words.ofWord 3 9) (by decide), fun next next' ↦ ?_⟩
  exact hmono (Words.ofWord 3 1) (Words.ofWord 3 2) 7 0 5 2 6 2 (Words.ofWord 3 9) next next'
    (by decide) (by decide) (by decide) (by decide)

/-! ## Compact targets -/

theorem fromCompact_iff {bits : UInt32} {t : Target} :
    Target.fromCompact bits = .ok t ↔ Consensus.Target.fromCompact bits = .ok t.value := by
  rw [← map_value_fromCompact]
  cases Target.fromCompact bits with
  | error e =>
    constructor
    · intro h
      cases h
    · intro h
      cases h
  | ok u =>
    constructor
    · rintro ⟨⟩
      rfl
    · intro h
      exact congrArg Except.ok (Words.value_injective (Except.ok.inj h))

/-- A target that numbers denote has its limbs. -/
theorem exists_fromCompact {bits : UInt32} {n : Nat}
    (h : Consensus.Target.fromCompact bits = .ok n) :
    ∃ t : Target, Target.fromCompact bits = .ok t ∧ t.value = n := by
  obtain ⟨-, hroom, rfl⟩ := fromCompact_eq_ok.mp h
  obtain ⟨t, ht⟩ : ∃ t : Target, t.value = compactValue bits := Words.exists_value hroom
  exact ⟨t, fromCompact_iff.mpr (ht ▸ h), ht⟩

/-- Decoding fails on a sign and on what has no 256 bits, and on nothing else. -/
theorem fromCompact_error_iff {bits : UInt32} : (∃ e, Target.fromCompact bits = .error e) ↔
    (compactMantissa bits ≠ 0 ∧ compactNegative bits) ∨ 2 ^ 256 ≤ compactExact bits := by
  have hexact : (2 : ℚ) ^ 256 ≤ compactExact bits ↔ 2 ^ 256 ≤ compactValue bits := by
    rw [← le_compactExact_iff]
    push_cast
    rfl
  rw [hexact]
  constructor
  · rintro ⟨e, he⟩
    by_contra hnot
    rw [not_or, Nat.not_le] at hnot
    obtain ⟨t, ht, -⟩ := exists_fromCompact (fromCompact_eq_ok.mpr ⟨hnot.1, hnot.2, rfl⟩)
    cases he.symm.trans ht
  · intro h
    cases hdecode : Target.fromCompact bits with
    | error e => exact ⟨e, rfl⟩
    | ok t =>
      obtain ⟨hsign, hroom, -⟩ := fromCompact_eq_ok.mp (fromCompact_iff.mp hdecode)
      exact absurd h (not_or.mpr ⟨hsign, Nat.not_le.mpr hroom⟩)

/-- Encoding rounds down to the greatest target that some bits denote. -/
theorem fromCompact_toCompact_limbs (t : Target) :
    ∃ u, Target.fromCompact (Target.toCompact t) = .ok u ∧ u ≤ t ∧
      ∀ bits v, Target.fromCompact bits = .ok v → v ≤ t → v ≤ u := by
  obtain ⟨n, hn, hle, hgreatest⟩ := fromCompact_toCompact t.value_lt
  rw [← toCompact_eq_value] at hn
  obtain ⟨u, hu, rfl⟩ := exists_fromCompact hn
  refine ⟨u, hu, Words.le_iff.mpr hle, fun bits v hv hvt ↦ ?_⟩
  exact Words.le_iff.mpr (hgreatest bits v.value (fromCompact_iff.mp hv) (Words.le_iff.mp hvt))

/-- The bits of the next target are those of a target that the numbers computed. -/
theorem asertNextBits_eq_ok {anchorBits : UInt32} {anchorHeight anchorParentTime parentHeight
    parentTime : UInt64} {powLimit : Target} {bits : UInt32}
    (h : asertNextBits anchorBits anchorHeight anchorParentTime parentHeight parentTime powLimit =
      some (.ok bits)) :
    ∃ t, asertNextTarget anchorBits anchorHeight anchorParentTime parentHeight parentTime
      powLimit = some (.ok t) ∧ Target.toCompact t = bits := by
  unfold asertNextBits at h
  obtain ⟨next, hnext, hbits⟩ := Option.bind_eq_some_iff.mp h
  obtain ⟨t, ht, henc⟩ := Except.map_eq_ok.mp (Option.some.inj hbits)
  exact ⟨t, ht ▸ hnext, henc⟩

/-- Compact targets are canonical: decoding is the floor where it has room, encoding the greatest
target below, monotone and stable, and so are the bits that ASERT computes. -/
theorem compact_canonical :
    (∀ bits, ((∃ e, Target.fromCompact bits = .error e) ↔
        (compactMantissa bits ≠ 0 ∧ compactNegative bits) ∨ 2 ^ 256 ≤ compactExact bits) ∧
      ∀ t, Target.fromCompact bits = .ok t → t.value = ⌊compactExact bits⌋₊) ∧
    (∀ t, ∃ u, Target.fromCompact (Target.toCompact t) = .ok u ∧ u ≤ t ∧
      ∀ bits v, Target.fromCompact bits = .ok v → v ≤ t → v ≤ u) ∧
    (∀ t u : Target, t ≤ u → Target.toCompact t ≤ Target.toCompact u) ∧
    (∀ t u, Target.fromCompact (Target.toCompact t) = .ok u →
      Target.toCompact u = Target.toCompact t) ∧
    (∀ bits t, Target.fromCompact bits = .ok t →
      Target.fromCompact (Target.toCompact t) = .ok t) ∧
    (∀ anchorBits anchorHeight anchorParentTime parentHeight parentTime powLimit bits,
      asertNextBits anchorBits anchorHeight anchorParentTime parentHeight parentTime powLimit =
        some (.ok bits) →
      ∃ t u, asertNextTarget anchorBits anchorHeight anchorParentTime parentHeight parentTime
        powLimit = some (.ok t) ∧ Target.fromCompact bits = .ok u ∧ u ≤ t) := by
  refine ⟨fun bits ↦ ⟨fromCompact_error_iff, fun t ht ↦ ?_⟩, fromCompact_toCompact_limbs, ?_, ?_,
    ?_, ?_⟩
  · obtain ⟨-, -, hvalue⟩ := fromCompact_eq_ok.mp (fromCompact_iff.mp ht)
    rw [hvalue, floor_compactExact]
  · intro t u h
    rw [UInt32.le_iff_toNat_le, toCompact_eq_value, toCompact_eq_value]
    exact toCompact_mono u.value_lt (Words.le_iff.mp h)
  · intro t u h
    rw [toCompact_eq_value] at h ⊢
    rw [toCompact_eq_value, toCompact_fromCompact_toCompact t.value_lt (fromCompact_iff.mp h)]
  · intro bits t h
    rw [fromCompact_iff, toCompact_eq_value]
    exact fromCompact_reencode (fromCompact_iff.mp h)
  · intro _ _ _ _ _ _ bits h
    obtain ⟨t, ht, rfl⟩ := asertNextBits_eq_ok h
    obtain ⟨u, hu, hle, -⟩ := fromCompact_toCompact_limbs t
    exact ⟨t, u, ht, hu, hle⟩

theorem compact_canonical_sample :
    Target.toCompact (Words.ofWord 3 1) ≤ Target.toCompact (Words.ofWord 3 2) ∧
      Target.fromCompact (Target.toCompact (Words.ofWord 3 7)) = .ok (Words.ofWord 3 7) := by
  obtain ⟨-, -, hmono, -, hreencode, -⟩ := compact_canonical
  exact ⟨hmono _ _ (by decide), hreencode 0x01070000 _ (by decide +kernel)⟩

end Limbs

end Plaine.Consensus

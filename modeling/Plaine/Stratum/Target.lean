import Plaine.Consensus.Target
import Plaine.Lib.LongDivision
import Plaine.Stratum.Job

/-!
# Targets in bytes

`stratum/src/target.rs` as the source computes: a target is 32 bytes, the most significant first,
made of a difficulty by a division of words and turned back into one by a division bit by bit.  Each
operation has the number that `Job` computes with, and a hash is accepted as the consensus check
accepts it.
-/

namespace Plaine.Stratum.Be

open Plaine.Lib Plaine.Consensus

/-- `Target`. -/
abbrev Target := Arr 32

namespace Target

/-- `Target::MAX`. -/
def max : Target := ⟨List.replicate 32 0xff, List.length_replicate⟩

/-- `Target::accepts`: the digest is not after the target. -/
def accepts (t digest : Target) : Bool := ¬t < digest

/-- `Target::from_compact`. -/
def fromCompact (bits : UInt32) : Option Target :=
  match Limbs.Target.fromCompact bits with
  | .ok t => some ⟨t.toBe, t.length_toBe⟩
  | .error _ => none

/-- The quotient of `from_difficulty`: the low four words of five. -/
def quotient (d : UInt64) : Words 4 :=
  ⟨(Words.divWordLoop d [0, 0, 0, 0, 1]).1.take 4, by
    rw [List.length_take, Words.length_divWordLoop]
    rfl⟩

/-- `Target::from_difficulty`. -/
def fromDifficulty (d : UInt64) : Target :=
  if d ≤ 1 then max else ⟨(quotient d).toBe, (quotient d).length_toBe⟩

/-- One round of `to_difficulty`, of the bit at a place: the remainder and the quotient so far. -/
def divStep (divisor : Target) (bit : Nat) (s : Target × Nat) : Option (Target × Nat) :=
  let (rem, carry) := s.1.shl (if bit = 256 then 1 else 0)
  if carry ≠ 0 ∨ ¬rem < divisor then do
    let q ← checkedMul u64Max s.2 2
    let q ← checkedAdd u64Max q 1
    return (rem.sub divisor, q)
  else do
    let q ← checkedMul u64Max s.2 2
    return (rem, q)

/-- The rounds below a place, the highest first. -/
def divLoop (divisor : Target) : Nat → Target × Nat → Option (Target × Nat)
  | 0, s => some s
  | bit + 1, s => do divLoop divisor bit (← divStep divisor bit s)

/-- `Target::to_difficulty`. -/
def toDifficulty (t : Target) : Nat :=
  if t = Arr.zero 32 then u64Max
  else
    match divLoop t 257 (Arr.zero 32, 0) with
    | some (_, q) => q
    | none => u64Max

/-- The number of a target. -/
def value (t : Target) : Nat := ofBe t.bytes

theorem value_lt (t : Target) : value t < 2 ^ 256 := by
  have h := ofBe_lt t.bytes
  rwa [t.length_eq] at h

theorem value_zero : value (Arr.zero 32) = 0 := by decide

theorem value_max : value max = 2 ^ 256 - 1 := by decide +kernel

theorem value_eq_zero {t : Target} : value t = 0 ↔ t = Arr.zero 32 := by
  constructor
  · intro h
    exact Arr.ext (eq_of_ofBe_eq (t.length_eq.trans (Arr.zero 32).length_eq.symm)
      (h.trans value_zero.symm))
  · rintro rfl
    exact value_zero

/-! ## Targets of difficulties -/

theorem value_quotient {d : UInt64} (hd : 1 < d.toNat) :
    (quotient d).value = 2 ^ 256 / d.toNat := by
  have hpos : 0 < d.toNat := Nat.zero_lt_of_lt hd
  obtain ⟨hquot, -⟩ := Words.valueOf_divWordLoop hpos [0, 0, 0, 0, 1]
  have hone : Words.valueOf [0, 0, 0, 0, 1] = 2 ^ 256 := by decide +kernel
  rw [hone] at hquot
  have hlt : 2 ^ 256 / d.toNat < 2 ^ 256 := Nat.div_lt_self (by decide) hd
  -- The fifth word is zero.
  have hsplit := Words.valueOf_append ((Words.divWordLoop d [0, 0, 0, 0, 1]).1.take 4)
    ((Words.divWordLoop d [0, 0, 0, 0, 1]).1.drop 4)
  have hlength : ((Words.divWordLoop d [0, 0, 0, 0, 1]).1.take 4).length = 4 :=
    (quotient d).length_eq
  rw [List.take_append_drop, hquot, hlength] at hsplit
  have hhigh : Words.valueOf ((Words.divWordLoop d [0, 0, 0, 0, 1]).1.drop 4) = 0 := by
    by_contra hne
    have hle := Nat.mul_le_mul_left (2 ^ (64 * 4)) (Nat.pos_of_ne_zero hne)
    omega
  rw [hhigh, Nat.mul_zero, Nat.add_zero] at hsplit
  exact hsplit.symm

theorem value_fromDifficulty (d : UInt64) :
    value (fromDifficulty d) = if d.toNat ≤ 1 then 2 ^ 256 - 1 else 2 ^ 256 / d.toNat := by
  have hle : d ≤ 1 ↔ d.toNat ≤ 1 := UInt64.le_iff_toNat_le
  unfold fromDifficulty
  by_cases hd : d.toNat ≤ 1
  · rw [if_pos (hle.mpr hd), if_pos hd, value_max]
  · rw [if_neg (hle.not.mpr hd), if_neg hd, ← value_quotient (Nat.lt_of_not_le hd)]
    exact Words.ofBe_toBe _

/-! ## Difficulties of targets -/

/-- The bits from a place on are divided, and the quotient is in range. -/
structure Divided (t : Target) (bit : Nat) (s : Target × Nat) : Prop where
  quot : s.2 * value t + value s.1 = 2 ^ 256 / 2 ^ bit
  rem_lt : value s.1 < value t
  le_max : s.2 ≤ u64Max

variable {t : Target} {bit : Nat} {s : Target × Nat}

theorem divided_start (ht : t ≠ Arr.zero 32) : Divided t 257 (Arr.zero 32, 0) where
  quot := by
    rw [Nat.zero_mul, value_zero]
    decide +kernel
  rem_lt := by
    rw [value_zero]
    exact Nat.pos_of_ne_zero (value_eq_zero.not.mpr ht)
  le_max := Nat.zero_le _

/-- The remainder doubled, with the bit that comes in. -/
theorem value_shl (a : Target) {c : UInt8} (hc : c.toNat ≤ 1) :
    (a.shl c).2.toNat * 2 ^ 256 + value (a.shl c).1 = 2 * value a + c.toNat ∧
      (a.shl c).2.toNat ≤ 1 := by
  have h := ofBe_shlBe hc a.bytes
  rwa [a.length_eq] at h

/-- One subtraction is enough, with a carry or without. -/
theorem value_sub (a : Target) {c m : Nat} (hc : c ≤ 1) (hm : c * 2 ^ 256 + value a = m)
    (hle : value t ≤ m) (hlt : m < 2 * value t) : value (a.sub t) = m - value t := by
  obtain ⟨hsub, hborrow⟩ := ofBe_subBe (a.length_eq.trans t.length_eq.symm)
  rw [a.length_eq] at hsub
  have hvalue : value (a.sub t) + value t = value a + (subBe a.bytes t.bytes).2 * 2 ^ 256 := hsub
  have ht := value_lt t
  have ha := value_lt a
  have hrest := value_lt (a.sub t)
  interval_cases c <;> interval_cases (subBe a.bytes t.bytes).2 <;> omega

/-- A round divides one more bit, or the quotient is out of range. -/
theorem Divided.step (h : Divided t (bit + 1) s) :
    (∃ s', divStep t bit s = some s' ∧ Divided t bit s') ∨
      (divStep t bit s = none ∧ u64Max < 2 ^ 256 / 2 ^ bit / value t) := by
  obtain ⟨hquot, hrem, -⟩ := h
  obtain ⟨c, hc, hbit⟩ : ∃ c : UInt8, (if bit = 256 then 1 else 0) = c ∧
      c.toNat = ((2 ^ 256 : Nat).testBit bit).toNat := by
    refine ⟨_, rfl, ?_⟩
    rw [Nat.testBit_two_pow]
    by_cases h256 : bit = 256
    · rw [if_pos h256, decide_eq_true h256.symm]
      rfl
    · rw [if_neg h256, decide_eq_false (Ne.symm h256)]
      rfl
  have hc1 : c.toNat ≤ 1 := hbit ▸ Bool.toNat_le _
  have hnext : 2 ^ 256 / 2 ^ bit = 2 * s.2 * value t + (2 * value s.1 + c.toNat) := by
    rw [Words.div_two_pow_eq, ← hquot, hbit]
    ring
  obtain ⟨hshl, hcarry⟩ := value_shl s.1 hc1
  have ht := value_lt t
  have hrem' := value_lt (s.1.shl c).1
  have hcond : ((s.1.shl c).2 ≠ 0 ∨ ¬(s.1.shl c).1 < t) ↔ value t ≤ 2 * value s.1 + c.toNat := by
    have hzero : (s.1.shl c).2 ≠ 0 ↔ (s.1.shl c).2.toNat ≠ 0 := UInt8.toNat_inj.symm.not
    rw [hzero, Arr.lt_iff_ofBe, not_lt]
    show _ ∨ value t ≤ value (s.1.shl c).1 ↔ _
    omega
  have hstep : divStep t bit s =
      if (s.1.shl c).2 ≠ 0 ∨ ¬(s.1.shl c).1 < t then
        (checkedMul u64Max s.2 2).bind fun q ↦
          (checkedAdd u64Max q 1).bind fun q ↦ some ((s.1.shl c).1.sub t, q)
      else (checkedMul u64Max s.2 2).bind fun q ↦ some ((s.1.shl c).1, q) := by
    rw [← hc]
    rfl
  rw [hstep]
  by_cases hle : value t ≤ 2 * value s.1 + c.toNat
  · rw [if_pos (hcond.mpr hle)]
    have hsub := value_sub (s.1.shl c).1 hcarry hshl hle (by omega)
    have hrest : 2 ^ 256 / 2 ^ bit =
        (s.2 * 2 + 1) * value t + (2 * value s.1 + c.toNat - value t) := by
      rw [hnext, Nat.add_mul, Nat.one_mul, Nat.mul_comm s.2 2, Nat.add_assoc,
        Nat.add_sub_cancel' hle]
    by_cases hmax : s.2 * 2 + 1 ≤ u64Max
    · refine .inl ⟨((s.1.shl c).1.sub t, s.2 * 2 + 1), ?_, ?_, ?_, hmax⟩
      · rw [checkedMul_of_le (Nat.le_of_succ_le hmax), Option.bind_some, checkedAdd_of_le hmax]
        rfl
      · show (s.2 * 2 + 1) * value t + value ((s.1.shl c).1.sub t) = _
        rw [hsub, hrest]
      · show value ((s.1.shl c).1.sub t) < value t
        omega
    · refine .inr ⟨?_, ?_⟩
      · unfold checkedMul
        split
        · exact Option.bind_eq_none_iff.mpr fun q hq ↦ by
            cases hq
            unfold checkedAdd
            rw [if_neg hmax]
            rfl
        · rfl
      · rw [hrest, Nat.mul_comm (s.2 * 2 + 1), Nat.mul_add_div (Nat.zero_lt_of_lt hrem)]
        exact (Nat.lt_of_not_le hmax).trans_le (Nat.le_add_right _ _)
  · rw [if_neg (hcond.not.mpr hle)]
    have hcarry0 : (s.1.shl c).2.toNat = 0 := by omega
    have hsame : value (s.1.shl c).1 = 2 * value s.1 + c.toNat := by
      rw [← hshl, hcarry0, Nat.zero_mul, Nat.zero_add]
    by_cases hmax : s.2 * 2 ≤ u64Max
    · refine .inl ⟨((s.1.shl c).1, s.2 * 2), ?_, ?_, ?_, hmax⟩
      · rw [checkedMul_of_le hmax]
        rfl
      · show s.2 * 2 * value t + value (s.1.shl c).1 = _
        rw [hsame, hnext, Nat.mul_comm s.2 2]
      · show value (s.1.shl c).1 < value t
        omega
    · refine .inr ⟨?_, ?_⟩
      · unfold checkedMul
        rw [if_neg hmax]
        rfl
      · rw [hnext, Nat.mul_comm (2 * s.2), Nat.mul_add_div (Nat.zero_lt_of_lt hrem),
          Nat.mul_comm 2 s.2]
        exact (Nat.lt_of_not_le hmax).trans_le (Nat.le_add_right _ _)

/-- All rounds divide the power, or its quotient is out of range. -/
theorem Divided.loop (h : Divided t bit s) :
    (∃ s', divLoop t bit s = some s' ∧ Divided t 0 s') ∨
      (divLoop t bit s = none ∧ u64Max < 2 ^ 256 / value t) := by
  induction bit generalizing s with
  | zero => exact .inl ⟨s, rfl, h⟩
  | succ bit ih =>
    rcases h.step with ⟨s', hstep, hnext⟩ | ⟨hstep, hover⟩
    · rw [divLoop, hstep]
      exact ih hnext
    · refine .inr ⟨?_, hover.trans_le (Nat.div_le_div_right (Nat.div_le_self _ _))⟩
      rw [divLoop, hstep]
      rfl

theorem toDifficulty_eq (ht : t ≠ Arr.zero 32) : toDifficulty t = min (2 ^ 256 / value t) u64Max := by
  unfold toDifficulty
  rw [if_neg ht]
  rcases (divided_start ht).loop with ⟨⟨rem, q⟩, hloop, hquot, hrem, hmax⟩ | ⟨hloop, hover⟩
  · rw [hloop]
    rw [Nat.pow_zero, Nat.div_one] at hquot
    show q = _
    rw [← hquot, Nat.mul_comm, Nat.mul_add_div (Nat.zero_lt_of_lt hrem), Nat.div_eq_of_lt hrem,
      Nat.add_zero, Nat.min_eq_left hmax]
  · rw [hloop]
    exact (Nat.min_eq_right hover.le).symm

/-! ## The numbers -/

/-- The number of a target, as jobs have it. -/
def toNumber (t : Target) : Stratum.Target := ⟨value t⟩

theorem toNumber_fromDifficulty (d : UInt64) :
    toNumber (fromDifficulty d) = Stratum.Target.fromDifficulty d.toNat := by
  unfold toNumber Stratum.Target.fromDifficulty
  rw [value_fromDifficulty]
  split <;> rfl

theorem toDifficulty_toNumber (t : Target) : (toNumber t).toDifficulty = toDifficulty t := by
  unfold Stratum.Target.toDifficulty toNumber
  dsimp only
  by_cases ht : t = Arr.zero 32
  · rw [if_pos (value_eq_zero.mpr ht), toDifficulty, if_pos ht]
  · rw [if_neg (value_eq_zero.not.mpr ht), toDifficulty_eq ht]

theorem accepts_iff {t digest : Target} : t.accepts digest = true ↔ value digest ≤ value t := by
  unfold accepts
  rw [decide_eq_true_iff, Arr.lt_iff_ofBe, not_lt]
  rfl

theorem accepts_toNumber (t digest : Target) :
    (toNumber t).accepts (value digest) = t.accepts digest :=
  Bool.eq_iff_iff.mpr (decide_eq_true_iff.trans accepts_iff.symm)

/-! ## Round trip -/

/-- A quotient of a power that is much larger gives its divisor back. -/
theorem div_div_self {m d : Nat} (hd : d * d ≤ m) (hpos : 0 < d) : m / (m / d) = d := by
  have hle : d ≤ m / d := (Nat.le_div_iff_mul_le hpos).mpr hd
  refine Nat.div_eq_of_lt_le ?_ ?_
  · exact Nat.mul_div_le m d
  · have hlt := Nat.lt_mul_div_succ m hpos
    calc m < d * (m / d + 1) := hlt
      _ = d * (m / d) + d := Nat.mul_succ _ _
      _ ≤ d * (m / d) + m / d := Nat.add_le_add_left hle _
      _ = (d + 1) * (m / d) := (Nat.succ_mul _ _).symm

theorem toDifficulty_fromDifficulty {d : UInt64} (hd : 1 ≤ d) :
    toDifficulty (fromDifficulty d) = d.toNat := by
  have hpos : 1 ≤ d.toNat := UInt64.le_iff_toNat_le.mp hd
  have hlt : d.toNat < 2 ^ 64 := d.toNat_lt
  rw [← toDifficulty_toNumber, toNumber_fromDifficulty]
  unfold Stratum.Target.fromDifficulty
  split
  case isTrue hle =>
    rw [Nat.le_antisymm hle hpos]
    decide +kernel
  case isFalse hgt =>
    have hsquare : d.toNat * d.toNat ≤ 2 ^ 256 :=
      (Nat.mul_le_mul hlt.le hlt.le).trans (by decide)
    have hne : 2 ^ 256 / d.toNat ≠ 0 :=
      (Nat.div_pos (hlt.le.trans (by decide)) hpos).ne'
    unfold Stratum.Target.toDifficulty
    dsimp only
    rw [if_neg hne, div_div_self hsquare hpos]
    exact Nat.min_eq_left (Nat.le_sub_one_of_lt hlt)

theorem value_fromDifficulty_antitone {d d' : UInt64} (h : d ≤ d') :
    value (fromDifficulty d') ≤ value (fromDifficulty d) := by
  have hle : d.toNat ≤ d'.toNat := UInt64.le_iff_toNat_le.mp h
  rw [value_fromDifficulty d]
  split
  case isTrue => exact Nat.le_sub_one_of_lt (value_lt _)
  case isFalse hgt =>
    rw [value_fromDifficulty, if_neg fun h' ↦ hgt (hle.trans h')]
    exact Nat.div_le_div_left hle (by omega)

theorem toDifficulty_antitone {t t' : Target} (h : value t ≤ value t') :
    toDifficulty t' ≤ toDifficulty t := by
  rw [← toDifficulty_toNumber, ← toDifficulty_toNumber]
  unfold Stratum.Target.toDifficulty toNumber
  dsimp only
  by_cases ht : value t = 0
  · rw [if_pos ht]
    split
    · exact le_rfl
    · exact Nat.min_le_right _ _
  · rw [if_neg ht, if_neg (by omega)]
    exact min_le_min_right _ (Nat.div_le_div_left h (Nat.pos_of_ne_zero ht))

end Target

/-! ## The consensus check -/

/-- `pow::meets`. -/
def meets (powHash target : Hash32) : Bool := ¬target < powHash

/-- `target_be` of the node. -/
def targetBe (t : Limbs.Target) : Hash32 := ⟨t.toBe, t.length_toBe⟩

namespace Target

/-- The target of a difficulty and the difficulty of a target are the quotients of the power of two,
as far as they go; the difficulty of the target of a difficulty is that difficulty, and either falls
as the other grows.  Bits that the consensus code decodes give a target that accepts the hashes that
meet the consensus target. -/
theorem share_targets :
    (∀ d : UInt64, 1 ≤ d →
      value (fromDifficulty d) = min (2 ^ 256 / d.toNat) (2 ^ 256 - 1)) ∧
    (∀ t, toDifficulty t = if value t = 0 then u64Max else min (2 ^ 256 / value t) u64Max) ∧
    (∀ d : UInt64, 1 ≤ d → toDifficulty (fromDifficulty d) = d.toNat) ∧
    (∀ d d' : UInt64, d ≤ d' → value (fromDifficulty d') ≤ value (fromDifficulty d)) ∧
    (∀ t t', value t ≤ value t' → toDifficulty t' ≤ toDifficulty t) ∧
    ∀ bits target, Limbs.Target.fromCompact bits = .ok target →
      ∃ t, fromCompact bits = some t ∧ value t = target.value ∧
        ∀ digest, t.accepts digest = meets digest (targetBe target) ∧
          (t.accepts digest = true ↔ value digest ≤ target.value) := by
  refine ⟨fun d hd ↦ ?_, fun t ↦ (toDifficulty_toNumber t).symm, fun d ↦ toDifficulty_fromDifficulty,
    fun d d' ↦ value_fromDifficulty_antitone, fun t t' ↦ toDifficulty_antitone,
    fun bits target h ↦ ?_⟩
  · have hpos : 1 ≤ d.toNat := UInt64.le_iff_toNat_le.mp hd
    rw [value_fromDifficulty]
    split
    case isTrue hle =>
      rw [Nat.le_antisymm hle hpos]
      decide +kernel
    case isFalse hgt =>
      have hlt : 2 ^ 256 / d.toNat < 2 ^ 256 := Nat.div_lt_self (by decide) (by omega)
      exact (Nat.min_eq_left (Nat.le_sub_one_of_lt hlt)).symm
  · have hvalue : value (targetBe target) = target.value := Words.ofBe_toBe target
    refine ⟨targetBe target, ?_, hvalue, fun digest ↦ ⟨rfl, ?_⟩⟩
    · unfold fromCompact
      rw [h]
      rfl
    · rw [accepts_iff, hvalue]

end Target

end Plaine.Stratum.Be

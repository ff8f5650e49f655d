import Plaine.Lib.Words
import Mathlib.Data.Nat.Size

/-!
# The bits of integers of many words

Shifts word for word, single bits, the number of bits, and the long division that brings down one
bit at a time.
-/

namespace Plaine.Lib

namespace Words

variable {n : Nat} {ws vs : List UInt64} {w v : UInt64}

/-! ## Shifts -/

/-- The shift to the right by `s` bits, word for word. -/
def shr (a : Words n) (s : Nat) : Words n :=
  if 64 * n ≤ s then ofFn n fun _ ↦ 0
  else
    let limb := s / 64
    let bit := s % 64
    ofFn n fun i ↦
      let src := i + limb
      if src < n then
        let x := a.get src >>> UInt64.ofNat bit
        if 0 < bit ∧ src + 1 < n then x ||| a.get (src + 1) <<< UInt64.ofNat (64 - bit) else x
      else 0

/-- The shift to the left by `s` bits, word for word. -/
def shl (a : Words n) (s : Nat) : Words n :=
  let limb := s / 64
  let bit := s % 64
  ofFn n fun i ↦
    if limb ≤ i then
      let src := i - limb
      let x := a.get src <<< UInt64.ofNat bit
      if 0 < bit ∧ 0 < src then x ||| a.get (src - 1) >>> UInt64.ofNat (64 - bit) else x
    else 0

/-- A bit of a word shifted to the right. -/
theorem testBit_shiftRight (w : UInt64) {s : Nat} (hs : s < 64) (j : Nat) :
    (w >>> UInt64.ofNat s).toNat.testBit j = w.toNat.testBit (s + j) := by
  have hmod : (UInt64.ofNat s).toNat % 64 = s := by
    rw [UInt64.toNat_ofNat_of_lt' (hs.trans (by decide)), Nat.mod_eq_of_lt hs]
  rw [UInt64.toNat_shiftRight, hmod, Nat.testBit_shiftRight]

/-- A bit of a word shifted to the left. -/
theorem testBit_shiftLeft (w : UInt64) {s : Nat} (hs : s < 64) {j : Nat} (hj : j < 64) :
    (w <<< UInt64.ofNat s).toNat.testBit j = (decide (s ≤ j) && w.toNat.testBit (j - s)) := by
  have hmod : (UInt64.ofNat s).toNat % 64 = s := by
    rw [UInt64.toNat_ofNat_of_lt' (hs.trans (by decide)), Nat.mod_eq_of_lt hs]
  rw [UInt64.toNat_shiftLeft, hmod, Nat.testBit_mod_two_pow, Nat.testBit_shiftLeft,
    decide_eq_true hj, Bool.true_and]

theorem testBit_or (w v : UInt64) (j : Nat) :
    (w ||| v).toNat.testBit j = (w.toNat.testBit j || v.toNat.testBit j) := by
  rw [UInt64.toNat_or, Nat.testBit_or]

/-- A word has no bits beyond the last. -/
theorem testBit_of_le (w : UInt64) {j : Nat} (hj : 64 ≤ j) : w.toNat.testBit j = false :=
  Nat.testBit_lt_two_pow (w.toNat_lt.trans_le (Nat.pow_le_pow_right (by decide) hj))

/-- A bit of a word of a number. -/
theorem testBit_get (a : Words n) (i : Nat) {j : Nat} (hj : j < 64) :
    (a.get i).toNat.testBit j = a.value.testBit (64 * i + j) := by
  rw [testBit_value, Nat.mul_add_div (by decide), Nat.div_eq_of_lt hj, Nat.add_zero,
    Nat.mul_add_mod, Nat.mod_eq_of_lt hj]

/-- A word that is not there has no bits. -/
theorem testBit_get_of_le (a : Words n) {i : Nat} (hi : n ≤ i) (j : Nat) :
    (a.get i).toNat.testBit j = false := by
  rw [a.get_of_le hi]
  exact Nat.zero_testBit j

/-- A bit of a word with the low bits of the next one on top. -/
theorem testBit_shrWord (a : Words n) (src : Nat) {bit j : Nat} (hbit : bit < 64) (hj : j < 64) :
    (if 0 < bit ∧ src + 1 < n then
      a.get src >>> UInt64.ofNat bit ||| a.get (src + 1) <<< UInt64.ofNat (64 - bit)
      else a.get src >>> UInt64.ofNat bit).toNat.testBit j =
        a.value.testBit (64 * src + (bit + j)) := by
  have hlow := testBit_shiftRight (a.get src) hbit j
  by_cases hsum : bit + j < 64
  · rw [← testBit_get a src hsum]
    split
    case isTrue h =>
      have hhigh := testBit_shiftLeft (a.get (src + 1)) (show 64 - bit < 64 by omega) hj
      rw [decide_eq_false (by omega), Bool.false_and] at hhigh
      rw [testBit_or, hlow, hhigh, Bool.or_false]
    case isFalse => exact hlow
  · have hplace : 64 * src + (bit + j) = 64 * (src + 1) + (bit + j - 64) := by omega
    rw [hplace, ← testBit_get a (src + 1) (show bit + j - 64 < 64 by omega)]
    rw [testBit_of_le _ (Nat.le_of_not_lt hsum)] at hlow
    split
    case isTrue h =>
      have hhigh := testBit_shiftLeft (a.get (src + 1)) (show 64 - bit < 64 by omega) hj
      rw [decide_eq_true (by omega), Bool.true_and, show j - (64 - bit) = bit + j - 64 by omega]
        at hhigh
      rw [testBit_or, hlow, hhigh, Bool.false_or]
    case isFalse h =>
      have hbeyond : n ≤ src + 1 := by omega
      rw [hlow, testBit_get_of_le a hbeyond]

/-- A shift to the right divides. -/
theorem value_shr (a : Words n) (s : Nat) : (a.shr s).value = a.value / 2 ^ s := by
  have hlt : a.value / 2 ^ s < 2 ^ (64 * n) := (Nat.div_le_self _ _).trans_lt a.value_lt
  unfold shr
  split
  case isTrue hs =>
    have hzero : a.value / 2 ^ s = 0 :=
      Nat.div_eq_of_lt (a.value_lt.trans_le (Nat.pow_le_pow_right (by decide) hs))
    rw [hzero, value_ofFn (m := 0) fun i _ j _ ↦ by rw [Nat.zero_testBit]; exact Nat.zero_testBit j,
      Nat.zero_mod]
  case isFalse hs =>
    rw [← Nat.mod_eq_of_lt hlt]
    refine value_ofFn fun i hi j hj ↦ ?_
    have hplace : 64 * i + j + s = 64 * (i + s / 64) + (s % 64 + j) := by omega
    rw [Nat.testBit_div_two_pow, hplace]
    dsimp only
    split
    case isTrue => exact testBit_shrWord a (i + s / 64) (Nat.mod_lt s (by decide)) hj
    case isFalse h =>
      rw [testBit_value, testBit_get_of_le a (by omega)]
      exact Nat.zero_testBit j

/-- A bit of a word with the high bits of the one before it below. -/
theorem testBit_shlWord (a : Words n) (src : Nat) {bit j : Nat} (hbit : bit < 64) (hj : j < 64) :
    (if 0 < bit ∧ 0 < src then
      a.get src <<< UInt64.ofNat bit ||| a.get (src - 1) >>> UInt64.ofNat (64 - bit)
      else a.get src <<< UInt64.ofNat bit).toNat.testBit j =
        (decide (bit ≤ 64 * src + j) && a.value.testBit (64 * src + j - bit)) := by
  have hhigh := testBit_shiftLeft (a.get src) hbit hj
  by_cases hle : bit ≤ j
  · have hplace : 64 * src + j - bit = 64 * src + (j - bit) := by omega
    rw [hplace, ← testBit_get a src (show j - bit < 64 by omega), decide_eq_true (by omega),
      Bool.true_and]
    rw [decide_eq_true hle, Bool.true_and] at hhigh
    split
    case isTrue h =>
      have hlow := testBit_shiftRight (a.get (src - 1)) (show 64 - bit < 64 by omega) j
      rw [testBit_of_le _ (show 64 ≤ 64 - bit + j by omega)] at hlow
      rw [testBit_or, hhigh, hlow, Bool.or_false]
    case isFalse => exact hhigh
  · rw [decide_eq_false hle, Bool.false_and] at hhigh
    split
    case isTrue h =>
      have hplace : 64 * src + j - bit = 64 * (src - 1) + (64 - bit + j) := by omega
      have hlow := testBit_shiftRight (a.get (src - 1)) (show 64 - bit < 64 by omega) j
      rw [hplace, ← testBit_get a (src - 1) (show 64 - bit + j < 64 by omega),
        decide_eq_true (by omega), Bool.true_and, testBit_or, hhigh, hlow, Bool.false_or]
    case isFalse h =>
      rw [hhigh, decide_eq_false (by omega), Bool.false_and]

/-- A shift to the left multiplies, and keeps the low bits. -/
theorem value_shl (a : Words n) (s : Nat) : (a.shl s).value = a.value * 2 ^ s % 2 ^ (64 * n) := by
  refine value_ofFn fun i hi j hj ↦ ?_
  rw [Nat.testBit_mul_two_pow]
  dsimp only
  split
  case isTrue h =>
    have hplace : 64 * i + j - s = 64 * (i - s / 64) + j - s % 64 := by omega
    rw [testBit_shlWord a (i - s / 64) (Nat.mod_lt s (by decide)) hj, hplace]
    congr 1
    rw [decide_eq_decide]
    omega
  case isFalse h =>
    rw [decide_eq_false (by omega), Bool.false_and]
    exact Nat.zero_testBit j

/-! ## Single bits -/

/-- The shift by one bit, with the bit that comes in, and the bit that goes out. -/
def shl1Loop : List UInt64 → UInt64 → List UInt64 × UInt64
  | [], carry => ([], carry)
  | w :: ws, carry =>
    let (out, last) := shl1Loop ws (w >>> 63)
    ((w <<< 1 ||| carry) :: out, last)

/-- The bit at a place. -/
def bit (a : Words n) (i : Nat) : Bool :=
  ((a.get (i / 64) >>> UInt64.ofNat (i % 64)) &&& 1) == 1

/-- The integer with the bit at a place set. -/
def setBit (a : Words n) (i : Nat) : Words n :=
  ⟨a.limbs.modify (i / 64) (· ||| 1 <<< UInt64.ofNat (i % 64)), by
    rw [List.length_modify, a.length_eq]⟩

theorem length_shl1Loop (ws : List UInt64) (carry : UInt64) :
    (shl1Loop ws carry).1.length = ws.length := by
  induction ws generalizing carry with
  | nil => rfl
  | cons w ws ih => exact congrArg Nat.succ (ih _)

/-- The shift by one bit, if no bit goes out. -/
def shl1Or (a : Words n) (low : Bool) : Option (Words n) :=
  let t := shl1Loop a.limbs low.toUInt64
  if t.2 ≠ 0 then none else some ⟨t.1, (length_shl1Loop a.limbs low.toUInt64).trans a.length_eq⟩

theorem bit_eq (a : Words n) (i : Nat) : a.bit i = a.value.testBit i := by
  have hbit := testBit_shiftRight (a.get (i / 64)) (Nat.mod_lt i (show 0 < 64 by decide)) 0
  rw [Nat.add_zero, ← testBit_value] at hbit
  rw [← hbit, Nat.testBit_zero, bit, Bool.eq_iff_iff, beq_iff_eq, decide_eq_true_iff,
    ← UInt64.toNat_inj, UInt64.toNat_and]
  exact Eq.congr_left (Nat.and_one_is_mod _)

/-- A bit that was not set is added. -/
theorem or_two_pow_eq_add {m i : Nat} (hbit : m.testBit i = false) : m ||| 2 ^ i = m + 2 ^ i := by
  have hlow : m % 2 ^ (i + 1) < 2 ^ i := by
    rw [Nat.mod_pow_succ, ← Nat.toNat_testBit, hbit]
    exact Nat.mod_lt m (Nat.two_pow_pos i)
  have hsum : m % 2 ^ (i + 1) + 2 ^ i < 2 ^ (i + 1) := by
    have hdouble : 2 ^ (i + 1) = 2 ^ i + 2 ^ i := by rw [Nat.pow_succ, Nat.mul_two]
    exact (Nat.add_lt_add_right hlow (2 ^ i)).trans_eq hdouble.symm
  have hmod : m % 2 ^ (i + 1) < 2 ^ (i + 1) := Nat.mod_lt m (Nat.two_pow_pos (i + 1))
  calc m ||| 2 ^ i
      = 2 ^ (i + 1) * (m / 2 ^ (i + 1)) ||| m % 2 ^ (i + 1) ||| 2 ^ i := by
        rw [← Nat.two_pow_add_eq_or_of_lt hmod, Nat.div_add_mod]
    _ = 2 ^ (i + 1) * (m / 2 ^ (i + 1)) ||| (m % 2 ^ (i + 1) + 2 ^ i) := by
        rw [Nat.or_assoc, Nat.or_two_pow_eq_add_of_lt hlow]
    _ = 2 ^ (i + 1) * (m / 2 ^ (i + 1)) + (m % 2 ^ (i + 1) + 2 ^ i) :=
        (Nat.two_pow_add_eq_or_of_lt hsum _).symm
    _ = m + 2 ^ i := by rw [← Nat.add_assoc, Nat.div_add_mod]

/-- A word with a bit set that was not. -/
theorem toNat_setBit {w : UInt64} {s : Nat} (hs : s < 64) (hbit : w.toNat.testBit s = false) :
    (w ||| 1 <<< UInt64.ofNat s).toNat = w.toNat + 2 ^ s := by
  have hmod : (UInt64.ofNat s).toNat % 64 = s := by
    rw [UInt64.toNat_ofNat_of_lt' (hs.trans (by decide)), Nat.mod_eq_of_lt hs]
  have hone : (1 <<< UInt64.ofNat s : UInt64).toNat = 2 ^ s := by
    rw [UInt64.toNat_shiftLeft, hmod]
    change 1 <<< s % 2 ^ 64 = _
    rw [Nat.one_shiftLeft, Nat.mod_eq_of_lt (Nat.pow_lt_pow_right (by decide) hs)]
  rw [UInt64.toNat_or, hone, or_two_pow_eq_add hbit]

/-- One word changed. -/
theorem valueOf_modify {f : UInt64 → UInt64} {k d : Nat} (hk : k < ws.length)
    (hword : (f (ws.getD k 0)).toNat = (ws.getD k 0).toNat + d) :
    valueOf (ws.modify k f) = valueOf ws + 2 ^ (64 * k) * d := by
  induction ws generalizing k with
  | nil => cases hk
  | cons w ws ih =>
    obtain _ | k := k
    · rw [List.getD_cons_zero] at hword
      rw [List.modify_zero_cons, valueOf_cons, valueOf_cons, hword]
      omega
    · rw [List.getD_cons_succ] at hword
      rw [List.modify_succ_cons, valueOf_cons, valueOf_cons, ih (Nat.lt_of_succ_lt_succ hk) hword,
        Nat.mul_succ, Nat.add_comm (64 * k), Nat.pow_add, Nat.mul_assoc]
      omega

theorem value_setBit (a : Words n) {i : Nat} (hi : i < 64 * n) (hbit : a.value.testBit i = false) :
    (a.setBit i).value = a.value + 2 ^ i := by
  have hk : i / 64 < a.limbs.length := by
    rw [a.length_eq]
    exact Nat.div_lt_of_lt_mul hi
  have hword := toNat_setBit (Nat.mod_lt i (by decide)) ((testBit_value a i).symm.trans hbit)
  refine (valueOf_modify hk hword).trans ?_
  rw [← Nat.pow_add, Nat.div_add_mod]
  rfl

/-- The carry of one word, from the bit that came in. -/
theorem shl1Word_spec (w : UInt64) {carry : UInt64} (hcarry : carry.toNat ≤ 1) :
    (w <<< 1 ||| carry).toNat + 2 ^ 64 * (w >>> 63).toNat = 2 * w.toNat + carry.toNat := by
  have hw : w.toNat < 2 ^ 64 := w.toNat_lt
  have hlow : (w <<< 1).toNat = 2 ^ 1 * (w.toNat % 2 ^ 63) := by
    rw [UInt64.toNat_shiftLeft]
    change w.toNat <<< 1 % 2 ^ 64 = _
    rw [Nat.shiftLeft_eq]
    omega
  have hhigh : (w >>> 63).toNat = w.toNat / 2 ^ 63 := by
    rw [UInt64.toNat_shiftRight]
    change w.toNat >>> 63 = _
    rw [Nat.shiftRight_eq_div_pow]
  rw [UInt64.toNat_or, hlow, hhigh, ← Nat.two_pow_add_eq_or_of_lt (by omega)]
  omega

theorem valueOf_shl1Loop (ws : List UInt64) {carry : UInt64} (hcarry : carry.toNat ≤ 1) :
    valueOf (shl1Loop ws carry).1 + 2 ^ (64 * ws.length) * (shl1Loop ws carry).2.toNat =
      2 * valueOf ws + carry.toNat := by
  induction ws generalizing carry with
  | nil => simp [shl1Loop]
  | cons w ws ih =>
    have hword := shl1Word_spec w hcarry
    have hout : (w >>> 63).toNat ≤ 1 := by
      have hw : w.toNat < 2 ^ 64 := w.toNat_lt
      omega
    have hrest := ih hout
    unfold shl1Loop
    dsimp only
    rw [valueOf_cons, valueOf_cons, List.length_cons, Nat.mul_succ,
      Nat.add_comm (64 * ws.length), Nat.pow_add, Nat.mul_assoc]
    generalize shl1Loop ws _ = rest at hrest ⊢
    omega

theorem shl1Or_eq_some {a b : Words n} {low : Bool} :
    a.shl1Or low = some b ↔ b.value = 2 * a.value + low.toNat := by
  have hlow : low.toUInt64.toNat = low.toNat := by cases low <;> rfl
  have hvalue := valueOf_shl1Loop a.limbs (hlow.trans_le (Bool.toNat_le low))
  rw [a.length_eq, hlow] at hvalue
  have hlt := b.value_lt
  unfold shl1Or
  dsimp only
  split
  case isTrue hne =>
    have hpos : 0 < (shl1Loop a.limbs low.toUInt64).2.toNat := by
      rw [Nat.pos_iff_ne_zero]
      exact fun h ↦ hne (UInt64.toNat_inj.mp h)
    constructor
    · intro h
      cases h
    · intro h
      have hle := Nat.le_mul_of_pos_right (2 ^ (64 * n)) hpos
      unfold value at h hlt
      omega
  case isFalse heq =>
    rw [not_not.mp heq, UInt64.toNat_zero, Nat.mul_zero, Nat.add_zero] at hvalue
    rw [Option.some_inj]
    constructor
    · rintro rfl
      exact hvalue
    · intro h
      exact value_injective (hvalue.trans h.symm)

/-! ## The number of bits -/

/-- `leading_zeros`. -/
def leadingZeros (w : UInt64) : Nat := 64 - Nat.size w.toNat

/-- The number of bits of the words below a place. -/
def bitLenBelow (a : Words n) : Nat → Nat
  | 0 => 0
  | i + 1 => if a.get i ≠ 0 then 64 * i + (64 - leadingZeros (a.get i)) else a.bitLenBelow i

/-- The number of bits, up to the highest word that is not `0`. -/
def bitLen (a : Words n) : Nat := a.bitLenBelow n

/-- The number below a place, with the word there. -/
theorem value_mod_succ (a : Words n) (i : Nat) :
    a.value % 2 ^ (64 * (i + 1)) = a.value % 2 ^ (64 * i) + 2 ^ (64 * i) * (a.get i).toNat := by
  have hword : (a.get i).toNat = a.value / 2 ^ (64 * i) % 2 ^ 64 := by
    refine Nat.eq_of_testBit_eq fun j ↦ ?_
    rw [Nat.testBit_mod_two_pow, Nat.testBit_div_two_pow]
    by_cases hj : j < 64
    · rw [testBit_get a i hj, decide_eq_true hj, Bool.true_and, Nat.add_comm]
    · rw [testBit_of_le _ (Nat.le_of_not_lt hj), decide_eq_false hj, Bool.false_and]
  rw [hword, Nat.mul_succ, Nat.pow_add, Nat.mod_mul]

/-- The bits of a number are those of its high part and all below it. -/
theorem size_add_two_pow_mul {low k high : Nat} (hlow : low < 2 ^ k) (hhigh : 0 < high) :
    Nat.size (low + 2 ^ k * high) = k + Nat.size high := by
  obtain ⟨s, hs⟩ := Nat.exists_eq_succ_of_ne_zero (Nat.size_pos.mpr hhigh).ne'
  refine le_antisymm (Nat.size_le.mpr ?_) ?_
  · calc low + 2 ^ k * high < 2 ^ k + 2 ^ k * high := Nat.add_lt_add_right hlow _
      _ = 2 ^ k * (high + 1) := by ring
      _ ≤ 2 ^ k * 2 ^ Nat.size high := Nat.mul_le_mul_left _ (Nat.lt_size_self high)
      _ = 2 ^ (k + Nat.size high) := (Nat.pow_add ..).symm
  · rw [hs, Nat.add_succ, Nat.succ_le_iff, Nat.lt_size, Nat.pow_add]
    have htop : 2 ^ s ≤ high := Nat.lt_size.mp (by rw [hs]; exact Nat.lt_succ_self s)
    exact (Nat.mul_le_mul_left _ htop).trans (Nat.le_add_left _ low)

theorem bitLenBelow_eq (a : Words n) (i : Nat) :
    a.bitLenBelow i = Nat.size (a.value % 2 ^ (64 * i)) := by
  induction i with
  | zero => rw [Nat.mul_zero, Nat.pow_zero, Nat.mod_one, Nat.size_zero, bitLenBelow]
  | succ i ih =>
    rw [value_mod_succ, bitLenBelow]
    split
    case isTrue hne =>
      have hsize : Nat.size (a.get i).toNat ≤ 64 := Nat.size_le.mpr (a.get i).toNat_lt
      have hlow : a.value % 2 ^ (64 * i) < 2 ^ (64 * i) := Nat.mod_lt _ (Nat.two_pow_pos _)
      have hword : 0 < (a.get i).toNat :=
        Nat.pos_of_ne_zero fun h ↦ hne (UInt64.toNat_inj.mp h)
      rw [leadingZeros, Nat.sub_sub_self hsize, size_add_two_pow_mul hlow hword]
    case isFalse heq =>
      rw [not_not.mp heq, UInt64.toNat_zero, Nat.mul_zero, Nat.add_zero, ih]

theorem bitLen_eq (a : Words n) : a.bitLen = Nat.size a.value := by
  rw [bitLen, bitLenBelow_eq, Nat.mod_eq_of_lt a.value_lt]

/-! ## Long division -/

/-- One bit of a long division: the quotient and the remainder so far. -/
def divStep (a den : Words n) (i : Nat) (s : Words n × Words n) : Option (Words n × Words n) := do
  let rem ← s.2.shl1Or (a.bit i)
  if den ≤ rem then
    let rem ← rem.checkedSub den
    return (s.1.setBit i, rem)
  else return (s.1, rem)

/-- The bits below a place, the highest first. -/
def divLoop (a den : Words n) : Nat → Words n × Words n → Option (Words n × Words n)
  | 0, s => some s
  | i + 1, s => do a.divLoop den i (← a.divStep den i s)

/-- The floor of the quotient; nothing is divided by zero. -/
def divFloor (a den : Words n) : Option (Words n) := do
  if den = zero n then none
  else
    let (quot, _) ← a.divLoop den (64 * n) (zero n, zero n)
    return quot

/-- The bits from a place on are divided. -/
structure Divided (a den : Words n) (i : Nat) (s : Words n × Words n) : Prop where
  quot : ∃ q, s.1.value = 2 ^ i * q ∧ a.value / 2 ^ i = q * den.value + s.2.value
  rem_lt : s.2.value < den.value

variable {a den : Words n} {i : Nat} {s : Words n × Words n}

theorem Divided.start (hden : 0 < den.value) :
    Divided a den (64 * n) (zero n, zero n) where
  quot := ⟨0, value_zero n, by
    rw [Nat.zero_mul, value_zero, Nat.div_eq_of_lt a.value_lt]⟩
  rem_lt := (value_zero n).trans_lt hden

/-- The next bit of a number. -/
theorem div_two_pow_eq (m i : Nat) : m / 2 ^ i = 2 * (m / 2 ^ (i + 1)) + (m.testBit i).toNat := by
  rw [Nat.toNat_testBit, Nat.pow_succ, ← Nat.div_div_eq_div_mul, Nat.div_add_mod]

/-- The remainder doubled has room as long as the divisor has a bit to spare. -/
theorem Divided.step (h : Divided a den (i + 1) s) (hi : i < 64 * n)
    (hroom : 2 * den.value ≤ 2 ^ (64 * n)) :
    ∃ s', a.divStep den i s = some s' ∧ Divided a den i s' := by
  obtain ⟨⟨q, hquot, hdiv⟩, hrem⟩ := h
  have hbit : (a.value.testBit i).toNat ≤ 1 := Bool.toNat_le _
  obtain ⟨rem, hremValue⟩ : ∃ rem : Words n,
      rem.value = 2 * s.2.value + (a.value.testBit i).toNat := exists_value (by omega)
  have hnext : a.value / 2 ^ i = 2 * q * den.value + rem.value := by
    rw [div_two_pow_eq, hdiv, hremValue]
    ring
  have hshift : s.2.shl1Or (a.bit i) = some rem := by
    rw [bit_eq]
    exact shl1Or_eq_some.mpr hremValue
  have hquot' : s.1.value = 2 ^ i * (2 * q) := by
    rw [hquot, Nat.pow_succ, Nat.mul_assoc]
  unfold divStep
  rw [hshift]
  by_cases hle : den ≤ rem
  · obtain ⟨rest, hrest⟩ : ∃ rest : Words n, rest.value = rem.value - den.value :=
      exists_value ((Nat.sub_le _ _).trans_lt rem.value_lt)
    have hsub : rest.value + den.value = rem.value := by
      rw [hrest, Nat.sub_add_cancel (le_iff.mp hle)]
    refine ⟨(s.1.setBit i, rest), ?_, ⟨2 * q + 1, ?_, ?_⟩, ?_⟩
    · change (if den ≤ rem then _ else _) = _
      rw [if_pos hle, checkedSub_eq_some.mpr hsub]
      rfl
    · have hclear : s.1.value.testBit i = false := by
        rw [hquot, Nat.testBit_two_pow_mul, decide_eq_false (by omega), Bool.false_and]
      rw [value_setBit s.1 hi hclear, hquot', Nat.mul_succ]
    · rw [hnext, ← hsub]
      ring
    · change rest.value < den.value
      omega
  · refine ⟨(s.1, rem), if_neg hle, ⟨2 * q, hquot', hnext⟩, ?_⟩
    exact Nat.lt_of_not_le fun h ↦ hle (le_iff.mpr h)

theorem Divided.loop (h : Divided a den i s) (hi : i ≤ 64 * n)
    (hroom : 2 * den.value ≤ 2 ^ (64 * n)) :
    ∃ s', a.divLoop den i s = some s' ∧ Divided a den 0 s' := by
  induction i generalizing s with
  | zero => exact ⟨s, rfl, h⟩
  | succ i ih =>
    obtain ⟨s', hstep, hnext⟩ := h.step hi hroom
    obtain ⟨t, hloop, hdone⟩ := ih hnext (Nat.le_of_succ_le hi)
    refine ⟨t, ?_, hdone⟩
    rw [divLoop, hstep]
    exact hloop

/-- The long division is exact, and no bit of a remainder is lost. -/
theorem divFloor_eq (a : Words n) (hden : 0 < den.value)
    (hroom : 2 * den.value ≤ 2 ^ (64 * n)) :
    ∃ q, a.divFloor den = some q ∧ q.value = a.value / den.value := by
  obtain ⟨s, hloop, ⟨q, hquot, hdiv⟩, hrem⟩ := (Divided.start hden).loop (a := a) le_rfl hroom
  have hne : den ≠ zero n := fun h ↦ hden.ne' (value_eq_zero.mpr h)
  refine ⟨s.1, ?_, ?_⟩
  · rw [divFloor, if_neg hne, hloop]
    rfl
  · rw [Nat.pow_zero, Nat.one_mul] at hquot
    rw [Nat.pow_zero, Nat.div_one] at hdiv
    rw [hquot, hdiv, Nat.mul_comm q, Nat.mul_add_div hden, Nat.div_eq_of_lt hrem, Nat.add_zero]

end Words

end Plaine.Lib

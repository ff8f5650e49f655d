import Mathlib.Logic.Function.Iterate
import Plaine.Lib.Bytes

/-!
# Cyclic redundancy checks

A register of `w` bits that is shifted towards its low end, one bit of input at a time, and the
generator added whenever a one falls out: division of polynomials over GF(2), both written with the
coefficient of the highest power in the lowest bit.

The shift is linear and, if the generator has a constant term, it loses nothing.  So bits that come
later may be added at once, as long as they fit in the register (`remainder_eq_iterate`), which is
what tables rest on; and two inputs that differ within the width of the register only leave
different remainders (`remainder_ne_of_burst`).
-/

namespace Plaine.Lib.Crc

variable {w : Nat} (generator : BitVec w)

/-- One shift. -/
def shift (r : BitVec w) : BitVec w :=
  if r.getLsbD 0 then (r >>> 1) ^^^ generator else r >>> 1

/-- One bit of input. -/
def feed (r : BitVec w) (b : Bool) : BitVec w := shift generator (r ^^^ (BitVec.ofBool b).setWidth w)

/-- The register after an input. -/
def remainder (r : BitVec w) (bits : List Bool) : BitVec w := bits.foldl (feed generator) r

/-- Bits in a register, the first of them lowest. -/
def ofBits (w : Nat) (bits : List Bool) : BitVec w := (BitVec.ofBoolListLE bits).setWidth w

variable {generator} {r s : BitVec w} {b : Bool} {bits as bs : List Bool} {i n : Nat}

@[simp] theorem remainder_nil : remainder generator r [] = r := rfl

@[simp] theorem remainder_cons :
    remainder generator r (b :: bits) = remainder generator (feed generator r b) bits := rfl

@[simp] theorem remainder_append :
    remainder generator r (as ++ bs) = remainder generator (remainder generator r as) bs :=
  List.foldl_append

/-! ## Linearity -/

theorem shift_xor : shift generator (r ^^^ s) = shift generator r ^^^ shift generator s := by
  unfold shift
  rw [BitVec.getLsbD_xor, BitVec.ushiftRight_xor_distrib]
  ext i hi
  cases r.getLsbD 0 <;> cases s.getLsbD 0 <;> simp <;> cases generator[i] <;> simp

theorem iterate_shift_xor (n : Nat) : (shift generator)^[n] (r ^^^ s) =
    (shift generator)^[n] r ^^^ (shift generator)^[n] s := by
  induction n generalizing r s with
  | zero => rfl
  | succ n ih => rw [Function.iterate_succ_apply, shift_xor, ih, ← Function.iterate_succ_apply,
      ← Function.iterate_succ_apply]

/-- Nothing is added to a register whose lowest bit is zero. -/
theorem shift_of_even (h : r.getLsbD 0 = false) : shift generator r = r >>> 1 := by
  rw [shift, h, if_neg Bool.false_ne_true]

/-- A register whose low bits are zero only moves down. -/
theorem iterate_shift_of_low (n : Nat) (h : ∀ i < n, r.getLsbD i = false) :
    (shift generator)^[n] r = r >>> n := by
  induction n generalizing r with
  | zero => rw [Function.iterate_zero_apply, BitVec.ushiftRight_zero]
  | succ n ih =>
    rw [Function.iterate_succ_apply, shift_of_even (h 0 n.succ_pos), ih, ← BitVec.shiftRight_add,
      Nat.add_comm]
    intro i hi
    rw [BitVec.getLsbD_ushiftRight]
    exact h _ (by omega)

/-- The bits that are shifted out decide what is added. -/
theorem iterate_shift_eq_and (n : Nat) {mask : BitVec w}
    (hmask : ∀ i < w, mask.getLsbD i = decide (i < n)) :
    (shift generator)^[n] r = (shift generator)^[n] (r &&& mask) ^^^ (r >>> n) := by
  have hsplit : r = (r &&& mask) ^^^ (r &&& ~~~mask) := by
    ext i hi
    rw [BitVec.getElem_xor, BitVec.getElem_and, BitVec.getElem_and, BitVec.getElem_not]
    cases r[i] <;> cases mask[i] <;> rfl
  have hhigh : (r &&& ~~~mask) >>> n = r >>> n := by
    refine BitVec.eq_of_getLsbD_eq fun i _ ↦ ?_
    rw [BitVec.getLsbD_ushiftRight, BitVec.getLsbD_ushiftRight, BitVec.getLsbD_and, BitVec.getLsbD_not]
    by_cases hi : n + i < w
    · rw [hmask _ hi, decide_eq_false (Nat.not_lt.mpr (Nat.le_add_right n i)), decide_eq_true hi]
      simp
    · simp [BitVec.getLsbD_of_ge r _ (Nat.not_lt.mp hi)]
  have hlow : ∀ i < n, (r &&& ~~~mask).getLsbD i = false := by
    intro i hi
    rw [BitVec.getLsbD_and, BitVec.getLsbD_not]
    by_cases hw : i < w
    · simp [hw, hmask i hw, hi]
    · simp [hw]
  conv_lhs => rw [hsplit]
  rw [iterate_shift_xor, iterate_shift_of_low n hlow, hhigh]

/-! ## Nothing is lost -/

/-- A generator with a constant term. -/
def Reversible (generator : BitVec w) : Prop := generator.getLsbD (w - 1) = true

theorem shift_injective (h : Reversible generator) : Function.Injective (shift generator) := by
  -- The highest bit tells whether the generator was added.
  have htop (r : BitVec w) : (shift generator r).getLsbD (w - 1) = r.getLsbD 0 := by
    have hzero : (r >>> 1).getLsbD (w - 1) = false := by
      rw [BitVec.getLsbD_ushiftRight]
      exact BitVec.getLsbD_of_ge _ _ (by omega)
    unfold shift
    cases hr : r.getLsbD 0 with
    | true => rw [if_pos rfl, BitVec.getLsbD_xor, hzero, h, Bool.false_xor]
    | false => rw [if_neg Bool.false_ne_true, hzero]
  intro r s heq
  have hlow : r.getLsbD 0 = s.getLsbD 0 := by rw [← htop, ← htop, heq]
  have hrest : r >>> 1 = s >>> 1 := by
    unfold shift at heq
    rw [hlow] at heq
    cases hs : s.getLsbD 0 with
    | true =>
      rw [hs, if_pos rfl, if_pos rfl] at heq
      exact (BitVec.xor_left_inj generator).mp heq
    | false => rwa [hs, if_neg Bool.false_ne_true, if_neg Bool.false_ne_true] at heq
  refine BitVec.eq_of_getLsbD_eq fun i _ ↦ ?_
  cases i with
  | zero => exact hlow
  | succ i =>
    have hi : (r >>> 1).getLsbD i = (s >>> 1).getLsbD i := by rw [hrest]
    rwa [BitVec.getLsbD_ushiftRight, BitVec.getLsbD_ushiftRight, Nat.add_comm] at hi

theorem remainder_injective (h : Reversible generator) (bits : List Bool) :
    Function.Injective fun r ↦ remainder generator r bits := by
  induction bits with
  | nil => exact Function.injective_id
  | cons b bits ih =>
    intro r s heq
    exact (BitVec.xor_left_inj _).mp (shift_injective h (ih heq))

/-! ## Many bits at once -/

theorem getLsbD_ofBits (hi : i < w) : (ofBits w bits).getLsbD i = bits.getD i false := by
  rw [ofBits, BitVec.getLsbD_setWidth, BitVec.getLsbD_ofBoolListLE, decide_eq_true hi, Bool.true_and]

/-- Bits that fit in the register are all in it. -/
theorem ofBits_inj (hlen : as.length = bs.length) (hfit : as.length ≤ w) :
    ofBits w as = ofBits w bs ↔ as = bs := by
  refine ⟨fun heq ↦ List.ext_getElem hlen fun i ha hb ↦ ?_, congrArg _⟩
  have hi : i < w := Nat.lt_of_lt_of_le ha hfit
  have hbit : as.getD i false = bs.getD i false := by rw [← getLsbD_ofBits hi, heq, getLsbD_ofBits hi]
  rwa [List.getD_eq_getElem?_getD, List.getD_eq_getElem?_getD, List.getElem?_eq_getElem ha,
    List.getElem?_eq_getElem hb, Option.getD_some, Option.getD_some] at hbit

/-- Bits that fit in the register may be added before the first shift. -/
theorem remainder_eq_iterate (hlen : bits.length ≤ w) :
    remainder generator r bits = (shift generator)^[bits.length] (r ^^^ ofBits w bits) := by
  induction bits generalizing r with
  | nil =>
    have hzero : ofBits w [] = 0#w := BitVec.eq_of_getLsbD_eq fun i hi ↦ by
      rw [getLsbD_ofBits hi]
      simp
    rw [hzero, BitVec.xor_zero]
    rfl
  | cons b bits ih =>
    rw [List.length_cons] at hlen
    have hsplit : ofBits w (b :: bits) = (BitVec.ofBool b).setWidth w ^^^ (ofBits w bits <<< 1) := by
      refine BitVec.eq_of_getLsbD_eq fun i hi ↦ ?_
      rw [getLsbD_ofBits hi, BitVec.getLsbD_xor, BitVec.getLsbD_setWidth, BitVec.getLsbD_shiftLeft]
      cases i with
      | zero => simp [hi]
      | succ i =>
        rw [Nat.add_sub_cancel, getLsbD_ofBits (Nat.lt_of_succ_lt hi)]
        simp [hi]
    have hback : shift generator (ofBits w bits <<< 1) = ofBits w bits := by
      rw [shift_of_even (by simp)]
      refine BitVec.eq_of_getLsbD_eq fun i hi ↦ ?_
      rw [BitVec.getLsbD_ushiftRight, BitVec.getLsbD_shiftLeft, Nat.add_sub_cancel_left,
        getLsbD_ofBits hi]
      by_cases hlast : 1 + i < w
      · simp [hlast]
      · rw [List.getD_eq_getElem?_getD, List.getElem?_eq_none (by omega), Option.getD_none, Bool.and_false]
    rw [remainder_cons, ih (by omega), List.length_cons, Function.iterate_succ_apply, hsplit,
      ← BitVec.xor_assoc, shift_xor, hback]
    rfl

/-! ## Bytes -/

/-- The bits of a byte, the lowest first. -/
def byteBits (b : UInt8) : List Bool := (List.range 8).map b.toNat.testBit

/-- The bits of a byte string. -/
def bitsOf (l : Bytes) : List Bool := l.flatMap byteBits

@[simp] theorem length_byteBits (b : UInt8) : (byteBits b).length = 8 := by
  rw [byteBits, List.length_map, List.length_range]

@[simp] theorem bitsOf_nil : bitsOf [] = [] := rfl

@[simp] theorem bitsOf_cons (b : UInt8) (l : Bytes) : bitsOf (b :: l) = byteBits b ++ bitsOf l :=
  List.flatMap_cons

@[simp] theorem bitsOf_append (l l' : Bytes) : bitsOf (l ++ l') = bitsOf l ++ bitsOf l' :=
  List.flatMap_append

@[simp] theorem length_bitsOf (l : Bytes) : (bitsOf l).length = 8 * l.length := by
  induction l with
  | nil => rfl
  | cons b l ih =>
    rw [bitsOf_cons, List.length_append, length_byteBits, ih, List.length_cons]
    omega

/-- The bits of a string are those of the number it spells. -/
theorem getD_bitsOf (l : Bytes) (i : Nat) : (bitsOf l).getD i false = (ofLe l).testBit i := by
  induction l generalizing i with
  | nil => simp [ofLe]
  | cons b l ih =>
    have hb : b.toNat < 2 ^ 8 := b.toNat_lt
    rw [bitsOf_cons, ofLe, Nat.add_comm, Nat.testBit_two_pow_mul_add _ hb]
    split
    case isTrue hi =>
      rw [List.getD_eq_getElem?_getD, List.getElem?_append_left (by rwa [length_byteBits]), byteBits,
        List.getElem?_map, List.getElem?_range hi]
      rfl
    case isFalse hi =>
      rw [List.getD_eq_getElem?_getD, List.getElem?_append_right (by rw [length_byteBits]; omega),
        length_byteBits, ← List.getD_eq_getElem?_getD, ih]

theorem ofBits_bitsOf (l : Bytes) : ofBits w (bitsOf l) = BitVec.ofNat w (ofLe l) := by
  refine BitVec.eq_of_getLsbD_eq fun i hi ↦ ?_
  rw [getLsbD_ofBits hi, getD_bitsOf, BitVec.getLsbD_ofNat, decide_eq_true hi, Bool.true_and]

theorem bitsOf_injective : Function.Injective bitsOf := by
  intro l l' heq
  have hlen : l.length = l'.length := by
    have := congrArg List.length heq
    rw [length_bitsOf, length_bitsOf] at this
    omega
  have hle : ofLe l = ofLe l' := by
    refine Nat.eq_of_testBit_eq fun i ↦ ?_
    rw [← getD_bitsOf, heq, getD_bitsOf]
  rw [← leBytes_ofLe l, hle, hlen, leBytes_ofLe]

/-- Bytes that fit in the register are added as the number they spell. -/
theorem remainder_bitsOf {l : Bytes} (hlen : 8 * l.length ≤ w) :
    remainder generator r (bitsOf l) =
      (shift generator)^[8 * l.length] (r ^^^ BitVec.ofNat w (ofLe l)) := by
  rw [remainder_eq_iterate (by rwa [length_bitsOf]), length_bitsOf, ofBits_bitsOf]

/-! ## Bursts -/

/-- Inputs that differ within the width of the register only leave different remainders. -/
theorem remainder_ne_of_burst (h : Reversible generator) (hlen : as.length = bs.length) (hne : as ≠ bs)
    (k : Nat) (hburst : ∀ i, as[i]? ≠ bs[i]? → k ≤ i ∧ i < k + w) :
    remainder generator r as ≠ remainder generator r bs := by
  have hlast : bs.take k = as.take k ∧ bs.drop (k + w) = as.drop (k + w) := by
    constructor
    · refine List.ext_getElem? fun i ↦ ?_
      by_cases hi : i < k
      · rw [List.getElem?_take_of_lt hi, List.getElem?_take_of_lt hi]
        by_contra hdiff
        exact absurd (hburst i fun heq ↦ hdiff heq.symm).1 (Nat.not_le.mpr hi)
      · rw [List.getElem?_take_eq_none (Nat.not_lt.mp hi), List.getElem?_take_eq_none (Nat.not_lt.mp hi)]
    · refine List.ext_getElem? fun i ↦ ?_
      rw [List.getElem?_drop, List.getElem?_drop]
      by_contra hdiff
      exact absurd (hburst _ fun heq ↦ hdiff heq.symm).2 (Nat.not_lt.mpr (Nat.le_add_right _ _))
  -- The inputs before and after the burst, and the burst.
  have hsplit (l : List Bool) : l = l.take k ++ ((l.drop k).take w ++ l.drop (k + w)) := by
    rw [← List.drop_drop, List.take_append_drop, List.take_append_drop]
  intro heq
  rw [hsplit as, hsplit bs, hlast.1, hlast.2, remainder_append, remainder_append, remainder_append,
    remainder_append] at heq
  have hmid := remainder_injective h _ heq
  have hwindow : ((as.drop k).take w).length = ((bs.drop k).take w).length := by
    rw [List.length_take, List.length_take, List.length_drop, List.length_drop, hlen]
  rw [remainder_eq_iterate (List.length_take_le _ _), remainder_eq_iterate (List.length_take_le _ _),
    ← hwindow] at hmid
  have hbits := (BitVec.xor_right_inj _).mp ((shift_injective h).iterate _ hmid)
  refine hne ?_
  rw [hsplit as, hsplit bs, hlast.1, hlast.2,
    (ofBits_inj hwindow (List.length_take_le _ _)).mp hbits]

end Plaine.Lib.Crc

import Plaine.Lib.Bytes

/-!
# Regrouping bits

A list of digits of `w` bits each, the highest bit of each first, is a stream of bits, which can be
cut into digits of another width.  The regrouping loop shifts digits into a word of 32 bits from
below and takes the wanted width off as soon as it is there: what it has put out and what is still
in the word is at every moment the stream of what went in (`Regroup.stream_pushAll`).
-/

namespace Plaine.Lib

/-! ## Bits -/

/-- The low `n` bits of a number, the highest of them first. -/
def lowBits : Nat → Nat → List Bool
  | 0, _ => []
  | n + 1, x => x.testBit n :: lowBits n x

@[simp] theorem length_lowBits (n x : Nat) : (lowBits n x).length = n := by
  induction n with
  | zero => rfl
  | succ n ih => rw [lowBits, List.length_cons, ih]

theorem lowBits_inj {n x y : Nat} : lowBits n x = lowBits n y ↔ ∀ i < n, x.testBit i = y.testBit i := by
  induction n with
  | zero => simp [lowBits]
  | succ n ih =>
    simp only [lowBits, List.cons.injEq, ih]
    constructor
    · rintro ⟨htop, hlow⟩ i hi
      rcases Nat.lt_succ_iff_lt_or_eq.mp hi with h | rfl
      · exact hlow i h
      · exact htop
    · intro h
      exact ⟨h n n.lt_succ_self, fun i hi ↦ h i (Nat.lt_succ_of_lt hi)⟩

theorem lowBits_inj_of_lt {n x y : Nat} (hx : x < 2 ^ n) (hy : y < 2 ^ n) :
    lowBits n x = lowBits n y ↔ x = y := by
  refine ⟨fun h ↦ Nat.eq_of_testBit_eq fun i ↦ ?_, congrArg _⟩
  by_cases hi : i < n
  · exact lowBits_inj.mp h i hi
  · have hle : 2 ^ n ≤ 2 ^ i := Nat.pow_le_pow_right (by decide) (Nat.le_of_not_lt hi)
    rw [Nat.testBit_lt_two_pow (hx.trans_le hle), Nat.testBit_lt_two_pow (hy.trans_le hle)]

/-- The high ones of the bits are the low bits of the shifted number. -/
theorem lowBits_add (m n x : Nat) : lowBits (m + n) x = lowBits m (x >>> n) ++ lowBits n x := by
  induction m with
  | zero => rw [Nat.zero_add, lowBits, List.nil_append]
  | succ m ih => rw [Nat.succ_add, lowBits, ih, lowBits, Nat.testBit_shiftRight, Nat.add_comm n m,
      List.cons_append]

/-- The bits of many digits, digit by digit. -/
theorem lowBits_mul (w n x : Nat) : lowBits (w * n) x =
    (List.range n).flatMap fun i ↦ lowBits w (x >>> (w * (n - 1 - i))) := by
  induction n with
  | zero => rfl
  | succ n ih =>
    rw [Nat.mul_succ, Nat.add_comm, lowBits_add, ih, List.range_succ_eq_map, List.flatMap_cons,
      List.flatMap_map]
    simp only [Nat.add_sub_cancel, Nat.sub_zero, Nat.sub_sub, Nat.succ_eq_one_add]

theorem lowBits_zero (n : Nat) : lowBits n 0 = List.replicate n false := by
  induction n with
  | zero => rfl
  | succ n ih => rw [lowBits, ih, Nat.zero_testBit, List.replicate_succ]

theorem lowBits_mod {m n : Nat} (h : n ≤ m) (x : Nat) : lowBits n (x % 2 ^ m) = lowBits n x :=
  lowBits_inj.mpr fun i hi ↦ by
    rw [Nat.testBit_mod_two_pow, decide_eq_true (hi.trans_le h), Bool.true_and]

/-! ## Streams -/

/-- The bits of digits of `w` bits. -/
def stream (w : Nat) (xs : Bytes) : List Bool := xs.flatMap fun x ↦ lowBits w x.toNat

/-- Digits of `w` bits. -/
abbrev Digits (w : Nat) (xs : Bytes) : Prop := ∀ x ∈ xs, x.toNat < 2 ^ w

variable {w : Nat} {xs ys : Bytes} {x : UInt8}

@[simp] theorem stream_nil : stream w [] = [] := rfl

@[simp] theorem stream_cons : stream w (x :: xs) = lowBits w x.toNat ++ stream w xs :=
  List.flatMap_cons

@[simp] theorem stream_append : stream w (xs ++ ys) = stream w xs ++ stream w ys :=
  List.flatMap_append

@[simp] theorem length_stream (w : Nat) (xs : Bytes) : (stream w xs).length = w * xs.length := by
  induction xs with
  | nil => rfl
  | cons x xs ih => rw [stream_cons, List.length_append, length_lowBits, ih, List.length_cons,
      Nat.mul_succ, Nat.add_comm]

/-- Digits in number are told by their bits. -/
theorem stream_inj (hx : Digits w xs) (hy : Digits w ys) (hlen : xs.length = ys.length) :
    stream w xs = stream w ys ↔ xs = ys := by
  refine ⟨fun h ↦ ?_, congrArg _⟩
  induction xs generalizing ys with
  | nil => exact (List.eq_nil_of_length_eq_zero hlen.symm).symm
  | cons x xs ih =>
    obtain _ | ⟨y, ys⟩ := ys
    · cases hlen
    rw [stream_cons, stream_cons] at h
    obtain ⟨hhead, htail⟩ := List.append_inj h (by rw [length_lowBits, length_lowBits])
    have hxy := (lowBits_inj_of_lt (hx x List.mem_cons_self) (hy y List.mem_cons_self)).mp hhead
    rw [UInt8.toNat_inj.mp hxy, ih (fun z hz ↦ hx z (List.mem_cons_of_mem x hz))
      (fun z hz ↦ hy z (List.mem_cons_of_mem y hz)) (Nat.succ_inj.mp hlen) htail]

theorem digits_eight (xs : Bytes) : Digits 8 xs := fun x _ ↦ x.toNat_lt

/-! ## The loop -/

/-- What a regrouping loop carries: the word, the number of bits that wait in it, and the output. -/
structure Regroup where
  acc : UInt32
  bits : Nat
  out : Bytes
deriving DecidableEq

namespace Regroup

/-- Nothing read. -/
def empty : Regroup := ⟨0, 0, []⟩

/-- `while bits >= dst`: the highest `dst` of the bits that wait go out. -/
def drain (dst : Nat) (s : Regroup) : Regroup :=
  if 0 < dst ∧ dst ≤ s.bits then
    let bits := s.bits - dst
    drain dst { s with
      bits := bits
      out := s.out ++ [((s.acc >>> UInt32.ofNat bits) &&& UInt32.ofNat (2 ^ dst - 1)).toUInt8] }
  else s
termination_by s.bits

/-- A digit of `src` bits goes in. -/
def push (src dst : Nat) (s : Regroup) (x : UInt8) : Regroup :=
  drain dst { s with
    acc := (s.acc <<< UInt32.ofNat src) ||| x.toUInt32
    bits := s.bits + src }

/-- Digit after digit. -/
def pushAll (src dst : Nat) (s : Regroup) (xs : Bytes) : Regroup := xs.foldl (push src dst) s

/-- What the loop has seen, as bits. -/
def seen (dst : Nat) (s : Regroup) : List Bool := stream dst s.out ++ lowBits s.bits s.acc.toNat

variable {src dst : Nat} {s : Regroup}

theorem toNat_mask (hdst : dst ≤ 8) : (UInt32.ofNat (2 ^ dst - 1)).toNat = 2 ^ dst - 1 := by
  have hle : 2 ^ dst ≤ 2 ^ 8 := Nat.pow_le_pow_right Nat.two_pos hdst
  exact UInt32.toNat_ofNat_of_lt'
    ((Nat.sub_lt (Nat.two_pow_pos dst) Nat.one_pos).trans (hle.trans_lt (by decide)))

/-- The word a digit is cut from. -/
theorem lowBits_cut (acc : UInt32) {bits : Nat} (hdst : dst ≤ 8) (hbits : bits < 32) :
    lowBits dst (((acc >>> UInt32.ofNat bits) &&& UInt32.ofNat (2 ^ dst - 1)).toUInt8).toNat =
      lowBits dst (acc.toNat >>> bits) := by
  have hmod : (UInt32.ofNat bits).toNat % 32 = bits := by
    rw [UInt32.toNat_ofNat_of_lt' (hbits.trans (by decide)), Nat.mod_eq_of_lt hbits]
  rw [UInt32.toNat_toUInt8, UInt32.toNat_and, UInt32.toNat_shiftRight, hmod, toNat_mask hdst,
    Nat.and_two_pow_sub_one_eq_mod, lowBits_mod hdst, lowBits_mod le_rfl]

/-- A digit cut off a word is one. -/
theorem cut_lt (word : UInt32) (hdst : dst ≤ 8) :
    ((word &&& UInt32.ofNat (2 ^ dst - 1)).toUInt8).toNat < 2 ^ dst := by
  rw [UInt32.toNat_toUInt8, UInt32.toNat_and, toNat_mask hdst, Nat.and_two_pow_sub_one_eq_mod]
  exact (Nat.mod_le _ _).trans_lt (Nat.mod_lt _ (Nat.two_pow_pos _))

/-- Draining moves bits from the word to the output. -/
theorem seen_drain (hdst : dst ≤ 8) (hbits : s.bits ≤ 32) : (drain dst s).seen dst = s.seen dst := by
  induction s using drain.induct dst with
  | case1 s h bits ih =>
    have hlt : s.bits - dst < 32 := (Nat.sub_lt (h.1.trans_le h.2) h.1).trans_le hbits
    have hsplit := lowBits_add dst (s.bits - dst) s.acc.toNat
    rw [Nat.add_sub_cancel' h.2] at hsplit
    rw [drain, if_pos h, ih hlt.le]
    simp only [seen, stream_append, stream_cons, stream_nil, List.append_nil, bits]
    rw [lowBits_cut s.acc hdst hlt, List.append_assoc, ← hsplit]
  | case2 s h => rw [drain, if_neg h]

theorem bits_drain (hdst : 0 < dst) : (drain dst s).bits < dst := by
  induction s using drain.induct dst with
  | case1 s h bits ih => rwa [drain, if_pos h]
  | case2 s h =>
    rw [drain, if_neg h]
    exact Nat.lt_of_not_le fun hle ↦ h ⟨hdst, hle⟩

theorem digits_drain (hdst : dst ≤ 8) (h : Digits dst s.out) : Digits dst (drain dst s).out := by
  induction s using drain.induct dst with
  | case1 s hc bits ih =>
    rw [drain, if_pos hc]
    refine ih fun x hx ↦ ?_
    rcases List.mem_append.mp hx with hold | hnew
    · exact h x hold
    · rw [List.mem_singleton.mp hnew]
      exact cut_lt _ hdst
  | case2 s hc => rwa [drain, if_neg hc]

/-- The bits of a digit follow those that wait. -/
theorem lowBits_shift_or (acc : UInt32) {bits : Nat} (hx : x.toNat < 2 ^ src)
    (hfit : bits + src ≤ 32) (hsrc : src < 32) :
    lowBits (bits + src) (acc <<< UInt32.ofNat src ||| x.toUInt32).toNat =
      lowBits bits acc.toNat ++ lowBits src x.toNat := by
  have hmod : (UInt32.ofNat src).toNat % 32 = src := by
    rw [UInt32.toNat_ofNat_of_lt' (hsrc.trans (by decide)), Nat.mod_eq_of_lt hsrc]
  have hword (i : Nat) (hi : i < bits + src) :
      (acc <<< UInt32.ofNat src ||| x.toUInt32).toNat.testBit i =
        ((decide (src ≤ i) && acc.toNat.testBit (i - src)) || x.toNat.testBit i) := by
    rw [UInt32.toNat_or, Nat.testBit_or, UInt32.toNat_shiftLeft, hmod, Nat.testBit_mod_two_pow,
      decide_eq_true (hi.trans_le hfit), Bool.true_and, Nat.testBit_shiftLeft, UInt8.toNat_toUInt32]
  rw [lowBits_add]
  congr 1
  · refine lowBits_inj.mpr fun i hi ↦ ?_
    have hhigh : x.toNat.testBit (src + i) = false := Nat.testBit_lt_two_pow
      (hx.trans_le (Nat.pow_le_pow_right (by decide) (Nat.le_add_right src i)))
    rw [Nat.testBit_shiftRight, hword _ (by rw [Nat.add_comm]; exact Nat.add_lt_add_right hi src),
      decide_eq_true (Nat.le_add_right src i), Nat.add_sub_cancel_left, hhigh, Bool.true_and,
      Bool.or_false]
  · refine lowBits_inj.mpr fun i hi ↦ ?_
    rw [hword i (Nat.lt_add_left bits hi), decide_eq_false (Nat.not_le.mpr hi), Bool.false_and,
      Bool.false_or]

/-- The bits that wait, with zeros below them, as a digit. -/
theorem lowBits_top (acc : UInt32) {bits : Nat} (hbits : bits ≤ dst) (hdst : dst ≤ 8) :
    lowBits dst ((acc <<< UInt32.ofNat (dst - bits)) &&& UInt32.ofNat (2 ^ dst - 1)).toNat =
      lowBits bits acc.toNat ++ List.replicate (dst - bits) false := by
  have hzero : (0 : UInt8).toNat < 2 ^ (dst - bits) := Nat.two_pow_pos _
  have hsum : bits + (dst - bits) = dst := Nat.add_sub_cancel' hbits
  have hfit : bits + (dst - bits) ≤ 32 := by
    rw [hsum]
    exact hdst.trans (by decide)
  have hshift := lowBits_shift_or acc hzero hfit (((Nat.sub_le dst bits).trans hdst).trans_lt (by decide))
  have hnone : (0 : UInt8).toUInt32 = 0 := rfl
  rw [hsum, hnone, UInt32.or_zero, UInt8.toNat_zero, lowBits_zero] at hshift
  rw [UInt32.toNat_and, toNat_mask hdst, Nat.and_two_pow_sub_one_eq_mod, lowBits_mod le_rfl, hshift]

/-- The bits of a digit join what the loop has seen. -/
theorem seen_push (hdst : dst ≤ 8) (hsrc : src ≤ 8) (hbits : s.bits < dst) (hx : x.toNat < 2 ^ src) :
    (push src dst s x).seen dst = s.seen dst ++ lowBits src x.toNat := by
  have hfit : s.bits + src ≤ 32 := (Nat.add_le_add (hbits.le.trans hdst) hsrc).trans (by decide)
  rw [push, seen_drain hdst hfit, seen, seen,
    lowBits_shift_or s.acc hx hfit (hsrc.trans_lt (by decide)), List.append_assoc]

/-- What the loop holds between two digits. -/
structure Inv (dst : Nat) (s : Regroup) : Prop where
  bits_lt : s.bits < dst
  digits : Digits dst s.out

theorem inv_empty (hdst : 0 < dst) : Inv dst empty := ⟨hdst, fun _ hx ↦ absurd hx List.not_mem_nil⟩

theorem Inv.push (h : Inv dst s) (hdst : dst ≤ 8) (x : UInt8) : Inv dst (push src dst s x) :=
  ⟨bits_drain (Nat.zero_lt_of_lt h.bits_lt), digits_drain hdst h.digits⟩

theorem Inv.pushAll (h : Inv dst s) (hdst : dst ≤ 8) (xs : Bytes) : Inv dst (pushAll src dst s xs) := by
  induction xs generalizing s with
  | nil => exact h
  | cons x xs ih => exact ih (h.push hdst x)

theorem seen_pushAll (h : Inv dst s) (hdst : dst ≤ 8) (hsrc : src ≤ 8) (hxs : Digits src xs) :
    (pushAll src dst s xs).seen dst = s.seen dst ++ stream src xs := by
  induction xs generalizing s with
  | nil => rw [stream_nil, List.append_nil]; rfl
  | cons x xs ih =>
    have htail : Digits src xs := fun y hy ↦ hxs y (List.mem_cons_of_mem x hy)
    rw [stream_cons, ← List.append_assoc,
      ← seen_push hdst hsrc h.bits_lt (hxs x List.mem_cons_self)]
    exact ih (h.push hdst x) htail

/-- What is out and what waits is the stream of what went in. -/
theorem stream_pushAll (hdst : 0 < dst) (hle : dst ≤ 8) (hsrc : src ≤ 8) (hxs : Digits src xs) :
    stream dst (pushAll src dst empty xs).out ++
      lowBits (pushAll src dst empty xs).bits (pushAll src dst empty xs).acc.toNat = stream src xs :=
  seen_pushAll (inv_empty hdst) hle hsrc hxs

end Regroup

end Plaine.Lib

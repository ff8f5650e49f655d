import Plaine.Lib.Text
import Plaine.Stratum.Nonce
import Mathlib.Data.List.DropRight
import Mathlib.Data.Set.Function

/-!
# Nonce lanes

`miner/src/client/work.rs`, and the workers of `client/mod.rs`.  Below the slice of the session a
nonce tells its worker, in `THREAD_BITS` bits, and then the worker's counter.  How many workers there
are is for the command line to say.
-/

namespace Plaine.Miner.Lanes

open Plaine.Lib Plaine.Lib.Text Plaine.Stratum

/-! ## The command line -/

/-- `Partial`. -/
structure Partial where
  threads : Option UInt64
  cpus : Option (List UInt64)

/-- The value of `--threads`, of which `trim` leaves the blanks out. -/
def argThreads (v : Text) : Option UInt64 := parseU64 ((v.dropWhile isWhite).rdropWhile isWhite)

/-- The thread count in `resolve`, which refuses two of them. -/
def Partial.resolve (p : Partial) (availableParallelism : Nat) : Option Nat :=
  match p.cpus, p.threads with
  | some _, some _ => none
  | some list, none => some list.length
  | none, some n => some (max n.toNat 1)
  | none, none => some availableParallelism

/-! ## Nonces -/

/-- `X_BITS_MIN`. -/
def xBitsMin : Nat := 32

/-- `THREAD_BITS`. -/
def threadBits : Nat := 8

/-- `mask`. -/
def mask (bits : Nat) : UInt64 :=
  if 64 ≤ bits then UInt64.ofNat (2 ^ 64 - 1) else ((1 : UInt64) <<< UInt64.ofNat bits) - 1

/-- `compose_in`. -/
def composeIn (e1 : UInt32) (x : UInt64) (bits : Nat) : UInt64 :=
  (e1.toUInt64 <<< UInt64.ofNat bits) ||| (x &&& mask bits)

/-- `owns_in`. -/
def ownsIn (e1 : UInt32) (nonce : UInt64) (bits : Nat) : Bool :=
  nonce >>> UInt64.ofNat bits = e1.toUInt64

/-- `e1_limit`. -/
def e1Limit (bits : Nat) : UInt64 := (1 : UInt64) <<< UInt64.ofNat (64 - bits)

/-- The window of a session: its slice, and the bits that are the miner's to roll. -/
structure Window where
  e1 : UInt32
  bits : Nat
  legal : bits = xBitsMin ∨ bits = xBits
  fits : e1.toUInt64 < e1Limit bits

/-- The window of a subscribe reply. -/
def subscribed (e1 : UInt32) (xBytes : UInt64) : Option Window :=
  if h : xBytes = 4 ∨ xBytes = 5 then
    if hfits : e1.toUInt64 < e1Limit (xBytes * 8).toNat then
      some ⟨e1, (xBytes * 8).toNat, by rcases h with rfl | rfl <;> decide, hfits⟩
    else none
  else none

namespace Window

variable (w : Window)

/-- `cbits` in `spawn_worker`. -/
def counterBits : Nat := w.bits - threadBits

/-- The nonce that a worker tries at a count. -/
def nonce (index : Nat) (counter : UInt64) : UInt64 :=
  let cmask := ((1 : UInt64) <<< UInt64.ofNat w.counterBits) - 1
  composeIn w.e1 ((UInt64.ofNat index <<< UInt64.ofNat w.counterBits) ||| (counter &&& cmask)) w.bits

/-- No two workers try the same nonce, and no worker tries one twice. -/
def Separates (threads : Nat) : Prop :=
  Set.InjOn (fun l : Nat × UInt64 ↦ w.nonce l.1 l.2)
    {l | l.1 < threads ∧ l.2.toNat < 2 ^ w.counterBits}

/-- Every nonce that is tried is in the slice, for the client and for a server that assigned it. -/
def Owns (threads : Nat) : Prop :=
  ∀ index < threads, ∀ counter : UInt64, counter.toNat < 2 ^ w.counterBits →
    ownsIn w.e1 (w.nonce index counter) w.bits = true ∧
    ∀ e1 sub, sliceFixed e1 sub (xBits - w.bits) = w.e1.toUInt64 →
      sliceOwns e1 sub (xBits - w.bits) (w.nonce index counter) = true

end Window

/-! ## Fields -/

theorem toNat_shiftLeft {a : UInt64} {k : Nat} (hk : k < 64) :
    (a <<< UInt64.ofNat k).toNat = a.toNat % 2 ^ (64 - k) * 2 ^ k := by
  have hsplit : 2 ^ 64 = 2 ^ (64 - k) * 2 ^ k := by
    rw [← pow_add, Nat.sub_add_cancel hk.le]
  rw [UInt64.toNat_shiftLeft, UInt64.toNat_ofNat_of_lt' (hk.trans (by decide)), Nat.mod_eq_of_lt hk,
    Nat.shiftLeft_eq, hsplit, Nat.mul_mod_mul_right]

/-- A field over a value that fits below it. -/
theorem toNat_field {a b : UInt64} {k : Nat} (hk : k < 64) (hb : b.toNat < 2 ^ k) :
    ((a <<< UInt64.ofNat k) ||| b).toNat = a.toNat % 2 ^ (64 - k) * 2 ^ k + b.toNat := by
  rw [UInt64.toNat_or, toNat_shiftLeft hk, Nat.mul_comm, Nat.two_pow_add_eq_or_of_lt hb]

/-- The low bits of a word. -/
theorem toNat_low {x : UInt64} {k : Nat} (hk : k < 64) :
    (x &&& (((1 : UInt64) <<< UInt64.ofNat k) - 1)).toNat = x.toNat % 2 ^ k := by
  have hone : ((1 : UInt64) <<< UInt64.ofNat k).toNat = 2 ^ k := by
    rw [toNat_shiftLeft hk, UInt64.toNat_one, Nat.mod_eq_of_lt, Nat.one_mul]
    exact Nat.one_lt_two_pow (Nat.sub_ne_zero_of_lt hk)
  rw [UInt64.toNat_and, UInt64.toNat_sub_of_le, hone, UInt64.toNat_one,
    Nat.and_two_pow_sub_one_eq_mod]
  rw [UInt64.le_iff_toNat_le, hone]
  exact Nat.one_le_two_pow

/-- What is composed is the slice over the bits that are rolled. -/
theorem toNat_composeIn (e1 : UInt32) (x : UInt64) {k : Nat} (hk : k < 64)
    (hfits : e1.toNat < 2 ^ (64 - k)) :
    (composeIn e1 x k).toNat = e1.toNat * 2 ^ k + x.toNat % 2 ^ k := by
  have hmask : mask k = ((1 : UInt64) <<< UInt64.ofNat k) - 1 := if_neg (Nat.not_le.mpr hk)
  rw [composeIn, hmask, toNat_field hk, toNat_low hk, UInt32.toNat_toUInt64,
    Nat.mod_eq_of_lt hfits]
  rw [toNat_low hk]
  exact Nat.mod_lt _ (Nat.two_pow_pos k)

/-- What is left of a field that is cut off. -/
theorem field_mod (m : Nat) {c k : Nat} (j : Nat) (hc : c < 2 ^ k) :
    (m * 2 ^ k + c) % (2 ^ k * 2 ^ j) = m % 2 ^ j * 2 ^ k + c := by
  rw [Nat.mod_mul, Nat.mul_comm m, Nat.mul_add_mod, Nat.mod_eq_of_lt hc,
    Nat.mul_add_div (Nat.two_pow_pos k), Nat.div_eq_of_lt hc, Nat.add_zero, Nat.add_comm, Nat.mul_comm]

namespace Window

variable (w : Window)

theorem bits_eq : w.bits = w.counterBits + threadBits := by
  rcases w.legal with h | h <;> rw [counterBits, h] <;> rfl

theorem bits_lt : w.bits < 64 := by
  rcases w.legal with h | h <;> rw [h] <;> decide

theorem toNat_lt_limit : w.e1.toNat < 2 ^ (64 - w.bits) := by
  have hfits := w.fits
  rw [e1Limit, UInt64.lt_iff_toNat_lt, UInt32.toNat_toUInt64] at hfits
  rcases w.legal with h | h <;> rw [h] at hfits ⊢ <;> exact hfits

/-- The fields of a nonce: the slice, the worker's index as far as its bits go, and the count. -/
theorem toNat_nonce (index : Nat) (counter : UInt64) :
    (w.nonce index counter).toNat = w.e1.toNat * 2 ^ w.bits +
      (index % 2 ^ threadBits * 2 ^ w.counterBits + counter.toNat % 2 ^ w.counterBits) := by
  have hcounter : w.counterBits < 64 := lt_of_le_of_lt (by rw [w.bits_eq]; exact Nat.le_add_right _ _)
    w.bits_lt
  have hlow := toNat_low (x := counter) hcounter
  have hlt : counter.toNat % 2 ^ w.counterBits < 2 ^ w.counterBits :=
    Nat.mod_lt _ (Nat.two_pow_pos _)
  rw [nonce, toNat_composeIn w.e1 _ w.bits_lt w.toNat_lt_limit, toNat_field hcounter (hlow ▸ hlt),
    hlow, w.bits_eq, pow_add, field_mod _ _ hlt, UInt64.toNat_ofNat', Nat.mod_mod_of_dvd,
    Nat.mod_mod_of_dvd]
  · exact pow_dvd_pow 2 (by decide)
  · refine pow_dvd_pow 2 ?_
    have hbits := w.bits_lt
    rw [w.bits_eq] at hbits
    exact Nat.le_sub_of_add_le (Nat.add_comm _ _ ▸ hbits.le)

/-- The nonces are apart as long as every index fits its bits. -/
theorem separates_of_le {threads : Nat} (h : threads ≤ 2 ^ threadBits) : w.Separates threads := by
  rintro ⟨i, c⟩ ⟨hi, hc⟩ ⟨j, d⟩ ⟨hj, hd⟩ heq
  have hnonce : (w.nonce i c).toNat = (w.nonce j d).toNat := congrArg UInt64.toNat heq
  rw [toNat_nonce, toNat_nonce, Nat.mod_eq_of_lt (hi.trans_le h), Nat.mod_eq_of_lt (hj.trans_le h),
    Nat.mod_eq_of_lt hc, Nat.mod_eq_of_lt hd, Nat.add_left_cancel_iff] at hnonce
  have hcount : c.toNat = d.toNat := by
    have hmod := congrArg (· % 2 ^ w.counterBits) hnonce
    simpa [Nat.mod_eq_of_lt hc, Nat.mod_eq_of_lt hd] using hmod
  rw [hcount, Nat.add_right_cancel_iff] at hnonce
  have hindex : i = j := Nat.eq_of_mul_eq_mul_right (Nat.two_pow_pos _) hnonce
  rw [hindex, UInt64.toNat_inj.mp hcount]

/-- The worker whose index is one past its bits tries what the first one does. -/
theorem nonce_overflows (counter : UInt64) : w.nonce (2 ^ threadBits) counter = w.nonce 0 counter := by
  rw [← UInt64.toNat_inj, toNat_nonce, toNat_nonce, Nat.mod_self, Nat.zero_mod]

theorem separates_iff {threads : Nat} : w.Separates threads ↔ threads ≤ 2 ^ threadBits := by
  refine ⟨fun hsep ↦ Nat.le_of_not_lt fun hlt ↦ ?_, w.separates_of_le⟩
  have hzero : (0 : UInt64).toNat < 2 ^ w.counterBits := Nat.two_pow_pos _
  have hlast : (2 ^ threadBits, (0 : UInt64)) ∈
      {l : Nat × UInt64 | l.1 < threads ∧ l.2.toNat < 2 ^ w.counterBits} := ⟨hlt, hzero⟩
  have hfirst : (0, (0 : UInt64)) ∈
      {l : Nat × UInt64 | l.1 < threads ∧ l.2.toNat < 2 ^ w.counterBits} :=
    ⟨Nat.zero_lt_of_lt hlt, hzero⟩
  have hsame := congrArg Prod.fst (hsep hlast hfirst (w.nonce_overflows 0))
  exact absurd hsame (Nat.two_pow_pos threadBits).ne'

/-- The slice of a nonce is what is above the bits that are rolled. -/
theorem nonce_shiftRight (index : Nat) (counter : UInt64) :
    w.nonce index counter >>> UInt64.ofNat w.bits = w.e1.toUInt64 := by
  have hlow : index % 2 ^ threadBits * 2 ^ w.counterBits + counter.toNat % 2 ^ w.counterBits <
      2 ^ w.bits := by
    rw [w.bits_eq, Nat.add_comm w.counterBits, pow_add]
    have hcount : counter.toNat % 2 ^ w.counterBits < 2 ^ w.counterBits :=
      Nat.mod_lt _ (Nat.two_pow_pos _)
    have hindex : index % 2 ^ threadBits + 1 ≤ 2 ^ threadBits := Nat.mod_lt _ (Nat.two_pow_pos _)
    calc _ < (index % 2 ^ threadBits + 1) * 2 ^ w.counterBits := by
          rw [Nat.add_one_mul]
          exact Nat.add_lt_add_left hcount _
      _ ≤ 2 ^ threadBits * 2 ^ w.counterBits := Nat.mul_le_mul_right _ hindex
  rw [← UInt64.toNat_inj, UInt64.toNat_shiftRight, UInt64.toNat_ofNat_of_lt'
    (w.bits_lt.trans (by decide)), Nat.mod_eq_of_lt w.bits_lt, Nat.shiftRight_eq_div_pow, toNat_nonce,
    Nat.mul_comm, Nat.mul_add_div (Nat.two_pow_pos _), Nat.div_eq_of_lt hlow, Nat.add_zero,
    UInt32.toNat_toUInt64]

/-- However many workers there are, no nonce leaves the slice. -/
theorem owns (threads : Nat) : w.Owns threads := by
  intro index _ counter _
  have hslice := w.nonce_shiftRight index counter
  refine ⟨decide_eq_true hslice, fun e1 sub hfixed ↦ decide_eq_true ?_⟩
  have hbits : xBits - (xBits - w.bits) = w.bits := by
    rcases w.legal with h | h <;> rw [h] <;> rfl
  rw [hbits, hslice, hfixed]

end Window

/-! ## Workers -/

/-- The workers of a session search apart, and in its slice, exactly when there are no more of them
than their bits can tell apart. -/
theorem lanes_disjoint (w : Window) (threads : Nat) :
    (w.Separates threads ∧ w.Owns threads) ↔ threads ≤ 2 ^ threadBits := by
  rw [w.separates_iff, and_iff_left (w.owns threads)]

/-- The whole window of slice 1. -/
def window : Window := ⟨1, 40, .inr rfl, by decide⟩

/-- With `--threads 257` the last worker repeats the first. -/
theorem lanes_collide :
    (Partial.mk (argThreads ['2', '5', '7']) none).resolve 1 = some 257 ∧
      subscribed 1 5 = some window ∧ ¬window.Separates 257 := by
  refine ⟨by decide, rfl, fun hsep ↦ ?_⟩
  have hsame : ((256, 0) : Nat × UInt64) = (0, 0) := by
    refine hsep ⟨by decide, by decide⟩ ⟨by decide, by decide⟩ ?_
    exact window.nonce_overflows 0
  exact absurd (congrArg Prod.fst hsame) (by decide)

end Plaine.Miner.Lanes

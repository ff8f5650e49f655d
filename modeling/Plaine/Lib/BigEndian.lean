import Plaine.Lib.Bytes
import Plaine.Lib.Words

/-!
# Big-endian bytes

The number that bytes spell with the most significant one first, and integers of many words read
from and written to such bytes, eight to a word.
-/

namespace Plaine.Lib

/-- The number that bytes spell, the most significant one first. -/
def ofBe (bs : Bytes) : Nat := ofLe bs.reverse

/-- `to_be_bytes`. -/
def beBytes (w : UInt64) : Bytes := (leBytes 8 w.toNat).reverse

/-- Bytes shifted into a word one by one. -/
def beWord (bs : Bytes) : UInt64 := bs.foldl (fun v b ↦ v <<< 8 ||| b.toUInt64) 0

/-- The words of bytes, eight to a word; the first eight are the last word. -/
def beLimbs : Nat → Bytes → List UInt64
  | 0, _ => []
  | n + 1, bs => beLimbs n (bs.drop 8) ++ [beWord (bs.take 8)]

theorem ofLe_append (xs ys : Bytes) : ofLe (xs ++ ys) = ofLe xs + 256 ^ xs.length * ofLe ys := by
  induction xs with
  | nil => simp [ofLe]
  | cons x xs ih =>
    rw [List.cons_append, ofLe, ofLe, ih, List.length_cons, Nat.pow_succ]
    ring

@[simp] theorem ofBe_nil : ofBe [] = 0 := rfl

theorem ofBe_append (xs ys : Bytes) : ofBe (xs ++ ys) = ofBe xs * 256 ^ ys.length + ofBe ys := by
  rw [ofBe, List.reverse_append, ofLe_append, List.length_reverse, Nat.add_comm, Nat.mul_comm]
  rfl

theorem ofBe_cons (b : UInt8) (bs : Bytes) :
    ofBe (b :: bs) = b.toNat * 256 ^ bs.length + ofBe bs := by
  have hone : ofBe [b] = b.toNat := by simp [ofBe, ofLe]
  rw [← List.singleton_append, ofBe_append, hone]

theorem ofBe_lt (bs : Bytes) : ofBe bs < 256 ^ bs.length := by
  have h := ofLe_lt bs.reverse
  rwa [List.length_reverse] at h

/-! ## Order -/

/-- Bytes that spell less come first, whatever follows. -/
theorem append_lt_of_ofBe_lt {xs ys : Bytes} {us vs : List Nat} (hlen : xs.length = ys.length)
    (h : ofBe xs < ofBe ys) : xs.map UInt8.toNat ++ us < ys.map UInt8.toNat ++ vs := by
  induction xs generalizing ys with
  | nil =>
    rw [List.eq_nil_of_length_eq_zero hlen.symm] at h
    exact absurd h (Nat.lt_irrefl _)
  | cons x xs ih =>
    obtain _ | ⟨y, ys⟩ := ys
    · cases hlen
    have htail : xs.length = ys.length := Nat.succ_inj.mp hlen
    rw [ofBe_cons, ofBe_cons, htail] at h
    rw [List.map_cons, List.map_cons, List.cons_append, List.cons_append, List.cons_lt_cons_iff]
    rcases Nat.lt_trichotomy x.toNat y.toNat with hlt | heq | hgt
    · exact .inl hlt
    · rw [heq] at h
      exact .inr ⟨heq, ih htail (Nat.lt_of_add_lt_add_left h)⟩
    · -- The first bytes decide.
      have hys := ofBe_lt ys
      have hmul : (y.toNat + 1) * 256 ^ ys.length ≤ x.toNat * 256 ^ ys.length :=
        Nat.mul_le_mul_right _ hgt
      rw [Nat.succ_mul] at hmul
      omega

/-- Bytes are given by the number they spell. -/
theorem eq_of_ofBe_eq {xs ys : Bytes} (hlen : xs.length = ys.length) (h : ofBe xs = ofBe ys) :
    xs = ys := by
  have hlen' : xs.reverse.length = ys.reverse.length := by
    rw [List.length_reverse, List.length_reverse, hlen]
  refine List.reverse_injective ?_
  rw [← leBytes_ofLe xs.reverse, hlen', show ofLe xs.reverse = ofLe ys.reverse from h,
    leBytes_ofLe]

/-- Arrays are in the order of the numbers they spell. -/
theorem Arr.lt_iff_ofBe {n : Nat} {a b : Arr n} : a < b ↔ ofBe a.bytes < ofBe b.bytes := by
  have hof {a b : Arr n} (h : ofBe a.bytes < ofBe b.bytes) : a < b := by
    have hlt := @append_lt_of_ofBe_lt a.bytes b.bytes [] []
      (a.length_eq.trans b.length_eq.symm) h
    rwa [List.append_nil, List.append_nil] at hlt
  refine ⟨fun h ↦ ?_, hof⟩
  rcases Nat.lt_trichotomy (ofBe a.bytes) (ofBe b.bytes) with hlt | heq | hgt
  · exact hlt
  · have hab : a = b := Arr.ext (eq_of_ofBe_eq (a.length_eq.trans b.length_eq.symm) heq)
    exact absurd (hab ▸ h) (Arr.lt_irrefl b)
  · exact absurd (Arr.lt_trans h (hof hgt)) (Arr.lt_irrefl a)

/-! ## Words -/

@[simp] theorem length_beBytes (w : UInt64) : (beBytes w).length = 8 := by
  rw [beBytes, List.length_reverse, length_leBytes]

@[simp] theorem ofBe_beBytes (w : UInt64) : ofBe (beBytes w) = w.toNat := by
  rw [ofBe, beBytes, List.reverse_reverse]
  exact ofLe_leBytes_of_lt w.toNat_lt

/-- No bit goes out of a word that takes at most eight bytes. -/
theorem toNat_beWord {bs : Bytes} (hlength : bs.length ≤ 8) : (beWord bs).toNat = ofBe bs := by
  induction bs using List.reverseRecOn with
  | nil => rfl
  | append_singleton bs b ih =>
    rw [List.length_append, List.length_singleton] at hlength
    have hbs := ofBe_lt bs
    have hpow : 256 ^ bs.length ≤ 256 ^ 7 := Nat.pow_le_pow_right (by decide) (by omega)
    have hb : b.toNat < 2 ^ 8 := b.toNat_lt
    have hsingle : ofBe [b] = b.toNat := by simp [ofBe, ofLe]
    have hshift : (beWord bs <<< 8).toNat = 2 ^ 8 * ofBe bs := by
      rw [UInt64.toNat_shiftLeft, ih (by omega)]
      change ofBe bs <<< 8 % 2 ^ 64 = _
      rw [Nat.shiftLeft_eq, Nat.mod_eq_of_lt (by omega), Nat.mul_comm]
    rw [ofBe_append, List.length_singleton, hsingle, beWord, List.foldl_append]
    change (beWord bs <<< 8 ||| b.toUInt64).toNat = _
    rw [UInt64.toNat_or, hshift, UInt8.toNat_toUInt64, ← Nat.two_pow_add_eq_or_of_lt hb]
    ring

@[simp] theorem length_beLimbs (n : Nat) (bs : Bytes) : (beLimbs n bs).length = n := by
  induction n generalizing bs with
  | zero => rfl
  | succ n ih => rw [beLimbs, List.length_append, ih, List.length_singleton]

/-- Words read from bytes have the number the bytes spell. -/
theorem valueOf_beLimbs {n : Nat} {bs : Bytes} (hlength : bs.length = 8 * n) :
    Words.valueOf (beLimbs n bs) = ofBe bs := by
  induction n generalizing bs with
  | zero =>
    rw [List.length_eq_zero_iff.mp hlength]
    rfl
  | succ n ih =>
    have hdrop : (bs.drop 8).length = 8 * n := by
      rw [List.length_drop, hlength, Nat.mul_succ, Nat.add_sub_cancel]
    have htake : (bs.take 8).length ≤ 8 := List.length_take_le 8 bs
    have hpow : (256 : Nat) ^ (8 * n) = 2 ^ (64 * n) := by
      rw [show 256 = 2 ^ 8 from rfl, ← Nat.pow_mul]
      congr 1
      ring
    have hsplit : ofBe bs = ofBe (bs.take 8) * 256 ^ (8 * n) + ofBe (bs.drop 8) := by
      rw [← hdrop, ← ofBe_append, List.take_append_drop]
    rw [beLimbs, Words.valueOf_append, ih hdrop, length_beLimbs, Words.valueOf_cons,
      Words.valueOf_nil, toNat_beWord htake, hsplit, hpow]
    ring

/-- The bytes of words, the last word first. -/
def Words.toBe {n : Nat} (a : Words n) : Bytes := a.limbs.reverse.flatMap beBytes

theorem ofBe_flatMap_beBytes (ws : List UInt64) :
    ofBe (ws.reverse.flatMap beBytes) = Words.valueOf ws := by
  induction ws with
  | nil => rfl
  | cons w ws ih =>
    rw [List.reverse_cons, List.flatMap_append, ofBe_append, ih, List.flatMap_singleton,
      length_beBytes, ofBe_beBytes, Words.valueOf_cons]
    ring

/-- Words written as bytes spell their number. -/
theorem Words.ofBe_toBe {n : Nat} (a : Words n) : ofBe a.toBe = a.value :=
  ofBe_flatMap_beBytes a.limbs

theorem Words.length_toBe {n : Nat} (a : Words n) : a.toBe.length = 8 * n := by
  have hsum : (a.limbs.reverse.map fun w ↦ (beBytes w).length).sum = 8 * n := by
    simp [length_beBytes, a.length_eq, Nat.mul_comm]
  rw [Words.toBe, List.length_flatMap, hsum]

end Plaine.Lib

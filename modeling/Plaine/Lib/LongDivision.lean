import Plaine.Lib.BigEndian
import Plaine.Lib.Checked

/-!
# Long division

Words divided by a word, the highest first; and a power of two divided by big-endian bytes, bit by
bit, with a doubling and a subtraction that run from the last byte to the first.  Each has its value,
and no carry is lost.
-/

namespace Plaine.Lib

/-! ## Division by a word -/

namespace Words

/-- The quotient of words by a word and the remainder.  The remainder with the next word is two words
wide. -/
def divWordLoop (d : UInt64) : List UInt64 → List UInt64 × UInt64
  | [] => ([], 0)
  | w :: ws =>
    let (quot, rem) := divWordLoop d ws
    let cur := rem.toNat * 2 ^ 64 + w.toNat
    (UInt64.ofNat (cur / d.toNat) :: quot, UInt64.ofNat (cur % d.toNat))

theorem length_divWordLoop (d : UInt64) (ws : List UInt64) :
    (divWordLoop d ws).1.length = ws.length := by
  induction ws with
  | nil => rfl
  | cons w ws ih => exact congrArg Nat.succ ih

/-- The division is exact. -/
theorem valueOf_divWordLoop {d : UInt64} (hd : 0 < d.toNat) (ws : List UInt64) :
    valueOf (divWordLoop d ws).1 = valueOf ws / d.toNat ∧
      (divWordLoop d ws).2.toNat = valueOf ws % d.toNat := by
  induction ws with
  | nil => exact ⟨(Nat.zero_div _).symm, (Nat.zero_mod _).symm⟩
  | cons w ws ih =>
    obtain ⟨hquot, hrem⟩ := ih
    have hw : w.toNat < 2 ^ 64 := w.toNat_lt
    have hdlt : d.toNat < 2 ^ 64 := d.toNat_lt
    have hlt := Nat.mod_lt (valueOf ws) hd
    -- The quotient so far takes no part in what is left.
    have hsplit : valueOf (w :: ws) =
        valueOf ws % d.toNat * 2 ^ 64 + w.toNat + d.toNat * (2 ^ 64 * (valueOf ws / d.toNat)) := by
      have hws := Nat.mod_add_div (valueOf ws) d.toNat
      rw [valueOf_cons]
      calc w.toNat + 2 ^ 64 * valueOf ws
          = w.toNat + 2 ^ 64 * (valueOf ws % d.toNat + d.toNat * (valueOf ws / d.toNat)) := by
            rw [hws]
        _ = _ := by ring
    have hroom : (valueOf ws % d.toNat * 2 ^ 64 + w.toNat) / d.toNat < 2 ^ 64 := by
      refine Nat.div_lt_of_lt_mul ?_
      calc valueOf ws % d.toNat * 2 ^ 64 + w.toNat < valueOf ws % d.toNat * 2 ^ 64 + 2 ^ 64 :=
            Nat.add_lt_add_left hw _
        _ = (valueOf ws % d.toNat + 1) * 2 ^ 64 := (Nat.succ_mul _ _).symm
        _ ≤ d.toNat * 2 ^ 64 := Nat.mul_le_mul_right _ hlt
    have hstep : divWordLoop d (w :: ws) =
        (UInt64.ofNat ((valueOf ws % d.toNat * 2 ^ 64 + w.toNat) / d.toNat) :: (divWordLoop d ws).1,
          UInt64.ofNat ((valueOf ws % d.toNat * 2 ^ 64 + w.toNat) % d.toNat)) := by
      rw [← hrem]
      rfl
    rw [hstep]
    dsimp only
    rw [valueOf_cons, hquot, hsplit, Nat.add_mul_div_left _ _ hd, Nat.add_mul_mod_self_left,
      UInt64.toNat_ofNat_of_lt' hroom,
      UInt64.toNat_ofNat_of_lt' ((Nat.mod_lt _ hd).trans hdlt)]
    exact ⟨rfl, rfl⟩

end Words

/-! ## Doubling and subtraction -/

/-- Bytes shifted by one bit, with the bit that comes in, and the bit that goes out. -/
def shlBe (carry : UInt8) : Bytes → Bytes × UInt8
  | [] => ([], carry)
  | b :: bs =>
    let (out, carry) := shlBe carry bs
    let v := b.toUInt16 <<< 1 ||| carry.toUInt16
    (v.toUInt8 :: out, (v >>> 8).toUInt8)

/-- The difference of bytes, with the borrow. -/
def subBe : Bytes → Bytes → Bytes × Nat
  | x :: xs, y :: ys =>
    let (out, borrow) := subBe xs ys
    let v : Int := x.toNat - y.toNat - borrow
    if v < 0 then (UInt8.ofNat (v + 256).toNat :: out, 1) else (UInt8.ofNat v.toNat :: out, 0)
  | _, _ => ([], 0)

theorem length_shlBe (carry : UInt8) (bs : Bytes) : (shlBe carry bs).1.length = bs.length := by
  induction bs with
  | nil => rfl
  | cons b bs ih => exact congrArg Nat.succ ih

theorem length_subBe {xs ys : Bytes} (hlen : xs.length = ys.length) :
    (subBe xs ys).1.length = xs.length := by
  induction xs generalizing ys with
  | nil => rfl
  | cons x xs ih =>
    obtain _ | ⟨y, ys⟩ := ys
    · cases hlen
    · rw [subBe]
      dsimp only
      split <;> exact congrArg Nat.succ (ih (Nat.succ.inj hlen))

/-- A byte doubled, with a bit that comes in. -/
theorem toNat_shlByte (b : UInt8) {carry : UInt8} (hcarry : carry.toNat ≤ 1) :
    (b.toUInt16 <<< 1 ||| carry.toUInt16).toNat = 2 * b.toNat + carry.toNat := by
  have hb : b.toNat < 2 ^ 8 := b.toNat_lt
  have hshift : (b.toUInt16 <<< 1).toNat = 2 ^ 1 * b.toNat := by
    rw [UInt16.toNat_shiftLeft, UInt8.toNat_toUInt16]
    change b.toNat <<< 1 % 2 ^ 16 = _
    rw [Nat.shiftLeft_eq, Nat.mod_eq_of_lt (by omega), Nat.mul_comm]
  rw [UInt16.toNat_or, hshift, UInt8.toNat_toUInt16,
    ← Nat.two_pow_add_eq_or_of_lt (show carry.toNat < 2 ^ 1 from Nat.lt_succ_of_le hcarry)]

/-- The bytes are doubled, and the bit that goes out is kept. -/
theorem ofBe_shlBe {carry : UInt8} (hcarry : carry.toNat ≤ 1) (bs : Bytes) :
    (shlBe carry bs).2.toNat * 256 ^ bs.length + ofBe (shlBe carry bs).1 =
        2 * ofBe bs + carry.toNat ∧
      (shlBe carry bs).2.toNat ≤ 1 := by
  induction bs with
  | nil =>
    refine ⟨?_, hcarry⟩
    rw [List.length_nil, Nat.pow_zero, Nat.mul_one]
    exact Nat.add_comm _ _
  | cons b bs ih =>
    obtain ⟨hvalue, hout⟩ := ih
    have hbyte := toNat_shlByte b hout
    have hb : b.toNat < 2 ^ 8 := b.toNat_lt
    have hlow : (b.toUInt16 <<< 1 ||| (shlBe carry bs).2.toUInt16).toUInt8.toNat =
        (2 * b.toNat + (shlBe carry bs).2.toNat) % 256 := by
      rw [UInt16.toNat_toUInt8, hbyte]
    have hhigh : ((b.toUInt16 <<< 1 ||| (shlBe carry bs).2.toUInt16) >>> 8).toUInt8.toNat =
        (2 * b.toNat + (shlBe carry bs).2.toNat) / 256 := by
      rw [UInt16.toNat_toUInt8, UInt16.toNat_shiftRight, hbyte]
      change (2 * b.toNat + _) >>> 8 % 2 ^ 8 = _
      rw [Nat.shiftRight_eq_div_pow]
      omega
    rw [shlBe]
    dsimp only
    rw [hhigh, ofBe_cons, hlow, length_shlBe, ofBe_cons, List.length_cons, Nat.pow_succ]
    refine ⟨?_, by omega⟩
    have hsplit := Nat.div_add_mod (2 * b.toNat + (shlBe carry bs).2.toNat) 256
    calc (2 * b.toNat + (shlBe carry bs).2.toNat) / 256 * (256 ^ bs.length * 256) +
          ((2 * b.toNat + (shlBe carry bs).2.toNat) % 256 * 256 ^ bs.length +
            ofBe (shlBe carry bs).1)
        = (256 * ((2 * b.toNat + (shlBe carry bs).2.toNat) / 256) +
            (2 * b.toNat + (shlBe carry bs).2.toNat) % 256) * 256 ^ bs.length +
              ofBe (shlBe carry bs).1 := by ring
      _ = 2 * b.toNat * 256 ^ bs.length +
            ((shlBe carry bs).2.toNat * 256 ^ bs.length + ofBe (shlBe carry bs).1) := by
          rw [hsplit]
          ring
      _ = 2 * (b.toNat * 256 ^ bs.length + ofBe bs) + carry.toNat := by
          rw [hvalue]
          ring

/-- The difference, up to the borrow. -/
theorem ofBe_subBe {xs ys : Bytes} (hlen : xs.length = ys.length) :
    ofBe (subBe xs ys).1 + ofBe ys = ofBe xs + (subBe xs ys).2 * 256 ^ xs.length ∧
      (subBe xs ys).2 ≤ 1 := by
  induction xs generalizing ys with
  | nil =>
    rw [List.eq_nil_of_length_eq_zero hlen.symm]
    exact ⟨rfl, Nat.zero_le 1⟩
  | cons x xs ih =>
    obtain _ | ⟨y, ys⟩ := ys
    · cases hlen
    have htail : xs.length = ys.length := Nat.succ.inj hlen
    obtain ⟨hvalue, hborrow⟩ := ih htail
    have hx : x.toNat < 2 ^ 8 := x.toNat_lt
    have hy : y.toNat < 2 ^ 8 := y.toNat_lt
    -- What a byte becomes, with the borrow that goes out and the one that came in.
    have hbytes {z borrow : Nat} (hz : z < 2 ^ 8)
        (hsum : z + y.toNat + (subBe xs ys).2 = x.toNat + borrow * 256) :
        ofBe (UInt8.ofNat z :: (subBe xs ys).1) + ofBe (y :: ys) =
          ofBe (x :: xs) + borrow * 256 ^ (xs.length + 1) := by
      rw [ofBe_cons, ofBe_cons, ofBe_cons, length_subBe htail, ← htail,
        UInt8.toNat_ofNat_of_lt' hz, Nat.pow_succ]
      calc z * 256 ^ xs.length + ofBe (subBe xs ys).1 + (y.toNat * 256 ^ xs.length + ofBe ys)
          = (z + y.toNat) * 256 ^ xs.length + (ofBe (subBe xs ys).1 + ofBe ys) := by ring
        _ = (z + y.toNat + (subBe xs ys).2) * 256 ^ xs.length + ofBe xs := by
            rw [hvalue]
            ring
        _ = x.toNat * 256 ^ xs.length + ofBe xs + borrow * (256 ^ xs.length * 256) := by
            rw [hsum]
            ring
    rw [subBe, List.length_cons]
    dsimp only
    split
    case isTrue hneg => exact ⟨hbytes (by omega) (by omega), le_rfl⟩
    case isFalse hpos => exact ⟨hbytes (by omega) (by omega), Nat.zero_le 1⟩

namespace Arr

variable {n : Nat}

/-- `shlBe` of an array. -/
def shl (a : Arr n) (carry : UInt8) : Arr n × UInt8 :=
  (⟨(shlBe carry a.bytes).1, (length_shlBe carry a.bytes).trans a.length_eq⟩, (shlBe carry a.bytes).2)

/-- `subBe` of arrays. -/
def sub (a b : Arr n) : Arr n :=
  ⟨(subBe a.bytes b.bytes).1, (length_subBe (a.length_eq.trans b.length_eq.symm)).trans a.length_eq⟩

end Arr

end Plaine.Lib

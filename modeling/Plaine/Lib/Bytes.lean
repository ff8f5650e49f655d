import Mathlib.Data.Fintype.Vector
import Mathlib.Data.List.Lex
import Mathlib.Tactic.Ring

/-!
# Byte strings

Byte strings are lists of `UInt8`, and `Arr n` is a byte array of the fixed length
`n`.  Arrays are ordered lexicographically, which for equal lengths is the order of
the big-endian numbers they spell.

Integers are written and read little-endian: `leBytes k n` is the `k`-byte image of
`n` and `ofLe` reads it back.
-/

namespace Plaine.Lib

/-- A byte string. -/
abbrev Bytes := List UInt8

/-- A byte array of the fixed length `n`. -/
@[ext]
structure Arr (n : Nat) where
  /-- The bytes. -/
  bytes : Bytes
  /-- There are `n` of them. -/
  length_eq : bytes.length = n
deriving DecidableEq

instance fintypeUInt8 : Fintype UInt8 :=
  Fintype.ofEquiv (Fin 256)
    { toFun := UInt8.ofFin
      invFun := UInt8.toFin
      left_inv := fun _ ↦ rfl
      right_inv := fun _ ↦ rfl }

namespace Arr

variable {n : Nat}

instance decidableMem (a : Arr n) (l : List (Arr n)) : Decidable (a ∈ l) := inferInstance

/-- An array is a vector of bytes. -/
def equivVector (n : Nat) : List.Vector UInt8 n ≃ Arr n where
  toFun v := ⟨v.1, v.2⟩
  invFun a := ⟨a.bytes, a.length_eq⟩
  left_inv _ := rfl
  right_inv _ := rfl

instance (n : Nat) : Fintype (Arr n) := Fintype.ofEquiv _ (equivVector n)

/-- The all-zero array. -/
def zero (n : Nat) : Arr n := ⟨List.replicate n 0, List.length_replicate⟩

instance : Inhabited (Arr n) := ⟨zero n⟩

/-- The bytes as numbers, the key of the order. -/
def key (a : Arr n) : List Nat := a.bytes.map UInt8.toNat

theorem key_injective : Function.Injective (key : Arr n → List Nat) := fun _ _ h ↦
  Arr.ext (List.map_injective_iff.mpr (fun _ _ h ↦ UInt8.toNat_inj.mp h) h)

instance : LT (Arr n) := ⟨fun a b ↦ a.key < b.key⟩

instance : DecidableLT (Arr n) := fun a b ↦ inferInstanceAs (Decidable (a.key < b.key))

theorem lt_iff {a b : Arr n} : a < b ↔ a.key < b.key := Iff.rfl

theorem lt_irrefl (a : Arr n) : ¬a < a := List.lt_irrefl a.key

theorem lt_trans {a b c : Arr n} (h₁ : a < b) (h₂ : b < c) : a < c :=
  List.lt_trans (α := Nat) h₁ h₂

theorem lt_or_eq_or_gt (a b : Arr n) : a < b ∨ a = b ∨ b < a := by
  rcases lt_trichotomy a.key b.key with h | h | h
  · exact .inl h
  · exact .inr (.inl (key_injective h))
  · exact .inr (.inr h)

/-- The `n` bytes of `l` from offset `lo` on, padded with zeros past its end. -/
def ofSlice (n lo : Nat) (l : Bytes) : Arr n :=
  ⟨((l.drop lo) ++ List.replicate n 0).take n, by simp⟩

/-- Reading an array out of the middle of a string that holds it. -/
theorem ofSlice_append (a : Arr n) (pre post : Bytes) {lo : Nat} (h : pre.length = lo) :
    ofSlice n lo (pre ++ (a.bytes ++ post)) = a := by
  ext1
  subst h
  simp only [ofSlice, List.drop_left, List.append_assoc]
  exact List.take_left' a.length_eq

end Arr

/-! ## Little-endian integers -/

/-- The `k` low bytes of `n`, least significant first. -/
def leBytes : Nat → Nat → Bytes
  | 0, _ => []
  | k + 1, n => UInt8.ofNat n :: leBytes k (n / 256)

/-- The number a byte string spells, least significant byte first. -/
def ofLe : Bytes → Nat
  | [] => 0
  | b :: l => b.toNat + 256 * ofLe l

@[simp] theorem length_leBytes (k n : Nat) : (leBytes k n).length = k := by
  induction k generalizing n with
  | zero => rfl
  | succ k ih => simp [leBytes, ih]

theorem ofLe_lt (l : Bytes) : ofLe l < 256 ^ l.length := by
  induction l with
  | nil => simp [ofLe]
  | cons b l ih =>
    have hb : b.toNat < 256 := b.toNat_lt
    simp only [ofLe, List.length_cons, Nat.pow_succ]
    omega

/-- Reading back what was written gives the number modulo the width. -/
theorem ofLe_leBytes (k n : Nat) : ofLe (leBytes k n) = n % 256 ^ k := by
  induction k generalizing n with
  | zero => simp [leBytes, ofLe, Nat.mod_one]
  | succ k ih =>
    have hmod : n % (256 ^ k * 256) = n % 256 + 256 * (n / 256 % 256 ^ k) := by
      rw [Nat.mul_comm, Nat.mod_mul]
    simp [leBytes, ofLe, ih, Nat.pow_succ, hmod]

theorem ofLe_leBytes_of_lt {k n : Nat} (h : n < 256 ^ k) : ofLe (leBytes k n) = n := by
  rw [ofLe_leBytes, Nat.mod_eq_of_lt h]

/-- Writing back what was read gives the bytes. -/
theorem leBytes_ofLe (l : Bytes) : leBytes l.length (ofLe l) = l := by
  induction l with
  | nil => rfl
  | cons b l ih =>
    have hb : b.toNat < 256 := b.toNat_lt
    have hdiv : (b.toNat + 256 * ofLe l) / 256 = ofLe l := by omega
    have hhead : UInt8.ofNat (b.toNat + 256 * ofLe l) = b := by
      apply UInt8.toNat_inj.mp
      simp only [UInt8.toNat_ofNat']
      omega
    simp only [List.length_cons, leBytes, ofLe, hdiv, ih, hhead]

/-- The number at offset `lo`, `k` bytes wide. -/
def leAt (k lo : Nat) (l : Bytes) : Nat := ofLe ((l.drop lo).take k)

/-- Reading a number out of the middle of a string it was written into. -/
theorem leAt_append (k n : Nat) (pre post : Bytes) {lo : Nat} (h : pre.length = lo)
    (hn : n < 256 ^ k) : leAt k lo (pre ++ (leBytes k n ++ post)) = n := by
  have hdrop : (pre ++ (leBytes k n ++ post)).drop lo = leBytes k n ++ post := by
    rw [← h, List.drop_left]
  have htake : (leBytes k n ++ post).take k = leBytes k n :=
    List.take_left' (length_leBytes k n)
  rw [leAt, hdrop, htake, ofLe_leBytes_of_lt hn]

/-- The bytes of a numeral, the most significant first. -/
def Arr.ofNat (n x : Nat) : Arr n := ⟨(leBytes n x).reverse, by simp⟩

end Plaine.Lib

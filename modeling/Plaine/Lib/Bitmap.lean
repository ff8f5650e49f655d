import Mathlib.Data.Fintype.Card
import Mathlib.Data.Fintype.EquivFin
import Mathlib.Data.Finset.Card

/-!
# Bitmaps

A set of the numbers below `n * 64`, one bit of a word for each.  `Bitmap.members` is the set, and
the operations on the words are those on the set.
-/

namespace Plaine.Lib

/-- `n` words of bits. -/
abbrev Bitmap (n : Nat) := Vector (BitVec 64) n

namespace Bitmap

variable {n : Nat}

/-- No bit set. -/
def empty (n : Nat) : Bitmap n := Vector.replicate n 0#64

/-- The word a number is in. -/
def word (v : Fin (n * 64)) : Fin n := ⟨v / 64, Nat.div_lt_of_lt_mul (Nat.mul_comm n 64 ▸ v.2)⟩

/-- The word with the bit of a number alone. -/
def mask (v : Fin (n * 64)) : BitVec 64 := 1#64 <<< (v.1 % 64)

/-- Whether the bit of a number is set. -/
def test (m : Bitmap n) (v : Fin (n * 64)) : Bool := m.get (word v) &&& mask v ≠ 0#64

/-- Set the bit of a number. -/
def insert (m : Bitmap n) (v : Fin (n * 64)) : Bitmap n :=
  m.set (word v).1 (m.get (word v) ||| mask v) (word v).2

/-- Clear the bit of a number. -/
def erase (m : Bitmap n) (v : Fin (n * 64)) : Bitmap n :=
  m.set (word v).1 (m.get (word v) &&& ~~~mask v) (word v).2

/-- The numbers whose bit is set. -/
def members (m : Bitmap n) : Finset (Fin (n * 64)) := Finset.univ.filter (m.test ·)

theorem mem_members {m : Bitmap n} {v : Fin (n * 64)} : v ∈ m.members ↔ m.test v = true := by
  rw [members, Finset.mem_filter, and_iff_right (Finset.mem_univ v)]

theorem getLsbD_mask (v : Fin (n * 64)) (i : Nat) :
    (mask v).getLsbD i = decide (i = v.1 % 64) := by
  unfold mask
  have hlt := Nat.mod_lt v.1 (show 0 < 64 by decide)
  rw [BitVec.getLsbD_shiftLeft, BitVec.getLsbD_one]
  by_cases h : i = v.1 % 64
  · subst h
    simp [hlt]
  · simp only [h, decide_false, Bool.and_eq_false_iff, Bool.not_eq_false', decide_eq_false_iff_not]
    by_cases hi : i < v.1 % 64
    · exact .inl (.inr (decide_eq_true hi))
    · right
      right
      omega

/-- A bit of a word is set if masking leaves something. -/
theorem test_eq (m : Bitmap n) (v : Fin (n * 64)) :
    m.test v = (m.get (word v)).getLsbD (v.1 % 64) := by
  unfold test
  rw [Bool.eq_iff_iff, decide_eq_true_iff]
  constructor
  · intro h
    by_contra hbit
    refine h (BitVec.eq_of_getLsbD_eq fun i hi ↦ ?_)
    rw [BitVec.getLsbD_and, getLsbD_mask, BitVec.getLsbD_zero]
    by_cases hi : i = v.1 % 64
    · rw [hi, eq_false_of_ne_true hbit, Bool.false_and]
    · rw [decide_eq_false hi, Bool.and_false]
  · intro hbit h
    have hzero := congrArg (fun w ↦ BitVec.getLsbD w (v.1 % 64)) h
    rw [BitVec.getLsbD_and, getLsbD_mask, hbit, decide_eq_true rfl, BitVec.getLsbD_zero] at hzero
    cases hzero

/-- Two numbers in one word differ in their bits. -/
theorem eq_of_word {u v : Fin (n * 64)} (hword : word u = word v) (hbit : u.1 % 64 = v.1 % 64) :
    u = v := by
  have hdiv : u.1 / 64 = v.1 / 64 := congrArg Fin.val hword
  refine Fin.ext ?_
  rw [← Nat.div_add_mod u.1 64, ← Nat.div_add_mod v.1 64, hdiv, hbit]

/-- The words of a bitmap with one word set. -/
theorem get_set (m : Bitmap n) (i j : Fin n) (w : BitVec 64) :
    (m.set i.1 w i.2).get j = if j = i then w else m.get j := by
  show (m.set i.1 w i.2)[j.1] = _
  rw [Vector.getElem_set]
  split
  case isTrue h => rw [if_pos (Fin.ext h.symm)]
  case isFalse h =>
    rw [if_neg fun he ↦ h (congrArg Fin.val he.symm)]
    rfl

theorem test_insert (m : Bitmap n) (u v : Fin (n * 64)) :
    (m.insert v).test u = (decide (u = v) || m.test u) := by
  rw [test_eq, test_eq, insert, get_set]
  by_cases hword : word u = word v
  · rw [if_pos hword, BitVec.getLsbD_or, getLsbD_mask, hword, Bool.or_comm]
    congr 1
    exact decide_eq_decide.mpr ⟨fun hbit ↦ eq_of_word hword hbit, fun h ↦ by rw [h]⟩
  · rw [if_neg hword, decide_eq_false fun h ↦ hword (congrArg word h), Bool.false_or]

theorem test_erase (m : Bitmap n) (u v : Fin (n * 64)) :
    (m.erase v).test u = (m.test u && !decide (u = v)) := by
  rw [test_eq, test_eq, erase, get_set]
  by_cases hword : word u = word v
  · rw [if_pos hword, BitVec.getLsbD_and, BitVec.getLsbD_not, getLsbD_mask, hword]
    have hlt : u.1 % 64 < 64 := Nat.mod_lt _ (by decide)
    rw [decide_eq_true hlt, Bool.true_and]
    congr 2
    exact decide_eq_decide.mpr ⟨fun hbit ↦ eq_of_word hword hbit, fun h ↦ by rw [h]⟩
  · rw [if_neg hword, decide_eq_false fun h ↦ hword (congrArg word h), Bool.not_false,
      Bool.and_true]

@[simp] theorem members_empty (n : Nat) : (empty n).members = ∅ := by
  ext v
  rw [mem_members, test_eq]
  refine iff_of_false ?_ (Finset.notMem_empty v)
  show ((Vector.replicate n 0#64)[(word v).1]).getLsbD _ ≠ true
  rw [Vector.getElem_replicate, BitVec.getLsbD_zero]
  exact Bool.false_ne_true

@[simp] theorem members_insert (m : Bitmap n) (v : Fin (n * 64)) :
    (m.insert v).members = Insert.insert v m.members := by
  ext u
  rw [mem_members, test_insert, Bool.or_eq_true, decide_eq_true_iff, Finset.mem_insert, mem_members]

@[simp] theorem members_erase (m : Bitmap n) (v : Fin (n * 64)) :
    (m.erase v).members = m.members.erase v := by
  ext u
  rw [mem_members, test_erase, Bool.and_eq_true, Bool.not_eq_true', decide_eq_false_iff_not,
    Finset.mem_erase, mem_members, and_comm]

end Bitmap

end Plaine.Lib

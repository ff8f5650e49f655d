import Plaine.Lib.Bitmap
import Plaine.Lib.Bytes
import Mathlib.Data.Nat.Bitwise

/-!
# Nonce slices

`stratum/src/nonce.rs`.  The top bits of a nonce tell the slice it is in and the rest is the
miner's to roll.  A session has a slice of its own, from a source of slices; that of the node is a
bitmap with a cursor that goes round.
-/

namespace Plaine.Stratum

open Plaine.Lib

/-! ## Slices -/

/-- `E1_BITS`. -/
def e1Bits : Nat := 24

/-- `X_BITS`. -/
def xBits : Nat := 64 - e1Bits

/-- `E1_SPACE`. -/
def e1Space : Nat := 2 ^ e1Bits

/-- `E1`. -/
structure E1 where
  raw : UInt32
deriving DecidableEq

/-- `E1::owns`. -/
def E1.owns (e1 : E1) (nonce : UInt64) : Bool :=
  (nonce >>> UInt64.ofNat xBits).toUInt32 = e1.raw

/-- `E1::compose`. -/
def E1.compose (e1 : E1) (x : UInt64) : UInt64 :=
  (e1.raw.toUInt64 <<< UInt64.ofNat xBits) ||| (x &&& (((1 : UInt64) <<< UInt64.ofNat xBits) - 1))

/-- `slice_fixed`. -/
def sliceFixed (e1 : E1) (sub : UInt32) (subBits : Nat) : UInt64 :=
  (e1.raw.toUInt64 <<< UInt64.ofNat subBits) ||| sub.toUInt64

/-- `slice_owns`. -/
def sliceOwns (e1 : E1) (sub : UInt32) (subBits : Nat) (nonce : UInt64) : Bool :=
  nonce >>> UInt64.ofNat (xBits - subBits) = sliceFixed e1 sub subBits

/-- `assemble_header`. -/
def assembleHeader (pre : Arr 124) (nonce : UInt64) : Arr 132 :=
  ⟨pre.bytes ++ leBytes 8 nonce.toNat, by simp [pre.length_eq]⟩

/-- Where slices come from: `SliceSource`. -/
class SliceSource (σ : Type) where
  acquire : σ → Option (E1 × UInt32) × σ
  release : σ → E1 → UInt32 → Bool → σ
  subBits : σ → Nat
  live : σ → Nat
  holds : σ → E1 → UInt32 → Bool

/-! ## The allocator -/

/-- A number below `E1_SPACE`, as an index of the bitmap. -/
abbrev Seat := Fin (e1Space / 64 * 64)

theorem seats_eq : e1Space / 64 * 64 = e1Space := by decide

/-- The low bits of a number: `& (E1_SPACE - 1)`. -/
def seat (v : Nat) : Seat :=
  ⟨v &&& (e1Space - 1), lt_of_le_of_lt Nat.and_le_right (by decide)⟩

theorem seat_val (v : Nat) : (seat v).1 = v % e1Space := Nat.and_two_pow_sub_one_eq_mod v e1Bits

/-- `E1Allocator`. -/
structure E1Allocator where
  bits : Bitmap (e1Space / 64)
  cursor : Seat
  live : Nat

namespace E1Allocator

/-- `E1Allocator::new`. -/
def new : E1Allocator := ⟨.empty _, seat 0, 0⟩

/-- The loop of `acquire`. -/
def acquireLoop : Nat → E1Allocator → Option E1 × E1Allocator
  | 0, a => (none, a)
  | k + 1, a =>
    let v := a.cursor
    let a := { a with cursor := seat (v.1 + 1) }
    if a.bits.test v = false then
      (some ⟨UInt32.ofNat v.1⟩, { a with bits := a.bits.insert v, live := a.live + 1 })
    else acquireLoop k a

/-- `E1Allocator::acquire`. -/
def acquire (a : E1Allocator) : Option E1 × E1Allocator := acquireLoop e1Space a

/-- `E1Allocator::release`. -/
def release (a : E1Allocator) (e1 : E1) : E1Allocator :=
  let v := seat e1.raw.toNat
  if a.bits.test v then { a with bits := a.bits.erase v, live := a.live - 1 } else a

instance : SliceSource E1Allocator where
  acquire a := (a.acquire.1.map (·, 0), a.acquire.2)
  release a e1 _ _ := a.release e1
  subBits _ := 0
  live a := a.live
  holds _ _ _ := true

/-! ### What is taken -/

/-- The slice of a seat. -/
def slice (v : Seat) : E1 := ⟨UInt32.ofNat v.1⟩

theorem slice_toNat (v : Seat) : (slice v).raw.toNat = v.1 :=
  UInt32.toNat_ofNat_of_lt' (lt_trans v.2 (by decide))

theorem slice_injective : Function.Injective slice := fun u v h ↦
  Fin.ext (by rw [← slice_toNat u, ← slice_toNat v, h])

theorem seat_slice (v : Seat) : seat (slice v).raw.toNat = v := by
  refine Fin.ext ?_
  rw [seat_val, slice_toNat]
  exact Nat.mod_eq_of_lt (lt_of_lt_of_eq v.2 seats_eq)

/-- The seats that are taken. -/
abbrev taken (a : E1Allocator) : Finset Seat := a.bits.members

/-- The count of live slices is that of the seats taken. -/
def Counts (a : E1Allocator) : Prop := a.live = a.taken.card

theorem taken_new : new.taken = ∅ := Bitmap.members_empty _

theorem counts_new : Counts new := by
  rw [Counts, taken_new]
  rfl

/-- A round of `acquire` that finds a seat takes a free one; else it has seen taken ones. -/
theorem acquireLoop_cases (k : Nat) (a : E1Allocator) :
    ((acquireLoop k a).1 = none ∧ (acquireLoop k a).2.bits = a.bits ∧
      (acquireLoop k a).2.live = a.live ∧ ∀ i < k, seat (a.cursor.1 + i) ∈ a.taken) ∨
    ∃ v ∉ a.taken, (acquireLoop k a).1 = some (slice v) ∧
      (acquireLoop k a).2.bits = a.bits.insert v ∧ (acquireLoop k a).2.live = a.live + 1 := by
  induction k generalizing a with
  | zero => exact .inl ⟨rfl, rfl, rfl, fun i hi ↦ absurd hi (Nat.not_lt_zero i)⟩
  | succ k ih =>
    unfold acquireLoop
    dsimp only
    split
    case isTrue hfree =>
      refine .inr ⟨a.cursor, ?_, rfl, rfl, rfl⟩
      rw [Bitmap.mem_members, hfree]
      exact Bool.false_ne_true
    case isFalse hset =>
      rcases ih { a with cursor := seat (a.cursor.1 + 1) } with
        ⟨hnone, hbits, hlive, hseen⟩ | ⟨v, hv, hsome, hbits, hlive⟩
      · refine .inl ⟨hnone, hbits, hlive, fun i hi ↦ ?_⟩
        rcases Nat.eq_zero_or_pos i with rfl | hpos
        · have hcursor : seat (a.cursor.1 + 0) = a.cursor := by
            refine Fin.ext ?_
            rw [seat_val, Nat.add_zero]
            exact Nat.mod_eq_of_lt (lt_of_lt_of_eq a.cursor.2 seats_eq)
          rw [hcursor, Bitmap.mem_members]
          exact eq_true_of_ne_false hset
        · obtain ⟨i, rfl⟩ := Nat.exists_eq_add_of_le' hpos
          have hnext : seat ((seat (a.cursor.1 + 1)).1 + i) = seat (a.cursor.1 + (i + 1)) := by
            refine Fin.ext ?_
            rw [seat_val, seat_val, seat_val, Nat.mod_add_mod, Nat.add_assoc, Nat.add_comm 1 i]
          rw [← hnext]
          exact hseen i (Nat.lt_of_succ_lt_succ hi)
      · exact .inr ⟨v, hv, hsome, hbits, hlive⟩

/-- `acquire` takes a free seat, and fails only when there is none. -/
theorem acquire_cases (a : E1Allocator) :
    (a.acquire.1 = none ∧ a.acquire.2.bits = a.bits ∧ a.acquire.2.live = a.live ∧
      a.taken = Finset.univ) ∨
    ∃ v ∉ a.taken, a.acquire.1 = some (slice v) ∧ a.acquire.2.taken = insert v a.taken ∧
      a.acquire.2.live = a.live + 1 := by
  rcases acquireLoop_cases e1Space a with
    ⟨hnone, hbits, hlive, hseen⟩ | ⟨v, hv, hsome, hbits, hlive⟩
  · refine .inl ⟨hnone, hbits, hlive, Finset.eq_univ_of_forall fun v ↦ ?_⟩
    -- The cursor has come by every seat.
    have hround : seat (a.cursor.1 + (v.1 + (e1Space - a.cursor.1)) % e1Space) = v := by
      have hle : a.cursor.1 ≤ e1Space := (lt_of_lt_of_eq a.cursor.2 seats_eq).le
      refine Fin.ext ?_
      rw [seat_val, Nat.add_mod_mod, Nat.add_left_comm, Nat.add_sub_cancel' hle, Nat.add_mod_right]
      exact Nat.mod_eq_of_lt (lt_of_lt_of_eq v.2 seats_eq)
    rw [← hround]
    exact hseen _ (Nat.mod_lt _ (by decide))
  · refine .inr ⟨v, hv, hsome, ?_, hlive⟩
    rw [taken, acquire, hbits, Bitmap.members_insert]

theorem Counts.acquire {a : E1Allocator} (h : Counts a) : Counts a.acquire.2 := by
  unfold Counts at h ⊢
  rcases a.acquire_cases with ⟨-, hbits, hlive, -⟩ | ⟨v, hv, -, htaken, hlive⟩
  · rw [hlive, taken, hbits]
    exact h
  · rw [hlive, htaken, Finset.card_insert_of_notMem hv, h]

/-- `release` frees the seat of the slice and no other. -/
theorem taken_release (a : E1Allocator) (v : Seat) :
    (a.release (slice v)).taken = a.taken.erase v := by
  unfold release
  rw [seat_slice]
  dsimp only
  split
  case isTrue => exact Bitmap.members_erase _ _
  case isFalse h => exact (Finset.erase_eq_of_notMem fun hv ↦ h (Bitmap.mem_members.mp hv)).symm

theorem Counts.release {a : E1Allocator} (h : Counts a) (v : Seat) :
    Counts (a.release (slice v)) := by
  unfold Counts at h ⊢
  rw [taken_release]
  unfold E1Allocator.release
  rw [seat_slice]
  dsimp only
  split
  case isTrue hv => rw [Finset.card_erase_of_mem (Bitmap.mem_members.mpr hv), h]
  case isFalse hv =>
    rw [Finset.erase_eq_of_notMem fun hmem ↦ hv (Bitmap.mem_members.mp hmem)]
    exact h

end E1Allocator

/-! ## The partition -/

/-- The test applied to submitted nonces asks for the top bits. -/
theorem sliceOwns_iff (v : Seat) (nonce : UInt64) :
    sliceOwns (E1Allocator.slice v) 0 0 nonce ↔ nonce.toNat / 2 ^ xBits = v.1 := by
  unfold sliceOwns
  rw [decide_eq_true_iff, ← UInt64.toNat_inj]
  have hfixed : (sliceFixed (E1Allocator.slice v) 0 0).toNat = v.1 := by
    have hzero : sliceFixed (E1Allocator.slice v) 0 0 = (E1Allocator.slice v).raw.toUInt64 := by
      simp [sliceFixed]
    rw [hzero, UInt32.toNat_toUInt64, E1Allocator.slice_toNat]
  rw [hfixed, UInt64.toNat_shiftRight, Nat.shiftRight_eq_div_pow]
  rfl

/-- The two tests agree. -/
theorem owns_iff (v : Seat) (nonce : UInt64) :
    (E1Allocator.slice v).owns nonce ↔ nonce.toNat / 2 ^ xBits = v.1 := by
  unfold E1.owns
  rw [decide_eq_true_iff, ← UInt32.toNat_inj, E1Allocator.slice_toNat, UInt64.toNat_toUInt32,
    UInt64.toNat_shiftRight, Nat.shiftRight_eq_div_pow]
  have hlt : nonce.toNat / 2 ^ xBits < 2 ^ 32 :=
    Nat.div_lt_of_lt_mul (lt_of_lt_of_le nonce.toNat_lt (by decide))
  exact (congrArg (· = v.1) (Nat.mod_eq_of_lt hlt)).to_iff

/-- The slices partition the nonces. -/
theorem existsUnique_slice (nonce : UInt64) :
    ∃! v : Seat, sliceOwns (E1Allocator.slice v) 0 0 nonce := by
  have hlt : nonce.toNat / 2 ^ xBits < e1Space / 64 * 64 :=
    Nat.div_lt_of_lt_mul (lt_of_lt_of_eq nonce.toNat_lt (by decide))
  refine ⟨⟨_, hlt⟩, (sliceOwns_iff _ _).mpr rfl, fun v hv ↦ ?_⟩
  exact Fin.ext ((sliceOwns_iff v nonce).mp hv).symm

end Plaine.Stratum

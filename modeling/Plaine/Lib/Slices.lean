import Plaine.Lib.Bytes

/-!
# Slices

A layout is read by offsets and written from front to back.  What is left of a string from an offset
on is a field and more if and only if the slice at the offset is the field and what is left behind it
is the rest.  The equivalences compose, so that a layout and its slices are compared by rewriting.
-/

namespace Plaine.Lib.Slices

variable {α : Type} {b r s : Bytes} {lo k n : Nat}

/-- A field as a byte string. -/
theorem drop_eq_append :
    b.drop lo = s ++ r ↔ (b.drop lo).take s.length = s ∧ b.drop (lo + s.length) = r := by
  rw [← List.drop_drop]
  constructor
  · intro hb
    rw [hb]
    exact ⟨List.take_left, List.drop_left⟩
  · rintro ⟨hs, rfl⟩
    calc b.drop lo = (b.drop lo).take s.length ++ (b.drop lo).drop s.length :=
          (List.take_append_drop _ _).symm
      _ = s ++ (b.drop lo).drop s.length := by rw [hs]

/-- A byte. -/
theorem drop_eq_cons {x : UInt8} (h : lo < b.length) :
    b.drop lo = x :: r ↔ b.getD lo 0 = x ∧ b.drop (lo + 1) = r := by
  rw [List.drop_eq_getElem_cons h, List.cons.injEq, List.getD_eq_getElem?_getD,
    List.getElem?_eq_getElem h, Option.getD_some]

/-- An array. -/
theorem drop_eq_bytes {a : Arr n} (h : lo + n ≤ b.length) :
    b.drop lo = a.bytes ++ r ↔ Arr.ofSlice n lo b = a ∧ b.drop (lo + n) = r := by
  rw [drop_eq_append, a.length_eq, Arr.ext_iff]
  have hslice : (Arr.ofSlice n lo b).bytes = (b.drop lo).take n := by
    show (b.drop lo ++ List.replicate n 0).take n = _
    rw [List.take_append_of_le_length]
    rw [List.length_drop]
    exact Nat.le_sub_of_add_le' h
  rw [hslice]

/-- A number. -/
theorem drop_eq_leBytes {m : Nat} (h : lo + k ≤ b.length) (hm : m < 256 ^ k) :
    b.drop lo = leBytes k m ++ r ↔ leAt k lo b = m ∧ b.drop (lo + k) = r := by
  rw [drop_eq_append, length_leBytes, leAt]
  refine and_congr_left fun _ ↦ ?_
  constructor
  · intro hs
    rw [hs, ofLe_leBytes_of_lt hm]
  · rintro rfl
    have hlen : ((b.drop lo).take k).length = k := by
      rw [List.length_take, List.length_drop]
      exact Nat.min_eq_left (Nat.le_sub_of_add_le' h)
    have hback := leBytes_ofLe ((b.drop lo).take k)
    rw [hlen] at hback
    exact hback.symm

/-- A number, as `f` makes it a value. -/
theorem drop_eq_number {f : Nat → α} {g : α → Nat} {x : α} (hfg : ∀ a, f (g a) = a)
    (hgf : ∀ m < 256 ^ k, g (f m) = m) (hg : g x < 256 ^ k) (h : lo + k ≤ b.length) :
    b.drop lo = leBytes k (g x) ++ r ↔ f (leAt k lo b) = x ∧ b.drop (lo + k) = r := by
  rw [drop_eq_leBytes h hg]
  refine and_congr_left fun _ ↦ ?_
  constructor
  · intro hx
    rw [hx, hfg]
  · rintro rfl
    refine (hgf _ ((ofLe_lt _).trans_le ?_)).symm
    exact Nat.pow_le_pow_right (by decide) (List.length_take_le k _)

theorem drop_eq_u32 {x : UInt32} (h : lo + 4 ≤ b.length) :
    b.drop lo = leBytes 4 x.toNat ++ r ↔ UInt32.ofNat (leAt 4 lo b) = x ∧ b.drop (lo + 4) = r :=
  drop_eq_number (fun _ ↦ UInt32.ofNat_toNat) (fun _ hm ↦ UInt32.toNat_ofNat_of_lt' hm) x.toNat_lt h

theorem drop_eq_u64 {x : UInt64} (h : lo + 8 ≤ b.length) :
    b.drop lo = leBytes 8 x.toNat ++ r ↔ UInt64.ofNat (leAt 8 lo b) = x ∧ b.drop (lo + 8) = r :=
  drop_eq_number (fun _ ↦ UInt64.ofNat_toNat) (fun _ hm ↦ UInt64.toNat_ofNat_of_lt' hm) x.toNat_lt h

theorem drop_eq_u128 {x : BitVec 128} (h : lo + 16 ≤ b.length) :
    b.drop lo = leBytes 16 x.toNat ++ r ↔
      BitVec.ofNat 128 (leAt 16 lo b) = x ∧ b.drop (lo + 16) = r :=
  drop_eq_number (fun a ↦ by rw [BitVec.ofNat_toNat, BitVec.setWidth_eq])
    (fun _ hm ↦ Nat.mod_eq_of_lt hm) x.isLt h

/-- Items of one size. -/
theorem drop_eq_flatMap {enc : α → Bytes} {read : Nat → α} {size : Nat}
    (hread : ∀ lo x r, lo + size ≤ b.length →
      (b.drop lo = enc x ++ r ↔ read lo = x ∧ b.drop (lo + size) = r)) {l : List α}
    (h : lo + l.length * size ≤ b.length) :
    b.drop lo = l.flatMap enc ++ r ↔ (List.range l.length).map (fun i ↦ read (lo + i * size)) = l ∧
      b.drop (lo + l.length * size) = r := by
  induction l generalizing lo with
  | nil => simp
  | cons x l ih =>
    rw [List.length_cons, Nat.succ_mul] at h
    have hnext : (List.range l.length).map (fun i ↦ read (lo + (i + 1) * size)) =
        (List.range l.length).map fun i ↦ read (lo + size + i * size) :=
      List.map_congr_left fun i _ ↦ by rw [Nat.succ_mul, Nat.add_assoc, Nat.add_comm size]
    have hend : lo + (l.length + 1) * size = lo + size + l.length * size := by
      rw [Nat.succ_mul]
      omega
    rw [List.flatMap_cons, List.append_assoc, hread lo x _ (by omega), ih (by omega),
      List.length_cons, List.range_succ_eq_map, List.map_cons, List.map_map, List.cons.injEq,
      Nat.zero_mul, Nat.add_zero, hend, and_assoc, ← hnext]
    rfl

/-- Nothing is left at the end. -/
theorem drop_eq_nil (h : b.length = lo) : b.drop lo = [] ↔ True :=
  iff_true_intro (List.drop_eq_nil_of_le h.le)

end Plaine.Lib.Slices

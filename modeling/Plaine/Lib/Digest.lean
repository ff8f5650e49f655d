import Plaine.Lib.Bytes
import Mathlib.Data.List.AList

/-!
# Digests of tables

The digest of a table folds the digests of its rows with a commutative and associative
operation, so that it depends on what the table holds and not on how the table came about.
Where a row digest cancels itself, as under exclusive or, a digest can be kept in step with a
table that changes one row at a time.
-/

namespace AList

variable {κ υ γ : Type} [DecidableEq κ] (op : γ → γ → γ) (e : γ) (f : κ → υ → γ)

/-- The digest of a table. -/
def digest (m : AList fun _ : κ ↦ υ) : γ := (m.entries.map fun r ↦ f r.1 r.2).foldr op e

variable {op e f} {m m' : AList fun _ : κ ↦ υ} {k : κ} {v : υ}

/-- An inserted row is digested on top of the rest. -/
theorem digest_insert :
    (m.insert k v).digest op e f = op (f k v) ((m.erase k).digest op e f) := rfl

variable [hc : Std.Commutative op] [ha : Std.Associative op]

include hc ha

/-- Tables that hold the same have the same digest. -/
theorem digest_congr (h : ∀ k, m.lookup k = m'.lookup k) :
    m.digest op e f = m'.digest op e f := by
  have hperm : m.entries.Perm m'.entries := by
    refine List.lookup_ext m.nodupKeys m'.nodupKeys fun k v ↦ ?_
    change v ∈ m.lookup k ↔ v ∈ m'.lookup k
    rw [h]
  have : LeftCommutative op := ⟨fun a b c ↦ by
    rw [← ha.assoc, hc.comm a b, ha.assoc]⟩
  exact List.Perm.foldr_eq (f := op) (hperm.map fun r ↦ f r.1 r.2) e

/-- A row's digest splits off. -/
theorem digest_of_lookup (h : m.lookup k = some v) :
    m.digest op e f = op (f k v) ((m.erase k).digest op e f) := by
  have hinsert : op (f k v) ((m.erase k).digest op e f) = (m.insert k v).digest op e f :=
    digest_insert.symm
  rw [hinsert]
  refine digest_congr fun j ↦ ?_
  rcases eq_or_ne j k with rfl | hne
  · rw [h, lookup_insert]
  · rw [lookup_insert_ne hne]

/-- An absent row has nothing to split off. -/
theorem digest_of_lookup_none (h : m.lookup k = none) :
    (m.erase k).digest op e f = m.digest op e f := by
  refine digest_congr fun j ↦ ?_
  rcases eq_or_ne j k with rfl | hne
  · rw [h, lookup_erase]
  · rw [lookup_erase_ne hne]

/-- The digest without a row, where its own digest cancels. -/
theorem digest_erase (hself : ∀ a b, op a (op a b) = b) (h : m.lookup k = some v) :
    (m.erase k).digest op e f = op (f k v) (m.digest op e f) := by
  rw [digest_of_lookup h, hself]

/-! ## Sums -/

omit hc ha

/-- The sum of a table: the digest by addition. -/
def sum (m : AList fun _ : κ ↦ υ) (g : υ → Nat) : Nat := m.digest (· + ·) 0 fun _ ↦ g

variable {g g' : υ → Nat} {v' : υ}

/-- The sum when a row is replaced. -/
theorem sum_insert_of_lookup (h : m.lookup k = some v) (v' : υ) :
    (m.insert k v').sum g + g v = m.sum g + g v' := by
  unfold sum
  rw [digest_insert, digest_of_lookup h]
  omega

/-- The sum when one row is replaced and the others stay. -/
theorem sum_of_lookup (hk : m.lookup k = some v) (hk' : m'.lookup k = some v')
    (h : ∀ j, j ≠ k → m'.lookup j = m.lookup j) : m'.sum g + g v = m.sum g + g v' := by
  rw [← sum_insert_of_lookup hk v']
  congr 1
  refine digest_congr fun j ↦ ?_
  rcases eq_or_ne j k with rfl | hne
  · rw [hk', lookup_insert]
  · rw [h j hne, lookup_insert_ne hne]

/-- The sum when a row is added. -/
theorem sum_insert_of_none (h : m.lookup k = none) (v' : υ) :
    (m.insert k v').sum g = m.sum g + g v' := by
  unfold sum
  rw [digest_insert, digest_of_lookup_none h, Nat.add_comm]

/-- The sum when a row is taken out. -/
theorem sum_erase (h : m.lookup k = some v) : (m.erase k).sum g + g v = m.sum g := by
  unfold sum
  rw [digest_of_lookup h, Nat.add_comm]

omit [DecidableEq κ] in
/-- The sum of the same rows, each with more on top. -/
theorem sum_le_add {d : Nat} (h : ∀ v, g' v ≤ g v + d) :
    m.sum g' ≤ m.sum g + m.keys.length * d := by
  have hentries : ∀ l : List (Sigma fun _ : κ ↦ υ), (l.map fun r ↦ g' r.2).foldr (· + ·) 0 ≤
      (l.map fun r ↦ g r.2).foldr (· + ·) 0 + (l.map Sigma.fst).length * d := by
    intro l
    induction l with
    | nil => exact Nat.zero_le _
    | cons r l ih =>
      have hr := h r.2
      simp only [List.map_cons, List.foldr_cons, List.length_cons, Nat.add_mul]
      omega
  exact hentries m.entries

omit [DecidableEq κ] in
/-- A sum of rows that are bounded. -/
theorem sum_le {d : Nat} (h : ∀ v, g v ≤ d) : m.sum g ≤ m.keys.length * d := by
  have hzero : m.sum (fun _ ↦ 0) = 0 := by
    unfold sum digest
    induction m.entries with
    | nil => rfl
    | cons r l ih => rw [List.map_cons, List.foldr_cons, ih]
  have := m.sum_le_add (g := fun _ ↦ 0) fun v ↦ (Nat.zero_add d).symm ▸ h v
  omega

omit [DecidableEq κ] in
/-- The number of rows is a sum. -/
theorem length_keys : m.keys.length = m.sum fun _ ↦ 1 := by
  have hentries : ∀ l : List (Sigma fun _ : κ ↦ υ),
      (l.map Sigma.fst).length = (l.map fun _ ↦ 1).foldr (· + ·) 0 := by
    intro l
    induction l with
    | nil => rfl
    | cons r l ih =>
      simp only [List.map_cons, List.foldr_cons, List.length_cons, ih]
      omega
  exact hentries m.entries

end AList

namespace Plaine.Lib

variable {n : Nat}

/-- Exclusive or, byte by byte. -/
def Arr.xor (a b : Arr n) : Arr n :=
  ⟨List.zipWith (· ^^^ ·) a.bytes b.bytes, by simp [a.length_eq, b.length_eq]⟩

theorem Arr.xor_comm (a b : Arr n) : a.xor b = b.xor a := by
  ext1
  exact List.zipWith_comm_of_comm fun x y ↦ UInt8.xor_comm x y

instance : Std.Commutative (Arr.xor (n := n)) := ⟨Arr.xor_comm⟩

instance : Std.Associative (Arr.xor (n := n)) where
  assoc a b c := by
    ext1
    refine List.ext_getElem (by simp [Arr.xor, a.length_eq, b.length_eq, c.length_eq]) ?_
    intro i h₁ h₂
    simp [Arr.xor, UInt8.xor_assoc]

/-- Exclusive or cancels itself. -/
theorem Arr.xor_xor_self (a b : Arr n) : a.xor (a.xor b) = b := by
  ext1
  refine List.ext_getElem (by simp [Arr.xor, a.length_eq, b.length_eq]) ?_
  intro i h₁ h₂
  simp [Arr.xor, ← UInt8.xor_assoc]

/-- Zero changes nothing. -/
theorem Arr.xor_zero (a : Arr n) : a.xor (.zero n) = a := by
  ext1
  refine List.ext_getElem (by simp [Arr.xor, Arr.zero, a.length_eq]) ?_
  intro i h₁ h₂
  simp [Arr.xor, Arr.zero]

end Plaine.Lib

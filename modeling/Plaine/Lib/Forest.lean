import Mathlib.Data.Nat.Bits
import Mathlib.Data.Nat.Log
import Mathlib.Tactic.Ring

/-!
# Trees that grow leaf by leaf

A tree over a row of leaves is split where its left part is the largest power of two that is less than
the whole.  Grown leaf by leaf, only the roots of the perfect trees so far need to be kept, one for
each one bit of the number of leaves, the smallest on top: a new root is joined to the top one as long
as they are of one size, which the low bits of the count tell.

The values of a root and of an inner node may differ: `parent` makes an outcome of two values, and
`val` the value of an outcome that is not the last.
-/

namespace Plaine.Lib.Forest

variable {O H : Type*} (parent : H → H → O) (val : O → H) (leaf : Nat → O)

/-- The left part of `n` leaves. -/
def leftOf (n : Nat) : Nat := 2 ^ Nat.log2 (n - 1)

theorem leftOf_pos (n : Nat) : 0 < leftOf n := Nat.two_pow_pos _

theorem leftOf_lt {n : Nat} (h : ¬n ≤ 1) : leftOf n < n := by
  have hle : 2 ^ Nat.log2 (n - 1) ≤ n - 1 := Nat.log2_self_le (by omega)
  rw [leftOf]
  omega

/-- The tree over the `n` leaves from `start` on. -/
def tree (start n : Nat) : O :=
  if n ≤ 1 then leaf start
  else parent (val (tree start (leftOf n))) (val (tree (start + leftOf n) (n - leftOf n)))
termination_by n
decreasing_by
  · exact leftOf_lt ‹_›
  · have := leftOf_pos n
    have := leftOf_lt ‹_›
    omega

/-- A root more: it is joined to the top one while their count is even. -/
def add (cap : Nat) : List H → H → Nat → Option (List H)
  | [], x, total => if total % 2 = 0 then none else if 0 < cap then some [x] else none
  | left :: stack, x, total =>
    if total % 2 = 0 then add cap stack (val (parent left x)) (total / 2)
    else if stack.length + 1 < cap then some (x :: left :: stack) else none

/-- The whole tree, of the roots and what comes after them. -/
def close (stack : List H) (o : O) : O := stack.foldl (fun o left ↦ parent left (val o)) o

/-- The roots of the perfect trees over the first `n` leaves, each of at least `2 ^ e`. -/
inductive Peaks : Nat → Nat → List H → Prop
  | nil {e : Nat} : Peaks e 0 []
  | cons {e k n : Nat} {stack : List H} : e ≤ k → Peaks (k + 1) n stack →
      Peaks e (n + 2 ^ k) (val (tree parent val leaf n (2 ^ k)) :: stack)

variable {parent val leaf} {leaf' : Nat → O} {e d n m start : Nat} {stack : List H}

/-! ## Trees -/

theorem tree_of_le (h : n ≤ 1) : tree parent val leaf start n = leaf start := by
  rw [tree, if_pos h]

theorem tree_of_lt (h : ¬n ≤ 1) : tree parent val leaf start n =
    parent (val (tree parent val leaf start (leftOf n)))
      (val (tree parent val leaf (start + leftOf n) (n - leftOf n))) := by
  rw [tree, if_neg h]

/-- A perfect tree with no more than as many leaves to the right of it. -/
theorem tree_add (hpos : 0 < m) (hle : m ≤ 2 ^ e) : tree parent val leaf start (2 ^ e + m) =
    parent (val (tree parent val leaf start (2 ^ e)))
      (val (tree parent val leaf (start + 2 ^ e) m)) := by
  have hone : 0 < 2 ^ e := Nat.two_pow_pos e
  have hleft : leftOf (2 ^ e + m) = 2 ^ e := by
    have hlog : Nat.log2 (2 ^ e + m - 1) = e := by
      rw [Nat.log2_eq_iff (by omega), Nat.pow_succ]
      omega
    rw [leftOf, hlog]
  rw [tree_of_lt (by omega), hleft, Nat.add_sub_cancel_left]

/-- A tree is decided by its leaves. -/
theorem tree_congr (hpos : 0 < n) (h : ∀ i, start ≤ i → i < start + n → leaf i = leaf' i) :
    tree parent val leaf start n = tree parent val leaf' start n := by
  induction n using Nat.strong_induction_on generalizing start with
  | _ n ih =>
    by_cases hone : n ≤ 1
    · rw [tree_of_le hone, tree_of_le hone]
      exact h start le_rfl (by omega)
    · have hp := leftOf_pos n
      have hlt := leftOf_lt hone
      rw [tree_of_lt hone, tree_of_lt hone, ih _ hlt hp fun i hi hi' ↦ h i hi (by omega),
        ih (n - leftOf n) (by omega) (by omega) fun i hi hi' ↦ h i (by omega) (by omega)]

/-! ## One bits -/

/-- The number of one bits. -/
def ones (n : Nat) : Nat := n.bits.count true

theorem ones_two_mul (n : Nat) : ones (2 * n) = ones n := by
  rcases Nat.eq_zero_or_pos n with rfl | hpos
  · rfl
  · rw [ones, Nat.bit0_bits n hpos.ne', List.count_cons]
    rfl

theorem ones_two_mul_add_one (n : Nat) : ones (2 * n + 1) = ones n + 1 := by
  rw [ones, Nat.bit1_bits, List.count_cons]
  rfl

theorem ones_two_pow_mul (k n : Nat) : ones (2 ^ k * n) = ones n := by
  induction k with
  | zero => rw [Nat.pow_zero, Nat.one_mul]
  | succ k ih => rw [Nat.pow_succ, Nat.mul_comm _ 2, Nat.mul_assoc, ones_two_mul, ih]

/-! ## Peaks -/

namespace Peaks

theorem mono (h : Peaks parent val leaf e n stack) (hle : d ≤ e) : Peaks parent val leaf d n stack := by
  cases h with
  | nil => exact .nil
  | cons hk h => exact .cons (hle.trans hk) h

theorem dvd (h : Peaks parent val leaf e n stack) : 2 ^ e ∣ n := by
  induction h with
  | nil => exact Nat.dvd_zero _
  | @cons e k n stack hk _ ih =>
    have hpow : 2 ^ e ∣ 2 ^ (k + 1) := Nat.pow_dvd_pow 2 (hk.trans k.le_succ)
    exact Nat.dvd_add (hpow.trans ih) (Nat.pow_dvd_pow 2 hk)

theorem congr (h : Peaks parent val leaf e n stack) (heq : ∀ i < n, leaf i = leaf' i) :
    Peaks parent val leaf' e n stack := by
  induction h with
  | nil => exact .nil
  | @cons e k n stack hk _ ih =>
    rw [tree_congr (Nat.two_pow_pos k) fun i _ hi ↦ heq i hi]
    exact .cons hk (ih fun i hi ↦ heq i (hi.trans_le (Nat.le_add_right _ _)))

/-- The roots close to the whole tree. -/
theorem close_eq (h : Peaks parent val leaf e n stack) (hpos : 0 < m) (hle : m ≤ 2 ^ e) :
    close parent val stack (tree parent val leaf n m) = tree parent val leaf 0 (n + m) := by
  induction h generalizing m with
  | nil => rw [Nat.zero_add]; rfl
  | @cons e k n stack hk _ ih =>
    have hmk : m ≤ 2 ^ k := hle.trans (Nat.pow_le_pow_right (by decide) hk)
    have hjoin := ih (m := 2 ^ k + m) (by omega) (by rw [Nat.pow_succ]; omega)
    rw [tree_add hpos hmk] at hjoin
    rw [Nat.add_assoc, ← hjoin]
    rfl

/-- There is a root for every one bit. -/
theorem length_eq (h : Peaks parent val leaf e n stack) : stack.length = ones n := by
  induction h with
  | nil => rfl
  | @cons e k n stack hk hrest ih =>
    obtain ⟨q, rfl⟩ := hrest.dvd
    have hsum : 2 ^ (k + 1) * q + 2 ^ k = 2 ^ k * (2 * q + 1) := by ring
    rw [List.length_cons, ih, hsum, ones_two_pow_mul, ones_two_pow_mul, ones_two_mul_add_one]

/-- Below `2 ^ b` there are at most `b` of them. -/
theorem length_le {b : Nat} (h : Peaks parent val leaf e n stack) (hn : n < 2 ^ b) :
    stack.length ≤ b - e := by
  induction h with
  | nil => exact Nat.zero_le _
  | @cons e k n stack hk hrest ih =>
    have hkb : k < b := (Nat.pow_lt_pow_iff_right (by decide)).mp (by omega : 2 ^ k < 2 ^ b)
    have := ih ((Nat.le_add_right _ _).trans_lt hn)
    rw [List.length_cons]
    omega

/-- A perfect tree after the others: the count never pops an empty stack, and never fills it. -/
theorem exists_add {cap : Nat} (h : Peaks parent val leaf e n stack) (hcap : n + 2 ^ e < 2 ^ cap) :
    ∃ stack', add parent val cap stack (val (tree parent val leaf n (2 ^ e))) (n / 2 ^ e + 1) =
      some stack' ∧ Peaks parent val leaf e (n + 2 ^ e) stack' := by
  have hone (e : Nat) : 0 < 2 ^ e := Nat.two_pow_pos e
  induction h with
  | @nil e =>
    have hpos : 0 < cap := by
      by_contra hzero
      rw [Nat.le_zero.mp (Nat.not_lt.mp hzero), Nat.zero_add] at hcap
      exact absurd hcap (Nat.not_lt.mpr (hone e))
    refine ⟨_, ?_, .cons le_rfl .nil⟩
    rw [add, Nat.zero_div, if_neg (by decide), if_pos hpos]
  | @cons e k n stack hk hrest ih =>
    obtain ⟨q, hq⟩ := hrest.dvd
    rcases Nat.eq_or_lt_of_le hk with rfl | hlt
    · -- The top root is as large: the two are joined, and the count has one bit less.
      have hdiv : (n + 2 ^ e) / 2 ^ e + 1 = 2 * (q + 1) := by
        rw [Nat.add_div_right _ (hone e), hq, Nat.pow_succ, Nat.mul_assoc, Nat.mul_div_cancel_left _ (hone e)]
        rfl
      have hjoin : tree parent val leaf n (2 ^ e + 2 ^ e) = parent (val (tree parent val leaf n (2 ^ e)))
          (val (tree parent val leaf (n + 2 ^ e) (2 ^ e))) := tree_add (hone e) le_rfl
      have hdouble : 2 ^ e + 2 ^ e = 2 ^ (e + 1) := by rw [Nat.pow_succ, Nat.mul_two]
      have hcount : n / 2 ^ (e + 1) = q := by rw [hq, Nat.mul_div_cancel_left _ (hone _)]
      rw [Nat.add_assoc, hdouble] at hcap ⊢
      obtain ⟨stack', hadd, hpeaks⟩ := ih hcap
      refine ⟨stack', ?_, hpeaks.mono e.le_succ⟩
      rw [add, hdiv, Nat.mul_mod_right, if_pos rfl, ← hjoin, hdouble,
        Nat.mul_div_cancel_left _ Nat.two_pos, ← hcount]
      exact hadd
    · -- The top root is larger: the new one goes on top of it.
      have hpeaks : Peaks parent val leaf e (n + 2 ^ k + 2 ^ e)
          (val (tree parent val leaf (n + 2 ^ k) (2 ^ e)) ::
            val (tree parent val leaf n (2 ^ k)) :: stack) := .cons le_rfl (.cons hlt hrest)
      have hlen := hpeaks.length_le hcap
      have hdvd : 2 ^ (e + 1) ∣ n + 2 ^ k :=
        Nat.dvd_add ((Nat.pow_dvd_pow 2 (hlt.trans k.lt_succ_self)).trans (Dvd.intro q hq.symm))
          (Nat.pow_dvd_pow 2 hlt)
      obtain ⟨t, ht⟩ := hdvd
      have hdiv : (n + 2 ^ k) / 2 ^ e + 1 = 2 * t + 1 := by
        rw [ht, Nat.pow_succ, Nat.mul_assoc, Nat.mul_div_cancel_left _ (hone e)]
      rw [List.length_cons, List.length_cons] at hlen
      refine ⟨_, ?_, hpeaks⟩
      rw [add, hdiv, if_neg (by omega), if_pos (by omega)]

end Peaks

end Plaine.Lib.Forest

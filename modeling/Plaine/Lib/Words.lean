import Mathlib.Data.Nat.Digits.Lemmas
import Mathlib.Tactic.Ring

/-!
# Integers of many words

Unsigned integers as lists of 64-bit words, the least significant first, with the operations as
loops over the words: order, sum and difference with a carry, the product with a word.  Each has
its value.
-/

namespace Plaine.Lib

/-- An unsigned integer of `n` words. -/
@[ext]
structure Words (n : Nat) where
  limbs : List UInt64
  length_eq : limbs.length = n
deriving DecidableEq

namespace Words

/-! ## Values -/

/-- The number that words spell. -/
def valueOf (ws : List UInt64) : Nat := Nat.ofDigits (2 ^ 64) (ws.map UInt64.toNat)

variable {n : Nat} {ws vs : List UInt64} {w v : UInt64}

@[simp] theorem valueOf_nil : valueOf [] = 0 := rfl

@[simp] theorem valueOf_cons (w : UInt64) (ws : List UInt64) :
    valueOf (w :: ws) = w.toNat + 2 ^ 64 * valueOf ws := Nat.ofDigits_cons

theorem valueOf_lt (ws : List UInt64) : valueOf ws < 2 ^ (64 * ws.length) := by
  induction ws with
  | nil => exact Nat.one_pos
  | cons w ws ih =>
    rw [valueOf_cons, List.length_cons, Nat.mul_succ, Nat.add_comm (64 * ws.length), Nat.pow_add]
    have hw : w.toNat < 2 ^ 64 := w.toNat_lt
    calc w.toNat + 2 ^ 64 * valueOf ws < 2 ^ 64 + 2 ^ 64 * valueOf ws := by omega
      _ = 2 ^ 64 * (valueOf ws + 1) := by ring
      _ ≤ 2 ^ 64 * 2 ^ (64 * ws.length) := Nat.mul_le_mul_left _ ih

/-- A bit of the number is a bit of one word. -/
theorem testBit_valueOf (ws : List UInt64) (k : Nat) :
    (valueOf ws).testBit k = (ws.getD (k / 64) 0).toNat.testBit (k % 64) := by
  induction ws generalizing k with
  | nil =>
    rw [valueOf_nil, List.getD_nil, Nat.zero_testBit]
    exact (Nat.zero_testBit _).symm
  | cons w ws ih =>
    rw [valueOf_cons, Nat.add_comm, Nat.testBit_two_pow_mul_add _ w.toNat_lt]
    split
    case isTrue hk =>
      rw [Nat.div_eq_of_lt hk, Nat.mod_eq_of_lt hk, List.getD_cons_zero]
    case isFalse hk =>
      obtain ⟨j, rfl⟩ := Nat.exists_eq_add_of_le (Nat.le_of_not_lt hk)
      rw [Nat.add_sub_cancel_left, ih, Nat.add_comm 64 j, Nat.add_mod_right,
        Nat.add_div_right j (by decide), List.getD_cons_succ]

/-- Words are given by the number they spell. -/
theorem eq_of_valueOf_eq (hlength : ws.length = vs.length) (h : valueOf ws = valueOf vs) :
    ws = vs := by
  induction ws generalizing vs with
  | nil => exact (List.length_eq_zero_iff.mp hlength.symm).symm
  | cons w ws ih =>
    obtain _ | ⟨v, vs⟩ := vs
    · cases hlength
    · rw [valueOf_cons, valueOf_cons] at h
      have hw : w.toNat < 2 ^ 64 := w.toNat_lt
      have hv : v.toNat < 2 ^ 64 := v.toNat_lt
      have htail : valueOf ws = valueOf vs := by omega
      have hhead : w.toNat = v.toNat := by omega
      rw [UInt64.toNat_inj.mp hhead, ih (Nat.succ.inj hlength) htail]

/-- The value. -/
def value (a : Words n) : Nat := valueOf a.limbs

/-- The word at a place, `0` where there is none. -/
def get (a : Words n) (i : Nat) : UInt64 := a.limbs.getD i 0

/-- Words given one by one. -/
def ofFn (n : Nat) (f : Nat → UInt64) : Words n :=
  ⟨(List.range n).map f, by rw [List.length_map, List.length_range]⟩

theorem value_lt (a : Words n) : a.value < 2 ^ (64 * n) := by
  have h := valueOf_lt a.limbs
  rwa [a.length_eq] at h

theorem value_injective : Function.Injective (value : Words n → Nat) := fun a b h ↦
  Words.ext (eq_of_valueOf_eq (a.length_eq.trans b.length_eq.symm) h)

/-- Any number with room has its words. -/
theorem exists_value {m : Nat} (h : m < 2 ^ (64 * n)) : ∃ a : Words n, a.value = m := by
  induction n generalizing m with
  | zero => exact ⟨⟨[], rfl⟩, (Nat.lt_one_iff.mp h).symm⟩
  | succ n ih =>
    have hhigh : m / 2 ^ 64 < 2 ^ (64 * n) := by
      refine Nat.div_lt_of_lt_mul (h.trans_eq ?_)
      rw [Nat.mul_succ, Nat.add_comm, Nat.pow_add]
    obtain ⟨a, ha⟩ := ih hhigh
    refine ⟨⟨UInt64.ofNat m :: a.limbs, congrArg Nat.succ a.length_eq⟩, ?_⟩
    change valueOf (UInt64.ofNat m :: a.limbs) = m
    rw [valueOf_cons, UInt64.toNat_ofNat']
    exact (congrArg (m % 2 ^ 64 + 2 ^ 64 * ·) ha).trans (Nat.mod_add_div m (2 ^ 64))

theorem testBit_value (a : Words n) (k : Nat) :
    a.value.testBit k = (a.get (k / 64)).toNat.testBit (k % 64) := testBit_valueOf a.limbs k

theorem get_ofFn (f : Nat → UInt64) {i : Nat} (hi : i < n) : (ofFn n f).get i = f i := by
  unfold get ofFn
  dsimp only
  rw [List.getD_eq_getElem?_getD, List.getElem?_map, List.getElem?_range hi]
  rfl

theorem get_of_le (a : Words n) {i : Nat} (hi : n ≤ i) : a.get i = 0 :=
  List.getD_eq_getElem?_getD.trans (by rw [List.getElem?_eq_none (by rwa [a.length_eq])]; rfl)

/-- The number of words given one by one, by its bits. -/
theorem value_ofFn {f : Nat → UInt64} {m : Nat}
    (h : ∀ i < n, ∀ j < 64, (f i).toNat.testBit j = m.testBit (64 * i + j)) :
    (ofFn n f).value = m % 2 ^ (64 * n) := by
  refine Nat.eq_of_testBit_eq fun k ↦ ?_
  rw [testBit_value, Nat.testBit_mod_two_pow]
  have hmod : k % 64 < 64 := Nat.mod_lt k (by decide)
  by_cases hk : k < 64 * n
  · have hdiv : k / 64 < n := Nat.div_lt_of_lt_mul hk
    rw [get_ofFn f hdiv, h _ hdiv _ hmod, Nat.div_add_mod, decide_eq_true hk, Bool.true_and]
  · have hdiv : n ≤ k / 64 := (Nat.le_div_iff_mul_le (by decide)).mpr (by omega)
    rw [get_of_le _ hdiv, decide_eq_false hk, Bool.false_and]
    exact Nat.zero_testBit _

/-- No bit set. -/
def zero (n : Nat) : Words n := ⟨List.replicate n 0, List.length_replicate⟩

@[simp] theorem valueOf_replicate (n : Nat) : valueOf (List.replicate n 0) = 0 := by
  induction n with
  | zero => rfl
  | succ n ih => rw [List.replicate_succ, valueOf_cons, ih, UInt64.toNat_zero, Nat.mul_zero]

@[simp] theorem value_zero (n : Nat) : (zero n).value = 0 := valueOf_replicate n

theorem value_eq_zero {a : Words n} : a.value = 0 ↔ a = zero n := by
  constructor
  · exact fun h ↦ value_injective (h.trans (value_zero n).symm)
  · rintro rfl
    exact value_zero n

/-- A single word. -/
def ofWord (n : Nat) (w : UInt64) : Words (n + 1) :=
  ⟨w :: List.replicate n 0, congrArg Nat.succ List.length_replicate⟩

@[simp] theorem value_ofWord (n : Nat) (w : UInt64) : (ofWord n w).value = w.toNat := by
  unfold ofWord value
  dsimp only
  rw [valueOf_cons, valueOf_replicate, Nat.mul_zero, Nat.add_zero]

/-! ## Order -/

/-- The words are compared from the most significant one on. -/
def compareOf : List UInt64 → List UInt64 → Ordering
  | w :: ws, v :: vs => (compareOf ws vs).then (compare w.toNat v.toNat)
  | _, _ => .eq

/-- The order. -/
def cmp (a b : Words n) : Ordering := compareOf a.limbs b.limbs

instance : LT (Words n) := ⟨fun a b ↦ a.cmp b = .lt⟩

instance : LE (Words n) := ⟨fun a b ↦ a.cmp b ≠ .gt⟩

instance (a b : Words n) : Decidable (a < b) := inferInstanceAs (Decidable (a.cmp b = .lt))

instance (a b : Words n) : Decidable (a ≤ b) := inferInstanceAs (Decidable (a.cmp b ≠ .gt))

theorem compareOf_eq (hlength : ws.length = vs.length) :
    compareOf ws vs = compare (valueOf ws) (valueOf vs) := by
  induction ws generalizing vs with
  | nil =>
    obtain rfl := List.length_eq_zero_iff.mp hlength.symm
    rfl
  | cons w ws ih =>
    obtain _ | ⟨v, vs⟩ := vs
    · cases hlength
    · rw [compareOf, ih (Nat.succ.inj hlength), valueOf_cons, valueOf_cons]
      have hw : w.toNat < 2 ^ 64 := w.toNat_lt
      have hv : v.toNat < 2 ^ 64 := v.toNat_lt
      rcases Nat.lt_trichotomy (valueOf ws) (valueOf vs) with hlt | heq | hgt
      · have hsum : w.toNat + 2 ^ 64 * valueOf ws < v.toNat + 2 ^ 64 * valueOf vs := by omega
        rw [Nat.compare_eq_lt.mpr hlt, Nat.compare_eq_lt.mpr hsum]
        rfl
      · rw [heq, Nat.compare_eq_eq.mpr rfl]
        change compare w.toNat v.toNat = _
        rw [Nat.compare_eq_ite_lt, Nat.compare_eq_ite_lt]
        simp only [Nat.add_lt_add_iff_right]
      · have hsum : v.toNat + 2 ^ 64 * valueOf vs < w.toNat + 2 ^ 64 * valueOf ws := by omega
        rw [Nat.compare_eq_gt.mpr hgt, Nat.compare_eq_gt.mpr hsum]
        rfl

/-- The order is the order of the numbers. -/
theorem cmp_eq (a b : Words n) : a.cmp b = compare a.value b.value :=
  compareOf_eq (a.length_eq.trans b.length_eq.symm)

theorem lt_iff {a b : Words n} : a < b ↔ a.value < b.value := by
  change a.cmp b = .lt ↔ _
  rw [cmp_eq, Nat.compare_eq_lt]

theorem le_iff {a b : Words n} : a ≤ b ↔ a.value ≤ b.value := by
  change a.cmp b ≠ .gt ↔ _
  rw [cmp_eq, Ne, Nat.compare_eq_gt, not_lt]

/-! ## Sum and difference -/

/-- `overflowing_add`. -/
def overflowingAdd (w v : UInt64) : UInt64 × Bool := (w + v, decide (2 ^ 64 ≤ w.toNat + v.toNat))

/-- `overflowing_sub`. -/
def overflowingSub (w v : UInt64) : UInt64 × Bool := (w - v, decide (w.toNat < v.toNat))

/-- The loop of a sum, with the carry that goes out. -/
def addLoop : List UInt64 → List UInt64 → UInt64 → List UInt64 × UInt64
  | w :: ws, v :: vs, carry =>
    let (s₁, c₁) := overflowingAdd w v
    let (s₂, c₂) := overflowingAdd s₁ carry
    let (out, carry) := addLoop ws vs (c₁.toUInt64 + c₂.toUInt64)
    (s₂ :: out, carry)
  | _, _, carry => ([], carry)

/-- The loop of a difference, with the borrow that goes out. -/
def subLoop : List UInt64 → List UInt64 → UInt64 → List UInt64 × UInt64
  | w :: ws, v :: vs, borrow =>
    let (d₁, b₁) := overflowingSub w v
    let (d₂, b₂) := overflowingSub d₁ borrow
    let (out, borrow) := subLoop ws vs (b₁.toUInt64 + b₂.toUInt64)
    (d₂ :: out, borrow)
  | _, _, borrow => ([], borrow)

theorem length_addLoop (hlength : ws.length = vs.length) (carry : UInt64) :
    (addLoop ws vs carry).1.length = ws.length := by
  induction ws generalizing vs carry with
  | nil => rfl
  | cons w ws ih =>
    obtain _ | ⟨v, vs⟩ := vs
    · cases hlength
    · exact congrArg Nat.succ (ih (Nat.succ.inj hlength) _)

theorem length_subLoop (hlength : ws.length = vs.length) (borrow : UInt64) :
    (subLoop ws vs borrow).1.length = ws.length := by
  induction ws generalizing vs borrow with
  | nil => rfl
  | cons w ws ih =>
    obtain _ | ⟨v, vs⟩ := vs
    · cases hlength
    · exact congrArg Nat.succ (ih (Nat.succ.inj hlength) _)

/-- The carry of one word, from the one that came in. -/
theorem addWord_spec (w v carry : UInt64) (hcarry : carry.toNat ≤ 1) :
    let s := overflowingAdd w v
    let t := overflowingAdd s.1 carry
    let out := s.2.toUInt64 + t.2.toUInt64
    t.1.toNat + 2 ^ 64 * out.toNat = w.toNat + v.toNat + carry.toNat ∧ out.toNat ≤ 1 := by
  have hw : w.toNat < 2 ^ 64 := w.toNat_lt
  have hv : v.toNat < 2 ^ 64 := v.toNat_lt
  dsimp only [overflowingAdd]
  rw [UInt64.toNat_add, UInt64.toNat_add]
  by_cases h₁ : 2 ^ 64 ≤ w.toNat + v.toNat
  · have hsum : (w.toNat + v.toNat) % 2 ^ 64 = w.toNat + v.toNat - 2 ^ 64 := by omega
    have h₂ : ¬2 ^ 64 ≤ w.toNat + v.toNat - 2 ^ 64 + carry.toNat := by omega
    rw [hsum, decide_eq_true h₁, decide_eq_false h₂]
    change _ % _ + 2 ^ 64 * 1 = _ ∧ 1 ≤ 1
    omega
  · have hsum : (w.toNat + v.toNat) % 2 ^ 64 = w.toNat + v.toNat := by omega
    rw [hsum, decide_eq_false h₁]
    by_cases h₂ : 2 ^ 64 ≤ w.toNat + v.toNat + carry.toNat
    · rw [decide_eq_true h₂]
      change _ % _ + 2 ^ 64 * 1 = _ ∧ 1 ≤ 1
      omega
    · rw [decide_eq_false h₂]
      change _ % _ + 2 ^ 64 * 0 = _ ∧ 0 ≤ 1
      omega

theorem valueOf_addLoop (hlength : ws.length = vs.length) {carry : UInt64}
    (hcarry : carry.toNat ≤ 1) :
    valueOf (addLoop ws vs carry).1 + 2 ^ (64 * ws.length) * (addLoop ws vs carry).2.toNat =
      valueOf ws + valueOf vs + carry.toNat := by
  induction ws generalizing vs carry with
  | nil =>
    obtain rfl := List.length_eq_zero_iff.mp hlength.symm
    simp [addLoop]
  | cons w ws ih =>
    obtain _ | ⟨v, vs⟩ := vs
    · cases hlength
    · obtain ⟨hword, hout⟩ := addWord_spec w v carry hcarry
      have hrest := ih (Nat.succ.inj hlength) hout
      unfold addLoop
      dsimp only
      rw [valueOf_cons, valueOf_cons, valueOf_cons, List.length_cons, Nat.mul_succ,
        Nat.add_comm (64 * ws.length), Nat.pow_add, Nat.mul_assoc]
      generalize addLoop ws vs _ = rest at hrest ⊢
      omega

/-- The borrow of one word, from the one that came in. -/
theorem subWord_spec (w v borrow : UInt64) (hborrow : borrow.toNat ≤ 1) :
    let d := overflowingSub w v
    let t := overflowingSub d.1 borrow
    let out := d.2.toUInt64 + t.2.toUInt64
    t.1.toNat + v.toNat + borrow.toNat = w.toNat + 2 ^ 64 * out.toNat ∧ out.toNat ≤ 1 := by
  have hw : w.toNat < 2 ^ 64 := w.toNat_lt
  have hv : v.toNat < 2 ^ 64 := v.toNat_lt
  dsimp only [overflowingSub]
  rw [UInt64.toNat_sub, UInt64.toNat_sub]
  by_cases h₁ : w.toNat < v.toNat
  · have hdiff : (2 ^ 64 - v.toNat + w.toNat) % 2 ^ 64 = 2 ^ 64 - v.toNat + w.toNat := by omega
    rw [hdiff, decide_eq_true h₁]
    have h₂ : ¬2 ^ 64 - v.toNat + w.toNat < borrow.toNat := by omega
    rw [decide_eq_false h₂]
    change _ % _ + _ + _ = _ + 2 ^ 64 * 1 ∧ 1 ≤ 1
    omega
  · have hdiff : (2 ^ 64 - v.toNat + w.toNat) % 2 ^ 64 = w.toNat - v.toNat := by omega
    rw [hdiff, decide_eq_false h₁]
    by_cases h₂ : w.toNat - v.toNat < borrow.toNat
    · rw [decide_eq_true h₂]
      change _ % _ + _ + _ = _ + 2 ^ 64 * 1 ∧ 1 ≤ 1
      omega
    · rw [decide_eq_false h₂]
      change _ % _ + _ + _ = _ + 2 ^ 64 * 0 ∧ 0 ≤ 1
      omega

theorem valueOf_subLoop (hlength : ws.length = vs.length) {borrow : UInt64}
    (hborrow : borrow.toNat ≤ 1) :
    valueOf (subLoop ws vs borrow).1 + valueOf vs + borrow.toNat =
      valueOf ws + 2 ^ (64 * ws.length) * (subLoop ws vs borrow).2.toNat := by
  induction ws generalizing vs borrow with
  | nil =>
    obtain rfl := List.length_eq_zero_iff.mp hlength.symm
    simp [subLoop]
  | cons w ws ih =>
    obtain _ | ⟨v, vs⟩ := vs
    · cases hlength
    · obtain ⟨hword, hout⟩ := subWord_spec w v borrow hborrow
      have hrest := ih (Nat.succ.inj hlength) hout
      unfold subLoop
      dsimp only
      rw [valueOf_cons, valueOf_cons, valueOf_cons, List.length_cons, Nat.mul_succ,
        Nat.add_comm (64 * ws.length), Nat.pow_add, Nat.mul_assoc]
      generalize subLoop ws vs _ = rest at hrest ⊢
      omega

/-- The sum, if no carry goes out. -/
def checkedAdd (a b : Words n) : Option (Words n) :=
  let t := addLoop a.limbs b.limbs 0
  if t.2 ≠ 0 then none
  else some ⟨t.1, (length_addLoop (a.length_eq.trans b.length_eq.symm) 0).trans a.length_eq⟩

/-- The difference, if no borrow goes out. -/
def checkedSub (a b : Words n) : Option (Words n) :=
  let t := subLoop a.limbs b.limbs 0
  if t.2 ≠ 0 then none
  else some ⟨t.1, (length_subLoop (a.length_eq.trans b.length_eq.symm) 0).trans a.length_eq⟩

theorem checkedAdd_eq_some {a b c : Words n} :
    a.checkedAdd b = some c ↔ c.value = a.value + b.value := by
  have hlength := a.length_eq.trans b.length_eq.symm
  have hvalue := valueOf_addLoop hlength (show (0 : UInt64).toNat ≤ 1 from Nat.zero_le 1)
  rw [a.length_eq, UInt64.toNat_zero, Nat.add_zero] at hvalue
  have hlt := c.value_lt
  unfold checkedAdd
  dsimp only
  split
  case isTrue hne =>
    have hpos : 0 < (addLoop a.limbs b.limbs 0).2.toNat := by
      rw [Nat.pos_iff_ne_zero]
      exact fun h ↦ hne (UInt64.toNat_inj.mp h)
    constructor
    · intro h
      cases h
    · intro h
      have hle := Nat.le_mul_of_pos_right (2 ^ (64 * n)) hpos
      unfold value at h hlt
      omega
  case isFalse heq =>
    rw [not_not.mp heq, UInt64.toNat_zero, Nat.mul_zero, Nat.add_zero] at hvalue
    rw [Option.some_inj]
    constructor
    · rintro rfl
      exact hvalue
    · intro h
      exact value_injective (hvalue.trans h.symm)

theorem checkedSub_eq_some {a b c : Words n} :
    a.checkedSub b = some c ↔ c.value + b.value = a.value := by
  have hlength := a.length_eq.trans b.length_eq.symm
  have hvalue := valueOf_subLoop hlength (show (0 : UInt64).toNat ≤ 1 from Nat.zero_le 1)
  rw [a.length_eq, UInt64.toNat_zero, Nat.add_zero] at hvalue
  unfold checkedSub
  dsimp only
  split
  case isTrue hne =>
    have hpos : 0 < (subLoop a.limbs b.limbs 0).2.toNat := by
      rw [Nat.pos_iff_ne_zero]
      exact fun h ↦ hne (UInt64.toNat_inj.mp h)
    have hlt := valueOf_lt (subLoop a.limbs b.limbs 0).1
    rw [length_subLoop hlength, a.length_eq] at hlt
    constructor
    · intro h
      cases h
    · intro h
      have hle := Nat.le_mul_of_pos_right (2 ^ (64 * n)) hpos
      unfold value at h
      omega
  case isFalse heq =>
    rw [not_not.mp heq, UInt64.toNat_zero, Nat.mul_zero, Nat.add_zero] at hvalue
    rw [Option.some_inj]
    constructor
    · rintro rfl
      exact hvalue
    · intro h
      have hsame : valueOf (subLoop a.limbs b.limbs 0).1 = c.value := by
        unfold value at h ⊢
        omega
      exact value_injective hsame

/-! ## Product with a word -/

/-- The loop of a product with a word, with the word that goes out.  The product of two words with
the carry is two words wide. -/
def mulLoop : List UInt64 → UInt64 → Nat → List UInt64 × Nat
  | [], _, carry => ([], carry)
  | w :: ws, b, carry =>
    let p := (w.toNat * b.toNat + carry) % 2 ^ 128
    let (out, last) := mulLoop ws b (p / 2 ^ 64)
    (UInt64.ofNat p :: out, last)

theorem length_mulLoop (ws : List UInt64) (b : UInt64) (carry : Nat) :
    (mulLoop ws b carry).1.length = ws.length := by
  induction ws generalizing carry with
  | nil => rfl
  | cons w ws ih => exact congrArg Nat.succ (ih _)

/-- The product with a word, one word longer. -/
def mulWord (a : Words n) (b : UInt64) : Words (n + 1) :=
  let t := mulLoop a.limbs b 0
  ⟨t.1 ++ [UInt64.ofNat t.2], by
    rw [List.length_append, length_mulLoop, a.length_eq, List.length_singleton]⟩

/-- No product with a carry is beyond two words. -/
theorem mulWord_lt (w b : UInt64) {carry : Nat} (hcarry : carry < 2 ^ 64) :
    w.toNat * b.toNat + carry < 2 ^ 128 := by
  have hw : w.toNat ≤ 2 ^ 64 - 1 := Nat.le_sub_one_of_lt w.toNat_lt
  have hb : b.toNat ≤ 2 ^ 64 - 1 := Nat.le_sub_one_of_lt b.toNat_lt
  have hprod := Nat.mul_le_mul hw hb
  omega

theorem valueOf_mulLoop (ws : List UInt64) (b : UInt64) {carry : Nat} (hcarry : carry < 2 ^ 64) :
    valueOf (mulLoop ws b carry).1 + 2 ^ (64 * ws.length) * (mulLoop ws b carry).2 =
      valueOf ws * b.toNat + carry ∧ (mulLoop ws b carry).2 < 2 ^ 64 := by
  induction ws generalizing carry with
  | nil => simpa [mulLoop] using hcarry
  | cons w ws ih =>
    have hfit := mulWord_lt w b hcarry
    have hcarry' : (w.toNat * b.toNat + carry) / 2 ^ 64 < 2 ^ 64 := Nat.div_lt_of_lt_mul hfit
    obtain ⟨hrest, hlast⟩ := ih hcarry'
    unfold mulLoop
    dsimp only
    rw [Nat.mod_eq_of_lt hfit]
    refine ⟨?_, hlast⟩
    rw [valueOf_cons, valueOf_cons, List.length_cons, Nat.mul_succ,
      Nat.add_comm (64 * ws.length), Nat.pow_add, Nat.mul_assoc, UInt64.toNat_ofNat', Nat.add_mul,
      Nat.mul_assoc]
    generalize mulLoop ws b _ = rest at hrest ⊢
    have hsplit := Nat.mod_add_div (w.toNat * b.toNat + carry) (2 ^ 64)
    omega

theorem valueOf_append (ws vs : List UInt64) :
    valueOf (ws ++ vs) = valueOf ws + 2 ^ (64 * ws.length) * valueOf vs := by
  induction ws with
  | nil => simp
  | cons w ws ih =>
    rw [List.cons_append, valueOf_cons, valueOf_cons, ih, List.length_cons, Nat.mul_succ,
      Nat.add_comm (64 * ws.length), Nat.pow_add, Nat.mul_assoc]
    omega

theorem value_mulWord (a : Words n) (b : UInt64) :
    (a.mulWord b).value = a.value * b.toNat := by
  obtain ⟨hvalue, hlast⟩ := valueOf_mulLoop a.limbs b (show 0 < 2 ^ 64 by decide)
  unfold mulWord value
  dsimp only
  rw [valueOf_append, length_mulLoop, valueOf_cons, valueOf_nil, Nat.mul_zero, Nat.add_zero,
    UInt64.toNat_ofNat_of_lt' hlast]
  exact hvalue

end Words

end Plaine.Lib

import Mathlib.Algebra.Order.Group.Nat
import Mathlib.Data.List.Induction

/-!
# Edit distance

The least number of edits that make one list of another, where an edit inserts an element, deletes
one, replaces one or swaps two neighbours, and no element is edited twice.  An alignment is a choice
of such edits; the distance of two lists is computed from those of their beginnings.
-/

namespace Plaine.Lib.EditDistance

variable {α : Type} {a b l l' : List α} {x y : α} {i j n : Nat}

/-- An alignment of two lists and the number of its edits, from the front to the back. -/
inductive Aligns : List α → List α → Nat → Prop
  | nil : Aligns [] [] 0
  | keep {l l' : List α} {n : Nat} (x : α) : Aligns l l' n → Aligns (l ++ [x]) (l' ++ [x]) n
  | replace {l l' : List α} {n : Nat} (x y : α) : Aligns l l' n →
      Aligns (l ++ [x]) (l' ++ [y]) (n + 1)
  | delete {l l' : List α} {n : Nat} (x : α) : Aligns l l' n → Aligns (l ++ [x]) l' (n + 1)
  | insert {l l' : List α} {n : Nat} (y : α) : Aligns l l' n → Aligns l (l' ++ [y]) (n + 1)
  | swap {l l' : List α} {n : Nat} (x y : α) : Aligns l l' n →
      Aligns (l ++ [x, y]) (l' ++ [y, x]) (n + 1)

theorem Aligns.deleteAll (l : List α) : Aligns l [] l.length := by
  induction l using List.reverseRecOn with
  | nil => exact .nil
  | append_singleton l x ih =>
    rw [List.length_append]
    exact .delete x ih

theorem Aligns.insertAll (l : List α) : Aligns [] l l.length := by
  induction l using List.reverseRecOn with
  | nil => exact .nil
  | append_singleton l x ih =>
    rw [List.length_append]
    exact .insert x ih

variable [DecidableEq α]

/-- The last two of `i + 1` elements are the last two of `j + 1`, the other way round. -/
def Crossed (a b : List α) (i j : Nat) : Prop :=
  0 < i ∧ 0 < j ∧ a[i]? = b[j - 1]? ∧ a[i - 1]? = b[j]?

instance (a b : List α) (i j : Nat) : Decidable (Crossed a b i j) :=
  inferInstanceAs (Decidable (_ ∧ _ ∧ _ ∧ _))

/-- The distance of the first `i` elements of a list from the first `j` of another. -/
def distance (a b : List α) : Nat → Nat → Nat
  | 0, j => j
  | i + 1, 0 => i + 1
  | i + 1, j + 1 =>
    let best := min (min (distance a b i (j + 1) + 1) (distance a b (i + 1) j + 1))
      (distance a b i j + if a[i]? = b[j]? then 0 else 1)
    if Crossed a b i j then min best (distance a b (i - 1) (j - 1) + 1) else best

@[simp] theorem distance_zero_left : distance a b 0 j = j := by rw [distance]

@[simp] theorem distance_zero_right : distance a b i 0 = i := by cases i <;> rw [distance]

omit [DecidableEq α] in
theorem take_succ (h : i < a.length) : a.take (i + 1) = a.take i ++ [a[i]] :=
  List.take_succ_eq_append_getElem h

/-- The least of the choices for the last elements. -/
theorem distance_succ (i j : Nat) : distance a b (i + 1) (j + 1) =
    let best := min (min (distance a b i (j + 1) + 1) (distance a b (i + 1) j + 1))
      (distance a b i j + if a[i]? = b[j]? then 0 else 1)
    if Crossed a b i j then min best (distance a b (i - 1) (j - 1) + 1) else best := by
  rw [distance]

/-- The distance is the number of edits of an alignment. -/
theorem aligns_distance (hi : i ≤ a.length) (hj : j ≤ b.length) :
    Aligns (a.take i) (b.take j) (distance a b i j) := by
  induction hn : i + j using Nat.strongRecOn generalizing i j with
  | _ n ih =>
    subst hn
    cases i with
    | zero =>
      have h := Aligns.insertAll (b.take j)
      rw [List.length_take, Nat.min_eq_left hj] at h
      rwa [distance_zero_left, List.take_zero]
    | succ i =>
      cases j with
      | zero =>
        have h := Aligns.deleteAll (a.take (i + 1))
        rw [List.length_take, Nat.min_eq_left hi] at h
        rwa [distance_zero_right, List.take_zero]
      | succ j =>
        have hdelete := Aligns.delete a[i] (ih (i + (j + 1)) (by omega) (by omega) hj rfl)
        have hinsert := Aligns.insert b[j] (ih (i + 1 + j) (by omega) hi (by omega) rfl)
        have hlast : Aligns (a.take (i + 1)) (b.take (j + 1))
            (distance a b i j + if a[i]? = b[j]? then 0 else 1) := by
          have hbefore := ih (i + j) (by omega) (by omega : i ≤ a.length) (by omega : j ≤ b.length) rfl
          rw [take_succ hi, take_succ hj]
          split
          case isTrue heq =>
            rw [List.getElem?_eq_getElem hi, List.getElem?_eq_getElem hj, Option.some_inj] at heq
            rw [heq]
            exact .keep _ hbefore
          case isFalse => exact .replace _ _ hbefore
        rw [← take_succ hi] at hdelete
        rw [← take_succ hj] at hinsert
        have hbest {m k : Nat} (hm : Aligns (a.take (i + 1)) (b.take (j + 1)) m)
            (hk : Aligns (a.take (i + 1)) (b.take (j + 1)) k) :
            Aligns (a.take (i + 1)) (b.take (j + 1)) (min m k) := by
          rcases min_choice m k with h | h
          · rwa [h]
          · rwa [h]
        rw [distance_succ]
        dsimp only
        split
        case isFalse => exact hbest (hbest hdelete hinsert) hlast
        case isTrue hcross =>
          refine hbest (hbest (hbest hdelete hinsert) hlast) ?_
          obtain ⟨hi₀, hj₀, hfirst, hsecond⟩ := hcross
          cases i with
          | zero => exact absurd hi₀ (Nat.lt_irrefl 0)
          | succ i =>
            cases j with
            | zero => exact absurd hj₀ (Nat.lt_irrefl 0)
            | succ j =>
              have hbefore := ih (i + j) (by omega) (by omega : i ≤ a.length)
                (by omega : j ≤ b.length) rfl
              rw [List.getElem?_eq_getElem hi, Nat.add_sub_cancel,
                List.getElem?_eq_getElem (by omega), Option.some_inj] at hfirst
              rw [Nat.add_sub_cancel, List.getElem?_eq_getElem (by omega),
                List.getElem?_eq_getElem hj, Option.some_inj] at hsecond
              rw [take_succ hi, take_succ (by omega), take_succ hj, take_succ (by omega : j < b.length),
                List.append_assoc, List.append_assoc, hfirst, hsecond]
              exact .swap _ _ hbefore

omit [DecidableEq α] in
/-- A list with a last element is a beginning only with that element. -/
theorem take_eq_concat (hi : i ≤ a.length) (h : l ++ [x] = a.take i) :
    ∃ k, i = k + 1 ∧ l = a.take k ∧ a[k]? = some x := by
  cases i with
  | zero => exact absurd h (List.append_ne_nil_of_right_ne_nil _ (List.cons_ne_nil _ _))
  | succ k =>
    rw [take_succ hi] at h
    obtain ⟨rfl, hx⟩ := List.append_inj' h rfl
    refine ⟨k, rfl, rfl, ?_⟩
    rw [List.getElem?_eq_getElem hi, List.singleton_inj.mp hx]

theorem distance_succ_le (i j : Nat) :
    distance a b (i + 1) (j + 1) ≤ distance a b i (j + 1) + 1 ∧
      distance a b (i + 1) (j + 1) ≤ distance a b (i + 1) j + 1 ∧
      distance a b (i + 1) (j + 1) ≤ distance a b i j + (if a[i]? = b[j]? then 0 else 1) ∧
      (Crossed a b i j → distance a b (i + 1) (j + 1) ≤ distance a b (i - 1) (j - 1) + 1) := by
  rw [distance_succ]
  dsimp only
  split
  case isTrue hcross =>
    refine ⟨?_, ?_, ?_, fun _ ↦ ?_⟩
    all_goals omega
  case isFalse hcross =>
    refine ⟨?_, ?_, ?_, fun h ↦ absurd h hcross⟩
    all_goals omega

/-- No alignment has fewer edits. -/
theorem distance_le (h : Aligns l l' n) (hi : i ≤ a.length) (hj : j ≤ b.length)
    (hl : l = a.take i) (hl' : l' = b.take j) : distance a b i j ≤ n := by
  induction h generalizing i j with
  | nil =>
    have hi₀ : i = 0 := by
      have hlen := congrArg List.length hl
      rw [List.length_take, Nat.min_eq_left hi] at hlen
      exact hlen.symm
    have hj₀ : j = 0 := by
      have hlen := congrArg List.length hl'
      rw [List.length_take, Nat.min_eq_left hj] at hlen
      exact hlen.symm
    rw [hi₀, distance_zero_left, hj₀]
  | keep x _ ih =>
    obtain ⟨i, rfl, rfl, hx⟩ := take_eq_concat hi hl
    obtain ⟨j, rfl, rfl, hx'⟩ := take_eq_concat hj hl'
    have hle := (distance_succ_le (a := a) (b := b) i j).2.2.1
    rw [if_pos (hx.trans hx'.symm)] at hle
    exact hle.trans (ih (by omega) (by omega) rfl rfl)
  | replace x y _ ih =>
    obtain ⟨i, rfl, rfl, -⟩ := take_eq_concat hi hl
    obtain ⟨j, rfl, rfl, -⟩ := take_eq_concat hj hl'
    have hle := (distance_succ_le (a := a) (b := b) i j).2.2.1
    have hn := ih (by omega : i ≤ a.length) (by omega : j ≤ b.length) rfl rfl
    split at hle <;> omega
  | delete x _ ih =>
    obtain ⟨i, rfl, rfl, -⟩ := take_eq_concat hi hl
    have hn := ih (by omega : i ≤ a.length) hj rfl hl'
    cases j with
    | zero =>
      rw [distance_zero_right] at hn ⊢
      omega
    | succ j =>
      have hle := (distance_succ_le (a := a) (b := b) i j).1
      omega
  | insert y _ ih =>
    obtain ⟨j, rfl, rfl, -⟩ := take_eq_concat hj hl'
    have hn := ih hi (by omega : j ≤ b.length) hl rfl
    cases i with
    | zero =>
      rw [distance_zero_left] at hn ⊢
      omega
    | succ i =>
      have hle := (distance_succ_le (a := a) (b := b) i j).2.1
      omega
  | swap x y _ ih =>
    rw [List.append_cons] at hl hl'
    obtain ⟨i, rfl, hl, hy⟩ := take_eq_concat hi hl
    obtain ⟨i, rfl, rfl, hx⟩ := take_eq_concat (by omega) hl
    obtain ⟨j, rfl, hl', hx'⟩ := take_eq_concat hj hl'
    obtain ⟨j, rfl, rfl, hy'⟩ := take_eq_concat (by omega) hl'
    have hcross : Crossed a b (i + 1) (j + 1) :=
      ⟨Nat.succ_pos i, Nat.succ_pos j, hy.trans hy'.symm, hx.trans hx'.symm⟩
    have hle := (distance_succ_le (a := a) (b := b) (i + 1) (j + 1)).2.2.2 hcross
    exact hle.trans (Nat.succ_le_succ (ih (by omega) (by omega) rfl rfl))

end Plaine.Lib.EditDistance

import Mathlib.Algebra.Order.Ring.Nat

/-!
# The best of a list

A fold that starts from its first candidate and goes over to a later one that may be picked and ranks
strictly higher.  The first candidate is never asked whether it may be picked.
-/

namespace Plaine.Lib

variable {α : Type} {rank : α → Nat} {may : α → Prop} [DecidablePred may] {b c x : α} {l : List α}

/-- Go over to a candidate. -/
def pick (rank : α → Nat) (may : α → Prop) [DecidablePred may] (b x : α) : α :=
  if may x ∧ rank b < rank x then x else b

/-- The first candidate stays, or gives way to one that ranks higher than it and no lower than any
other that may be picked. -/
theorem foldl_pick (b : α) (l : List α) :
    (l.foldl (pick rank may) b = b ∨
      l.foldl (pick rank may) b ∈ l ∧ may (l.foldl (pick rank may) b) ∧
        rank b < rank (l.foldl (pick rank may) b)) ∧
      ∀ x ∈ l, may x → rank x ≤ rank (l.foldl (pick rank may) b) := by
  induction l generalizing b with
  | nil => exact ⟨.inl rfl, fun x hx ↦ absurd hx List.not_mem_nil⟩
  | cons y l ih =>
    rw [List.foldl_cons]
    obtain ⟨hfrom, hbest⟩ := ih (pick rank may b y)
    generalize hc : l.foldl (pick rank may) (pick rank may b y) = c at hfrom hbest ⊢
    by_cases hy : may y ∧ rank b < rank y
    · rw [pick, if_pos hy] at hfrom
      have hyc : rank y ≤ rank c := by
        rcases hfrom with rfl | ⟨-, -, hlt⟩
        · exact le_rfl
        · exact hlt.le
      constructor
      · rcases hfrom with rfl | ⟨hmem, hmay, hlt⟩
        · exact .inr ⟨List.mem_cons_self, hy⟩
        · exact .inr ⟨List.mem_cons_of_mem _ hmem, hmay, hy.2.trans hlt⟩
      · intro x hx hmay
        rcases List.mem_cons.mp hx with rfl | hx
        · exact hyc
        · exact hbest x hx hmay
    · rw [pick, if_neg hy] at hfrom
      have hbc : rank b ≤ rank c := by
        rcases hfrom with rfl | ⟨-, -, hlt⟩
        · exact le_rfl
        · exact hlt.le
      refine ⟨hfrom.imp_right fun ⟨hmem, h⟩ ↦ ⟨List.mem_cons_of_mem _ hmem, h⟩, ?_⟩
      intro x hx hmay
      rcases List.mem_cons.mp hx with rfl | hx
      · exact (not_lt.mp fun hlt ↦ hy ⟨hmay, hlt⟩).trans hbc
      · exact hbest x hx hmay

/-- If the first candidate may be picked, the fold ends at the best of those that may.  If it may not,
it does so exactly when one of them ranks higher. -/
theorem best_pick_iff (b : α) (l : List α) :
    (may (l.foldl (pick rank may) b) ∧
        ∀ x ∈ b :: l, may x → rank x ≤ rank (l.foldl (pick rank may) b)) ↔
      may b ∨ ∃ x ∈ l, may x ∧ rank b < rank x := by
  obtain ⟨hfrom, hbest⟩ : (l.foldl (pick rank may) b = b ∨ _) ∧ _ := foldl_pick b l
  generalize l.foldl (pick rank may) b = c at hfrom hbest ⊢
  constructor
  · rintro ⟨hc, -⟩
    rcases hfrom with rfl | ⟨hmem, -, hlt⟩
    · exact .inl hc
    · exact .inr ⟨c, hmem, hc, hlt⟩
  · intro hfits
    have hbc : rank b ≤ rank c := by
      rcases hfrom with rfl | ⟨-, -, hlt⟩
      · exact le_rfl
      · exact hlt.le
    have hc : may c := by
      rcases hfrom with rfl | ⟨-, hc, -⟩
      · rcases hfits with hc | ⟨x, hx, hmay, hlt⟩
        · exact hc
        · exact absurd (hbest x hx hmay) (not_le.mpr hlt)
      · exact hc
    refine ⟨hc, fun x hx hx' ↦ ?_⟩
    rcases List.mem_cons.mp hx with rfl | hx
    · exact hbc
    · exact hbest x hx hx'

end Plaine.Lib

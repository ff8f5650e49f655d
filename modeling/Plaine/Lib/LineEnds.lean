import Plaine.Lib.Text
import Mathlib.Algebra.Order.BigOperators.Group.List

/-!
# Lines with either end

A text that is read by lines whose ends are newlines with or without a carriage return, and the one
text with these lines whose ends are newlines alone.
-/

namespace Plaine.Lib.Text

variable {text l : Text} {ls ls' : List Text}

/-- The lines of a text, with nothing behind the last end. -/
def plainLines (text : Text) : List Text :=
  let ls := (text.splitOn '\n').map stripCr
  if ls.getLast? = some [] then ls.dropLast else ls

/-- Lines with a newline behind each. -/
def joinLines (ls : List Text) : Text := ls.flatMap (· ++ ['\n'])

/-- A piece of a text is a line, or a line and a carriage return. -/
def EndsAs (piece line : Text) : Prop := piece = line ∨ piece = line ++ ['\r']

/-- A text is made of the lines, up to their ends. -/
def MadeOf (ls : List Text) (text : Text) : Prop :=
  ∃ pieces, text = ['\n'].intercalate pieces ∧
    (List.Forall₂ EndsAs pieces ls ∨ List.Forall₂ EndsAs pieces (ls ++ [[]]))

/-! ## Pieces -/

theorem newline_notMem_of_mem_splitOn (h : l ∈ text.splitOn '\n') : '\n' ∉ l := by
  induction text generalizing l with
  | nil =>
    rw [List.splitOn_nil, List.mem_singleton] at h
    rw [h]
    exact List.not_mem_nil
  | cons c text ih =>
    rw [List.splitOn_cons_eq_if_modifyHead] at h
    split at h
    case isTrue =>
      rcases List.mem_cons.mp h with rfl | h
      · exact List.not_mem_nil
      · exact ih h
    case isFalse hc =>
      cases hsplit : text.splitOn '\n' with
      | nil => exact absurd hsplit (List.splitOn_ne_nil _ _)
      | cons l' rest =>
        rw [hsplit] at h ih
        rcases List.mem_cons.mp h with rfl | h
        · rintro hmem
          rcases List.mem_cons.mp hmem with heq | hmem
          · exact hc (beq_iff_eq.mpr heq.symm)
          · exact ih List.mem_cons_self hmem
        · exact ih (List.mem_cons_of_mem _ h)

theorem joinLines_eq_intercalate (ls : List Text) :
    joinLines ls = ['\n'].intercalate (ls ++ [[]]) := by
  induction ls with
  | nil => rfl
  | cons l ls ih =>
    rw [joinLines, List.flatMap_cons, List.cons_append,
      List.intercalate_cons_of_ne_nil (by simp), ← ih]
    rfl

theorem intercalate_append_newline (h : ls ≠ []) :
    ['\n'].intercalate ls ++ ['\n'] = joinLines ls := by
  induction ls with
  | nil => exact absurd rfl h
  | cons l ls ih =>
    cases ls with
    | nil =>
      rw [List.intercalate_singleton, joinLines, List.flatMap_singleton]
    | cons l' ls =>
      rw [List.intercalate_cons_cons, List.append_assoc, ih (List.cons_ne_nil _ _)]
      rfl

/-- The pieces of lines that were joined. -/
theorem splitOn_joinLines (h : ∀ l ∈ ls, '\n' ∉ l) : (joinLines ls).splitOn '\n' = ls ++ [[]] := by
  rw [joinLines_eq_intercalate]
  refine List.splitOn_intercalate '\n' (fun l hl ↦ ?_) (by simp)
  rcases List.mem_append.mp hl with hl | hl
  · exact h l hl
  · rw [List.mem_singleton.mp hl]
    exact List.not_mem_nil

theorem joinLines_inj (h : ∀ l ∈ ls, '\n' ∉ l) (h' : ∀ l ∈ ls', '\n' ∉ l)
    (heq : joinLines ls = joinLines ls') : ls = ls' := by
  have hsplit := congrArg (List.splitOn '\n') heq
  rw [splitOn_joinLines h, splitOn_joinLines h'] at hsplit
  exact List.append_cancel_right hsplit

theorem count_joinLines (ls : List Text) :
    (joinLines ls).count '\n' = ls.length + (ls.map (List.count '\n')).sum := by
  induction ls with
  | nil => rfl
  | cons l ls ih =>
    rw [joinLines, List.flatMap_cons, List.count_append, List.count_append, ← joinLines, ih,
      List.map_cons, List.sum_cons, List.length_cons]
    have hone : List.count '\n' ['\n'] = 1 := rfl
    omega

/-- Lines are told from as many others by the text. -/
theorem joinLines_inj_of_length (h : ∀ l ∈ ls, '\n' ∉ l) (hlen : ls'.length = ls.length)
    (heq : joinLines ls = joinLines ls') : ls = ls' := by
  refine joinLines_inj h (fun l hl ↦ ?_) heq
  have hcount := congrArg (List.count '\n') heq
  have hzero : (ls.map (List.count '\n')).sum = 0 := List.sum_eq_zero fun n hn ↦ by
    obtain ⟨l, hl, rfl⟩ := List.mem_map.mp hn
    exact List.count_eq_zero.mpr (h l hl)
  rw [count_joinLines, count_joinLines, hzero, hlen, Nat.add_zero] at hcount
  have hsum : (ls'.map (List.count '\n')).sum = 0 := by omega
  exact List.count_eq_zero.mp (List.sum_eq_zero_iff.mp hsum _ (List.mem_map_of_mem hl))

/-! ## What is read -/

theorem endsAs_stripCr (l : Text) : EndsAs l (stripCr l) := by
  unfold stripCr
  split
  case isTrue h => exact .inr (List.dropLast_append_getLast? _ h).symm
  case isFalse => exact .inl rfl

theorem stripCr_eq_self : stripCr l = l ↔ l.getLast? ≠ some '\r' := by
  unfold stripCr
  constructor
  · intro h hlast
    rw [if_pos hlast] at h
    have hlen := congrArg List.length h
    rw [List.length_dropLast] at hlen
    have hpos : 0 < l.length := List.length_pos_iff.mpr fun hnil ↦ by
      rw [hnil] at hlast
      cases hlast
    omega
  · exact fun h ↦ if_neg h

theorem mem_of_mem_stripCr {c : Char} (h : c ∈ stripCr l) : c ∈ l := by
  unfold stripCr at h
  split at h
  case isTrue => exact List.mem_of_mem_dropLast h
  case isFalse => exact h

/-- A text is made of its lines. -/
theorem madeOf_plainLines (text : Text) : MadeOf (plainLines text) text := by
  refine ⟨text.splitOn '\n', (List.intercalate_splitOn '\n').symm, ?_⟩
  have hall : List.Forall₂ EndsAs (text.splitOn '\n') ((text.splitOn '\n').map stripCr) := by
    rw [List.forall₂_map_right_iff]
    exact List.forall₂_same.mpr fun l _ ↦ endsAs_stripCr l
  unfold plainLines
  dsimp only
  split
  case isTrue hlast =>
    right
    rwa [List.dropLast_append_getLast? _ hlast]
  case isFalse => exact .inl hall

theorem newline_notMem_of_mem_plainLines (h : l ∈ plainLines text) : '\n' ∉ l := by
  have hmem : l ∈ (text.splitOn '\n').map stripCr := by
    unfold plainLines at h
    dsimp only at h
    split at h
    case isTrue => exact List.mem_of_mem_dropLast h
    case isFalse => exact h
  obtain ⟨l', hl', rfl⟩ := List.mem_map.mp hmem
  exact fun hc ↦ newline_notMem_of_mem_splitOn hl' (mem_of_mem_stripCr hc)

/-- Lines that were joined are read back when none has a newline or ends as a half of one. -/
theorem plainLines_joinLines_iff :
    plainLines (joinLines ls) = ls ↔ ∀ l ∈ ls, '\n' ∉ l ∧ l.getLast? ≠ some '\r' := by
  have hread : (∀ l ∈ ls, '\n' ∉ l) → plainLines (joinLines ls) = ls.map stripCr := by
    intro h
    unfold plainLines
    rw [splitOn_joinLines h, List.map_append]
    dsimp only
    rw [if_pos, List.map_singleton, List.dropLast_concat]
    rw [List.map_singleton, List.getLast?_concat]
    rfl
  constructor
  · intro h l hl
    have hnot : ∀ l ∈ ls, '\n' ∉ l := fun l hl ↦
      @newline_notMem_of_mem_plainLines (joinLines ls) _ (by rwa [h])
    refine ⟨hnot l hl, stripCr_eq_self.mp ?_⟩
    have hmap : ls.map stripCr = ls.map id := by rw [← hread hnot, h, List.map_id]
    exact List.map_inj_left.mp hmap l hl
  · intro h
    rw [hread fun l hl ↦ (h l hl).1]
    exact (List.map_congr_left fun l hl ↦ stripCr_eq_self.mpr (h l hl).2).trans (List.map_id ls)

end Plaine.Lib.Text

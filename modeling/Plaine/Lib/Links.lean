import Mathlib.Data.List.Basic
import Mathlib.Data.List.Induction
import Mathlib.Data.List.Nodup

/-!
# Doubly linked lists in an array

Cells hold an item and the positions of their neighbours.  `Links.Lists` says which positions a
walk from the head visits; taking a cell out of the walk and putting one in front are the same
operations on the list of positions.
-/

namespace Plaine.Lib

variable {α : Type}

/-- An item and the positions of the cells before and after it. -/
structure Cell (α : Type) where
  item : α
  prev : Option Nat
  next : Option Nat

/-- Cells and the two ends of the list. -/
structure Links (α : Type) where
  cells : List (Cell α)
  head : Option Nat
  tail : Option Nat

namespace Links

/-- Change the cell at a position, if there is one. -/
def adjust (cells : List (Cell α)) (i : Option Nat) (f : Cell α → Cell α) : List (Cell α) :=
  match i with
  | some i => cells.modify i f
  | none => cells

/-- Take the cell at a position out of the list. -/
def unlink (c : Links α) (i : Nat) : Links α :=
  match c.cells[i]? with
  | none => c
  | some e =>
    let cells := adjust c.cells e.prev ({ · with next := e.next })
    let cells := adjust cells e.next ({ · with prev := e.prev })
    { cells
      head := if e.prev = none then e.next else c.head
      tail := if e.next = none then e.prev else c.tail }

/-- Put the cell at a position in front. -/
def pushFront (c : Links α) (i : Nat) : Links α :=
  let cells := c.cells.modify i ({ · with prev := none, next := c.head })
  let cells := adjust cells c.head ({ · with prev := some i })
  { cells
    head := some i
    tail := if c.tail = none then some i else c.tail }

/-- The items, in the order of the cells. -/
def items (c : Links α) : List α := c.cells.map (·.item)

/-- The cells at the positions of `l` are linked in this order, with `p` before and `n` after
them. -/
def Linked (cells : List (Cell α)) : Option Nat → List Nat → Option Nat → Prop
  | _, [], _ => True
  | p, i :: l, n => (∃ e, cells[i]? = some e ∧ e.prev = p ∧ e.next = l.head?.or n) ∧
    Linked cells (some i) l n

/-- A walk from the head visits the positions of `l`, once each. -/
structure Lists (c : Links α) (l : List Nat) : Prop where
  linked : Linked c.cells none l none
  nodup : l.Nodup
  head : c.head = l.head?
  tail : c.tail = l.getLast?

variable {cells cells' : List (Cell α)} {p n : Option Nat} {l l' : List Nat} {i j : Nat}

theorem linked_append : Linked cells p (l ++ l') n ↔
    Linked cells p l (l'.head?.or n) ∧ Linked cells (l.getLast?.or p) l' n := by
  induction l generalizing p with
  | nil => exact (and_iff_right trivial).symm
  | cons i l ih =>
    rw [List.cons_append, Linked, Linked, ih, and_assoc]
    have hhead : (l ++ l').head?.or n = l.head?.or (l'.head?.or n) := by
      rw [List.head?_append, Option.or_assoc]
    have hlast : (i :: l).getLast?.or p = l.getLast?.or (some i) := by
      rw [List.getLast?_cons]
      cases l.getLast? <;> rfl
    rw [hhead, hlast]

theorem Linked.lt (h : Linked cells p l n) (hi : i ∈ l) : i < cells.length := by
  induction l generalizing p with
  | nil => cases hi
  | cons j l ih =>
    obtain ⟨⟨e, he, -⟩, hl⟩ := h
    rcases List.mem_cons.mp hi with rfl | hi
    · exact (List.getElem?_eq_some_iff.mp he).1
    · exact ih hl hi

/-- Links depend on the cells they visit alone. -/
theorem Linked.congr (h : Linked cells p l n) (hc : ∀ i ∈ l, cells'[i]? = cells[i]?) :
    Linked cells' p l n := by
  induction l generalizing p with
  | nil => trivial
  | cons i l ih =>
    obtain ⟨⟨e, he, hprev, hnext⟩, hl⟩ := h
    refine ⟨⟨e, (hc i List.mem_cons_self).trans he, hprev, hnext⟩, ih hl fun j hj ↦ ?_⟩
    exact hc j (List.mem_cons_of_mem _ hj)

theorem getElem?_modify_ne (f : Cell α → Cell α) (h : i ≠ j) :
    (cells.modify i f)[j]? = cells[j]? := by
  rw [List.getElem?_modify]
  cases cells[j]? with
  | none => rfl
  | some e => exact congrArg some (if_neg h)

theorem getElem?_modify_self (f : Cell α → Cell α) :
    (cells.modify i f)[i]? = cells[i]?.map f := by
  rw [List.getElem?_modify]
  cases cells[i]? with
  | none => rfl
  | some e => exact congrArg some (if_pos rfl)

/-- Links with another cell after the last. -/
theorem Linked.relink_next (h : Linked cells p l n) (hnodup : l.Nodup) (n' : Option Nat) :
    Linked (adjust cells l.getLast? ({ · with next := n' })) p l n' := by
  rcases List.eq_nil_or_concat l with rfl | ⟨l, j, rfl⟩
  · trivial
  rw [List.concat_eq_append] at h hnodup ⊢
  rw [List.getLast?_concat, adjust]
  obtain ⟨hl, ⟨e, he, hprev, -⟩, -⟩ := linked_append.mp h
  have hj : j ∉ l := fun hj ↦ List.disjoint_of_nodup_append hnodup hj (List.mem_singleton_self j)
  refine linked_append.mpr ⟨hl.congr fun i hi ↦ ?_, ⟨{ e with next := n' }, ?_, hprev, rfl⟩, trivial⟩
  · refine getElem?_modify_ne _ ?_
    rintro rfl
    exact hj hi
  · rw [getElem?_modify_self, he]
    rfl

/-- Links with another cell before the first. -/
theorem Linked.relink_prev (h : Linked cells p l n) (hnodup : l.Nodup) (p' : Option Nat) :
    Linked (adjust cells l.head? ({ · with prev := p' })) p' l n := by
  cases l with
  | nil => trivial
  | cons j l =>
    rw [List.head?_cons, adjust]
    obtain ⟨⟨e, he, -, hnext⟩, hl⟩ := h
    have hj : j ∉ l := (List.nodup_cons.mp hnodup).1
    refine ⟨⟨{ e with prev := p' }, ?_, rfl, hnext⟩, hl.congr fun i hi ↦ ?_⟩
    · rw [getElem?_modify_self, he]
      rfl
    · refine getElem?_modify_ne _ ?_
      rintro rfl
      exact hj hi

theorem getElem?_adjust_ne {k : Option Nat} (f : Cell α → Cell α) (h : k ≠ some j) :
    (adjust cells k f)[j]? = cells[j]? := by
  cases k with
  | none => rfl
  | some i =>
    refine getElem?_modify_ne f ?_
    rintro rfl
    exact h rfl

theorem length_adjust (cells : List (Cell α)) (k : Option Nat) (f : Cell α → Cell α) :
    (adjust cells k f).length = cells.length := by
  cases k with
  | none => rfl
  | some i => exact List.length_modify _ _ _

/-- Changes of links leave the items. -/
theorem items_adjust {f : Cell α → Cell α} (hf : ∀ e, (f e).item = e.item)
    (cells : List (Cell α)) (k : Option Nat) :
    (adjust cells k f).map (·.item) = cells.map (·.item) := by
  cases k with
  | none => rfl
  | some i =>
    refine List.ext_getElem? fun j ↦ ?_
    rw [List.getElem?_map, List.getElem?_map, adjust]
    rcases eq_or_ne i j with rfl | hij
    · rw [getElem?_modify_self, Option.map_map]
      exact congrArg (Option.map · _) (funext hf)
    · rw [getElem?_modify_ne f hij]

theorem items_unlink (c : Links α) (i : Nat) : (c.unlink i).items = c.items := by
  unfold unlink items
  split
  case h_1 => rfl
  case h_2 e _ =>
    refine (items_adjust ?_ _ _).trans (items_adjust ?_ _ _)
    · exact fun _ ↦ rfl
    · exact fun _ ↦ rfl

theorem items_pushFront (c : Links α) (i : Nat) : (c.pushFront i).items = c.items := by
  unfold pushFront items
  refine (items_adjust ?_ _ _).trans (items_adjust ?_ c.cells (some i))
  · exact fun _ ↦ rfl
  · exact fun _ ↦ rfl

theorem Lists.empty : Lists (⟨[], none, none⟩ : Links α) [] := ⟨trivial, .nil, rfl, rfl⟩

/-- Taking a cell out. -/
theorem Lists.unlink {c : Links α} (h : Lists c (l ++ i :: l')) : Lists (c.unlink i) (l ++ l') := by
  obtain ⟨hl, ⟨e, he, hprev, hnext⟩, hl'⟩ := linked_append.mp h.linked
  rw [Option.or_none] at hprev hnext
  have hnodup := h.nodup
  have hnodup' := List.nodup_middle.mp hnodup
  obtain ⟨hi, hrest⟩ := List.nodup_cons.mp hnodup'
  obtain ⟨hnl, hnl', hdisj⟩ := List.nodup_append'.mp hrest
  unfold Links.unlink
  rw [he]
  dsimp only
  rw [hprev, hnext]
  refine ⟨linked_append.mpr ⟨?_, ?_⟩, hrest, ?_, ?_⟩
  · -- The first part changes in its last cell alone.
    rw [Option.or_none]
    refine (hl.relink_next hnl l'.head?).congr fun j hj ↦ getElem?_adjust_ne _ fun hhead ↦ ?_
    exact hdisj hj (List.mem_of_mem_head? hhead)
  · rw [Option.or_none]
    have hkept : Linked (adjust c.cells l.getLast? ({ · with next := l'.head? })) (some i) l' none := by
      refine hl'.congr fun j hj ↦ getElem?_adjust_ne _ fun hlast ↦ ?_
      exact hdisj (List.mem_of_mem_getLast? hlast) hj
    exact hkept.relink_prev hnl' l.getLast?
  · dsimp only
    rw [h.head]
    cases l with
    | nil => rfl
    | cons j l =>
      rw [if_neg]
      · rfl
      · rw [List.getLast?_cons]
        exact Option.some_ne_none _
  · dsimp only
    rw [h.tail]
    cases l' with
    | nil => rw [List.head?_nil, if_pos rfl, List.append_nil]
    | cons j l' =>
      rw [List.head?_cons, if_neg (Option.some_ne_none _), List.getLast?_append_cons,
        List.getLast?_append_cons, List.getLast?_cons_cons]

/-- Putting a cell in front. -/
theorem Lists.pushFront {c : Links α} (h : Lists c l) (hi : i ∉ l) (hlt : i < c.cells.length) :
    Lists (c.pushFront i) (i :: l) := by
  unfold Links.pushFront
  have hlinked : Linked (c.cells.modify i ({ · with prev := none, next := c.head })) none l none := by
    refine h.linked.congr fun j hj ↦ getElem?_modify_ne _ ?_
    rintro rfl
    exact hi hj
  refine ⟨⟨⟨{ c.cells[i] with prev := none, next := c.head }, ?_, rfl, ?_⟩, ?_⟩,
    List.nodup_cons.mpr ⟨hi, h.nodup⟩, rfl, ?_⟩
  · dsimp only
    rw [getElem?_adjust_ne, getElem?_modify_self, List.getElem?_eq_getElem hlt]
    · rfl
    · rw [h.head]
      exact fun hhead ↦ hi (List.mem_of_mem_head? hhead)
  · rw [Option.or_none]
    exact h.head
  · dsimp only
    rw [h.head] at hlinked ⊢
    exact hlinked.relink_prev h.nodup (some i)
  · dsimp only
    rw [h.tail, List.getLast?_cons]
    cases l.getLast? <;> rfl

/-! ## Items -/

/-- Put another item in the cell at a position. -/
def setItem (c : Links α) (i : Nat) (a : α) : Links α :=
  { c with cells := c.cells.modify i ({ · with item := a }) }

/-- Add a cell that is not in the list. -/
def push (c : Links α) (a : α) : Links α := { c with cells := c.cells ++ [⟨a, none, none⟩] }

theorem Linked.setItem (h : Linked cells p l n) (i : Nat) (a : α) :
    Linked (cells.modify i ({ · with item := a })) p l n := by
  induction l generalizing p with
  | nil => trivial
  | cons j l ih =>
    obtain ⟨⟨e, he, hprev, hnext⟩, hl⟩ := h
    refine ⟨?_, ih hl⟩
    rcases eq_or_ne i j with rfl | hij
    · exact ⟨{ e with item := a }, (getElem?_modify_self _).trans (by rw [he]; rfl), hprev, hnext⟩
    · exact ⟨e, (getElem?_modify_ne _ hij).trans he, hprev, hnext⟩

theorem Lists.setItem {c : Links α} (h : Lists c l) (i : Nat) (a : α) : Lists (c.setItem i a) l :=
  ⟨h.linked.setItem i a, h.nodup, h.head, h.tail⟩

theorem Lists.push {c : Links α} (h : Lists c l) (a : α) : Lists (c.push a) l := by
  refine ⟨h.linked.congr fun i hi ↦ ?_, h.nodup, h.head, h.tail⟩
  exact List.getElem?_append_left (h.linked.lt hi)

theorem items_setItem (c : Links α) (i j : Nat) (a : α) : (c.setItem i a).items[j]? =
    if i = j then c.items[j]?.map fun _ ↦ a else c.items[j]? := by
  unfold setItem items
  rw [List.getElem?_map, List.getElem?_map]
  dsimp only
  split
  case isTrue hij =>
    subst hij
    rw [getElem?_modify_self, Option.map_map, Option.map_map]
    rfl
  case isFalse hij => rw [getElem?_modify_ne _ hij]

theorem items_push (c : Links α) (a : α) : (c.push a).items = c.items ++ [a] :=
  List.map_append

/-- The first position from `i` backwards whose item is wanted. -/
def findBack (cells : List (Cell α)) (wanted : α → Bool) : Nat → Option Nat → Option Nat
  | 0, _ => none
  | _ + 1, none => none
  | k + 1, some i =>
    match cells[i]? with
    | none => none
    | some e => if wanted e.item then some i else findBack cells wanted k e.prev

/-- A walk backwards finds the last wanted position. -/
theorem findBack_eq (wanted : α → Bool) (h : Linked cells none l n) {k : Nat} (hk : l.length < k) :
    findBack cells wanted k l.getLast? =
      l.reverse.find? fun i ↦ (cells[i]?.map (·.item)).any wanted := by
  induction l using List.reverseRecOn generalizing n k with
  | nil =>
    cases k with
    | zero => cases hk
    | succ k => rfl
  | append_singleton l i ih =>
    obtain ⟨hl, ⟨e, he, hprev, -⟩, -⟩ := linked_append.mp h
    rw [Option.or_none] at hprev
    obtain ⟨k, rfl⟩ := Nat.exists_eq_add_of_lt hk
    rw [List.getLast?_concat, List.reverse_append, List.reverse_singleton, List.singleton_append,
      List.find?_cons, findBack, he]
    dsimp only
    rw [Option.map_some, Option.any_some]
    cases wanted e.item with
    | true => rfl
    | false =>
      rw [List.length_append, List.length_singleton]
      dsimp only
      rw [if_neg Bool.false_ne_true, hprev]
      exact ih hl (by omega)

end Links

end Plaine.Lib

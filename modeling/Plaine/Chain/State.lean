import Plaine.Chain.Types
import Plaine.Lib.Journal
import Mathlib.Data.List.AList

/-!
# Overlay and coinbase ledger

`state.rs`.  An overlay holds the accounts a branch has touched over the store it started
from, with an undo journal of the block being connected.  Reading an account caches it, so
`get` returns a new overlay; what every overlay function is stated in terms of is `view`,
the account an address has under the overlay, which caching leaves alone.
-/

namespace Plaine.Chain

open Plaine.Lib Plaine.Consensus

/-- `Overlay`.  `base` is `Store::account` of the store underneath. -/
structure Overlay where
  base : Address → Account
  accounts : AList fun _ : Address ↦ Account
  undo : AList fun _ : Address ↦ UndoRec
  order : List Address

namespace Overlay

/-- `Overlay::new`. -/
def new (base : Address → Account) : Overlay := ⟨base, ∅, ∅, []⟩

/-- `Overlay::seed`. -/
def seed (o : Overlay) (rows : List (Address × Account)) : Overlay :=
  { o with accounts := rows.foldl (fun m row ↦ m.insert row.1 row.2) ∅ }

/-- The account `get` returns. -/
def view (o : Overlay) (addr : Address) : Account := (o.accounts.lookup addr).getD (o.base addr)

/-- `Overlay::get`. -/
def get (o : Overlay) (addr : Address) : Account × Overlay :=
  match o.accounts.lookup addr with
  | some a => (a, o)
  | none =>
    let a := o.base addr
    (a, { o with accounts := o.accounts.insert addr a })

/-- `Overlay::begin_block`. -/
def beginBlock (o : Overlay) : Overlay := { o with undo := ∅, order := [] }

/-- `Overlay::capture`. -/
def capture (o : Overlay) (addr : Address) : Overlay :=
  if (o.undo.lookup addr).isSome then o
  else
    let (prev, o) := o.get addr
    { o with
      undo := o.undo.insert addr
        { addr, prevBalance := prev.balance, prevNonce := prev.nonce, existed := !prev.isAbsent }
      order := o.order ++ [addr] }

/-- `Overlay::set`. -/
def set (o : Overlay) (addr : Address) (acct : Account) : Overlay :=
  let o := o.capture addr
  { o with accounts := o.accounts.insert addr acct }

/-- `Overlay::credit`. -/
def credit (o : Overlay) (addr : Address) (amount : Nat) : Except Reject Overlay := do
  let (a, o) := o.get addr
  let balance ← Except.ofOption .arithmeticOverflow (checkedAdd u128Max a.balance amount)
  return o.set addr { a with balance }

/-- `Overlay::undo_records`.  Every address in `order` has a record. -/
def undoRecords (o : Overlay) : List UndoRec := o.order.filterMap (o.undo.lookup ·)

/-- The delta `Overlay::deltas` makes of an account. -/
def deltaOf (addr : Address) (acct : Account) : StateDelta := ⟨addr, acct.balance, acct.nonce⟩

/-- The loop of `Overlay::deltas`. -/
def deltasOf : List Address → Overlay → List StateDelta × Overlay
  | [], o => ([], o)
  | addr :: order, o =>
    let (acct, o) := o.get addr
    let (deltas, o) := deltasOf order o
    (deltaOf addr acct :: deltas, o)

/-- `Overlay::deltas`. -/
def deltas (o : Overlay) : List StateDelta × Overlay := deltasOf o.order o

/-- `Overlay::apply_undo`. -/
def applyUndo (o : Overlay) (recs : List UndoRec) : Overlay :=
  { o with accounts := recs.foldl (fun m r ↦ m.insert r.addr r.prev) o.accounts }

/-! ## Views -/

variable (o : Overlay) (addr : Address)

@[simp] theorem view_new (base : Address → Account) : (new base).view = base := rfl

@[simp] theorem get_fst : (o.get addr).1 = o.view addr := by
  unfold get view
  cases h : o.accounts.lookup addr with
  | none => rfl
  | some a => rfl

@[simp] theorem get_snd_undo : (o.get addr).2.undo = o.undo := by
  unfold get
  split <;> rfl

@[simp] theorem get_snd_order : (o.get addr).2.order = o.order := by
  unfold get
  split <;> rfl

@[simp] theorem get_snd_base : (o.get addr).2.base = o.base := by
  unfold get
  split <;> rfl

/-- Caching an account changes none. -/
@[simp] theorem get_snd_view : (o.get addr).2.view = o.view := by
  funext a
  unfold get
  cases h : o.accounts.lookup addr with
  | some x => rfl
  | none =>
    simp only [view]
    by_cases ha : a = addr
    · subst ha
      rw [AList.lookup_insert, h]
      rfl
    · rw [AList.lookup_insert_ne ha]

@[simp] theorem view_beginBlock : o.beginBlock.view = o.view := rfl

@[simp] theorem undo_beginBlock : o.beginBlock.undo = ∅ := rfl

@[simp] theorem order_beginBlock : o.beginBlock.order = [] := rfl

theorem view_insert (a : Account) :
    ({ o with accounts := o.accounts.insert addr a } : Overlay).view =
      Function.update o.view addr a := by
  funext x
  by_cases hx : x = addr
  · subst hx
    simp [view]
  · simp [view, AList.lookup_insert_ne hx, Function.update_of_ne hx]

@[simp] theorem view_capture : (o.capture addr).view = o.view := by
  unfold capture
  split
  · rfl
  · exact get_snd_view o addr

@[simp] theorem view_set (a : Account) :
    (o.set addr a).view = Function.update o.view addr a := by
  unfold set
  rw [view_insert, view_capture]

@[simp] theorem undo_set (a : Account) : (o.set addr a).undo = (o.capture addr).undo := rfl

@[simp] theorem order_set (a : Account) : (o.set addr a).order = (o.capture addr).order := rfl

/-- A credit goes through when the balance stays in range. -/
theorem credit_eq_ok {o o' : Overlay} {addr : Address} {amount : Nat} :
    o.credit addr amount = .ok o' ↔
      (o.view addr).balance + amount ≤ u128Max ∧
        o' = (o.get addr).2.set addr
          ⟨(o.view addr).balance + amount, (o.view addr).nonce⟩ := by
  simp only [credit, Except.bind_eq_ok, Except.ofOption_eq_ok, checkedAdd_eq_some, get_fst]
  constructor
  · rintro ⟨b, ⟨hle, rfl⟩, h⟩
    exact ⟨hle, (Except.ok.inj h).symm⟩
  · rintro ⟨hle, rfl⟩
    exact ⟨_, ⟨hle, rfl⟩, rfl⟩

theorem deltasOf_fst (order : List Address) (o : Overlay) :
    (deltasOf order o).1 = order.map fun a ↦ deltaOf a (o.view a) := by
  induction order generalizing o with
  | nil => rfl
  | cons a order ih => simp [deltasOf, ih]

@[simp] theorem view_deltasOf (order : List Address) (o : Overlay) :
    (deltasOf order o).2.view = o.view := by
  induction order generalizing o with
  | nil => rfl
  | cons a order ih => simp [deltasOf, ih]

theorem deltas_fst : o.deltas.1 = o.order.map fun a ↦ deltaOf a (o.view a) :=
  deltasOf_fst o.order o

@[simp] theorem view_deltas : o.deltas.2.view = o.view := view_deltasOf o.order o

/-- The entry an undo record writes back. -/
def undoEntry (r : UndoRec) : Address × Account := (r.addr, r.prev)

/-- Inserting rows into the cache writes them over the view. -/
theorem view_foldl_insert (rows : List (Address × Account)) :
    ({ o with accounts := rows.foldl (fun m row ↦ m.insert row.1 row.2) o.accounts } :
      Overlay).view = overwrite rows o.view := by
  induction rows generalizing o with
  | nil => rfl
  | cons row rows ih =>
    rw [List.foldl_cons, overwrite_cons]
    exact (ih { o with accounts := o.accounts.insert row.1 row.2 }).trans (by rw [view_insert])

/-- A seeded overlay shows the rows over the store's accounts. -/
theorem view_seed (rows : List (Address × Account)) :
    (o.seed rows).view = overwrite rows o.base :=
  view_foldl_insert { o with accounts := ∅ } rows

theorem view_applyUndo (recs : List UndoRec) :
    (o.applyUndo recs).view = overwrite (recs.map undoEntry) o.view := by
  rw [← view_foldl_insert, List.foldl_map]
  rfl

end Overlay

/-! ## Coinbase ledger -/

/-- `mature`. -/
def mature (coinbaseHeight spendHeight : Nat) : Bool := coinbaseIsMature coinbaseHeight spendHeight

/-- `CoinbaseLedger`: height, address and credit of each coinbase. -/
structure CoinbaseLedger where
  entries : List (Nat × Address × Nat)
deriving DecidableEq

namespace CoinbaseLedger

/-- `CoinbaseLedger::new`. -/
def new : CoinbaseLedger := ⟨[]⟩

/-- `CoinbaseLedger::push`. -/
def push (l : CoinbaseLedger) (height : Nat) (addr : Address) (credit : Nat) : CoinbaseLedger :=
  ⟨l.entries ++ [(height, addr, credit)]⟩

/-- The credits `immature_at` adds up. -/
def immatureCredits (l : CoinbaseLedger) (addr : Address) (spendHeight : Nat) : List Nat :=
  (l.entries.filter fun e ↦ e.2.1 = addr ∧ ¬mature e.1 spendHeight).map (·.2.2)

/-- `CoinbaseLedger::immature_at`. -/
def immatureAt (l : CoinbaseLedger) (addr : Address) (spendHeight : Nat) : Nat :=
  (l.immatureCredits addr spendHeight).foldl (saturatingAdd u128Max) 0

/-- `CoinbaseLedger::spendable`. -/
def spendable (l : CoinbaseLedger) (addr : Address) (balance spendHeight : Nat) : Nat :=
  spendableBalance balance (l.immatureAt addr spendHeight)

/-- The immature amount with no bound on it. -/
def immature (l : CoinbaseLedger) (addr : Address) (spendHeight : Nat) : Nat :=
  (l.immatureCredits addr spendHeight).sum

variable (l : CoinbaseLedger) (addr : Address) (n : Nat)

/-- The saturating sum is the exact one, cut off at `u128::MAX`. -/
theorem immatureAt_eq : l.immatureAt addr n = min (l.immature addr n) u128Max := by
  rw [immatureAt, foldl_saturatingAdd _ (Nat.zero_le _), immature, Nat.zero_add]

theorem spendable_eq (balance : Nat) : l.spendable addr balance n = balance - l.immatureAt addr n :=
  rfl

/-- Saturation leaves what a balance in range can spend alone. -/
theorem spendable_eq_exact {balance : Nat} (h : balance ≤ u128Max) :
    l.spendable addr balance n = balance - l.immature addr n := by
  rw [spendable_eq, immatureAt_eq, sub_min_eq h]

/-- A new coinbase adds its credit while it is immature. -/
theorem immature_push (k : Nat) (a : Address) (credit : Nat) :
    (l.push k a credit).immature addr n =
      l.immature addr n + if a = addr ∧ n < k + coinbaseMaturity then credit else 0 := by
  have hm : mature k n = false ↔ n < k + coinbaseMaturity := coinbaseIsMature_eq_false
  by_cases hc : a = addr ∧ n < k + coinbaseMaturity
  · simp [immature, immatureCredits, push, hc, hm.mpr hc.2]
  · rw [← hm] at hc
    simp [immature, immatureCredits, push, ← hm, hc]

/-- A new coinbase is immature at its own height. -/
theorem immature_push_self (a : Address) (credit : Nat) :
    (l.push n a credit).immature addr n =
      l.immature addr n + if a = addr then credit else 0 := by
  rw [immature_push]
  simp [coinbaseMaturity]

end CoinbaseLedger

end Plaine.Chain

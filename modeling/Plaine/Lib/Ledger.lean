import Mathlib.Algebra.BigOperators.Group.Finset.Basic
import Mathlib.Algebra.Order.BigOperators.Group.Finset
import Mathlib.Data.Fintype.Basic
import Mathlib.Algebra.BigOperators.Ring.Finset
import Mathlib.Tactic.Ring

/-!
# Account ledgers

Accounts with a balance and a sequence number, and a book of them.  Two kinds of entry are
posted to a book: a credit, and a debit carrying the sequence number it was issued under.
Part of a balance may be locked; a debit is honoured when its sequence number is the
account's and the rest of the balance covers it.

`Posts` is the exact semantics of a list of entries, with no bound on any number.  Three
laws follow by induction on the list: what each account ends with is what it had plus what
the list gives it (`Posts.balance`, `Posts.nonce`), the total changes by credits less debits
(`Posts.total`), and locked funds stay where they are (`Posts.locked_le`).
-/

namespace Plaine.Lib

/-- A balance and a sequence number. -/
@[ext]
structure Account where
  balance : Nat
  nonce : Nat
deriving DecidableEq

namespace Account

/-- An account nobody has touched. -/
instance : Inhabited Account := ⟨⟨0, 0⟩⟩

/-- Whether the account is the untouched one. -/
def isAbsent (a : Account) : Bool := a.balance = 0 ∧ a.nonce = 0

@[simp] theorem isAbsent_iff {a : Account} : a.isAbsent ↔ a = default := by
  simp [isAbsent, Account.ext_iff, default]

end Account

namespace Ledger

variable {κ : Type}

/-- One entry to be posted. -/
inductive Entry (κ : Type) where
  | credit (payee : κ) (amount : Nat)
  | debit (payer : κ) (amount nonce : Nat)
deriving DecidableEq

/-- The total credited by a list of entries. -/
def credits (l : List (Entry κ)) : Nat :=
  (l.map fun e ↦ match e with | .credit _ n => n | .debit .. => 0).sum

/-- The total debited by a list of entries. -/
def debits (l : List (Entry κ)) : Nat :=
  (l.map fun e ↦ match e with | .credit .. => 0 | .debit _ n _ => n).sum

@[simp] theorem credits_nil : credits ([] : List (Entry κ)) = 0 := rfl

@[simp] theorem credits_credit (k : κ) (n : Nat) (l : List (Entry κ)) :
    credits (.credit k n :: l) = n + credits l := by simp [credits]

@[simp] theorem credits_debit (k : κ) (n q : Nat) (l : List (Entry κ)) :
    credits (.debit k n q :: l) = credits l := by simp [credits]

theorem credits_append (l l' : List (Entry κ)) :
    credits (l ++ l') = credits l + credits l' := by simp [credits]

@[simp] theorem debits_nil : debits ([] : List (Entry κ)) = 0 := rfl

@[simp] theorem debits_credit (k : κ) (n : Nat) (l : List (Entry κ)) :
    debits (.credit k n :: l) = debits l := by simp [debits]

@[simp] theorem debits_debit (k : κ) (n q : Nat) (l : List (Entry κ)) :
    debits (.debit k n q :: l) = n + debits l := by simp [debits]

theorem debits_append (l l' : List (Entry κ)) :
    debits (l ++ l') = debits l + debits l' := by simp [debits]

variable [DecidableEq κ]

/-- Whether the entry names the account. -/
def Entry.Names (k : κ) : Entry κ → Bool
  | .credit k' _ => k' = k
  | .debit k' _ _ => k' = k

/-- The account an entry names. -/
def Entry.account : Entry κ → κ
  | .credit k _ => k
  | .debit k _ _ => k

theorem Entry.account_of_names {e : Entry κ} {k : κ} (h : e.Names k) : e.account = k := by
  cases e with
  | credit k' n => exact of_decide_eq_true h
  | debit k' n nonce => exact of_decide_eq_true h

/-- The entries that name the account. -/
def entriesOf (k : κ) (l : List (Entry κ)) : List (Entry κ) := l.filter (·.Names k)

/-- The number of debits in a list. -/
def debitCount (l : List (Entry κ)) : Nat :=
  l.countP fun e ↦ match e with | .credit .. => false | .debit .. => true

/-- The book after an entry. -/
def Entry.post (b : κ → Account) : Entry κ → κ → Account
  | .credit k n => Function.update b k ⟨(b k).balance + n, (b k).nonce⟩
  | .debit k n _ => Function.update b k ⟨(b k).balance - n, (b k).nonce + 1⟩

/-- Whether an entry is honoured when part of each balance is locked. -/
def Entry.Honoured (locked : κ → Nat) (b : κ → Account) : Entry κ → Prop
  | .credit .. => True
  | .debit k n q => (b k).nonce = q ∧ n ≤ (b k).balance - locked k

/-- Posting a list of entries, every one of them honoured in its turn. -/
inductive Posts (locked : κ → Nat) : (κ → Account) → List (Entry κ) → (κ → Account) → Prop
  | nil (b : κ → Account) : Posts locked b [] b
  | cons {b b' : κ → Account} {e : Entry κ} {l : List (Entry κ)} :
      e.Honoured locked b → Posts locked (e.post b) l b' → Posts locked b (e :: l) b'

namespace Posts

variable {locked : κ → Nat} {b b' b'' : κ → Account} {l l' : List (Entry κ)} {B : Nat}

theorem append (h : Posts locked b l b') (h' : Posts locked b' l' b'') :
    Posts locked b (l ++ l') b'' := by
  induction h with
  | nil b => exact h'
  | cons he _ ih => exact .cons he (ih h')

theorem single {e : Entry κ} (he : e.Honoured locked b) : Posts locked b [e] (e.post b) :=
  .cons he (.nil _)

theorem append_inv (h : Posts locked b (l ++ l') b'') :
    ∃ m, Posts locked b l m ∧ Posts locked m l' b'' := by
  induction l generalizing b with
  | nil => exact ⟨b, .nil b, h⟩
  | cons e l ih =>
    cases h with
    | cons he h =>
      obtain ⟨m, hm, hm'⟩ := ih h
      exact ⟨m, .cons he hm, hm'⟩

/-- Each balance ends as what it was, plus the credits and less the debits that name it. -/
theorem balance (h : Posts locked b l b') (k : κ) :
    (b' k).balance + debits (entriesOf k l) = (b k).balance + credits (entriesOf k l) := by
  induction h with
  | nil b => rfl
  | @cons b b' e l he _ ih =>
    cases e with
    | credit k' n =>
      by_cases hk : k' = k
      · subst hk
        simp only [Entry.post, Function.update_self] at ih
        simp only [entriesOf, List.filter_cons, Entry.Names, decide_true, if_true,
          credits_credit, debits_credit] at ih ⊢
        omega
      · simp only [Entry.post, Function.update_of_ne (Ne.symm hk)] at ih
        simpa [entriesOf, List.filter_cons, Entry.Names, hk] using ih
    | debit k' n q =>
      by_cases hk : k' = k
      · subst hk
        have hle : n ≤ (b k').balance := he.2.trans (Nat.sub_le _ _)
        simp only [Entry.post, Function.update_self] at ih
        simp only [entriesOf, List.filter_cons, Entry.Names, decide_true, if_true,
          credits_debit, debits_debit] at ih ⊢
        omega
      · simp only [Entry.post, Function.update_of_ne (Ne.symm hk)] at ih
        simpa [entriesOf, List.filter_cons, Entry.Names, hk] using ih

/-- Each sequence number moves by the debits that name it. -/
theorem nonce (h : Posts locked b l b') (k : κ) :
    (b' k).nonce = (b k).nonce + debitCount (entriesOf k l) := by
  induction h with
  | nil b => rfl
  | @cons b b' e l he _ ih =>
    rw [ih]
    cases e with
    | credit k' n =>
      by_cases hk : k' = k
      · subst hk
        simp [Entry.post, entriesOf, Entry.Names, debitCount]
      · simp [Entry.post, Function.update_of_ne (Ne.symm hk), entriesOf, Entry.Names, hk]
    | debit k' n q =>
      by_cases hk : k' = k
      · subst hk
        simp [Entry.post, entriesOf, Entry.Names, debitCount]
        omega
      · simp [Entry.post, Function.update_of_ne (Ne.symm hk), entriesOf, Entry.Names, hk]

/-- The book after a list of entries is a function of the book before it. -/
theorem eq (h : Posts locked b l b') {locked' : κ → Nat} (h' : Posts locked' b l b'') :
    b' = b'' := by
  funext k
  have := h.balance k
  have := h'.balance k
  have := h.nonce k
  have := h'.nonce k
  ext <;> omega

/-- What is honoured next to some locked funds is honoured next to any amounts leaving the
same to each account. -/
theorem congr_locked {locked' : κ → Nat}
    (hl : ∀ (k : κ) (n : Nat), n ≤ B → n - locked k = n - locked' k)
    (hB : ∀ m l₁ l₂, l = l₁ ++ l₂ → Posts locked b l₁ m → ∀ k, (m k).balance ≤ B)
    (h : Posts locked b l b') : Posts locked' b l b' := by
  induction h with
  | nil b => exact .nil b
  | @cons b b' e l he hrest ih =>
    have hb : ∀ k, (b k).balance ≤ B := hB b [] (e :: l) rfl (.nil b)
    refine .cons ?_ (ih fun m l₁ l₂ heq hm ↦ hB m (e :: l₁) l₂ (by rw [heq]; rfl) (.cons he hm))
    cases e with
    | credit k n => trivial
    | debit k n q =>
      refine ⟨he.1, ?_⟩
      rw [← hl k _ (hb k)]
      exact he.2

/-- Locked funds stay: whoever had at least the locked amount still has. -/
theorem locked_le (h : Posts locked b l b') (hb : ∀ k, locked k ≤ (b k).balance) (k : κ) :
    locked k ≤ (b' k).balance := by
  induction h with
  | nil b => exact hb k
  | @cons b b' e l he _ ih =>
    refine ih fun k' ↦ ?_
    have hk' := hb k'
    cases e with
    | credit p n =>
      by_cases hp : k' = p
      · subst hp
        simp only [Entry.post, Function.update_self]
        omega
      · simpa [Entry.post, Function.update_of_ne hp] using hk'
    | debit p n q =>
      by_cases hp : k' = p
      · subst hp
        have := he.2
        simp only [Entry.post, Function.update_self]
        omega
      · simpa [Entry.post, Function.update_of_ne hp] using hk'

end Posts

/-- From two books, the same changes: what the first gained and lost on the way from `b` to
`b'`, the second did from `v` to `v'`. -/
structure Abreast (b v b' v' : κ → Account) : Prop where
  balance : ∀ k, (v' k).balance + (b k).balance = (v k).balance + (b' k).balance
  nonce : ∀ k, (v' k).nonce + (b k).nonce = (v k).nonce + (b' k).nonce

namespace Abreast

variable {b v b' v' b'' v'' : κ → Account}

omit [DecidableEq κ] in
theorem refl (b v : κ → Account) : Abreast b v b v := ⟨fun _ ↦ rfl, fun _ ↦ rfl⟩

omit [DecidableEq κ] in
theorem trans (h : Abreast b v b' v') (h' : Abreast b' v' b'' v'') : Abreast b v b'' v'' := by
  constructor <;> intro k
  · have := h.balance k
    have := h'.balance k
    omega
  · have := h.nonce k
    have := h'.nonce k
    omega

omit [DecidableEq κ] in
/-- The books agree on an account after the changes exactly when they did before. -/
theorem eq_iff (h : Abreast b v b' v') (k : κ) : v' k = b' k ↔ v k = b k := by
  have := h.balance k
  have := h.nonce k
  simp only [Account.ext_iff]
  omega

end Abreast

/-- Posting the same entries to two books changes both in the same way. -/
theorem Posts.abreast {locked locked' : κ → Nat} {b v b' v' : κ → Account}
    {l : List (Entry κ)} (h : Posts locked b l b') (h' : Posts locked' v l v') :
    Abreast b v b' v' := by
  constructor <;> intro k
  · have := h.balance k
    have := h'.balance k
    omega
  · have := h.nonce k
    have := h'.nonce k
    omega

/-! ## Totals -/

section Totals

variable [Fintype κ]

/-- The sum of all balances. -/
def total (b : κ → Account) : Nat := ∑ k, (b k).balance

/-- The sum of what is not locked. -/
def available (locked : κ → Nat) (b : κ → Account) : Nat := ∑ k, ((b k).balance - locked k)

theorem balance_le_total (b : κ → Account) (k : κ) : (b k).balance ≤ total b := by
  rw [total, Fintype.sum_eq_add_sum_compl k]
  exact Nat.le_add_right _ _

omit [DecidableEq κ] in
theorem available_le_total (locked : κ → Nat) (b : κ → Account) :
    available locked b ≤ total b :=
  Finset.sum_le_sum fun _ _ ↦ Nat.sub_le _ _

/-- A write to a book changes a sum over its accounts by the new term less the old one. -/
theorem sum_book_update (g : κ → Account → Nat) (b : κ → Account) (k : κ) (a : Account) :
    ∑ j, g j (Function.update b k a j) + g k (b k) = ∑ j, g j (b j) + g k a := by
  have hrest : ∑ j ∈ {k}ᶜ, g j (Function.update b k a j) = ∑ j ∈ {k}ᶜ, g j (b j) := by
    refine Finset.sum_congr rfl fun j hj ↦ ?_
    have hjk : j ≠ k := by simpa using hj
    rw [Function.update_of_ne hjk]
  rw [Fintype.sum_eq_add_sum_compl k, Fintype.sum_eq_add_sum_compl k fun j ↦ g j (b j),
    hrest, Function.update_self]
  omega

variable {locked : κ → Nat} {b b' : κ → Account} {l : List (Entry κ)}

/-- The total changes by what is credited less what is debited. -/
theorem Posts.total (h : Posts locked b l b') :
    total b' + debits l = total b + credits l := by
  induction h with
  | nil b => rfl
  | @cons b b' e l he _ ih =>
    cases e with
    | credit k n =>
      have := sum_book_update (fun _ a ↦ a.balance) b k ⟨(b k).balance + n, (b k).nonce⟩
      simp only [Ledger.total, Entry.post, credits_credit, debits_credit] at this ih ⊢
      omega
    | debit k n q =>
      have hle : n ≤ (b k).balance := he.2.trans (Nat.sub_le _ _)
      have := sum_book_update (fun _ a ↦ a.balance) b k ⟨(b k).balance - n, (b k).nonce + 1⟩
      simp only [Ledger.total, Entry.post, credits_debit, debits_debit] at this ih ⊢
      omega

/-- Nothing but credits adds to what is available, and every debit takes its amount. -/
theorem Posts.available (h : Posts locked b l b') :
    available locked b' + debits l ≤ available locked b + credits l := by
  induction h with
  | nil b => exact le_rfl
  | @cons b b' e l he _ ih =>
    cases e with
    | credit k n =>
      have := sum_book_update (fun j a ↦ a.balance - locked j) b k
        ⟨(b k).balance + n, (b k).nonce⟩
      simp only [Ledger.available, Entry.post, credits_credit, debits_credit] at this ih ⊢
      omega
    | debit k n q =>
      have hle := he.2
      have := sum_book_update (fun j a ↦ a.balance - locked j) b k
        ⟨(b k).balance - n, (b k).nonce + 1⟩
      simp only [Ledger.available, Entry.post, credits_debit, debits_debit] at this ih ⊢
      omega

end Totals

end Ledger

end Plaine.Lib

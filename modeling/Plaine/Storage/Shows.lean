import Plaine.Consensus.Tx
import Plaine.Lib.Journal
import Plaine.Storage.Tables

/-!
# What the tables stand for

A chain of blocks, each with deltas and undo rows that fit the accounts the blocks below leave.
Tables and metadata show a chain when their rows are its accounts, their fingerprint is the
digest of the rows, their supply is the chain's and their undo rows are those of its blocks.
Applying a block and rolling one back lead from a chain shown to a chain shown.
-/

namespace Plaine.Storage

open Plaine.Lib Plaine.Consensus

/-- The rows of a state table, seen from outside. -/
abbrev Rows : Type := Address → Option Account

/-- What a state table shows. -/
def rowsOf (state : AList fun _ : Address ↦ Account) : Rows := fun a ↦ state.lookup a

@[simp] theorem rowsOf_insert (state : AList fun _ : Address ↦ Account) (a : Address)
    (acct : Account) : rowsOf (state.insert a acct) = Function.update (rowsOf state) a (some acct) := by
  funext k
  rcases eq_or_ne k a with rfl | hne
  · rw [rowsOf, AList.lookup_insert, Function.update_self]
  · rw [rowsOf, AList.lookup_insert_ne hne, Function.update_of_ne hne]
    rfl

@[simp] theorem rowsOf_erase (state : AList fun _ : Address ↦ Account) (a : Address) :
    rowsOf (state.erase a) = Function.update (rowsOf state) a none := by
  funext k
  rcases eq_or_ne k a with rfl | hne
  · rw [rowsOf, AList.lookup_erase, Function.update_self]
  · rw [rowsOf, AList.lookup_erase_ne hne, Function.update_of_ne hne]
    rfl

/-- The row a delta leaves. -/
def StateDelta.row (d : StateDelta) : Option Account := if d.next.isAbsent then none else some d.next

namespace BlockToCommit

variable (b : BlockToCommit)

/-- The rows a block writes. -/
def rows : List (Address × Option Account) := b.deltas.map fun d ↦ (d.addr, d.row)

/-- The rows a block's undo records write back. -/
def journal : List (Address × Option Account) := b.undo.map fun u ↦ (u.addr, u.row)

/-- A block whose deltas and undo rows match the accounts it is applied to: one of each for an
account it touches, the undo row being the account's own, and the supply grown by the block's
reward. -/
structure Fits (st : Rows) : Prop where
  height_le : b.height ≤ u64Max
  aligned : b.deltas.map (·.addr) = b.undo.map (·.addr)
  nodup : (b.undo.map (·.addr)).Nodup
  saved : ∀ u ∈ b.undo, u.row = st u.addr
  issued : b.issuedDelta.toNat = blockReward b.height

variable {b} {st : Rows}

instance : Decidable (b.Fits st) := decidable_of_iff
  (b.height ≤ u64Max ∧ b.deltas.map (·.addr) = b.undo.map (·.addr) ∧
    (b.undo.map (·.addr)).Nodup ∧ (∀ u ∈ b.undo, u.row = st u.addr) ∧
    b.issuedDelta.toNat = blockReward b.height)
  ⟨fun ⟨h₁, h₂, h₃, h₄, h₅⟩ ↦ ⟨h₁, h₂, h₃, h₄, h₅⟩,
    fun ⟨h₁, h₂, h₃, h₄, h₅⟩ ↦ ⟨h₁, h₂, h₃, h₄, h₅⟩⟩

theorem map_fst_journal : b.journal.map Prod.fst = b.undo.map (·.addr) := by
  simp [journal, Function.comp_def]

theorem Fits.map_fst_rows (h : b.Fits st) : b.rows.map Prod.fst = b.undo.map (·.addr) := by
  rw [← h.aligned]
  simp [rows, Function.comp_def]

/-- The undo rows are a journal of the deltas. -/
theorem Fits.saves (h : b.Fits st) : Saves st (overwrite b.rows st) b.journal where
  nodup := map_fst_journal ▸ h.nodup
  saved := by
    rintro p hp
    obtain ⟨u, hu, rfl⟩ := List.mem_map.mp hp
    exact h.saved u hu
  frame k hk := overwrite_of_notMem (by rwa [h.map_fst_rows, ← map_fst_journal]) st

end BlockToCommit

/-- The accounts a chain leaves. -/
def stateOf (bs : List BlockToCommit) : Rows :=
  bs.foldl (fun st b ↦ overwrite b.rows st) fun _ ↦ none

/-- A chain from genesis up: every block has its height and fits the blocks below. -/
def IsChain (bs : List BlockToCommit) : Prop :=
  ∀ (i : Nat) (b : BlockToCommit), bs[i]? = some b → b.height = i ∧ b.Fits (stateOf (bs.take i))

variable {bs : List BlockToCommit} {b : BlockToCommit}

theorem stateOf_concat : stateOf (bs ++ [b]) = overwrite b.rows (stateOf bs) := by
  rw [stateOf, List.foldl_append]
  rfl

namespace IsChain

theorem nil : IsChain [] := fun _ _ h ↦ by cases h

theorem take (h : IsChain bs) (k : Nat) : IsChain (bs.take k) := by
  intro i b hb
  rw [List.getElem?_take] at hb
  split at hb
  case isTrue hi =>
    rw [List.take_take, Nat.min_eq_left hi.le]
    exact h i b hb
  case isFalse => cases hb

theorem concat_iff : IsChain (bs ++ [b]) ↔
    IsChain bs ∧ b.height = bs.length ∧ b.Fits (stateOf bs) := by
  constructor
  · intro h
    refine ⟨?_, ?_⟩
    · have := h.take bs.length
      rwa [List.take_left] at this
    · have := h bs.length b (by simp)
      rwa [List.take_left] at this
  · rintro ⟨h, hb⟩ i c hc
    rcases Nat.lt_or_ge i bs.length with hi | hi
    · rw [List.getElem?_append_left hi] at hc
      rw [List.take_append_of_le_length hi.le]
      exact h i c hc
    · rw [List.getElem?_append_right hi, List.getElem?_singleton] at hc
      split at hc
      case isTrue hzero =>
        cases hc
        obtain rfl : i = bs.length := by omega
        rwa [List.take_left]
      case isFalse => cases hc

theorem concat (h : IsChain bs) (hheight : b.height = bs.length) (hb : b.Fits (stateOf bs)) :
    IsChain (bs ++ [b]) := concat_iff.mpr ⟨h, hheight, hb⟩

end IsChain

section

variable [Crypto]

/-- The digest of a state table. -/
def stateDigest (state : AList fun _ : Address ↦ Account) : Hash32 :=
  state.digest Arr.xor (.zero 32) rowDigest

/-- Tables and metadata that show a chain. -/
structure Shows (t : Tables) (m : Meta) (bs : List BlockToCommit) : Prop where
  rows : rowsOf t.state = stateOf bs
  fingerprint : m.fingerprint = stateDigest t.state
  issued : m.issued = issuedThrough (bs.length - 1)
  undo : ∀ h blob, t.undo.lookup h = some blob →
    ∃ b, bs[h]? = some b ∧ blob = encodeUndo b.undo b.issuedDelta

/-- The digest of a row, if there is one. -/
def rowDigest? (addr : Address) : Option Account → Hash32
  | some a => rowDigest addr a
  | none => .zero 32

/-- A digest kept in step with one row: out with the old, in with the new. -/
theorem stateDigest_change {s s' : AList fun _ : Address ↦ Account} {addr : Address}
    {row : Option Account} (h : rowsOf s' = Function.update (rowsOf s) addr row) :
    stateDigest s' = ((stateDigest s).xor (rowDigest? addr (rowsOf s addr))).xor
      (rowDigest? addr row) := by
  have hsplit : ∀ t : AList fun _ : Address ↦ Account,
      stateDigest t = (rowDigest? addr (rowsOf t addr)).xor (stateDigest (t.erase addr)) := by
    intro t
    unfold rowsOf
    cases hl : t.lookup addr with
    | some a => exact AList.digest_of_lookup hl
    | none =>
      rw [rowDigest?, Arr.xor_comm, Arr.xor_zero]
      exact (AList.digest_of_lookup_none hl).symm
  have hrest : stateDigest (s'.erase addr) = stateDigest (s.erase addr) := by
    refine AList.digest_congr fun a ↦ ?_
    rcases eq_or_ne a addr with rfl | hne
    · rw [AList.lookup_erase, AList.lookup_erase]
    · rw [AList.lookup_erase_ne hne, AList.lookup_erase_ne hne]
      exact (congrFun h a).trans (Function.update_of_ne hne _ _)
  have hout : (stateDigest s).xor (rowDigest? addr (rowsOf s addr)) = stateDigest (s.erase addr) := by
    rw [Arr.xor_comm, hsplit s, Arr.xor_xor_self]
  rw [hout, hsplit s', hrest, h, Function.update_self, Arr.xor_comm]

/-! ## Applying a block -/

variable {t t' : Tables} {m m' : Meta} {readHeader : Nat → Option RawHeader} {cfg : StoreConfig}

/-- A delta changes one row, and the fingerprint with it. -/
theorem applyDelta_eq (d : StateDelta) (u : UndoRec) : ∃ state fp,
    applyDelta t m d u = ({ t with state }, { m with fingerprint := fp }) ∧
      rowsOf state = Function.update (rowsOf t.state) d.addr d.row ∧
      (m.fingerprint = stateDigest t.state → d.addr = u.addr → u.row = rowsOf t.state u.addr →
        fp = stateDigest state) := by
  -- Whatever is done, the old row is digested out and the new one in.
  have hstep : ∀ state : AList fun _ : Address ↦ Account,
      rowsOf state = Function.update (rowsOf t.state) d.addr d.row →
      m.fingerprint = stateDigest t.state → d.addr = u.addr → u.row = rowsOf t.state u.addr →
      stateDigest state = (m.fingerprint.xor (rowDigest? u.addr u.row)).xor
        (rowDigest? d.addr d.row) := by
    intro state hstate hfp haddr hrow
    rw [haddr] at hstate ⊢
    rw [stateDigest_change hstate, hfp, hrow]
  have hout : (if u.existed then fpXor m.fingerprint (rowDigest u.addr u.prev)
      else m.fingerprint) = m.fingerprint.xor (rowDigest? u.addr u.row) := by
    unfold UndoRec.row
    split
    · rfl
    · exact (Arr.xor_zero _).symm
  unfold applyDelta
  dsimp only
  rw [hout]
  split
  case isTrue habs =>
    have hrow : d.row = none := if_pos habs
    have hlook : rowsOf (t.state.erase d.addr) = Function.update (rowsOf t.state) d.addr d.row := by
      rw [hrow, rowsOf_erase]
    refine ⟨_, _, rfl, hlook, fun hfp haddr hu ↦ ?_⟩
    rw [hstep _ hlook hfp haddr hu, hrow]
    exact (Arr.xor_zero _).symm
  case isFalse habs =>
    have hrow : d.row = some d.next := if_neg habs
    have hlook : rowsOf (t.state.insert d.addr d.next) =
        Function.update (rowsOf t.state) d.addr d.row := by
      rw [hrow, rowsOf_insert]
    refine ⟨_, _, rfl, hlook, fun hfp haddr hu ↦ ?_⟩
    rw [hstep _ hlook hfp haddr hu, hrow]
    rfl

/-- The deltas of a block go through where they are aligned with the undo rows. -/
theorem applyDeltas_eq {l : List (StateDelta × UndoRec)} (haddr : ∀ x ∈ l, x.1.addr = x.2.addr) :
    ∃ state fp, applyDeltas l t m = .ok ({ t with state }, { m with fingerprint := fp }) ∧
      rowsOf state = overwrite (l.map fun x ↦ (x.1.addr, x.1.row)) (rowsOf t.state) ∧
      (m.fingerprint = stateDigest t.state → (l.map fun x ↦ x.2.addr).Nodup →
        (∀ x ∈ l, x.2.row = rowsOf t.state x.2.addr) → fp = stateDigest state) := by
  induction l generalizing t m with
  | nil => exact ⟨t.state, m.fingerprint, rfl, rfl, fun h _ _ ↦ h⟩
  | cons x l ih =>
    obtain ⟨d, u⟩ := x
    have hhead : d.addr = u.addr := haddr (d, u) List.mem_cons_self
    obtain ⟨state, fp, heq, hlook, hfp⟩ := applyDelta_eq (t := t) (m := m) d u
    obtain ⟨state', fp', heq', hlook', hfp'⟩ := ih (t := { t with state })
      (m := { m with fingerprint := fp }) fun x hx ↦ haddr x (List.mem_cons_of_mem _ hx)
    refine ⟨state', fp', ?_, ?_, fun hm hnodup hsaved ↦ ?_⟩
    · rw [applyDeltas, if_neg (not_not.mpr hhead), heq]
      exact heq'
    · rw [hlook', List.map_cons, overwrite_cons, ← hlook]
    · rw [List.map_cons, List.nodup_cons] at hnodup
      refine hfp' (hfp hm hhead (hsaved (d, u) List.mem_cons_self)) hnodup.2 fun x hx ↦ ?_
      -- The other rows are of other accounts.
      have hne : x.2.addr ≠ d.addr := fun heq ↦
        hnodup.1 (hhead ▸ heq ▸ List.mem_map_of_mem (f := fun x ↦ x.2.addr) hx)
      rw [hsaved x (List.mem_cons_of_mem _ hx), hlook, Function.update_of_ne hne]

/-- The hash index takes part in nothing else. -/
theorem putHash_eq (readHeader : Nat → Option RawHeader) (prefixBytes : Nat) (b : BlockToCommit) :
    ∃ hashIndex hashIndexFull n, putHash readHeader prefixBytes b t m =
      ({ t with hashIndex, hashIndexFull }, { m with hashIndexFullRows := n }) := by
  unfold putHash
  dsimp only
  split
  · exact ⟨_, t.hashIndexFull, m.hashIndexFullRows, rfl⟩
  split
  · exact ⟨t.hashIndex, t.hashIndexFull, m.hashIndexFullRows, rfl⟩
  by_cases hnew : (t.hashIndexFull.lookup b.hash).isNone
  · rw [if_pos hnew]
    split
    · exact ⟨t.hashIndex, _, _, rfl⟩
    · exact ⟨_, t.hashIndexFull, m.hashIndexFullRows, rfl⟩
  · rw [if_neg hnew]
    split
    · exact ⟨t.hashIndex, _, m.hashIndexFullRows, rfl⟩
    · exact ⟨_, t.hashIndexFull, m.hashIndexFullRows, rfl⟩

omit [Crypto] in
theorem putTxids_eq (txindex : Bool) (b : BlockToCommit) {t₀ : Tables} {m₀ : Meta}
    (ht : t.txindex = t₀.txindex) (hm : m.txindexFrom = m₀.txindexFrom) :
    putTxids txindex b t m = ({ t with txindex := (putTxids txindex b t₀ m₀).1.txindex },
      { m with txindexFrom := (putTxids txindex b t₀ m₀).2.txindexFrom }) := by
  unfold putTxids
  split
  · split
    · rw [ht, hm]
    · rw [← ht, ← hm]
  · rw [← ht, ← hm]

omit [Crypto] in
theorem putChainwork_eq (b : BlockToCommit) {t₀ : Tables}
    (ht : t.chainworkCkpt = t₀.chainworkCkpt) :
    putChainwork b t = { t with chainworkCkpt := (putChainwork b t₀).chainworkCkpt } := by
  unfold putChainwork
  split
  · rw [ht]
  · rw [← ht]

/-- What `apply_block` does, the hash index left open. -/
theorem applyBlock_eq (readHeader : Nat → Option RawHeader) (cfg : StoreConfig) (t : Tables)
    (m : Meta) (haligned : b.deltas.map (·.addr) = b.undo.map (·.addr)) :
    ∃ state fp hashIndex hashIndexFull n,
      applyBlock readHeader cfg b t m = .ok
        ({ t with
            state
            undo := (putUndo b t).undo
            hashIndex
            hashIndexFull
            chainworkCkpt := (putChainwork b t).chainworkCkpt
            txindex := (putTxids cfg.txindex b t m).1.txindex },
          advanceMeta b { m with
            fingerprint := fp
            hashIndexFullRows := n
            txindexFrom := (putTxids cfg.txindex b t m).2.txindexFrom }) ∧
      rowsOf state = overwrite b.rows (rowsOf t.state) ∧
      (m.fingerprint = stateDigest t.state → b.Fits (rowsOf t.state) → fp = stateDigest state) := by
  have hlen : b.deltas.length = b.undo.length := by
    rw [← List.length_map (f := (·.addr)), haligned, List.length_map]
  have haddr : ∀ x ∈ b.deltas.zip b.undo, x.1.addr = x.2.addr := by
    intro x hx
    obtain ⟨i, hi, rfl⟩ := List.mem_iff_getElem.mp hx
    rw [List.getElem_zip]
    rw [List.length_zip, hlen, Nat.min_self] at hi
    have hget := congrArg (·[i]?) haligned
    rw [List.getElem?_map, List.getElem?_map, List.getElem?_eq_getElem (hlen ▸ hi),
      List.getElem?_eq_getElem hi] at hget
    exact Option.some.inj hget
  have hzip : (b.deltas.zip b.undo).map Prod.fst = b.deltas := List.map_fst_zip hlen.le
  have hfst : (b.deltas.zip b.undo).map (fun x ↦ (x.1.addr, x.1.row)) = b.rows := by
    rw [BlockToCommit.rows, ← hzip, List.map_map]
    rw [hzip]
    rfl
  have hsnd : (b.deltas.zip b.undo).map (fun x ↦ x.2.addr) = b.undo.map (·.addr) := by
    have hzip : (b.deltas.zip b.undo).map Prod.snd = b.undo := List.map_snd_zip hlen.ge
    conv_rhs => rw [← hzip, List.map_map]
    rfl
  obtain ⟨state, fp, heq, hlook, hfp⟩ := applyDeltas_eq (t := t) (m := m) haddr
  obtain ⟨hashIndex, hashIndexFull, n, hhash⟩ := putHash_eq readHeader cfg.hashPrefixBytes b
    (t := putUndo b { t with state }) (m := { m with fingerprint := fp })
  refine ⟨state, fp, hashIndex, hashIndexFull, n, ?_, ?_, ?_⟩
  · unfold applyBlock
    rw [heq]
    simp only [Except.ok_bind]
    rw [hhash]
    dsimp only
    rw [putChainwork_eq b (by rfl : _ = t.chainworkCkpt)]
    dsimp only
    rw [putTxids_eq cfg.txindex b (by rfl : _ = t.txindex) (by rfl : _ = m.txindexFrom)]
    rfl
  · rw [hlook, hfst]
  · intro hm hb
    refine hfp hm (hsnd ▸ hb.nodup) fun x hx ↦ hb.saved x.2 (List.of_mem_zip hx).2

omit [Crypto] in
/-- The undo rows after a block: its own is there, and the one that fell off the ring is not. -/
theorem lookup_putUndo (b : BlockToCommit) (t : Tables) (k : Nat) :
    (putUndo b t).undo.lookup k =
      if k = b.height then some (encodeUndo b.undo b.issuedDelta)
      else if k + undoRing = b.height then none
      else t.undo.lookup k := by
  have hring : 0 < undoRing := by decide
  unfold putUndo
  dsimp only
  rcases eq_or_ne k b.height with rfl | hk
  · rw [if_pos rfl]
    split
    · rw [AList.lookup_erase_ne (by omega), AList.lookup_insert]
    · rw [AList.lookup_insert]
  rw [if_neg hk]
  by_cases hoff : k + undoRing = b.height
  · rw [if_pos hoff, if_pos (by omega), ← hoff, Nat.add_sub_cancel, AList.lookup_erase]
  · rw [if_neg hoff]
    split
    · rw [AList.lookup_erase_ne (by omega), AList.lookup_insert_ne hk]
    · rw [AList.lookup_insert_ne hk]

omit [Crypto] in
/-- The supply with a block more, which never comes near the bound of its type. -/
theorem saturatingAdd_issued {n : Nat} (hn : n ≤ u64Max) :
    saturatingAdd u128Max (issuedThrough (n - 1)) (blockReward n) = issuedThrough n := by
  have hsum : issuedThrough (n - 1) + blockReward n = issuedThrough n := by
    cases n with
    | zero => rfl
    | succ n => exact (issuedThrough_succ n).symm
  rw [saturatingAdd, hsum]
  exact min_eq_left ((issuedThrough_lt hn).le.trans (by decide))

/-- A block that fits leads from a chain shown to a chain shown. -/
theorem Shows.apply (h : Shows t m bs) (hheight : b.height = bs.length) (hb : b.Fits (stateOf bs))
    (heq : applyBlock readHeader cfg b t m = .ok (t', m')) : Shows t' m' (bs ++ [b]) := by
  obtain ⟨state, fp, hashIndex, hashIndexFull, n, hok, hrows, hfp⟩ :=
    applyBlock_eq readHeader cfg t m hb.aligned
  rw [hok] at heq
  cases heq
  refine ⟨?_, ?_, ?_, ?_⟩
  · rw [stateOf_concat, ← h.rows]
    exact hrows
  · exact hfp h.fingerprint (h.rows ▸ hb)
  · rw [List.length_append, List.length_singleton, Nat.add_sub_cancel,
      ← saturatingAdd_issued (hheight ▸ hb.height_le), ← h.issued, ← hheight, ← hb.issued]
    rfl
  · intro k blob hk
    have hk : (putUndo b t).undo.lookup k = some blob := hk
    rw [lookup_putUndo] at hk
    split_ifs at hk with hself
    · obtain rfl := Option.some.inj hk
      exact ⟨b, by rw [hself, hheight, List.getElem?_concat_length], rfl⟩
    · obtain ⟨c, hc, rfl⟩ := h.undo k blob hk
      exact ⟨c, (List.getElem?_append_left (List.getElem?_eq_some_iff.mp hc).1).trans hc, rfl⟩

end

end Plaine.Storage

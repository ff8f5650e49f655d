import Plaine.Chain.Mempool
import Plaine.Lib.Table

/-!
# The tables of the mempool

What the transactions, the slots of each sender, the arrival queue, the sum of the sizes and the
next nonces have to do with one another, and that insertions and removals keep it.
-/

namespace Plaine.Chain

open Plaine.Lib Plaine.Consensus

/-! ## Slots -/

namespace Slots

variable {m : Slots} {n k : Nat} {id : Hash32}

/-- Ascending nonces, one slot for each. -/
def Sorted (m : Slots) : Prop := m.Pairwise (·.1 < ·.1)

theorem mem_remove : (n, id) ∈ m.remove k ↔ (n, id) ∈ m ∧ n ≠ k := by
  rw [remove, List.mem_filter, decide_eq_true_iff]

theorem Sorted.remove (h : m.Sorted) (k : Nat) : (m.remove k).Sorted := h.filter _

theorem mem_insert {x : Nat × Hash32} : x ∈ m.insert k id ↔ x = (k, id) ∨ x ∈ m.remove k := by
  rw [insert, List.mem_orderedInsert]

theorem Sorted.insert (h : m.Sorted) (k : Nat) (id : Hash32) : (m.insert k id).Sorted := by
  have hle : ((m.remove k).orderedInsert (fun a b ↦ a.1 ≤ b.1) (k, id)).Pairwise
      fun a b ↦ a.1 ≤ b.1 := by
    have htotal : Std.Total fun a b : Nat × Hash32 ↦ a.1 ≤ b.1 := ⟨fun a b ↦ Nat.le_total a.1 b.1⟩
    have htrans : IsTrans (Nat × Hash32) fun a b ↦ a.1 ≤ b.1 := ⟨fun _ _ _ h h' ↦ h.trans h'⟩
    exact List.Pairwise.orderedInsert _ _ ((h.remove k).imp le_of_lt)
  have hne : ((m.remove k).orderedInsert (fun a b ↦ a.1 ≤ b.1) (k, id)).Pairwise
      fun a b ↦ a.1 ≠ b.1 := by
    refine (List.perm_orderedInsert _ _ _).symm.pairwise ?_ fun h ↦ Ne.symm h
    refine List.Pairwise.cons (fun x hx ↦ ?_) ((h.remove k).imp ne_of_lt)
    obtain ⟨n, id'⟩ := x
    exact (mem_remove.mp hx).2.symm
  exact (hle.and hne).imp fun h ↦ lt_of_le_of_ne h.1 h.2

theorem length_insert (m : Slots) (k : Nat) (id : Hash32) :
    (m.insert k id).length = (m.remove k).length + 1 := List.orderedInsert_length _ _ _

theorem insert_ne_nil (m : Slots) (k : Nat) (id : Hash32) : m.insert k id ≠ [] := by
  intro h
  have hlen := m.length_insert k id
  rw [h] at hlen
  cases hlen

theorem length_remove_lt (h : (k, id) ∈ m) : (m.remove k).length < m.length := by
  rw [remove, List.length_filter_lt_length_iff_exists]
  exact ⟨(k, id), h, by simp⟩

/-- What is left of some slots without a nonce has no slot for it. -/
theorem sublist_remove {m' : Slots} (h : m'.Sublist m) (hk : ∀ id, (k, id) ∉ m') :
    m'.Sublist (m.remove k) := by
  have hself : m'.remove k = m' := by
    rw [remove, List.filter_eq_self]
    rintro ⟨n, id⟩ hx
    rw [decide_eq_true_iff]
    rintro rfl
    exact hk id hx
  rw [← hself]
  exact h.filter _

theorem Sorted.unique (h : m.Sorted) {id' : Hash32} (hid : (n, id) ∈ m) (hid' : (n, id') ∈ m) :
    id = id' := by
  have hnodup : (m.map (·.1)).Nodup := List.pairwise_map.mpr (h.imp ne_of_lt)
  exact (Prod.mk.inj (List.inj_on_of_nodup_map hnodup hid hid' rfl)).2

theorem get_eq_some (h : m.Sorted) : m.get n = some id ↔ (n, id) ∈ m := by
  have hget {id' : Hash32} (hget : m.get n = some id') : (n, id') ∈ m := by
    unfold get at hget
    obtain ⟨⟨k, id''⟩, hfind, rfl⟩ := Option.map_eq_some_iff.mp hget
    have hk := List.find?_some hfind
    rw [decide_eq_true_iff] at hk
    obtain rfl := hk
    exact List.mem_of_find?_eq_some hfind
  refine ⟨hget, fun hmem ↦ ?_⟩
  cases hfound : m.get n with
  | none =>
    unfold get at hfound
    rw [Option.map_eq_none_iff, List.find?_eq_none] at hfound
    exact absurd (decide_eq_true rfl) (hfound (n, id) hmem)
  | some id' => rw [h.unique (hget hfound) hmem]

end Slots

/-! ## What the tables agree on -/

/-- A transaction but for its flag. -/
def PoolTx.plain (t : PoolTx) : PoolTx := { t with executable := false }

namespace PoolTx

variable {t t' : PoolTx}

theorem txid_eq (h : t.plain = t'.plain) : t.txid = t'.txid :=
  show t.plain.txid = t'.plain.txid by rw [h]

theorem sender_eq (h : t.plain = t'.plain) : t.sender = t'.sender :=
  show t.plain.sender = t'.plain.sender by rw [h]

theorem nonce_eq (h : t.plain = t'.plain) : t.nonce = t'.nonce :=
  show t.plain.nonce = t'.plain.nonce by rw [h]

theorem bytes_eq (h : t.plain = t'.plain) : t.bytes = t'.bytes :=
  show t.plain.bytes = t'.plain.bytes by rw [h]

end PoolTx

namespace Mempool

variable {p q r : Mempool} {t : PoolTx} {id : Hash32} {s : Address}

/-- The tables agree. -/
structure Indexed (p : Mempool) : Prop where
  txid : ∀ id t, p.txs.lookup id = some t → t.txid = id
  slot : ∀ s n id, (n, id) ∈ p.slotsOf s ↔
    ∃ t, p.txs.lookup id = some t ∧ t.sender = s ∧ t.nonce = n
  sorted : ∀ s, (p.slotsOf s).Sorted
  kept : ∀ s m, p.bySender.lookup s = some m → m ≠ []
  nodup : p.arrival.Nodup
  arrival : ∀ id, id ∈ p.arrival ↔ id ∈ p.txs
  totalBytes : p.totalBytes = AList.total (·.bytes.length) p.txs

/-- The senders that have slots have an entry in the table of next nonces, and no others. -/
def Tracked (p : Mempool) : Prop := ∀ s, s ∈ p.nextNonce ↔ p.slotsOf s ≠ []

/-- What is left of a pool, but for the flags and the next nonces. -/
structure Shrinks (p q : Mempool) : Prop where
  params : q.params = p.params
  txs : ∀ id t, q.txs.lookup id = some t → ∃ t', p.txs.lookup id = some t' ∧ t.plain = t'.plain
  slots : ∀ s, (q.slotsOf s).Sublist (p.slotsOf s)
  length : q.txs.keys.length ≤ p.txs.keys.length
  totalBytes : q.totalBytes ≤ p.totalBytes

theorem Shrinks.refl (p : Mempool) : Shrinks p p :=
  ⟨rfl, fun _ t h ↦ ⟨t, h, rfl⟩, fun _ ↦ .refl _, le_rfl, le_rfl⟩

theorem Shrinks.trans (h : Shrinks p q) (h' : Shrinks q r) : Shrinks p r where
  params := h'.params.trans h.params
  txs id t ht := by
    obtain ⟨t', ht', hplain'⟩ := h'.txs id t ht
    obtain ⟨t'', ht'', hplain''⟩ := h.txs id t' ht'
    exact ⟨t'', ht'', hplain'.trans hplain''⟩
  slots s := (h'.slots s).trans (h.slots s)
  length := h'.length.trans h.length
  totalBytes := h'.totalBytes.trans h.totalBytes

theorem Shrinks.lookup_eq_none (h : Shrinks p q) (hid : p.txs.lookup id = none) :
    q.txs.lookup id = none := by
  cases ht : q.txs.lookup id with
  | none => rfl
  | some t =>
    obtain ⟨t', ht', -⟩ := h.txs id t ht
    cases hid.symm.trans ht'

/-! ### Removals -/

/-- A sender's slots without a transaction's. -/
theorem slotsOf_freeSlot (p : Mempool) (t : PoolTx) (s : Address) : (p.freeSlot t).slotsOf s =
    if s = t.sender then (p.slotsOf s).remove t.nonce else p.slotsOf s := by
  unfold freeSlot slotsOf
  cases hm : p.bySender.lookup t.sender with
  | none =>
    dsimp only
    split
    case isTrue hs =>
      subst hs
      rw [hm]
      rfl
    case isFalse => rfl
  | some m =>
    dsimp only
    split
    case isTrue hempty =>
      dsimp only
      split
      case isTrue hs =>
        subst hs
        rw [AList.lookup_erase, hm, Option.getD_some, hempty, Option.getD_none]
      case isFalse hs => rw [AList.lookup_erase_ne hs]
    case isFalse =>
      dsimp only
      split
      case isTrue hs =>
        subst hs
        rw [AList.lookup_insert, hm, Option.getD_some, Option.getD_some]
      case isFalse hs => rw [AList.lookup_insert_ne hs]

theorem freeSlot_keeps (p : Mempool) (t : PoolTx) : (p.freeSlot t).params = p.params ∧
    (p.freeSlot t).txs = p.txs ∧ (p.freeSlot t).totalBytes = p.totalBytes ∧
      (p.freeSlot t).arrival = p.arrival := by
  unfold freeSlot
  split
  case h_1 => exact ⟨rfl, rfl, rfl, rfl⟩
  case h_2 => split <;> exact ⟨rfl, rfl, rfl, rfl⟩

theorem freeSlot_kept (h : ∀ s m, p.bySender.lookup s = some m → m ≠ []) (t : PoolTx) :
    ∀ s m, (p.freeSlot t).bySender.lookup s = some m → m ≠ [] := by
  intro s m hm
  unfold freeSlot at hm
  split at hm
  case h_1 => exact h s m hm
  case h_2 m' _ =>
    rcases eq_or_ne s t.sender with rfl | hs
    · split at hm
      case isTrue =>
        rw [AList.lookup_erase] at hm
        cases hm
      case isFalse hne =>
        rw [AList.lookup_insert] at hm
        cases hm
        exact hne
    · split at hm
      case isTrue =>
        rw [AList.lookup_erase_ne hs] at hm
        exact h s m hm
      case isFalse =>
        rw [AList.lookup_insert_ne hs] at hm
        exact h s m hm

/-- A sender's entry goes with its last slot. -/
theorem Tracked.freeSlot (h : Tracked p) (t : PoolTx) : Tracked (p.freeSlot t) := by
  intro s
  rw [slotsOf_freeSlot]
  have hs := h s
  unfold slotsOf at hs ⊢
  unfold Mempool.freeSlot
  split
  case h_1 hnone =>
    split
    case isTrue heq =>
      subst heq
      rw [hnone] at hs ⊢
      exact hs
    case isFalse => exact hs
  case h_2 m hm =>
    rcases eq_or_ne s t.sender with rfl | hne
    · rw [if_pos rfl, hm, Option.getD_some]
      rw [hm, Option.getD_some] at hs
      split
      case isTrue hempty =>
        rw [hempty]
        exact iff_of_false (fun hmem ↦ (AList.mem_erase.mp hmem).1 rfl) fun h ↦ h rfl
      case isFalse hrest =>
        refine iff_of_true (hs.mpr ?_) hrest
        rintro rfl
        exact hrest rfl
    · rw [if_neg hne]
      split
      case isTrue =>
        rw [AList.mem_erase]
        exact (and_iff_right hne).trans hs
      case isFalse => exact hs

/-- What `remove` does. -/
theorem remove_of_none (h : p.txs.lookup id = none) : p.remove id = (none, p) := by
  rw [remove, h]

theorem remove_of_some (h : p.txs.lookup id = some t) : (p.remove id).1 = some t ∧
    (p.remove id).2.params = p.params ∧ (p.remove id).2.txs = p.txs.erase id ∧
    (p.remove id).2.totalBytes = p.totalBytes - t.bytes.length ∧
    (p.remove id).2.arrival = p.arrival.filter (· ≠ id) ∧
    ∀ s, (p.remove id).2.slotsOf s =
      if s = t.sender then (p.slotsOf s).remove t.nonce else p.slotsOf s := by
  have hkeeps := freeSlot_keeps { p with
    txs := p.txs.erase id, totalBytes := p.totalBytes - t.bytes.length } t
  have hslots := slotsOf_freeSlot { p with
    txs := p.txs.erase id, totalBytes := p.totalBytes - t.bytes.length } t
  rw [remove, h]
  obtain ⟨hparams, htxs, htotal, harrival⟩ := hkeeps
  refine ⟨rfl, hparams, htxs, htotal, ?_, hslots⟩
  dsimp only
  rw [harrival]

theorem remove_shrinks (p : Mempool) (id : Hash32) : Shrinks p (p.remove id).2 := by
  cases ht : p.txs.lookup id with
  | none =>
    rw [remove_of_none ht]
    exact .refl p
  | some t =>
    obtain ⟨-, hparams, htxs, htotal, -, hslots⟩ := remove_of_some ht
    refine ⟨hparams, fun k t' ht' ↦ ?_, fun s ↦ ?_, ?_, ?_⟩
    · rw [htxs] at ht'
      rcases eq_or_ne k id with rfl | hk
      · rw [AList.lookup_erase] at ht'
        cases ht'
      · rw [AList.lookup_erase_ne hk] at ht'
        exact ⟨t', ht', rfl⟩
    · rw [hslots]
      split
      case isTrue => exact List.filter_sublist
      case isFalse => exact .refl _
    · rw [htxs, AList.length_keys_erase]
      exact Nat.sub_le _ _
    · rw [htotal]
      exact Nat.sub_le _ _

theorem Tracked.remove (h : Tracked p) (id : Hash32) : Tracked (p.remove id).2 := by
  unfold Mempool.remove
  split
  case h_1 => exact h
  case h_2 t ht => exact Tracked.freeSlot (p := { p with
      txs := p.txs.erase id, totalBytes := p.totalBytes - t.bytes.length }) h t

theorem Indexed.remove (h : Indexed p) (id : Hash32) : Indexed (p.remove id).2 := by
  cases ht : p.txs.lookup id with
  | none =>
    rw [remove_of_none ht]
    exact h
  | some t =>
    obtain ⟨-, -, htxs, htotal, harrival, hslots⟩ := remove_of_some ht
    refine ⟨fun k t' ht' ↦ ?_, fun s n k ↦ ?_, fun s ↦ ?_, ?_, ?_, fun k ↦ ?_, ?_⟩
    · obtain ⟨t'', ht'', hplain⟩ := (remove_shrinks p id).txs k t' ht'
      rw [← h.txid k t'' ht'']
      exact PoolTx.txid_eq hplain
    · have hleft : (n, k) ∈ (p.remove id).2.slotsOf s ↔ (n, k) ∈ p.slotsOf s ∧ k ≠ id := by
        rw [hslots]
        split
        case isTrue hs =>
          subst hs
          rw [Slots.mem_remove]
          refine and_congr_right fun hmem ↦ ?_
          have hid : (t.nonce, id) ∈ p.slotsOf t.sender := (h.slot _ _ _).mpr ⟨t, ht, rfl, rfl⟩
          constructor
          · rintro hn rfl
            obtain ⟨t', ht', -, rfl⟩ := (h.slot _ _ _).mp hmem
            cases ht.symm.trans ht'
            exact hn rfl
          · rintro hk rfl
            exact hk ((h.sorted _).unique hmem hid)
        case isFalse hs =>
          refine (and_iff_left_of_imp fun hmem ↦ ?_).symm
          rintro rfl
          obtain ⟨t', ht', rfl, -⟩ := (h.slot _ _ _).mp hmem
          cases ht.symm.trans ht'
          exact hs rfl
      rw [hleft, h.slot, htxs]
      constructor
      · rintro ⟨⟨t', ht', hs, hn⟩, hk⟩
        exact ⟨t', (AList.lookup_erase_ne hk).trans ht', hs, hn⟩
      · rintro ⟨t', ht', hs, hn⟩
        rcases eq_or_ne k id with rfl | hk
        · rw [AList.lookup_erase] at ht'
          cases ht'
        · rw [AList.lookup_erase_ne hk] at ht'
          exact ⟨⟨t', ht', hs, hn⟩, hk⟩
    · rw [hslots]
      split
      case isTrue => exact (h.sorted s).remove _
      case isFalse => exact h.sorted s
    · have hkept := freeSlot_kept (p := { p with
        txs := p.txs.erase id, totalBytes := p.totalBytes - t.bytes.length }) h.kept t
      rw [Mempool.remove, ht]
      exact hkept
    · rw [harrival]
      exact h.nodup.filter _
    · rw [harrival, htxs, List.mem_filter, decide_eq_true_iff, h.arrival, AList.mem_erase, and_comm]
    · rw [htotal, htxs, h.totalBytes, ← AList.total_erase ht, Nat.add_sub_cancel]

/-! ### Flags -/

/-- Two tables of transactions differ in the flags alone. -/
structure Flagged (m m' : AList fun _ : Hash32 ↦ PoolTx) : Prop where
  lookup : ∀ id, (m'.lookup id).map PoolTx.plain = (m.lookup id).map PoolTx.plain
  length : m'.keys.length = m.keys.length
  total : AList.total (·.bytes.length) m' = AList.total (·.bytes.length) m

theorem Flagged.refl (m : AList fun _ : Hash32 ↦ PoolTx) : Flagged m m := ⟨fun _ ↦ rfl, rfl, rfl⟩

theorem Flagged.trans {m m' m'' : AList fun _ : Hash32 ↦ PoolTx} (h : Flagged m m')
    (h' : Flagged m' m'') : Flagged m m'' :=
  ⟨fun id ↦ (h'.lookup id).trans (h.lookup id), h'.length.trans h.length, h'.total.trans h.total⟩

theorem Flagged.insert {m : AList fun _ : Hash32 ↦ PoolTx} {t' : PoolTx}
    (ht : m.lookup id = some t) (hplain : t'.plain = t.plain) : Flagged m (m.insert id t') where
  lookup k := by
    rcases eq_or_ne k id with rfl | hk
    · rw [AList.lookup_insert, ht, Option.map_some, Option.map_some, hplain]
    · rw [AList.lookup_insert_ne hk]
  length := by
    rw [AList.length_keys_insert, ht]
    rfl
  total := by
    rw [AList.total_insert_erase, ← AList.total_erase ht, PoolTx.bytes_eq hplain, Nat.add_comm]

theorem flagged_resplitLoop (m : Slots) (want : Nat) (txs : AList fun _ : Hash32 ↦ PoolTx) :
    Flagged txs (resplitLoop m want txs).2 := by
  induction m generalizing want txs with
  | nil => exact .refl txs
  | cons x m ih =>
    obtain ⟨n, id⟩ := x
    unfold resplitLoop
    dsimp only
    split
    case h_1 => exact ih _ _
    case h_2 t ht =>
      refine Flagged.trans ?_ (ih _ _)
      exact .insert ht rfl

theorem Flagged.of_lookup {m m' : AList fun _ : Hash32 ↦ PoolTx} (h : Flagged m m')
    (ht : m'.lookup id = some t) : ∃ t', m.lookup id = some t' ∧ t.plain = t'.plain := by
  have hlookup := h.lookup id
  rw [ht, Option.map_some] at hlookup
  obtain ⟨t', ht', hplain⟩ := Option.map_eq_some_iff.mp hlookup.symm
  exact ⟨t', ht', hplain.symm⟩

theorem Flagged.symm {m m' : AList fun _ : Hash32 ↦ PoolTx} (h : Flagged m m') : Flagged m' m :=
  ⟨fun id ↦ (h.lookup id).symm, h.length.symm, h.total.symm⟩

theorem Flagged.mem_iff {m m' : AList fun _ : Hash32 ↦ PoolTx} (h : Flagged m m') :
    id ∈ m' ↔ id ∈ m := by
  rw [← AList.lookup_isSome, ← AList.lookup_isSome, ← Option.isSome_map, h.lookup,
    Option.isSome_map]

theorem resplit_shrinks (p : Mempool) (s : Address) (next : Nat) :
    Shrinks p (p.resplit s next).2 := by
  have hflagged := flagged_resplitLoop (p.slotsOf s) next p.txs
  exact ⟨rfl, fun _ _ ht ↦ hflagged.of_lookup ht, fun _ ↦ .refl _, hflagged.length.le, le_rfl⟩

theorem Indexed.resplit (h : Indexed p) (s : Address) (next : Nat) :
    Indexed (p.resplit s next).2 := by
  have hflagged := flagged_resplitLoop (p.slotsOf s) next p.txs
  refine ⟨fun id t ht ↦ ?_, fun s' n id ↦ ?_, h.sorted, h.kept, h.nodup, fun id ↦ ?_, ?_⟩
  · obtain ⟨t', ht', hplain⟩ := hflagged.of_lookup ht
    exact (PoolTx.txid_eq hplain).trans (h.txid id t' ht')
  · refine (h.slot s' n id).trans ?_
    constructor
    · rintro ⟨t, ht, hs, hn⟩
      obtain ⟨t', ht', hplain⟩ := hflagged.symm.of_lookup ht
      exact ⟨t', ht', (PoolTx.sender_eq hplain).symm.trans hs,
        (PoolTx.nonce_eq hplain).symm.trans hn⟩
    · rintro ⟨t, ht, hs, hn⟩
      obtain ⟨t', ht', hplain⟩ := hflagged.of_lookup ht
      exact ⟨t', ht', (PoolTx.sender_eq hplain).symm.trans hs,
        (PoolTx.nonce_eq hplain).symm.trans hn⟩
  · exact (h.arrival id).trans hflagged.mem_iff.symm
  · exact h.totalBytes.trans hflagged.total.symm

theorem Tracked.resplit (h : Tracked p) (s : Address) (next : Nat) :
    Tracked (p.resplit s next).2 := h

/-! ### Insertions -/

theorem slotsOf_insert (p : Mempool) (t : PoolTx) (s : Address) : (p.insert t).slotsOf s =
    if s = t.sender then (p.slotsOf s).insert t.nonce t.txid else p.slotsOf s := by
  show ((p.bySender.insert t.sender ((p.slotsOf t.sender).insert t.nonce t.txid)).lookup s).getD
    [] = _
  split
  case isTrue hs =>
    subst hs
    rw [AList.lookup_insert, Option.getD_some]
  case isFalse hs =>
    rw [AList.lookup_insert_ne hs]
    rfl

/-- A new transaction in a free slot. -/
theorem Indexed.insert (h : Indexed p) (hid : p.txs.lookup t.txid = none)
    (hslot : ∀ id, (t.nonce, id) ∉ p.slotsOf t.sender) : Indexed (p.insert t) := by
  have hnot : t.txid ∉ p.txs := AList.lookup_eq_none.mp hid
  have hlookup (id : Hash32) : (p.insert t).txs.lookup id =
      if id = t.txid then some t else p.txs.lookup id := by
    show (p.txs.insert t.txid t).lookup id = _
    split
    case isTrue heq =>
      subst heq
      exact AList.lookup_insert _
    case isFalse hne => exact AList.lookup_insert_ne hne
  refine ⟨fun id t' ht' ↦ ?_, fun s n id ↦ ?_, fun s ↦ ?_, fun s m hm ↦ ?_, ?_, fun id ↦ ?_, ?_⟩
  · rw [hlookup] at ht'
    split at ht'
    case isTrue heq =>
      cases ht'
      exact heq.symm
    case isFalse => exact h.txid id t' ht'
  · have hleft : (n, id) ∈ (p.insert t).slotsOf s ↔
        (s = t.sender ∧ n = t.nonce ∧ id = t.txid) ∨ (n, id) ∈ p.slotsOf s := by
      rw [slotsOf_insert]
      split
      case isTrue hs =>
        subst hs
        rw [Slots.mem_insert, Slots.mem_remove, Prod.mk.injEq]
        refine or_congr (and_iff_right rfl).symm (and_iff_left_of_imp fun hmem ↦ ?_)
        rintro rfl
        exact hslot id hmem
      case isFalse hs => exact (or_iff_right fun h ↦ hs h.1).symm
    rw [hleft, h.slot]
    constructor
    · rintro (⟨rfl, rfl, rfl⟩ | ⟨t', ht', hs, hn⟩)
      · exact ⟨t, (hlookup t.txid).trans (if_pos rfl), rfl, rfl⟩
      · refine ⟨t', (hlookup id).trans ((if_neg ?_).trans ht'), hs, hn⟩
        rintro rfl
        cases hid.symm.trans ht'
    · rintro ⟨t', ht', rfl, rfl⟩
      rw [hlookup] at ht'
      split at ht'
      case isTrue heq =>
        cases ht'
        exact .inl ⟨rfl, rfl, heq⟩
      case isFalse => exact .inr ⟨t', ht', rfl, rfl⟩
  · rw [slotsOf_insert]
    split
    case isTrue => exact (h.sorted s).insert _ _
    case isFalse => exact h.sorted s
  · rcases eq_or_ne s t.sender with rfl | hs
    · have hinsert : (p.insert t).bySender.lookup t.sender =
          some ((p.slotsOf t.sender).insert t.nonce t.txid) := AList.lookup_insert _
      cases hm.symm.trans hinsert
      exact Slots.insert_ne_nil _ _ _
    · exact h.kept s m ((AList.lookup_insert_ne hs).symm.trans hm)
  · refine List.Nodup.append h.nodup (List.nodup_singleton _) ?_
    rw [List.disjoint_singleton]
    exact fun hmem ↦ hnot ((h.arrival _).mp hmem)
  · show id ∈ p.arrival ++ [t.txid] ↔ id ∈ p.txs.insert t.txid t
    rw [List.mem_append, List.mem_singleton, AList.mem_insert, h.arrival, or_comm]
  · show p.totalBytes + t.bytes.length = AList.total _ (p.txs.insert t.txid t)
    rw [AList.total_insert hnot, h.totalBytes, Nat.add_comm]

theorem Tracked.insert (h : Tracked p) (ht : t.sender ∈ p.nextNonce) : Tracked (p.insert t) := by
  intro s
  show s ∈ p.nextNonce ↔ _
  rw [slotsOf_insert]
  split
  case isTrue hs =>
    subst hs
    exact iff_of_true ht (Slots.insert_ne_nil _ _ _)
  case isFalse => exact h s

/-- A sender whose next nonce has just been set. -/
theorem Tracked.insert_next (h : Tracked p) (t : PoolTx) (next : Nat) :
    Tracked ({ p with nextNonce := p.nextNonce.insert t.sender next }.insert t) := by
  intro s
  show s ∈ p.nextNonce.insert t.sender next ↔ _
  rw [AList.mem_insert, slotsOf_insert]
  split
  case isTrue hs => exact iff_of_true (.inl hs) (Slots.insert_ne_nil _ _ _)
  case isFalse hs => exact (or_iff_right hs).trans (h s)

end Mempool

end Plaine.Chain

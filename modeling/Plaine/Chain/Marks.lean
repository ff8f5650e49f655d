import Plaine.Chain.PoolRun
import Plaine.Lib.Contiguous

/-!
# Executable marks

`resplit` marks the run of nonces from the account's next one on.  The marks of a sender stay right
under everything that happens to others, under evictions of its own, and under sweeps as long as the
pool knows the next nonce.
-/

namespace Plaine.Chain

open Plaine.Lib Plaine.Consensus

/-- There is a slot for a nonce. -/
def Slots.Holds (m : Slots) (n : Nat) : Prop := ∃ id, (n, id) ∈ m

theorem Slots.holds_cons {m : Slots} {x : Nat × Hash32} {n : Nat} :
    Slots.Holds (x :: m) n ↔ n = x.1 ∨ m.Holds n := by
  constructor
  · rintro ⟨id, hid⟩
    rcases List.mem_cons.mp hid with rfl | hid
    · exact .inl rfl
    · exact .inr ⟨id, hid⟩
  · rintro (rfl | ⟨id, hid⟩)
    · exact ⟨x.2, List.mem_cons_self⟩
    · exact ⟨id, List.mem_cons_of_mem x hid⟩

theorem Slots.holds_remove {m : Slots} {k n : Nat} :
    (m.remove k).Holds n ↔ m.Holds n ∧ n ≠ k := by
  constructor
  · rintro ⟨id, hid⟩
    obtain ⟨hmem, hne⟩ := Slots.mem_remove.mp hid
    exact ⟨⟨id, hmem⟩, hne⟩
  · rintro ⟨⟨id, hid⟩, hne⟩
    exact ⟨id, Slots.mem_remove.mpr ⟨hid, hne⟩⟩

namespace Mempool

variable {p q r : Mempool} {t : PoolTx} {id : Hash32} {s : Address} {next : Nat}

/-! ## Splitting -/

/-- The slots of others are left alone. -/
theorem resplitLoop_other (m : Slots) (want : Nat) (txs : AList fun _ : Hash32 ↦ PoolTx)
    (hid : id ∉ m.map (·.2)) : (resplitLoop m want txs).2.lookup id = txs.lookup id := by
  induction m generalizing want txs with
  | nil => rfl
  | cons x m ih =>
    obtain ⟨n, k⟩ := x
    obtain ⟨hne, hid⟩ := not_or.mp (mt List.mem_cons.mpr hid)
    unfold resplitLoop
    dsimp only
    split
    case h_1 => exact ih _ _ hid
    case h_2 t _ => exact (ih _ _ hid).trans (AList.lookup_insert_ne hne)

/-- The run of slots beyond the first of them. -/
theorem run_cons {m : Slots} {k want n : Nat} {kid : Hash32} (hk : ∀ x ∈ m, k < x.1) (hn : k < n) :
    RunFrom (Slots.Holds ((k, kid) :: m)) want n ↔
      RunFrom (Slots.Holds m) (if k = want then want + 1 else want) n := by
  have habove {j : Nat} (hj : Slots.Holds m j) : k < j := by
    obtain ⟨id, hid⟩ := hj
    exact hk _ hid
  split
  case isTrue heq =>
    subst heq
    rw [RunFrom.iff_succ]
    constructor
    · rintro ⟨-, rfl | hrun⟩
      · exact absurd hn (lt_irrefl n)
      · exact hrun.mono fun j hj _ h ↦ (Slots.holds_cons.mp h).resolve_left (Nat.ne_of_gt hj)
    · intro hrun
      refine ⟨Slots.holds_cons.mpr (.inl rfl), .inr ?_⟩
      exact hrun.mono fun j _ _ h ↦ Slots.holds_cons.mpr (.inr h)
  case isFalse hne =>
    constructor
    · intro hrun
      -- the nonce wanted is itself a slot, and not the first, so all slots of the run are above
      have hwant := (Slots.holds_cons.mp (hrun.2 want le_rfl hrun.1)).resolve_left (Ne.symm hne)
      exact hrun.mono fun j hj _ h ↦
        (Slots.holds_cons.mp h).resolve_left (Nat.ne_of_gt ((habove hwant).trans_le hj))
    · exact fun hrun ↦ hrun.mono fun j _ _ h ↦ Slots.holds_cons.mpr (.inr h)

/-- The first slot is in the run exactly if it is the nonce wanted. -/
theorem run_head {m : Slots} {k want : Nat} {kid : Hash32} (hk : ∀ x ∈ m, k < x.1) :
    RunFrom (Slots.Holds ((k, kid) :: m)) want k ↔ k = want := by
  constructor
  · intro hrun
    rcases Slots.holds_cons.mp (hrun.2 want le_rfl hrun.1) with heq | ⟨id, hid⟩
    · exact heq.symm
    · exact absurd (hk _ hid) (Nat.not_lt.mpr hrun.1)
  · rintro rfl
    exact RunFrom.iff_succ.mpr ⟨Slots.holds_cons.mpr (.inl rfl), .inl rfl⟩

/-- A slot is marked when it is in the run of the slots from the nonce wanted. -/
theorem resplitLoop_marks {m : Slots} (hsorted : m.Sorted) (hids : (m.map (·.2)).Nodup)
    {want n : Nat} {txs : AList fun _ : Hash32 ↦ PoolTx} (hmem : (n, id) ∈ m)
    (ht : (resplitLoop m want txs).2.lookup id = some t) :
    t.executable = true ↔ RunFrom (Slots.Holds m) want n := by
  induction m generalizing want txs with
  | nil => cases hmem
  | cons x m ih =>
    obtain ⟨k, kid⟩ := x
    obtain ⟨hk, hsorted⟩ := List.pairwise_cons.mp hsorted
    obtain ⟨hkid, hids⟩ := List.nodup_cons.mp hids
    unfold resplitLoop at ht
    dsimp only at ht
    simp only [decide_eq_true_eq] at ht
    rcases List.mem_cons.mp hmem with heq | htail
    · cases heq
      rw [run_head hk]
      split at ht
      case h_1 hnone =>
        rw [resplitLoop_other m _ _ hkid, hnone] at ht
        cases ht
      case h_2 t' _ =>
        rw [resplitLoop_other m _ _ hkid, AList.lookup_insert] at ht
        cases ht
        exact decide_eq_true_iff
    · rw [run_cons hk (hk _ htail)]
      split at ht
      case h_1 => exact ih hsorted hids htail ht
      case h_2 => exact ih hsorted hids htail ht

/-- The marks of a sender are those of the run from a nonce. -/
def Marked (p : Mempool) (s : Address) (next : Nat) : Prop :=
  ∀ id t, p.txs.lookup id = some t → t.sender = s →
    (t.executable = true ↔ RunFrom (Slots.Holds (p.slotsOf s)) next t.nonce)

/-- No transaction has two slots. -/
theorem Indexed.nodup_ids (h : Indexed p) (s : Address) : ((p.slotsOf s).map (·.2)).Nodup := by
  rw [List.Nodup, List.pairwise_map]
  refine (h.sorted s).imp_of_mem fun {x y} hx hy hlt heq ↦ ?_
  obtain ⟨n, id⟩ := x
  obtain ⟨n', id'⟩ := y
  obtain rfl : id = id' := heq
  obtain ⟨t, ht, -, rfl⟩ := (h.slot s n id).mp hx
  obtain ⟨t', ht', -, rfl⟩ := (h.slot s n' id).mp hy
  cases ht.symm.trans ht'
  exact (lt_irrefl _ hlt)

/-- `resplit` marks the run. -/
theorem resplit_marked (h : Indexed p) (s : Address) (next : Nat) :
    Marked (p.resplit s next).2 s next := by
  intro id t ht hs
  have hmem := ((h.resplit s next).slot s t.nonce id).mpr ⟨t, ht, hs, rfl⟩
  exact resplitLoop_marks (h.sorted s) (h.nodup_ids s) hmem ht

/-- Everything of a sender is as it was. -/
structure Untouched (s : Address) (p q : Mempool) : Prop where
  slots : q.slotsOf s = p.slotsOf s
  next : q.nextNonce.lookup s = p.nextNonce.lookup s
  txs : ∀ id t, t.sender = s → (q.txs.lookup id = some t ↔ p.txs.lookup id = some t)

theorem Untouched.refl (s : Address) (p : Mempool) : Untouched s p p :=
  ⟨rfl, rfl, fun _ _ _ ↦ Iff.rfl⟩

theorem Untouched.trans (h : Untouched s p q) (h' : Untouched s q r) : Untouched s p r :=
  ⟨h'.slots.trans h.slots, h'.next.trans h.next,
    fun id t hs ↦ (h'.txs id t hs).trans (h.txs id t hs)⟩

theorem Untouched.marked (h : Untouched s p q) (hm : Marked p s next) : Marked q s next := by
  intro id t ht hs
  rw [h.slots]
  exact hm id t ((h.txs id t hs).mp ht) hs

/-- A split of another sender. -/
theorem resplit_untouched (h : Indexed p) {s' : Address} (hs : s ≠ s') (next : Nat) :
    Untouched s p (p.resplit s' next).2 := by
  have hflagged := flagged_resplitLoop (p.slotsOf s') next p.txs
  have hother {id : Hash32} {t : PoolTx} (ht : p.txs.lookup id = some t) (hsender : t.sender = s) :
      (p.resplit s' next).2.txs.lookup id = p.txs.lookup id := by
    refine resplitLoop_other _ _ _ fun hmem ↦ ?_
    obtain ⟨⟨n, k⟩, hslot, rfl⟩ := List.mem_map.mp hmem
    obtain ⟨t', ht', hs', -⟩ := (h.slot s' n k).mp hslot
    cases ht.symm.trans ht'
    exact hs (hsender.symm.trans hs')
  refine ⟨rfl, rfl, fun id t hsender ↦ ⟨fun ht ↦ ?_, fun ht ↦ ?_⟩⟩
  · obtain ⟨t', ht', hplain⟩ := hflagged.of_lookup ht
    have hsame := hother ht' ((PoolTx.sender_eq hplain).symm.trans hsender)
    exact hsame.symm.trans ht
  · exact (hother ht hsender).trans ht

/-! ## Removals -/

/-- The entry of a sender goes with its last slot. -/
theorem next_freeSlot (hne : p.slotsOf t.sender ≠ []) (s : Address) :
    (p.freeSlot t).nextNonce.lookup s =
      if s = t.sender ∧ (p.freeSlot t).slotsOf s = [] then none else p.nextNonce.lookup s := by
  rw [slotsOf_freeSlot]
  unfold slotsOf at hne ⊢
  unfold freeSlot
  cases hm : p.bySender.lookup t.sender with
  | none =>
    rw [hm] at hne
    exact absurd rfl hne
  | some m =>
    rcases eq_or_ne s t.sender with rfl | hs
    · rw [if_pos rfl, hm]
      dsimp only [Option.getD_some]
      split
      case isTrue hempty =>
        rw [if_pos ⟨rfl, hempty⟩]
        exact AList.lookup_erase _ _
      case isFalse hrest => exact (if_neg fun h ↦ hrest h.2).symm
    · rw [if_neg fun h ↦ hs h.1]
      dsimp only
      split
      case isTrue => exact AList.lookup_erase_ne hs
      case isFalse => rfl

theorem slotsOf_ne_nil (h : Indexed p) (ht : p.txs.lookup id = some t) :
    p.slotsOf t.sender ≠ [] :=
  List.ne_nil_of_mem ((h.slot t.sender t.nonce id).mpr ⟨t, ht, rfl, rfl⟩)

theorem next_remove (h : Indexed p) (ht : p.txs.lookup id = some t) (s : Address) :
    (p.remove id).2.nextNonce.lookup s =
      if s = t.sender ∧ (p.remove id).2.slotsOf s = [] then none else p.nextNonce.lookup s := by
  have hne := slotsOf_ne_nil h ht
  rw [remove, ht]
  exact next_freeSlot (p := { p with
    txs := p.txs.erase id, totalBytes := p.totalBytes - t.bytes.length }) hne s

/-- A removal of another sender's transaction. -/
theorem remove_untouched (h : Indexed p) (hs : ∀ t, p.txs.lookup id = some t → s ≠ t.sender) :
    Untouched s p (p.remove id).2 := by
  cases ht : p.txs.lookup id with
  | none =>
    rw [remove_of_none ht]
    exact .refl s p
  | some t =>
    obtain ⟨-, -, htxs, -, -, hslots⟩ := remove_of_some ht
    have hne := hs t ht
    refine ⟨?_, ?_, fun k t' hsender ↦ ?_⟩
    · rw [hslots, if_neg hne]
    · rw [next_remove h ht, if_neg fun h ↦ hne h.1]
    · rw [htxs]
      rcases eq_or_ne k id with rfl | hk
      · rw [AList.lookup_erase, ht]
        refine iff_of_false (by rintro ⟨⟩) ?_
        rintro ⟨⟩
        exact hne hsender.symm
      · rw [AList.lookup_erase_ne hk]

/-- The pool knows the next nonce of a sender, or has nothing of it. -/
def Bound (s : Address) (next : Nat) (p : Mempool) : Prop :=
  p.nextNonce.lookup s = some next ∨ (p.slotsOf s = [] ∧ p.nextNonce.lookup s = none)

theorem Bound.remove (h : Indexed p) (hb : Bound s next p) (id : Hash32) :
    Bound s next (p.remove id).2 := by
  cases ht : p.txs.lookup id with
  | none => rwa [remove_of_none ht]
  | some t =>
    unfold Bound
    rw [next_remove h ht]
    split
    case isTrue hempty => exact .inr ⟨hempty.2, rfl⟩
    case isFalse hrest =>
      rcases hb with hb | ⟨hempty, hnone⟩
      · exact .inl hb
      · refine .inr ⟨?_, hnone⟩
        exact List.sublist_nil.mp (hempty ▸ (remove_shrinks p id).slots s)

theorem Bound.removeAll (h : Indexed p) (hb : Bound s next p) (ids : List Hash32) :
    Bound s next (p.removeAll ids) := by
  induction ids generalizing p with
  | nil => exact hb
  | cons id ids ih => exact ih (h.remove id) (hb.remove h id)

/-- The marks of a sender are right, and can be made so again. -/
structure Fresh (s : Address) (next : Nat) (p : Mempool) : Prop where
  marked : Marked p s next
  known : p.slotsOf s ≠ [] → p.nextNonce.lookup s = some next ∨
    (p.nextNonce.lookup s = none ∧ (p.slotsOf s).length = 1)

theorem Untouched.fresh (h : Untouched s p q) (hf : Fresh s next p) : Fresh s next q := by
  refine ⟨h.marked hf.marked, ?_⟩
  rw [h.slots, h.next]
  exact hf.known

/-- A sender without slots. -/
theorem fresh_of_nil (h : Indexed p) (hs : p.slotsOf s = []) (next : Nat) : Fresh s next p := by
  refine ⟨fun id t ht hsender ↦ ?_, fun hne ↦ absurd hs hne⟩
  exact absurd (hsender ▸ hs) (slotsOf_ne_nil h ht)

/-- What is left of a sender that lost a transaction is known. -/
theorem Fresh.bound_remove (h : Indexed p) (hf : Fresh s next p) (ht : p.txs.lookup id = some t)
    (hs : t.sender = s) : Bound s next (p.remove id).2 := by
  have hmem := (h.slot s t.nonce id).mpr ⟨t, ht, hs, rfl⟩
  obtain ⟨-, -, -, -, -, hslots⟩ := remove_of_some ht
  unfold Bound
  rw [next_remove h ht]
  split
  case isTrue hempty => exact .inr ⟨hempty.2, rfl⟩
  case isFalse hrest =>
    rcases hf.known (List.ne_nil_of_mem hmem) with hknown | ⟨-, hone⟩
    · exact .inl hknown
    · refine absurd ⟨hs.symm, ?_⟩ hrest
      have hlt := Slots.length_remove_lt hmem
      rw [hslots, if_pos hs.symm]
      exact List.length_eq_zero_iff.mp (by omega)

/-- So is what is left after several removals, one of them of the sender's. -/
theorem Fresh.bound_removeAll (h : Indexed p) (hf : Fresh s next p) {ids : List Hash32}
    (hid : id ∈ ids) (ht : p.txs.lookup id = some t) (hs : t.sender = s) :
    Bound s next (p.removeAll ids) := by
  induction ids generalizing p with
  | nil => cases hid
  | cons k ids ih =>
    by_cases hk : ∃ t', p.txs.lookup k = some t' ∧ t'.sender = s
    · obtain ⟨t', ht', hs'⟩ := hk
      exact (hf.bound_remove h ht' hs').removeAll (h.remove k) ids
    · have hother := remove_untouched (s := s) h fun t' ht' heq ↦ hk ⟨t', ht', heq.symm⟩
      have hne : id ≠ k := by
        rintro rfl
        exact hk ⟨t, ht, hs⟩
      exact ih (h.remove k) (hother.fresh hf) ((List.mem_cons.mp hid).resolve_left hne)
        ((hother.txs id t hs).mpr ht)

theorem removeAll_untouched (h : Indexed p) {ids : List Hash32}
    (hs : ∀ id ∈ ids, ∀ t, p.txs.lookup id = some t → s ≠ t.sender) :
    Untouched s p (p.removeAll ids) := by
  induction ids generalizing p with
  | nil => exact .refl s p
  | cons id ids ih =>
    refine (remove_untouched h (hs id List.mem_cons_self)).trans (ih (h.remove id) ?_)
    intro k hk t ht
    obtain ⟨t', ht', hplain⟩ := (remove_shrinks p id).txs k t ht
    rw [PoolTx.sender_eq hplain]
    exact hs k (List.mem_cons_of_mem _ hk) t' ht'

/-! ## Evictions -/

theorem mem_values : t ∈ p.values ↔ ∃ id, p.txs.lookup id = some t := by
  unfold values
  rw [List.mem_map]
  constructor
  · rintro ⟨⟨id, t⟩, hmem, rfl⟩
    exact ⟨id, AList.mem_lookup_iff.mpr hmem⟩
  · rintro ⟨id, ht⟩
    exact ⟨⟨id, t⟩, AList.mem_lookup_iff.mp ht, rfl⟩

/-- A loop that picks an element, and goes without only over none. -/
theorem foldl_pick {α : Type} {f : Option α → α → Option α}
    (hf : ∀ b a, f b a = some a ∨ (f b a = b ∧ b ≠ none)) (l : List α) (b : Option α) :
    (∀ a, l.foldl f b = some a → a ∈ l ∨ b = some a) ∧
      (l.foldl f b = none → l = [] ∧ b = none) := by
  induction l generalizing b with
  | nil => exact ⟨fun a ha ↦ .inr ha, fun hb ↦ ⟨rfl, hb⟩⟩
  | cons x l ih =>
    obtain ⟨hsome, hnone⟩ := ih (f b x)
    refine ⟨fun a ha ↦ ?_, fun hfold ↦ ?_⟩
    · rcases hsome a ha with hmem | hfa
      · exact .inl (List.mem_cons_of_mem x hmem)
      · rcases hf b x with hx | ⟨hb, -⟩
        · exact .inl (List.mem_cons.mpr (.inl (Option.some.inj (hfa.symm.trans hx))))
        · exact .inr (hb.symm.trans hfa)
    · have hfx := (hnone hfold).2
      rcases hf b x with hx | ⟨hb, hne⟩
      · cases hx.symm.trans hfx
      · exact absurd (hb.symm.trans hfx) hne

/-- The victim is a queued transaction, or there is none and it is the last of some sender. -/
theorem evictionCandidate_cases (h : p.evictionCandidate = some id) :
    (∃ t ∈ p.values, t.executable = false ∧ t.txid = id) ∨
      ((∀ t ∈ p.values, t.executable = true) ∧ ∃ s n, (p.slotsOf s).getLast? = some (n, id)) := by
  unfold evictionCandidate at h
  dsimp only at h
  split at h
  case h_1 t ht =>
    cases h
    have hpick := (foldl_pick (fun b a ↦ ?_) _ none).1 t ht
    · obtain ⟨hmem, hqueued⟩ := List.mem_filter.mp (hpick.resolve_right (by rintro ⟨⟩))
      exact .inl ⟨t, hmem, by simpa using hqueued, rfl⟩
    · cases b with
      | none => exact .inl rfl
      | some b =>
        dsimp only
        split
        case isTrue => exact .inl rfl
        case isFalse => exact .inr ⟨rfl, by rintro ⟨⟩⟩
  case h_2 hnone =>
    have hempty := (foldl_pick (fun b a ↦ ?_) _ none).2 hnone
    · refine .inr ⟨fun t ht ↦ ?_, ?_⟩
      · have hnot := List.filter_eq_nil_iff.mp hempty.1 t ht
        simpa using hnot
      · obtain ⟨head, -, hlast⟩ := Option.bind_eq_some_iff.mp h
        obtain ⟨⟨n, k⟩, htail, rfl⟩ := Option.map_eq_some_iff.mp hlast
        exact ⟨head.sender, n, htail⟩
    · cases b with
      | none => exact .inl rfl
      | some b =>
        dsimp only
        split
        case isTrue => exact .inl rfl
        case isFalse => exact .inr ⟨rfl, by rintro ⟨⟩⟩

/-- What is known of a sender whose marks are right. -/
theorem Bound.fresh (hb : Bound s next p) (hm : Marked p s next) : Fresh s next p := by
  refine ⟨hm, fun hne ↦ ?_⟩
  rcases hb with hknown | ⟨hempty, -⟩
  · exact .inl hknown
  · exact absurd hempty hne

/-- No sender's run is cut by an eviction. -/
theorem Marked.evict (h : Indexed p) (hm : Marked p s next) {v : PoolTx}
    (hv : p.evictionCandidate = some id) (ht : p.txs.lookup id = some v) :
    Marked (p.remove id).2 s next := by
  rcases eq_or_ne s v.sender with rfl | hs
  · intro k t hk hsender
    obtain ⟨-, -, htxs, -, -, hslots⟩ := remove_of_some ht
    have hki : k ≠ id := by
      rintro rfl
      rw [htxs, AList.lookup_erase] at hk
      cases hk
    rw [htxs, AList.lookup_erase_ne hki] at hk
    have hmem := (h.slot v.sender t.nonce k).mpr ⟨t, hk, hsender, rfl⟩
    have hholds : Slots.Holds ((p.remove id).2.slotsOf v.sender) =
        fun n ↦ Slots.Holds (p.slotsOf v.sender) n ∧ n ≠ v.nonce := by
      rw [hslots, if_pos rfl]
      exact funext fun n ↦ propext Slots.holds_remove
    rw [hholds, hm k t hk hsender]
    rcases evictionCandidate_cases hv with ⟨v', hv', hqueued, hid⟩ | ⟨-, s', n, hlast⟩
    · -- a queued transaction is not in the run
      obtain ⟨k', hk'⟩ := mem_values.mp hv'
      obtain rfl := (h.txid k' v' hk').symm.trans hid
      cases ht.symm.trans hk'
      refine (RunFrom.erase_iff fun hrun ↦ ?_).symm
      exact Bool.false_ne_true (hqueued.symm.trans ((hm _ _ ht rfl).mpr hrun))
    · -- the last slot is above all others
      obtain ⟨v', hv', rfl, rfl⟩ := (h.slot s' n id).mp (List.mem_of_getLast? hlast)
      cases ht.symm.trans hv'
      obtain ⟨init, hinit⟩ := List.getLast?_eq_some_iff.mp hlast
      have hsorted := h.sorted v.sender
      rw [hinit, Slots.Sorted, List.pairwise_append] at hsorted
      rw [hinit, List.mem_append, List.mem_singleton] at hmem
      have hlt := hmem.elim (fun hmem ↦ hsorted.2.2 _ hmem _ List.mem_cons_self)
        fun heq ↦ absurd (Prod.mk.inj heq).2 hki
      exact (RunFrom.erase_iff_of_lt hlt).symm
  · refine (remove_untouched h fun t ht' ↦ ?_).marked hm
    cases ht.symm.trans ht'
    exact hs

theorem Fresh.evict (h : Indexed p) (hf : Fresh s next p) {v : PoolTx}
    (hv : p.evictionCandidate = some id) (ht : p.txs.lookup id = some v) :
    Fresh s next (p.remove id).2 := by
  rcases eq_or_ne s v.sender with rfl | hs
  · exact (hf.bound_remove h ht rfl).fresh (hf.marked.evict h hv ht)
  · refine (remove_untouched h fun t ht' ↦ ?_).fresh hf
    cases ht.symm.trans ht'
    exact hs

theorem Fresh.makeRoom (h : Indexed p) (hf : Fresh s next p) (fpb len fuel : Nat)
    (removed : List Hash32) : Fresh s next (makeRoom fpb len fuel p removed).1 := by
  induction fuel generalizing p removed with
  | zero => exact hf
  | succ fuel ih =>
    unfold Mempool.makeRoom
    split
    case isFalse => exact hf
    case isTrue =>
      split
      case h_1 => exact hf
      case h_2 victim hvictim =>
        split
        case isTrue => exact hf
        case isFalse =>
          obtain ⟨id, hid, hlookup⟩ := Option.bind_eq_some_iff.mp hvictim
          rw [h.txid id victim hlookup]
          exact ih (h.remove id) (hf.evict h hid hlookup) _

/-! ## Sweeps -/

/-- Splitting a sender at its next nonce makes its marks right. -/
theorem Bound.fresh_resplit (h : Indexed p) (hb : Bound s next p) :
    Fresh s next (p.resplit s next).2 := Bound.fresh (p := (p.resplit s next).2) hb
      (resplit_marked h s next)

/-- A split at the next nonce the pool knows. -/
def resplitKnown (p : Mempool) (s : Address) : Mempool :=
  (p.resplit s ((p.nextNonce.lookup s).getD 0)).2

/-- After a split of the sender at what the pool knows, and after further ones, its marks are
right. -/
theorem Bound.resplitKnown (h : Indexed p) (hb : Bound s next p) {s' : Address}
    (hs : s' = s ∨ Fresh s next p) : Fresh s next (p.resplitKnown s') := by
  rcases eq_or_ne s s' with rfl | hne
  · rcases hb with hknown | ⟨hempty, -⟩
    · have hfresh := Bound.fresh_resplit h (.inl hknown)
      unfold Mempool.resplitKnown
      rwa [hknown]
    · exact fresh_of_nil (h.resplit s _) hempty next
  · exact (resplit_untouched h hne _).fresh (hs.resolve_left hne.symm)

theorem Bound.foldl_resplitKnown (h : Indexed p) (hb : Bound s next p) {senders : List Address}
    (hs : s ∈ senders ∨ Fresh s next p) :
    Fresh s next (senders.foldl Mempool.resplitKnown p) := by
  induction senders generalizing p with
  | nil => exact hs.resolve_left List.not_mem_nil
  | cons s' senders ih =>
    have hindexed := h.resplit s' ((p.nextNonce.lookup s').getD 0)
    refine ih hindexed hb ?_
    rcases hs with hmem | hf
    · rcases List.mem_cons.mp hmem with rfl | hmem
      · exact .inr (hb.resplitKnown h (.inl rfl))
      · exact .inl hmem
    · exact .inr (hb.resplitKnown h (.inr hf))

theorem foldl_resplitKnown_untouched (h : Indexed p) {senders : List Address}
    (hs : s ∉ senders) : Untouched s p (senders.foldl Mempool.resplitKnown p) := by
  induction senders generalizing p with
  | nil => exact .refl s p
  | cons s' senders ih =>
    obtain ⟨hne, hs⟩ := not_or.mp (mt List.mem_cons.mpr hs)
    exact (resplit_untouched h hne _).trans (ih (h.resplit s' _) hs)

theorem sweepExpired_eq (p : Mempool) (now : Nat) : p.sweepExpired now =
    (((p.expired now).map (·.sender)).dedup).foldl Mempool.resplitKnown
      (p.removeAll ((p.expired now).map (·.txid))) := rfl

theorem Fresh.sweepExpired (h : Indexed p) (hf : Fresh s next p) (now : Nat) :
    Fresh s next (p.sweepExpired now) := by
  have hindexed := (removeAll_sheds p ((p.expired now).map (·.txid))).indexed h
  rw [sweepExpired_eq]
  by_cases hs : s ∈ (p.expired now).map (·.sender)
  · obtain ⟨t, ht, hsender⟩ := List.mem_map.mp hs
    obtain ⟨id, hid⟩ := mem_values.mp (List.mem_filter.mp ht).1
    have hmem : id ∈ (p.expired now).map (·.txid) :=
      List.mem_map.mpr ⟨t, ht, h.txid id t hid⟩
    have hb := hf.bound_removeAll h hmem hid hsender
    exact hb.foldl_resplitKnown hindexed (.inl (List.mem_dedup.mpr hs))
  · have hkept : Untouched s p (p.removeAll ((p.expired now).map (·.txid))) := by
      refine removeAll_untouched h fun id hid t ht heq ↦ ?_
      obtain ⟨t', ht', rfl⟩ := List.mem_map.mp hid
      obtain ⟨k, hk⟩ := mem_values.mp (List.mem_filter.mp ht').1
      obtain rfl := h.txid k t' hk
      cases ht.symm.trans hk
      exact hs (List.mem_map.mpr ⟨t, ht', heq.symm⟩)
    have hfold := foldl_resplitKnown_untouched hindexed (mt List.mem_dedup.mp hs)
    exact (hkept.trans hfold).fresh hf

/-! ## What the pool is told -/

theorem settle_fresh (h : Indexed p) (s : Address) (next : Nat) :
    Fresh s next (p.settle s next) := by
  have hindexed := h.next (p.nextNonce.insert s next)
  have hb : Bound s next { p with nextNonce := p.nextNonce.insert s next } :=
    .inl (AList.lookup_insert _)
  exact (hb.removeAll hindexed _).fresh_resplit ((removeAll_sheds _ _).indexed hindexed)

theorem settle_untouched (h : Indexed p) {s' : Address} (hs : s ≠ s') (next : Nat) :
    Untouched s p (p.settle s' next) := by
  have hindexed := h.next (p.nextNonce.insert s' next)
  have hset : Untouched s p { p with nextNonce := p.nextNonce.insert s' next } :=
    ⟨rfl, AList.lookup_insert_ne hs, fun _ _ _ ↦ Iff.rfl⟩
  have hdrop : Untouched s { p with nextNonce := p.nextNonce.insert s' next }
      ({ p with nextNonce := p.nextNonce.insert s' next }.dropBelowNonce s' next) := by
    refine removeAll_untouched hindexed fun id hid t ht ↦ ?_
    obtain ⟨⟨n, k⟩, hx, rfl⟩ := List.mem_map.mp hid
    obtain ⟨t', ht', hs', -⟩ := (h.slot s' n k).mp (List.mem_filter.mp hx).1
    cases ht.symm.trans ht'
    rw [hs']
    exact hs
  exact hset.trans (hdrop.trans
    (resplit_untouched ((removeAll_sheds _ _).indexed hindexed) hs next))

theorem Fresh.settle (h : Indexed p) (hf : Fresh s next p) {s' : Address} {next' : Nat}
    (hnext : s' = s → next' = next) : Fresh s next (p.settle s' next') := by
  rcases eq_or_ne s s' with rfl | hs
  · rw [hnext rfl]
    exact settle_fresh h s next
  · exact (settle_untouched h hs next').fresh hf

/-- Every sender the pool is told of is marked right afterwards. -/
theorem fresh_settleAll (h : Indexed p) {senders : List Address} {account : Address → Account}
    (hnext : (account s).nonce = next) (hs : s ∈ senders ∨ Fresh s next p) :
    Fresh s next (p.settleAll senders account) := by
  induction senders generalizing p with
  | nil => exact hs.resolve_left List.not_mem_nil
  | cons s' senders ih =>
    refine ih (h.settle s' _) ?_
    rcases hs with hmem | hf
    · rcases List.mem_cons.mp hmem with rfl | hmem
      · exact .inr (hnext ▸ settle_fresh h s _)
      · exact .inl hmem
    · refine .inr (hf.settle h ?_)
      rintro rfl
      exact hnext

end Mempool

end Plaine.Chain

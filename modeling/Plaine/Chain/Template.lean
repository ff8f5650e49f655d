import Plaine.Chain.Marks

/-!
# Templates

A template takes the senders one after the other, each by ascending nonce, until a transaction does
not fit.  Where a sender's marks are right its part of the template is the beginning of its run.
-/

namespace Plaine.Chain

open Plaine.Lib Plaine.Consensus

namespace Mempool

variable {p : Mempool} {t : PoolTx} {s : Address} {next : Nat}

/-! ## The chain of a sender -/

theorem mem_chainOf : t ∈ p.chainOf s ↔ t ∈ p.values ∧ t.executable = true ∧ t.sender = s := by
  rw [chainOf, List.mem_insertionSort, List.mem_filter, decide_eq_true_iff]

/-- No two transactions of a sender have the same nonce. -/
theorem Indexed.pairwise_values (h : Indexed p) :
    p.values.Pairwise fun t t' ↦ t.sender = t'.sender → t.nonce ≠ t'.nonce := by
  have hkeys : p.txs.entries.Pairwise fun x y ↦ x.1 ≠ y.1 :=
    List.pairwise_map.mp p.txs.nodupKeys
  refine List.pairwise_map.mpr (hkeys.imp_of_mem fun {x y} hx hy hne hs hn ↦ hne ?_)
  exact h.unique (AList.mem_lookup_iff.mpr hx) (AList.mem_lookup_iff.mpr hy) hs hn

theorem pairwise_chainOf (h : Indexed p) (s : Address) :
    ((p.chainOf s).map (·.nonce)).Pairwise (· < ·) := by
  have htotal : Std.Total fun a b : PoolTx ↦ a.nonce ≤ b.nonce :=
    ⟨fun a b ↦ Nat.le_total a.nonce b.nonce⟩
  have htrans : IsTrans PoolTx fun a b ↦ a.nonce ≤ b.nonce := ⟨fun _ _ _ h h' ↦ h.trans h'⟩
  have hle : (p.chainOf s).Pairwise fun a b ↦ a.nonce ≤ b.nonce :=
    List.pairwise_insertionSort _ _
  have hne : (p.chainOf s).Pairwise fun a b ↦ a.sender = b.sender → a.nonce ≠ b.nonce :=
    (List.perm_insertionSort _ _).symm.pairwise (h.pairwise_values.filter _)
      fun hab hs ↦ (hab hs.symm).symm
  rw [List.pairwise_map]
  refine (hle.and hne).imp_of_mem fun {a b} ha hb hab ↦ ?_
  exact lt_of_le_of_ne hab.1 (hab.2 ((mem_chainOf.mp ha).2.2.trans (mem_chainOf.mp hb).2.2.symm))

/-- The chain of a sender counts up from its next nonce. -/
theorem Marked.chainOf (h : Indexed p) (hm : Marked p s next) :
    (p.chainOf s).map (·.nonce) = List.range' next (p.chainOf s).length := by
  have hrun : ∀ n ∈ (p.chainOf s).map (·.nonce),
      RunFrom (· ∈ (p.chainOf s).map (·.nonce)) next n := by
    intro n hn
    obtain ⟨t, ht, rfl⟩ := List.mem_map.mp hn
    obtain ⟨hval, hexec, hs⟩ := mem_chainOf.mp ht
    obtain ⟨id, hid⟩ := mem_values.mp hval
    have hrun := (hm id t hid hs).mp hexec
    refine ⟨hrun.1, fun k hk hkt ↦ ?_⟩
    obtain ⟨id', hslot⟩ := hrun.2 k hk hkt
    obtain ⟨t', ht', hs', rfl⟩ := (h.slot s k id').mp hslot
    have hexec' := (hm id' t' ht' hs').mpr (hrun.of_le hk hkt)
    exact List.mem_map.mpr ⟨t', mem_chainOf.mpr ⟨mem_values.mpr ⟨id', ht'⟩, hexec', hs'⟩, rfl⟩
  have hcount := RunFrom.eq_range' (pairwise_chainOf h s) hrun
  rwa [List.length_map] at hcount

/-! ## The chains together -/

/-- A chain has the transactions of its sender. -/
theorem filter_chainOf (s s' : Address) :
    (p.chainOf s').filter (·.sender = s) = if s' = s then p.chainOf s else [] := by
  split
  case isTrue heq =>
    subst heq
    rw [List.filter_eq_self]
    exact fun t ht ↦ decide_eq_true (mem_chainOf.mp ht).2.2
  case isFalse hne =>
    rw [List.filter_eq_nil_iff]
    intro t ht
    rw [decide_eq_true_iff, (mem_chainOf.mp ht).2.2]
    exact hne

theorem filter_flatten_chainOf {l : List Address} (hl : l.Nodup) :
    (l.map p.chainOf).flatten.filter (·.sender = s) = if s ∈ l then p.chainOf s else [] := by
  induction l with
  | nil => rfl
  | cons a l ih =>
    obtain ⟨ha, hl⟩ := List.nodup_cons.mp hl
    rw [List.map_cons, List.flatten_cons, List.filter_append, ih hl, filter_chainOf]
    rcases eq_or_ne a s with rfl | hne
    · rw [if_pos rfl, if_neg ha, if_pos List.mem_cons_self, List.append_nil]
    · rw [if_neg hne, List.nil_append]
      simp only [List.mem_cons, hne.symm, false_or]

/-- The chains are those of the senders that have one, each once. -/
theorem chains_eq (p : Mempool) : ∃ l : List Address, l.Nodup ∧ p.chains = l.map p.chainOf ∧
    ∀ s, s ∈ l ↔ ∃ t ∈ p.values, t.executable = true ∧ t.sender = s := by
  unfold chains
  dsimp only
  generalize hsenders : (((p.values.filter (·.executable)).map (·.sender)).dedup.insertionSort
    fun a b ↦ ¬b < a) = senders
  have hsort := List.map_insertionSort
    (fun a b ↦ (((p.chainOf b).head?.map PoolTx.feePerByte).getD 0) ≤
      (((p.chainOf a).head?.map PoolTx.feePerByte).getD 0))
    (fun a b : List PoolTx ↦ ((b.head?.map PoolTx.feePerByte).getD 0) ≤
      ((a.head?.map PoolTx.feePerByte).getD 0)) p.chainOf senders fun _ _ _ _ ↦ Iff.rfl
  refine ⟨_, ?_, hsort.symm, fun s ↦ ?_⟩
  · refine (List.perm_insertionSort _ _).nodup_iff.mpr ?_
    rw [← hsenders]
    exact (List.perm_insertionSort _ _).nodup_iff.mpr (List.nodup_dedup _)
  · rw [List.mem_insertionSort, ← hsenders, List.mem_insertionSort, List.mem_dedup, List.mem_map]
    simp only [List.mem_filter, and_assoc]

theorem filter_flatten_chains (p : Mempool) (s : Address) :
    p.chains.flatten.filter (·.sender = s) = p.chainOf s := by
  obtain ⟨l, hl, hchains, hmem⟩ := p.chains_eq
  rw [hchains, filter_flatten_chainOf hl]
  split
  case isTrue => rfl
  case isFalse hs =>
    refine (List.eq_nil_iff_forall_not_mem.mpr fun t ht ↦ hs ((hmem s).mpr ?_)).symm
    exact ⟨t, mem_chainOf.mp ht⟩

theorem mem_flatten_chains (ht : t ∈ p.chains.flatten) : t ∈ p.values ∧ t.executable = true := by
  have hmem : t ∈ p.chains.flatten.filter (·.sender = t.sender) :=
    List.mem_filter.mpr ⟨ht, decide_eq_true rfl⟩
  rw [filter_flatten_chains] at hmem
  obtain ⟨hval, hexec, -⟩ := mem_chainOf.mp hmem
  exact ⟨hval, hexec⟩

/-! ## What is taken -/

/-- The beginning of the list, within the caps. -/
theorem takeFitting_spec {maxTxs maxBytes count bytes : Nat} (hcount : count ≤ maxTxs)
    (hbytes : bytes ≤ maxBytes) (l : List PoolTx) :
    takeFitting maxTxs maxBytes count bytes l <+: l ∧
      count + (takeFitting maxTxs maxBytes count bytes l).length ≤ maxTxs ∧
      bytes + ((takeFitting maxTxs maxBytes count bytes l).map (·.bytes.length)).sum ≤
        maxBytes := by
  induction l generalizing count bytes with
  | nil => exact ⟨List.prefix_rfl, hcount, hbytes⟩
  | cons t l ih =>
    by_cases hfull : maxTxs ≤ count ∨ maxBytes < bytes + t.bytes.length
    · simp only [takeFitting, if_pos hfull]
      exact ⟨List.nil_prefix, hcount, hbytes⟩
    · simp only [takeFitting, if_neg hfull]
      obtain ⟨hcount, hbytes⟩ := not_or.mp hfull
      obtain ⟨hpre, hlen, hsum⟩ := ih (Nat.not_le.mp hcount) (Nat.not_lt.mp hbytes)
      refine ⟨List.cons_prefix_cons.mpr ⟨rfl, hpre⟩, ?_, ?_⟩
      · rw [List.length_cons, Nat.add_comm _ 1, ← Nat.add_assoc]
        exact hlen
      · rw [List.map_cons, List.sum_cons, ← Nat.add_assoc]
        exact hsum

/-- A template's part of a sender is the beginning of the sender's chain. -/
theorem filter_selected (p : Mempool) (maxTxs maxBytes : Nat) (s : Address) :
    (p.selected maxTxs maxBytes).filter (·.sender = s) <+: p.chainOf s := by
  have hpre := (takeFitting_spec (Nat.zero_le maxTxs) (Nat.zero_le maxBytes) p.chains.flatten).1
  rw [← filter_flatten_chains]
  exact hpre.filter _

theorem Marked.selected (h : Indexed p) (hm : Marked p s next) (maxTxs maxBytes : Nat) :
    ((p.selected maxTxs maxBytes).filter (·.sender = s)).map (·.nonce) =
      List.range' next ((p.selected maxTxs maxBytes).filter (·.sender = s)).length := by
  have hpre := filter_selected p maxTxs maxBytes s
  have htake := List.prefix_iff_eq_take.mp (hpre.map (·.nonce))
  rw [List.length_map, hm.chainOf h, List.take_range'_of_length_ge hpre.length_le] at htake
  exact htake

/-- The caps of a template, and where its transactions come from. -/
theorem selected_spec (p : Mempool) (maxTxs maxBytes : Nat) :
    (p.selected maxTxs maxBytes).length ≤ maxTxs ∧
      ((p.selected maxTxs maxBytes).map (·.bytes.length)).sum ≤ maxBytes ∧
      ∀ t ∈ p.selected maxTxs maxBytes, t ∈ p.values ∧ t.executable = true := by
  obtain ⟨hpre, hlen, hsum⟩ :=
    takeFitting_spec (Nat.zero_le maxTxs) (Nat.zero_le maxBytes) p.chains.flatten
  rw [Nat.zero_add] at hlen hsum
  exact ⟨hlen, hsum, fun t ht ↦ mem_flatten_chains (hpre.subset ht)⟩

end Mempool

end Plaine.Chain

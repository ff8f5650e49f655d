import Plaine.Chain.Executable

/-!
# What the pooled transactions of a sender cost

The checks bound the sum of what a sender's transactions take from its account by what it can spend.
They add with saturation; as no sum of a sender's ever comes to the largest number, the sums are
exact, and so is what is left of them when a displaced transaction is taken off.
-/

namespace Plaine.Chain

open Plaine.Lib Plaine.Consensus

/-- What the transaction takes from its sender, in full. -/
def PoolTx.cost (t : PoolTx) : Nat := t.amount + t.fee

theorem PoolTx.cost_eq {t t' : PoolTx} (h : t.plain = t'.plain) : t.cost = t'.cost :=
  show t.plain.cost = t'.plain.cost by rw [h]

/-- The slots are one of them and the others. -/
theorem Slots.perm_remove {m : Slots} (h : m.Sorted) {n : Nat} {id : Hash32} (hmem : (n, id) ∈ m) :
    m.Perm ((n, id) :: m.remove n) := by
  have hnodup : m.Nodup := by
    refine h.imp fun {x y} hlt heq ↦ ?_
    rw [heq] at hlt
    exact lt_irrefl _ hlt
  have hrest : (m.remove n).Nodup := hnodup.filter _
  have hnot : (n, id) ∉ m.remove n := fun hmem' ↦ (Slots.mem_remove.mp hmem').2 rfl
  refine (List.perm_ext_iff_of_nodup hnodup (hrest.cons hnot)).mpr fun x ↦ ?_
  obtain ⟨k, id'⟩ := x
  rw [List.mem_cons, Slots.mem_remove]
  constructor
  · intro hx
    by_cases hk : k = n
    · subst hk
      exact .inl (by rw [h.unique hx hmem])
    · exact .inr ⟨hx, hk⟩
  · rintro (heq | ⟨hx, -⟩)
    · rwa [heq]
    · exact hx

namespace Mempool

variable {p q r m : Mempool} {t : PoolTx} {id : Hash32} {s : Address}

/-- What the pooled transactions of a sender cost together. -/
def outlayOf (p : Mempool) (s : Address) : Nat := ((p.senderTxs s).map PoolTx.cost).sum

/-- What the transaction of an id costs, nothing if there is none. -/
def costAt (p : Mempool) (id : Hash32) : Nat := ((p.txs.lookup id).map PoolTx.cost).getD 0

theorem outlayOf_eq (p : Mempool) (s : Address) :
    p.outlayOf s = ((p.slotsOf s).map fun x ↦ p.costAt x.2).sum := by
  unfold outlayOf senderTxs
  induction p.slotsOf s with
  | nil => rfl
  | cons x l ih =>
    rw [List.map_cons, List.sum_cons, ← ih, List.filterMap_cons]
    unfold costAt
    cases p.txs.lookup x.2 with
    | none => exact (Nat.zero_add _).symm
    | some t => rfl

/-- What is left in some of the slots costs no more than what was in them. -/
theorem Shrinks.outlay_le (h : Shrinks p q) {l : Slots} (hl : (q.slotsOf s).Sublist l) :
    q.outlayOf s ≤ (l.map fun x ↦ p.costAt x.2).sum := by
  have hcost (id : Hash32) : q.costAt id ≤ p.costAt id := by
    unfold costAt
    cases ht : q.txs.lookup id with
    | none => exact Nat.zero_le _
    | some t =>
      obtain ⟨t', ht', hplain⟩ := h.txs id t ht
      rw [ht', Option.map_some, Option.map_some, PoolTx.cost_eq hplain]
  rw [outlayOf_eq]
  calc ((q.slotsOf s).map fun x ↦ q.costAt x.2).sum
      ≤ ((q.slotsOf s).map fun x ↦ p.costAt x.2).sum := List.sum_le_sum fun x _ ↦ hcost x.2
    _ ≤ (l.map fun x ↦ p.costAt x.2).sum :=
        List.Sublist.sum_le_sum (hl.map _) fun _ _ ↦ Nat.zero_le _

theorem Shrinks.outlayOf_le (h : Shrinks p q) (s : Address) : q.outlayOf s ≤ p.outlayOf s := by
  rw [p.outlayOf_eq]
  exact h.outlay_le (h.slots s)

/-- The transaction in a slot and those in the others. -/
theorem outlayOf_remove (h : Indexed p) (ht : p.txs.lookup id = some t) :
    p.outlayOf t.sender =
      t.cost + (((p.slotsOf t.sender).remove t.nonce).map fun x ↦ p.costAt x.2).sum := by
  have hmem := (h.slot t.sender t.nonce id).mpr ⟨t, ht, rfl, rfl⟩
  have hcost : p.costAt id = t.cost := by
    rw [costAt, ht]
    rfl
  rw [outlayOf_eq, ((Slots.perm_remove (h.sorted _) hmem).map _).sum_eq, List.map_cons,
    List.sum_cons, hcost]

/-- A transaction put in. -/
theorem outlayOf_insert_le (h : Indexed p) (hid : p.txs.lookup t.txid = none) (s : Address) :
    (p.insert t).outlayOf s ≤ (if s = t.sender then t.cost else 0) + p.outlayOf s := by
  have hcost {x : Nat × Hash32} (hx : x ∈ p.slotsOf s) :
      (p.insert t).costAt x.2 = p.costAt x.2 := by
    obtain ⟨t', ht', -⟩ := (h.slot s x.1 x.2).mp hx
    have hne : x.2 ≠ t.txid := by
      intro heq
      rw [heq, hid] at ht'
      cases ht'
    unfold costAt
    rw [show (p.insert t).txs.lookup x.2 = p.txs.lookup x.2 from AList.lookup_insert_ne hne]
  rw [outlayOf_eq, outlayOf_eq, slotsOf_insert]
  split
  case isTrue hs =>
    have hnew : (p.insert t).costAt t.txid = t.cost := by
      unfold costAt
      rw [show (p.insert t).txs.lookup t.txid = some t from AList.lookup_insert _]
      rfl
    rw [Slots.insert, ((List.perm_orderedInsert _ _ _).map _).sum_eq, List.map_cons, List.sum_cons,
      hnew]
    refine Nat.add_le_add_left ?_ _
    calc (((p.slotsOf s).remove t.nonce).map fun x ↦ (p.insert t).costAt x.2).sum
        = (((p.slotsOf s).remove t.nonce).map fun x ↦ p.costAt x.2).sum := by
          refine congrArg _ (List.map_congr_left fun x hx ↦ hcost ?_)
          exact List.filter_sublist.subset hx
      _ ≤ ((p.slotsOf s).map fun x ↦ p.costAt x.2).sum :=
          List.Sublist.sum_le_sum (List.filter_sublist.map _) fun _ _ ↦ Nat.zero_le _
  case isFalse =>
    rw [Nat.zero_add]
    exact (congrArg _ (List.map_congr_left fun x hx ↦ hcost hx)).le

/-! ## The sums of the checks -/

/-- A sum that does not come to the largest number is not saturated. -/
theorem pendingOutlay_eq (h : p.outlayOf s ≤ u128Max) : p.pendingOutlay s = p.outlayOf s := by
  unfold pendingOutlay outlayOf at *
  have hexact : (p.senderTxs s).map PoolTx.outlay = (p.senderTxs s).map PoolTx.cost := by
    refine List.map_congr_left fun t ht ↦ ?_
    have hle := List.single_le_sum (fun _ _ ↦ Nat.zero_le _) t.cost (List.mem_map_of_mem ht)
    exact Nat.min_eq_left (hle.trans h)
  rw [hexact, foldl_saturatingAdd _ (Nat.zero_le _), Nat.zero_add]
  exact Nat.min_eq_left h

theorem bump_of_checkReplacement {fee : Nat} {u : Unit} (h : checkReplacement fee t = .ok u) :
    t.fee + max (t.fee / 4) 1 ≤ fee := by
  simp only [checkReplacement, Except.bind_eq_ok, Except.ofOption_eq_ok, Except.require_eq_ok] at h
  obtain ⟨need, hneed, hle⟩ := h
  obtain ⟨-, rfl⟩ := checkedAdd_eq_some.mp hneed
  exact hle

section

variable [Crypto]

/-- The newcomer and the others of its sender cost no more than the sender can spend, and a
displaced transaction is outbid by the required increase. -/
theorem affords_of_check (h : Indexed p) {raw : Bytes} {author : AuthorRule}
    {lookup : Address → Account × Nat} {q : Prepared} (hq : p.check raw author lookup = .ok q)
    (hsum : p.outlayOf q.sender ≤ u128Max) :
    q.amount + q.fee +
        (((p.slotsOf q.sender).remove q.nonce).map fun x ↦ p.costAt x.2).sum ≤
      (lookup q.sender).2 ∧
    ∀ id t, (p.slotsOf q.sender).get q.nonce = some id → p.txs.lookup id = some t →
      t.fee + max (t.fee / 4) 1 ≤ q.fee := by
  simp only [check, Except.bind_eq_ok, Except.require_eq_ok, Except.ofOption_eq_ok, exists_const,
    Prod.exists] at hq
  obtain ⟨-, _, -, -, tx, -, pub, nonce, fee, amount, txid, -, _, -, -, -, -, hq⟩ := hq
  obtain ⟨-, -, _, hreplaces, outlay, houtlay, total, htotal, hle, -, hq⟩ := hq
  cases hq
  dsimp only at hsum ⊢
  obtain ⟨-, rfl⟩ := checkedAdd_eq_some.mp houtlay
  obtain ⟨-, rfl⟩ := checkedAdd_eq_some.mp htotal
  rw [pendingOutlay_eq hsum] at hle
  cases hget : (p.slotsOf (addressPayload pub)).get nonce with
  | none =>
    refine ⟨?_, by rintro _ _ ⟨⟩⟩
    rw [hget] at hle
    refine le_trans ?_ hle
    rw [Nat.add_comm, outlayOf_eq]
    exact Nat.add_le_add_right
      (List.Sublist.sum_le_sum (List.filter_sublist.map _) fun _ _ ↦ Nat.zero_le _) _
  | some id =>
    obtain ⟨t, ht, hs, hn⟩ := (h.slot _ _ _).mp ((Slots.get_eq_some (h.sorted _)).mp hget)
    have hall := outlayOf_remove h ht
    rw [hs, hn] at hall
    rw [hget] at hle hreplaces
    rw [Option.bind_some, ht] at hle hreplaces
    have hcost : t.outlay = t.cost := by
      refine Nat.min_eq_left (le_trans ?_ hsum)
      rw [hall]
      exact Nat.le_add_right _ _
    rw [Option.map_some, Option.getD_some, hcost, hall, Nat.add_sub_cancel_left] at hle
    refine ⟨?_, fun id' t' hid ht' ↦ ?_⟩
    · rw [Nat.add_comm]
      exact hle
    · cases hid
      cases ht.symm.trans ht'
      exact bump_of_checkReplacement hreplaces

end

/-! ## Runs -/

/-- No sender's transactions cost more than the largest amount. -/
def Solvent (p : Mempool) : Prop := ∀ s, p.outlayOf s ≤ u128Max

theorem settle_shrinks (p : Mempool) (s : Address) (next : Nat) : Shrinks p (p.settle s next) :=
  have hs := ((removeAll_sheds { p with nextNonce := p.nextNonce.insert s next } _).trans
    (resplit_sheds _ s next)).toShrinks
  ⟨hs.params, hs.txs, hs.slots, hs.length, hs.totalBytes⟩

theorem Solvent.shrinks (h : Solvent p) (hs : Shrinks p q) : Solvent q :=
  fun s ↦ (hs.outlayOf_le s).trans (h s)

variable {c : Prepared} {d : Option PoolTx} {room : Option (List Hash32)} {now : Nat}

/-- After an admission, the newcomer and what is left of the others. -/
theorem outlay_admitted (h : Indexed p) (hfits : Fits p c)
    (hd : (p.sweepExpired now).displace c = (d, r)) (hm : r.admitPrepared c = (m, room)) :
    (({ m with nextNonce := m.nextNonce.insert c.sender c.next }.insert (c.poolTx now)).resplit
        c.sender c.next).2.outlayOf c.sender ≤
      c.amount + c.fee +
        (((p.slotsOf c.sender).remove c.nonce).map fun x ↦ p.costAt x.2).sum := by
  have hsheds := sheds_of_stages hd hm
  have hleft : m.outlayOf c.sender ≤
      (((p.slotsOf c.sender).remove c.nonce).map fun x ↦ p.costAt x.2).sum :=
    hsheds.toShrinks.outlay_le
      (Slots.sublist_remove (hsheds.slots c.sender) (hfits.free h hd hm))
  have hput := outlayOf_insert_le (t := c.poolTx now) ((hsheds.indexed h).next
    (m.nextNonce.insert c.sender c.next)) (hsheds.lookup_eq_none hfits.unknown) c.sender
  refine ((resplit_shrinks _ _ _).outlayOf_le _).trans (hput.trans ?_)
  rw [if_pos (show c.sender = (c.poolTx now).sender from rfl)]
  exact Nat.add_le_add_left hleft _

/-- Putting a displaced transaction back. -/
theorem outlay_putBack (h : Indexed p) (hfits : Fits p c) {old : PoolTx}
    (hd : (p.sweepExpired now).displace c = (some old, r)) (hm : r.admitPrepared c = (m, room))
    (s : Address) : ((m.insert old).resplit c.sender c.next).2.outlayOf s ≤ p.outlayOf s := by
  have hswept := sweepExpired_sheds p now
  have hunknown := hfits.displaced_unknown h hd hm
  have hfree := hfits.free h hd hm
  obtain ⟨hold, rfl, hs, hn⟩ := hfits.displaced h hd
  have hleft := (sheds_of_displace hd).trans (sheds_of_admitPrepared hm)
  have hput := outlayOf_insert_le ((hswept.trans hleft).indexed h) hunknown s
  refine ((resplit_shrinks _ _ _).outlayOf_le s).trans (hput.trans ?_)
  split
  case isTrue heq =>
    subst heq
    refine le_trans ?_ (hswept.toShrinks.outlayOf_le old.sender)
    rw [outlayOf_remove (hswept.indexed h) hold]
    refine Nat.add_le_add_left (hleft.toShrinks.outlay_le ?_) _
    refine Slots.sublist_remove (hleft.slots _) ?_
    rwa [hs, hn]
  case isFalse =>
    rw [Nat.zero_add]
    exact (hswept.trans hleft).toShrinks.outlayOf_le s

theorem Solvent.settleAll (h : Solvent p) (senders : List Address) (account : Address → Account) :
    Solvent (p.settleAll senders account) := by
  induction senders generalizing p with
  | nil => exact h
  | cons s senders ih =>
    exact ih (h.shrinks (settle_shrinks p s _))

section

variable [Crypto] {raw : Bytes} {author : AuthorRule} {lookup : Address → Account × Nat}

theorem Solvent.commit (h : Solvent p) (hindexed : Indexed p)
    (hq : p.check raw author lookup = .ok c) (hspend : (lookup c.sender).2 ≤ u128Max) (now : Nat) :
    Solvent (p.commit c now).2 := by
  have hfits := fits_of_check hq
  obtain ⟨d, r, hd⟩ : ∃ d r, (p.sweepExpired now).displace c = (d, r) := ⟨_, _, rfl⟩
  obtain ⟨m, room, hm⟩ : ∃ m room, r.admitPrepared c = (m, room) := ⟨_, _, rfl⟩
  have hsheds := sheds_of_stages hd hm
  have hleft := h.shrinks hsheds.toShrinks
  rcases commit_cases p c now hd hm with ⟨_, -, heq⟩ | ⟨old, -, rfl, heq⟩ | ⟨-, -, heq⟩
  · rw [heq]
    intro s
    rcases eq_or_ne s c.sender with rfl | hs
    · refine (outlay_admitted hindexed hfits hd hm).trans (le_trans ?_ hspend)
      exact (affords_of_check hindexed hq (h c.sender)).1
    · have hput := outlayOf_insert_le (t := c.poolTx now) ((hsheds.indexed hindexed).next
        (m.nextNonce.insert c.sender c.next)) (hsheds.lookup_eq_none hfits.unknown) s
      rw [if_neg (show s ≠ (c.poolTx now).sender from hs), Nat.zero_add] at hput
      exact ((resplit_shrinks _ _ _).outlayOf_le s).trans (hput.trans (hleft s))
  · rw [heq]
    exact fun s ↦ (outlay_putBack hindexed hfits hd hm s).trans (h s)
  · rw [heq]
    exact hleft

/-- What accounts can spend is an amount. -/
def Amounts : MempoolOp → Prop
  | .submit _ _ spendable _ => spendable ≤ u128Max
  | .submitVerified _ _ lookup _ _ | .onReorgReinject _ _ lookup => ∀ s, (lookup s).2 ≤ u128Max
  | .sweepExpired _ | .onBlockConnected _ _ | .resplitAll _ => True

theorem Solvent.submit (h : Solvent p) (hindexed : Indexed p) {acct : Account} {spendable : Nat}
    (hspend : spendable ≤ u128Max) (raw : Bytes) (now : Nat) :
    Solvent (p.submit raw acct spendable now).2 := by
  rcases submit_cases p raw acct spendable now with heq | ⟨c, hc, heq⟩
  · rwa [heq]
  · rw [heq]
    exact h.commit hindexed hc hspend now

theorem Solvent.exec {params : MempoolParams} (h : Solvent p) (hrep : Represents params p)
    {op : MempoolOp} (hop : Amounts op) : Solvent (p.exec op) := by
  cases op with
  | submit raw acct spendable now => exact h.submit hrep.indexed hop raw now
  | submitVerified network raw lookup now authorPubkey =>
    rcases submitVerified_cases p network raw lookup now authorPubkey with heq | ⟨c, hc, heq⟩
    · exact (congrArg Solvent heq).mpr h
    · exact (congrArg Solvent heq).mpr (h.commit hrep.indexed hc (hop c.sender) now)
  | sweepExpired now => exact h.shrinks (sweepExpired_sheds p now).toShrinks
  | onBlockConnected spent account =>
    have hspent := sheds_foldl spend_sheds spent p
    exact (h.shrinks hspent.toShrinks).settleAll _ account
  | onReorgReinject disconnected now lookup =>
    show Solvent ((returned disconnected).foldl (reinject lookup now) (0, p)).2
    induction returned disconnected using List.reverseRecOn with
    | nil => exact h
    | append_singleton raws raw ih =>
      have hindexed := (reinject_keeps hrep lookup now raws).1.indexed
      rw [List.foldl_append]
      rcases reinject_cases lookup now (raws.foldl (reinject lookup now) (0, p)) raw with
        heq | ⟨tx, sender, -, -, heq⟩
      · exact (congrArg Solvent heq).mpr ih
      · exact (congrArg Solvent heq).mpr (ih.submit hindexed (hop sender) raw now)
  | resplitAll account => exact h.settleAll _ account

/-- All along a run no sender's transactions cost more than the largest amount. -/
theorem run_solvent (params : MempoolParams) (ops : List MempoolOp)
    (hops : ∀ op ∈ ops, Amounts op) : Solvent (run params ops) := by
  induction ops using List.reverseRecOn with
  | nil => exact fun s ↦ Nat.zero_le _
  | append_singleton ops op ih =>
    rw [run_concat]
    refine Solvent.exec (ih fun op' hop' ↦ hops op' (List.mem_append_left _ hop'))
      (represents_run params ops) (hops op (List.mem_append_right _ List.mem_cons_self))

end

end Mempool

end Plaine.Chain

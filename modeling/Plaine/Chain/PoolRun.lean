import Plaine.Chain.Pooled
import Plaine.Consensus.Blake3

/-!
# Runs of the mempool

The tables agree and the caps hold after every operation.  The table of next nonces goes wrong in
two places: when a block spends the last transaction of a sender, and when the pool has no room for
a newcomer and the transaction it displaced, the last of its sender, is put back.
-/

namespace Plaine.Chain

open Plaine.Lib Plaine.Consensus

namespace Mempool

variable {params : MempoolParams} {p q r : Mempool} {t : PoolTx} {id : Hash32} {s : Address}

/-! ### Sweeps -/

/-- What is left is in order if it was before. -/
structure Sheds (p q : Mempool) : Prop extends Shrinks p q where
  indexed : Indexed p → Indexed q
  tracked : Tracked p → Tracked q

theorem Sheds.refl (p : Mempool) : Sheds p p := ⟨.refl p, fun h ↦ h, fun h ↦ h⟩

theorem Sheds.trans (h : Sheds p q) (h' : Sheds q r) : Sheds p r :=
  ⟨h.toShrinks.trans h'.toShrinks, fun hp ↦ h'.indexed (h.indexed hp),
    fun hp ↦ h'.tracked (h.tracked hp)⟩

/-- A loop of steps that shed. -/
theorem sheds_foldl {ι : Type} {f : Mempool → ι → Mempool} (hf : ∀ p i, Sheds p (f p i))
    (l : List ι) (p : Mempool) : Sheds p (l.foldl f p) := by
  induction l generalizing p with
  | nil => exact .refl p
  | cons i l ih => exact (hf p i).trans (ih (f p i))

theorem remove_sheds (p : Mempool) (id : Hash32) : Sheds p (p.remove id).2 :=
  ⟨remove_shrinks p id, fun h ↦ h.remove id, fun h ↦ h.remove id⟩

theorem resplit_sheds (p : Mempool) (s : Address) (next : Nat) : Sheds p (p.resplit s next).2 :=
  ⟨resplit_shrinks p s next, fun h ↦ h.resplit s next, fun h ↦ h.resplit s next⟩

theorem removeAll_sheds (p : Mempool) (ids : List Hash32) : Sheds p (p.removeAll ids) :=
  sheds_foldl remove_sheds ids p

theorem sweepExpired_sheds (p : Mempool) (now : Nat) : Sheds p (p.sweepExpired now) :=
  (removeAll_sheds p _).trans (sheds_foldl (fun p s ↦ resplit_sheds p s _) _ _)

/-! ### Caps -/

/-- The caps hold. -/
structure Capped (p : Mempool) : Prop where
  count : p.txs.keys.length ≤ p.params.maxTxs
  bytes : p.totalBytes ≤ p.params.maxBytes
  sender : ∀ s, p.senderLen s ≤ p.params.effectivePerSender

theorem Capped.of_shrinks (h : Capped p) (hs : Shrinks p q) : Capped q where
  count := by
    rw [hs.params]
    exact hs.length.trans h.count
  bytes := by
    rw [hs.params]
    exact hs.totalBytes.trans h.bytes
  sender s := by
    rw [hs.params]
    exact (hs.slots s).length_le.trans (h.sender s)

/-- The tables are in order and the caps hold. -/
structure Represents (params : MempoolParams) (p : Mempool) : Prop where
  params : p.params = params
  indexed : Indexed p
  capped : Capped p

theorem Represents.sheds (h : Represents params p) (hs : Sheds p q) : Represents params q :=
  ⟨hs.params.trans h.params, hs.indexed h.indexed, h.capped.of_shrinks hs.toShrinks⟩

/-- A transaction put in a free slot where there is room. -/
theorem Represents.insert (h : Represents params p) (hid : p.txs.lookup t.txid = none)
    (hslot : ∀ id, (t.nonce, id) ∉ p.slotsOf t.sender)
    (hcount : p.txs.keys.length < p.params.maxTxs)
    (hbytes : p.totalBytes + t.bytes.length ≤ p.params.maxBytes)
    (hsender : p.senderLen t.sender < p.params.effectivePerSender) :
    Represents params (p.insert t) where
  params := h.params
  indexed := h.indexed.insert hid hslot
  capped := by
    refine ⟨?_, hbytes, fun s ↦ ?_⟩
    · show (p.txs.insert t.txid t).keys.length ≤ p.params.maxTxs
      rw [AList.length_keys_insert, hid]
      exact hcount
    · show ((p.insert t).slotsOf s).length ≤ p.params.effectivePerSender
      rw [slotsOf_insert]
      split
      case isTrue hs =>
        subst hs
        rw [Slots.length_insert]
        exact lt_of_le_of_lt List.filter_sublist.length_le hsender
      case isFalse => exact h.capped.sender s

/-- The next nonces play no part. -/
theorem Indexed.next (h : Indexed p) (m : AList fun _ : Address ↦ Nat) :
    Indexed { p with nextNonce := m } :=
  ⟨h.txid, h.slot, h.sorted, h.kept, h.nodup, h.arrival, h.totalBytes⟩

theorem Represents.next (h : Represents params p) (m : AList fun _ : Address ↦ Nat) :
    Represents params { p with nextNonce := m } :=
  ⟨h.params, h.indexed.next m, ⟨h.capped.count, h.capped.bytes, h.capped.sender⟩⟩

/-! ### The empty pool -/

theorem represents_new (params : MempoolParams) : Represents params (new params) where
  params := rfl
  indexed := by
    refine ⟨fun id t ht ↦ ?_, fun s n id ↦ ?_, fun s ↦ .nil, fun s m hm ↦ ?_, .nil,
      fun id ↦ ?_, rfl⟩
    · cases (AList.lookup_empty id).symm.trans ht
    · refine iff_of_false List.not_mem_nil ?_
      rintro ⟨t, ht, -⟩
      cases (AList.lookup_empty id).symm.trans ht
    · cases (AList.lookup_empty s).symm.trans hm
    · exact iff_of_false List.not_mem_nil (AList.notMem_empty id)
  capped := ⟨Nat.zero_le _, Nat.zero_le _, fun _ ↦ Nat.zero_le _⟩

theorem tracked_new (params : MempoolParams) : Tracked (new params) :=
  fun s ↦ iff_of_false (AList.notMem_empty s) fun h ↦ h rfl

/-- The arrival queue lists the transactions. -/
theorem Indexed.perm (h : Indexed p) : p.arrival.Perm p.txs.keys :=
  (List.perm_ext_iff_of_nodup h.nodup p.txs.nodupKeys).mpr fun id ↦ h.arrival id

/-- One transaction for each sender and nonce. -/
theorem Indexed.unique (h : Indexed p) {id id' : Hash32} {t t' : PoolTx}
    (ht : p.txs.lookup id = some t) (ht' : p.txs.lookup id' = some t')
    (hs : t.sender = t'.sender) (hn : t.nonce = t'.nonce) : id = id' :=
  (h.sorted _).unique ((h.slot _ _ _).mpr ⟨t, ht, rfl, rfl⟩)
    ((h.slot _ _ _).mpr ⟨t', ht', hs.symm, hn.symm⟩)

/-! ### Making room -/

theorem makeRoom_sheds (fpb len fuel : Nat) (p : Mempool) (removed : List Hash32) :
    Sheds p (makeRoom fpb len fuel p removed).1 := by
  induction fuel generalizing p removed with
  | zero => exact .refl p
  | succ fuel ih =>
    unfold makeRoom
    split
    case isFalse => exact .refl p
    case isTrue =>
      split
      case h_1 => exact .refl p
      case h_2 victim _ =>
        split
        case isTrue => exact .refl p
        case isFalse => exact (remove_sheds p victim.txid).trans (ih _ _)

/-- Where room was made there is room. -/
theorem makeRoom_room {fpb len fuel : Nat} {removed evicted : List Hash32}
    (h : (makeRoom fpb len fuel p removed).2 = some evicted) :
    (makeRoom fpb len fuel p removed).1.txs.keys.length < p.params.maxTxs ∧
      (makeRoom fpb len fuel p removed).1.totalBytes + len ≤ p.params.maxBytes := by
  induction fuel generalizing p removed with
  | zero => cases h
  | succ fuel ih =>
    unfold makeRoom at h ⊢
    split at h
    case isFalse hroom =>
      rw [if_neg hroom]
      exact ⟨not_le.mp fun h ↦ hroom (.inl h), not_lt.mp fun h ↦ hroom (.inr h)⟩
    case isTrue hfull =>
      rw [if_pos hfull]
      split at h
      case h_1 => cases h
      case h_2 victim _ =>
        split at h
        case isTrue => cases h
        case isFalse hcheap =>
          rw [if_neg hcheap]
          have hroom := ih h
          rw [(remove_shrinks p victim.txid).params] at hroom
          exact hroom

theorem length_remove (h : p.txs.lookup id = some t) :
    (p.remove id).2.txs.keys.length + 1 = p.txs.keys.length := by
  rw [(remove_of_some h).2.2.1, AList.length_keys_erase, h]
  have hmem : id ∈ p.txs.keys := AList.lookup_isSome.mp (by rw [h, Option.isSome_some])
  exact Nat.sub_add_cancel (List.length_pos_of_mem hmem)

/-- The eviction loop ends before its rounds run out. -/
theorem makeRoom_fuel (h : Indexed p) {fpb len fuel : Nat} {removed : List Hash32}
    (hfuel : p.txs.keys.length < fuel) : makeRoom fpb len fuel p removed =
      makeRoom fpb len (p.txs.keys.length + 1) p removed := by
  generalize hn : p.txs.keys.length = n at hfuel ⊢
  induction n generalizing fuel p removed with
  | zero =>
    obtain ⟨fuel, rfl⟩ := Nat.exists_eq_add_of_lt hfuel
    unfold makeRoom
    have hnone (id : Hash32) : p.txs.lookup id = none := by
      refine AList.lookup_eq_none.mpr fun hmem ↦ ?_
      have hpos := List.length_pos_of_mem (show id ∈ p.txs.keys from hmem)
      exact absurd hn hpos.ne'
    have hvictim : (p.evictionCandidate.bind fun v ↦ p.txs.lookup v) = none := by
      cases p.evictionCandidate with
      | none => rfl
      | some v => exact hnone v
    rw [hvictim]
  | succ n ih =>
    obtain ⟨fuel, rfl⟩ := Nat.exists_eq_add_of_lt hfuel
    unfold makeRoom
    split
    case isFalse => rfl
    case isTrue =>
      split
      case h_1 => rfl
      case h_2 victim hvictim =>
        split
        case isTrue => rfl
        case isFalse =>
          obtain ⟨id, -, hid⟩ := Option.bind_eq_some_iff.mp hvictim
          have htxid := h.txid id victim hid
          have hlen := length_remove (p := p) hid
          rw [htxid]
          exact ih (h.remove id) (Nat.succ.inj (hlen.trans hn)) (by omega)

/-! ### Admission -/

/-- What the checks find out about the tables. -/
structure Fits (p : Mempool) (q : Prepared) : Prop where
  unknown : p.txs.lookup q.txid = none
  replaces : q.replaces = (p.slotsOf q.sender).get q.nonce
  held : p.senderLen q.sender - (if q.replaces.isSome then 1 else 0) < p.params.effectivePerSender

theorem fits_of_check [Crypto] {raw : Bytes} {author : AuthorRule}
    {lookup : Address → Account × Nat} {q : Prepared} (h : p.check raw author lookup = .ok q) :
    Fits p q := by
  simp only [check, Except.bind_eq_ok, Except.require_eq_ok, Except.ofOption_eq_ok, exists_const,
    Prod.exists] at h
  obtain ⟨-, _, -, -, _, -, pub, nonce, fee, amount, txid, -, _, -, -, -, hunknown, h⟩ := h
  obtain ⟨-, -, _, -, _, -, _, -, -, hheld, h⟩ := h
  cases h
  exact ⟨Option.isNone_iff_eq_none.mp hunknown, rfl, hheld⟩

/-- The transaction a newcomer displaces, taken out. -/
def displace (p : Mempool) (q : Prepared) : Option PoolTx × Mempool :=
  match q.replaces with
  | some old => p.remove old
  | none => (none, p)

/-- The eviction loop of a newcomer's admission. -/
def admitPrepared (p : Mempool) (q : Prepared) : Mempool × Option (List Hash32) :=
  makeRoom (q.fee / max q.raw.length 1) q.raw.length (p.txs.keys.length + 1) p []

/-- The pool is full for a newcomer, and the transaction it displaced was the last its sender
has left. -/
def Strands (p : Mempool) (q : Prepared) (now : Nat) : Prop :=
  ((p.sweepExpired now).displace q).1 ≠ none ∧
    (((p.sweepExpired now).displace q).2.admitPrepared q).2 = none ∧
      (((p.sweepExpired now).displace q).2.admitPrepared q).1.slotsOf q.sender = []

theorem displace_sheds (p : Mempool) (q : Prepared) : Sheds p (p.displace q).2 := by
  unfold displace
  split
  case h_1 old _ => exact remove_sheds p old
  case h_2 => exact .refl p

/-- The slot of a newcomer is free once the one in it is displaced. -/
theorem displace_free {q : Prepared} (h : Indexed p) (hsheds : Sheds p r)
    (hreplaces : q.replaces = (p.slotsOf q.sender).get q.nonce) (id : Hash32) :
    (q.nonce, id) ∉ (r.displace q).2.slotsOf q.sender := by
  intro hmem
  have hmem' := ((displace_sheds r q).slots q.sender).subset hmem
  have hget := (Slots.get_eq_some (h.sorted _)).mpr ((hsheds.slots q.sender).subset hmem')
  obtain ⟨t, ht, hs, hn⟩ := ((hsheds.indexed h).slot _ _ _).mp hmem'
  have hslots := (remove_of_some ht).2.2.2.2.2 q.sender
  rw [displace, hreplaces, hget] at hmem
  dsimp only at hmem
  rw [hslots, if_pos hs.symm, Slots.mem_remove] at hmem
  exact hmem.2 hn.symm

/-- What a displaced transaction was. -/
theorem displace_eq_some {q : Prepared} (h : Indexed p) (hsheds : Sheds p r)
    (hreplaces : q.replaces = (p.slotsOf q.sender).get q.nonce)
    (ht : (r.displace q).1 = some t) : r.txs.lookup t.txid = some t ∧
      (r.displace q).2 = (r.remove t.txid).2 ∧ t.sender = q.sender ∧ t.nonce = q.nonce := by
  unfold displace at ht ⊢
  cases hold : q.replaces with
  | none =>
    rw [hold] at ht
    cases ht
  | some old =>
    rw [hold] at ht
    cases hr : r.txs.lookup old with
    | none =>
      dsimp only at ht
      rw [remove_of_none hr] at ht
      cases ht
    | some t' =>
      dsimp only at ht ⊢
      rw [(remove_of_some hr).1] at ht
      cases ht
      have htxid := (hsheds.indexed h).txid old t hr
      rw [htxid]
      refine ⟨hr, rfl, ?_⟩
      have hmem := (Slots.get_eq_some (h.sorted _)).mp (hreplaces.symm.trans hold)
      obtain ⟨t', ht', hs, hn⟩ := (h.slot _ _ _).mp hmem
      obtain ⟨t'', ht'', hplain⟩ := hsheds.txs old t hr
      cases ht'.symm.trans ht''
      exact ⟨(PoolTx.sender_eq hplain).trans hs, (PoolTx.nonce_eq hplain).trans hn⟩

/-- What `commit` leaves: the newcomer is in, or a displaced transaction is put back, or there
was none. -/
theorem commit_cases (p : Mempool) (q : Prepared) (now : Nat) {d : Option PoolTx} {r m : Mempool}
    {room : Option (List Hash32)} (hd : (p.sweepExpired now).displace q = (d, r))
    (hm : r.admitPrepared q = (m, room)) :
    (∃ evicted, room = some evicted ∧ (p.commit q now).2 =
      (({ m with nextNonce := m.nextNonce.insert q.sender q.next }.insert (q.poolTx now)).resplit
        q.sender q.next).2) ∨
    (∃ old, room = none ∧ d = some old ∧
      (p.commit q now).2 = ((m.insert old).resplit q.sender q.next).2) ∨
    (room = none ∧ d = none ∧ (p.commit q now).2 = m) := by
  unfold displace at hd
  unfold admitPrepared at hm
  unfold commit
  cases hreplaces : q.replaces with
  | none =>
    rw [hreplaces] at hd
    cases hd
    dsimp only
    rw [hm]
    cases room with
    | some evicted => exact .inl ⟨evicted, rfl, rfl⟩
    | none => exact .inr (.inr ⟨rfl, rfl, rfl⟩)
  | some old =>
    rw [hreplaces] at hd
    dsimp only at hd ⊢
    rw [hd]
    dsimp only
    rw [hm]
    cases room with
    | some evicted => exact .inl ⟨evicted, rfl, rfl⟩
    | none =>
      cases d with
      | some old => exact .inr (.inl ⟨old, rfl, rfl, rfl⟩)
      | none => exact .inr (.inr ⟨rfl, rfl, rfl⟩)

/-- A newcomer is refused when no room is made for it. -/
theorem commit_refused_iff (p : Mempool) (q : Prepared) (now : Nat) {d : Option PoolTx}
    {r m : Mempool} {room : Option (List Hash32)} (hd : (p.sweepExpired now).displace q = (d, r))
    (hm : r.admitPrepared q = (m, room)) : (∃ e, (p.commit q now).1 = .error e) ↔ room = none := by
  unfold displace at hd
  unfold admitPrepared at hm
  unfold commit
  cases hreplaces : q.replaces with
  | none =>
    rw [hreplaces] at hd
    cases hd
    dsimp only
    rw [hm]
    cases room with
    | some evicted => exact iff_of_false (by rintro ⟨_, ⟨⟩⟩) (by rintro ⟨⟩)
    | none => exact iff_of_true ⟨_, rfl⟩ rfl
  | some old =>
    rw [hreplaces] at hd
    dsimp only at hd ⊢
    rw [hd]
    dsimp only
    rw [hm]
    cases room with
    | some evicted => exact iff_of_false (by rintro ⟨_, ⟨⟩⟩) (by rintro ⟨⟩)
    | none => cases d <;> exact iff_of_true ⟨_, rfl⟩ rfl

/-- An admission names the newcomer. -/
theorem txid_of_commit {q : Prepared} {now : Nat} {a : Admitted} (h : (p.commit q now).1 = .ok a) :
    a.txid = q.txid := by
  unfold commit at h
  dsimp only at h
  split at h
  case h_1 => split at h <;> cases h
  case h_2 =>
    cases h
    rfl

section

variable {q : Prepared} {now : Nat} {d : Option PoolTx} {m : Mempool}
  {room : Option (List Hash32)}

/-! The stages of an admission: the sweep, the displacement, the evictions. -/

theorem sheds_of_displace (hd : p.displace q = (d, r)) : Sheds p r := by
  have hdisplaced := displace_sheds p q
  rwa [hd] at hdisplaced

/-- Where nothing is displaced nothing changes. -/
theorem eq_of_displace_none (hd : p.displace q = (none, r)) : r = p := by
  unfold displace at hd
  cases hold : q.replaces with
  | none =>
    rw [hold] at hd
    exact (Prod.mk.inj hd).2.symm
  | some old =>
    rw [hold] at hd
    dsimp only at hd
    cases ht : p.txs.lookup old with
    | none =>
      rw [remove_of_none ht] at hd
      exact (Prod.mk.inj hd).2.symm
    | some t =>
      have hsome := (remove_of_some ht).1
      rw [hd] at hsome
      cases hsome

theorem sheds_of_admitPrepared (hm : p.admitPrepared q = (m, room)) : Sheds p m := by
  have hevicted := makeRoom_sheds (q.fee / max q.raw.length 1) q.raw.length
    (p.txs.keys.length + 1) p []
  rwa [← admitPrepared, hm] at hevicted

theorem sheds_of_stages (hd : (p.sweepExpired now).displace q = (d, r))
    (hm : r.admitPrepared q = (m, room)) : Sheds p m :=
  ((sweepExpired_sheds p now).trans (sheds_of_displace hd)).trans (sheds_of_admitPrepared hm)

/-- The slot of the newcomer is free. -/
theorem Fits.free (hfits : Fits p q) (h : Indexed p)
    (hd : (p.sweepExpired now).displace q = (d, r)) (hm : r.admitPrepared q = (m, room))
    (id : Hash32) : (q.nonce, id) ∉ m.slotsOf q.sender := by
  intro hmem
  refine displace_free h (sweepExpired_sheds p now) hfits.replaces id ?_
  rw [hd]
  exact ((sheds_of_admitPrepared hm).slots q.sender).subset hmem

/-- The displaced transaction was the one in that slot. -/
theorem Fits.displaced {old : PoolTx} (hfits : Fits p q) (h : Indexed p)
    (hd : (p.sweepExpired now).displace q = (some old, r)) :
    (p.sweepExpired now).txs.lookup old.txid = some old ∧
      r = ((p.sweepExpired now).remove old.txid).2 ∧ old.sender = q.sender ∧
        old.nonce = q.nonce := by
  have hdisp := displace_eq_some (t := old) h (sweepExpired_sheds p now) hfits.replaces
  rw [hd] at hdisp
  exact hdisp rfl

/-- It is not in the pool that it is put back into. -/
theorem Fits.displaced_unknown {old : PoolTx} (hfits : Fits p q) (h : Indexed p)
    (hd : (p.sweepExpired now).displace q = (some old, r)) (hm : r.admitPrepared q = (m, room)) :
    m.txs.lookup old.txid = none := by
  obtain ⟨hlookup, rfl, -, -⟩ := hfits.displaced h hd
  refine (sheds_of_admitPrepared hm).lookup_eq_none ?_
  rw [(remove_of_some hlookup).2.2.1]
  exact AList.lookup_erase _ _

end

theorem Represents.commit (h : Represents params p) {q : Prepared} (hfits : Fits p q) (now : Nat) :
    Represents params (p.commit q now).2 := by
  have hswept := sweepExpired_sheds p now
  obtain ⟨d, r, hd⟩ : ∃ d r, (p.sweepExpired now).displace q = (d, r) := ⟨_, _, rfl⟩
  obtain ⟨m, room, hm⟩ : ∃ m room, r.admitPrepared q = (m, room) := ⟨_, _, rfl⟩
  have hdisplaced := sheds_of_displace hd
  have hevicted := sheds_of_admitPrepared hm
  have hsheds := sheds_of_stages hd hm
  have hfree := hfits.free h.indexed hd hm
  have hheld : m.senderLen q.sender < m.params.effectivePerSender := by
    have hlen := (Slots.sublist_remove (hsheds.slots q.sender) hfree).length_le
    refine lt_of_le_of_lt hlen (lt_of_le_of_lt ?_ (hsheds.params ▸ hfits.held))
    rw [hfits.replaces]
    cases hget : (p.slotsOf q.sender).get q.nonce with
    | none => exact List.filter_sublist.length_le
    | some old =>
      exact Nat.le_sub_one_of_lt
        (Slots.length_remove_lt ((Slots.get_eq_some (h.indexed.sorted _)).mp hget))
  have hm' := h.sheds hsheds
  rcases commit_cases p q now hd hm with ⟨evicted, rfl, heq⟩ | ⟨old, rfl, rfl, heq⟩ | ⟨-, -, heq⟩
  · rw [heq]
    have hroom := makeRoom_room (p := r) (show (r.admitPrepared q).2 = some evicted by rw [hm])
    rw [← admitPrepared, hm, ← hevicted.params] at hroom
    obtain ⟨hcount, hbytes⟩ := hroom
    refine Represents.sheds ?_ (resplit_sheds _ _ _)
    exact (hm'.next _).insert (hsheds.lookup_eq_none hfits.unknown) hfree hcount hbytes hheld
  · rw [heq]
    have hunknown := hfits.displaced_unknown h.indexed hd hm
    obtain ⟨hlookup, rfl, hs, hn⟩ := hfits.displaced h.indexed hd
    obtain ⟨-, -, -, hbytes, -, -⟩ := remove_of_some hlookup
    have hcapped := (h.sheds hswept).capped
    refine Represents.sheds ?_ (resplit_sheds _ _ _)
    refine hm'.insert hunknown (by rwa [hs, hn]) ?_ ?_ (by rwa [hs])
    · have hlt := length_remove hlookup
      rw [hevicted.params, hdisplaced.params]
      exact lt_of_le_of_lt hevicted.length (lt_of_lt_of_le (hlt ▸ Nat.lt_succ_self _) hcapped.count)
    · have hle : old.bytes.length ≤ (p.sweepExpired now).totalBytes := by
        rw [(hswept.indexed h.indexed).totalBytes, ← AList.total_erase hlookup]
        exact Nat.le_add_left _ _
      rw [hevicted.params, hdisplaced.params]
      refine (Nat.add_le_add_right (hevicted.totalBytes.trans hbytes.le) _).trans ?_
      rw [Nat.sub_add_cancel hle]
      exact hcapped.bytes
  · rw [heq]
    exact hm'

theorem Tracked.commit (h : Tracked p) (hindexed : Indexed p) {q : Prepared} (hfits : Fits p q)
    {now : Nat} (hkeeps : ¬Strands p q now) : Tracked (p.commit q now).2 := by
  obtain ⟨d, r, hd⟩ : ∃ d r, (p.sweepExpired now).displace q = (d, r) := ⟨_, _, rfl⟩
  obtain ⟨m, room, hm⟩ : ∃ m room, r.admitPrepared q = (m, room) := ⟨_, _, rfl⟩
  have hm' := (sheds_of_stages hd hm).tracked h
  rcases commit_cases p q now hd hm with ⟨evicted, rfl, heq⟩ | ⟨old, rfl, rfl, heq⟩ | ⟨-, -, heq⟩
  · rw [heq]
    exact Tracked.resplit (hm'.insert_next (q.poolTx now) q.next) _ _
  · rw [heq]
    obtain ⟨-, -, hs, -⟩ := hfits.displaced hindexed hd
    refine Tracked.resplit (hm'.insert ?_) _ _
    rw [hs]
    refine (hm' _).mpr fun hempty ↦ hkeeps ?_
    rw [Strands, hd, hm]
    exact ⟨fun h ↦ (by cases h), rfl, hempty⟩
  · rw [heq]
    exact hm'

/-! ### Blocks -/

theorem Indexed.settle (h : Indexed p) (s : Address) (next : Nat) : Indexed (p.settle s next) :=
  ((removeAll_sheds _ _).trans (resplit_sheds _ s next)).indexed (h.next _)

theorem Represents.settle (h : Represents params p) (s : Address) (next : Nat) :
    Represents params (p.settle s next) :=
  (h.next _).sheds ((removeAll_sheds _ _).trans (resplit_sheds _ s next))

/-- A sender that has slots is brought up to date. -/
theorem Tracked.settle (h : Tracked p) (hs : p.slotsOf s ≠ []) (next : Nat) :
    Tracked (p.settle s next) := by
  refine ((removeAll_sheds _ _).trans (resplit_sheds _ s next)).tracked fun s' ↦ ?_
  show s' ∈ p.nextNonce.insert s next ↔ p.slotsOf s' ≠ []
  rw [AList.mem_insert, h s', or_iff_right_iff_imp]
  rintro rfl
  exact hs

/-- Removals of others' transactions leave a sender's slots. -/
theorem slotsOf_removeAll {ids : List Hash32}
    (h : ∀ id ∈ ids, ∀ t, p.txs.lookup id = some t → t.sender ≠ s) :
    (p.removeAll ids).slotsOf s = p.slotsOf s := by
  induction ids generalizing p with
  | nil => rfl
  | cons id ids ih =>
    have hid : (p.remove id).2.slotsOf s = p.slotsOf s := by
      cases ht : p.txs.lookup id with
      | none => rw [remove_of_none ht]
      | some t =>
        rw [(remove_of_some ht).2.2.2.2.2, if_neg]
        exact (h id List.mem_cons_self t ht).symm
    refine (ih fun k hk t ht ↦ ?_).trans hid
    obtain ⟨t', ht', hplain⟩ := (remove_shrinks p id).txs k t ht
    rw [PoolTx.sender_eq hplain]
    exact h k (List.mem_cons_of_mem _ hk) t' ht'

theorem slotsOf_settle (h : Indexed p) {s' : Address} (hs : s' ≠ s) (next : Nat) :
    (p.settle s next).slotsOf s' = p.slotsOf s' := by
  show ({ p with nextNonce := p.nextNonce.insert s next }.dropBelowNonce s next).slotsOf s' = _
  refine slotsOf_removeAll fun id hid t ht ↦ ?_
  obtain ⟨x, hx, rfl⟩ := List.mem_map.mp hid
  obtain ⟨n, id⟩ := x
  obtain ⟨t', ht', hs', -⟩ := (h.slot s n id).mp (List.mem_filter.mp hx).1
  cases ht.symm.trans ht'
  rw [hs']
  exact hs.symm

/-- Bring senders up to their accounts' next nonces, one after the other. -/
def settleAll (p : Mempool) (senders : List Address) (account : Address → Account) : Mempool :=
  senders.foldl (fun p s ↦ p.settle s (account s).nonce) p

theorem Represents.settleAll (h : Represents params p) (senders : List Address)
    (account : Address → Account) : Represents params (p.settleAll senders account) := by
  induction senders generalizing p with
  | nil => exact h
  | cons s senders ih => exact ih (h.settle s _)

theorem Tracked.settleAll {senders : List Address} (h : Tracked p) (hrep : Represents params p)
    (hnodup : senders.Nodup) (hs : ∀ s ∈ senders, p.slotsOf s ≠ [])
    (account : Address → Account) : Tracked (p.settleAll senders account) := by
  induction senders generalizing p with
  | nil => exact h
  | cons s senders ih =>
    obtain ⟨hnot, hnodup⟩ := List.nodup_cons.mp hnodup
    refine ih (h.settle (hs s List.mem_cons_self) _) (hrep.settle s _) hnodup fun s' hs' ↦ ?_
    rw [slotsOf_settle hrep.indexed]
    · exact hs s' (List.mem_cons_of_mem _ hs')
    · rintro rfl
      exact hnot hs'

/-- Take out the transaction in a slot that a block spends. -/
def spend (p : Mempool) (sn : Address × Nat) : Mempool :=
  match (p.slotsOf sn.1).get sn.2 with
  | some id => (p.remove id).2
  | none => p

theorem onBlockConnected_eq (p : Mempool) (spent : List (Address × Nat))
    (account : Address → Account) : p.onBlockConnected spent account =
      (spent.foldl spend p).settleAll (spent.map (·.1)).dedup account := rfl

theorem spend_sheds (p : Mempool) (sn : Address × Nat) : Sheds p (p.spend sn) := by
  unfold spend
  split
  case h_1 id _ => exact remove_sheds p id
  case h_2 => exact .refl p

/-- Other slots stay. -/
theorem mem_slotsOf_spend (h : Indexed p) {sn : Address × Nat} {n : Nat}
    (hmem : (n, id) ∈ p.slotsOf s) (hne : (s, n) ≠ sn) : (n, id) ∈ (p.spend sn).slotsOf s := by
  unfold spend
  split
  case h_2 => exact hmem
  case h_1 spentId hget =>
    obtain ⟨t, ht, hs, hn⟩ := (h.slot _ _ _).mp ((Slots.get_eq_some (h.sorted _)).mp hget)
    rw [(remove_of_some ht).2.2.2.2.2]
    split
    case isFalse => exact hmem
    case isTrue hsender =>
      refine Slots.mem_remove.mpr ⟨hmem, ?_⟩
      rintro rfl
      exact hne (Prod.ext (hsender.trans hs) hn)

theorem mem_slotsOf_foldl_spend (h : Indexed p) {spent : List (Address × Nat)} {n : Nat}
    (hmem : (n, id) ∈ p.slotsOf s) (hne : (s, n) ∉ spent) :
    (n, id) ∈ (spent.foldl spend p).slotsOf s := by
  induction spent generalizing p with
  | nil => exact hmem
  | cons sn spent ih =>
    obtain ⟨hsn, hne⟩ := not_or.mp (mt List.mem_cons.mpr hne)
    exact ih ((spend_sheds p sn).indexed h) (mem_slotsOf_spend h hmem hsn) hne

/-- The block leaves every sender it spends from a transaction in the pool. -/
def Spares (p : Mempool) (spent : List (Address × Nat)) : Prop :=
  ∀ sn ∈ spent, ∃ n id, (n, id) ∈ p.slotsOf sn.1 ∧ (sn.1, n) ∉ spent

theorem Represents.onBlockConnected (h : Represents params p) (spent : List (Address × Nat))
    (account : Address → Account) : Represents params (p.onBlockConnected spent account) := by
  rw [onBlockConnected_eq]
  exact (h.sheds (sheds_foldl spend_sheds spent p)).settleAll _ account

theorem Tracked.onBlockConnected (h : Tracked p) (hrep : Represents params p)
    {spent : List (Address × Nat)} (hspares : p.Spares spent) (account : Address → Account) :
    Tracked (p.onBlockConnected spent account) := by
  rw [onBlockConnected_eq]
  have hsheds := sheds_foldl spend_sheds spent p
  refine (hsheds.tracked h).settleAll (hrep.sheds hsheds) (List.nodup_dedup _)
    (fun s hs ↦ ?_) account
  obtain ⟨sn, hsn, rfl⟩ := List.mem_map.mp (List.mem_dedup.mp hs)
  obtain ⟨n, id, hmem, hne⟩ := hspares sn hsn
  exact List.ne_nil_of_mem (mem_slotsOf_foldl_spend hrep.indexed hmem hne)

theorem Tracked.resplitAll (h : Tracked p) (hrep : Represents params p)
    (account : Address → Account) : Tracked (p.resplitAll account) := by
  refine h.settleAll hrep p.bySender.nodupKeys (fun s hs ↦ ?_) account
  obtain ⟨m, hm⟩ := Option.isSome_iff_exists.mp (AList.lookup_isSome.mpr hs)
  unfold slotsOf
  rw [hm]
  exact hrep.indexed.kept s m hm

/-! ### Submissions -/

section

variable [Crypto]

/-- A submission does not strand its sender. -/
def Admits (p : Mempool) (raw : Bytes) (author : AuthorRule) (lookup : Address → Account × Nat)
    (now : Nat) : Prop :=
  ∀ q, p.check raw author lookup = .ok q → ¬Strands p q now

theorem submit_cases (p : Mempool) (raw : Bytes) (acct : Account) (spendable now : Nat) :
    (p.submit raw acct spendable now).2 = p ∨
      ∃ q, p.check raw .alreadyHeld (fun _ ↦ (acct, spendable)) = .ok q ∧
        (p.submit raw acct spendable now).2 = (p.commit q now).2 := by
  unfold submit
  split
  case h_1 => exact .inl rfl
  case h_2 q hq => exact .inr ⟨q, hq, rfl⟩

theorem submitVerified_cases (p : Mempool) (network : Network) (raw : Bytes)
    (lookup : Address → Account × Nat) (now : Nat) (authorPubkey : Arr 32) :
    (p.submitVerified network raw lookup now authorPubkey).2 = p ∨
      ∃ q, p.check raw (.enforce authorPubkey) lookup = .ok q ∧
        (p.submitVerified network raw lookup now authorPubkey).2 = (p.commit q now).2 := by
  unfold submitVerified
  split
  case h_1 => exact .inl rfl
  case h_2 q hq =>
    split
    case h_1 => exact .inl rfl
    case h_2 => exact .inr ⟨q, hq, rfl⟩

/-- The condition on one round of `on_reorg_reinject`. -/
def RoundAdmits (lookup : Address → Account × Nat) (now : Nat) (acc : Nat × Mempool)
    (raw : Bytes) : Prop :=
  ∀ tx sender, decodeTx raw = .ok tx → senderOf tx = some sender →
    acc.2.Admits raw .alreadyHeld (fun _ ↦ ((lookup sender).1, (lookup sender).2)) now

/-- A round of `on_reorg_reinject` is a submission or nothing. -/
theorem reinject_cases (lookup : Address → Account × Nat) (now : Nat) (acc : Nat × Mempool)
    (raw : Bytes) : (reinject lookup now acc raw).2 = acc.2 ∨
      ∃ tx sender, decodeTx raw = .ok tx ∧ senderOf tx = some sender ∧
        (reinject lookup now acc raw).2 =
          (acc.2.submit raw (lookup sender).1 (lookup sender).2 now).2 := by
  unfold reinject
  split
  case isTrue => exact .inl rfl
  case isFalse =>
    split
    case h_1 => exact .inl rfl
    case h_2 tx htx =>
      split
      case h_1 => exact .inl rfl
      case h_2 sender hsender =>
        refine .inr ⟨tx, sender, htx, hsender, ?_⟩
        dsimp only
        generalize acc.2.submit raw (lookup sender).1 (lookup sender).2 now = r
        obtain ⟨_ | _, _⟩ := r <;> rfl

theorem Represents.submit (h : Represents params p) (raw : Bytes) (acct : Account)
    (spendable now : Nat) : Represents params (p.submit raw acct spendable now).2 := by
  rcases submit_cases p raw acct spendable now with heq | ⟨q, hq, heq⟩
  · rwa [heq]
  · rw [heq]
    exact h.commit (fits_of_check hq) now

theorem Tracked.submit (h : Tracked p) (hrep : Represents params p) {raw : Bytes} {acct : Account}
    {spendable now : Nat} (hadmits : p.Admits raw .alreadyHeld (fun _ ↦ (acct, spendable)) now) :
    Tracked (p.submit raw acct spendable now).2 := by
  rcases submit_cases p raw acct spendable now with heq | ⟨q, hq, heq⟩
  · rwa [heq]
  · rw [heq]
    exact h.commit hrep.indexed (fits_of_check hq) (hadmits q hq)

theorem Represents.submitVerified (h : Represents params p) (network : Network) (raw : Bytes)
    (lookup : Address → Account × Nat) (now : Nat) (authorPubkey : Arr 32) :
    Represents params (p.submitVerified network raw lookup now authorPubkey).2 := by
  rcases submitVerified_cases p network raw lookup now authorPubkey with heq | ⟨q, hq, heq⟩
  · rwa [heq]
  · rw [heq]
    exact h.commit (fits_of_check hq) now

theorem Tracked.submitVerified (h : Tracked p) (hrep : Represents params p) (network : Network)
    {raw : Bytes} {lookup : Address → Account × Nat} {now : Nat} {authorPubkey : Arr 32}
    (hadmits : p.Admits raw (.enforce authorPubkey) lookup now) :
    Tracked (p.submitVerified network raw lookup now authorPubkey).2 := by
  rcases submitVerified_cases p network raw lookup now authorPubkey with heq | ⟨q, hq, heq⟩
  · rwa [heq]
  · rw [heq]
    exact h.commit hrep.indexed (fits_of_check hq) (hadmits q hq)

/-- The transactions of disconnected blocks, in the order they are tried. -/
def returned (disconnected : List (Nat × List Bytes)) : List Bytes :=
  (disconnected.insertionSort fun a b ↦ b.1 ≤ a.1).flatMap (·.2)

/-- The loop of `on_reorg_reinject`. -/
theorem reinject_keeps (h : Represents params p) (lookup : Address → Account × Nat) (now : Nat)
    (raws : List Bytes) : Represents params (raws.foldl (reinject lookup now) (0, p)).2 ∧
      (Tracked p → (∀ before raw, before ++ [raw] <+: raws →
        RoundAdmits lookup now (before.foldl (reinject lookup now) (0, p)) raw) →
          Tracked (raws.foldl (reinject lookup now) (0, p)).2) := by
  induction raws using List.reverseRecOn with
  | nil => exact ⟨h, fun h _ ↦ h⟩
  | append_singleton raws raw ih =>
    obtain ⟨hrep, htracked⟩ := ih
    rw [List.foldl_append]
    rcases reinject_cases lookup now (raws.foldl (reinject lookup now) (0, p)) raw with
      heq | ⟨tx, sender, htx, hsender, heq⟩
    · refine ⟨heq ▸ hrep, fun h hadmits ↦ heq ▸ htracked h fun before raw' hbefore ↦ ?_⟩
      exact hadmits before raw' (hbefore.trans (List.prefix_append _ _))
    · refine ⟨heq ▸ hrep.submit _ _ _ _, fun h hadmits ↦ heq ▸ Tracked.submit ?_ hrep ?_⟩
      · exact htracked h fun before raw' hbefore ↦
          hadmits before raw' (hbefore.trans (List.prefix_append _ _))
      · exact hadmits raws raw List.prefix_rfl tx sender htx hsender

/-! ### Runs -/

/-- What is asked of a pool. -/
inductive MempoolOp where
  | submit (raw : Bytes) (acct : Account) (spendable now : Nat)
  | submitVerified (network : Network) (raw : Bytes) (lookup : Address → Account × Nat) (now : Nat)
    (authorPubkey : Arr 32)
  | sweepExpired (now : Nat)
  | onBlockConnected (spent : List (Address × Nat)) (account : Address → Account)
  | onReorgReinject (disconnected : List (Nat × List Bytes)) (now : Nat)
    (lookup : Address → Account × Nat)
  | resplitAll (account : Address → Account)

/-- The pool after an operation. -/
def exec (p : Mempool) : MempoolOp → Mempool
  | .submit raw acct spendable now => (p.submit raw acct spendable now).2
  | .submitVerified network raw lookup now authorPubkey =>
    (p.submitVerified network raw lookup now authorPubkey).2
  | .sweepExpired now => p.sweepExpired now
  | .onBlockConnected spent account => p.onBlockConnected spent account
  | .onReorgReinject disconnected now lookup => p.onReorgReinject disconnected now lookup
  | .resplitAll account => p.resplitAll account

/-- The pool after a run from the empty one. -/
def run (params : MempoolParams) (ops : List MempoolOp) : Mempool := ops.foldl exec (new params)

/-- No operation leaves a sender without transactions in the table of next nonces, or a sender
with transactions out of it. -/
def Meets (p : Mempool) : MempoolOp → Prop
  | .submit raw acct spendable now => p.Admits raw .alreadyHeld (fun _ ↦ (acct, spendable)) now
  | .submitVerified _ raw lookup now authorPubkey =>
    p.Admits raw (.enforce authorPubkey) lookup now
  | .onBlockConnected spent _ => p.Spares spent
  | .onReorgReinject disconnected now lookup =>
    ∀ before raw, before ++ [raw] <+: returned disconnected →
      RoundAdmits lookup now (before.foldl (reinject lookup now) (0, p)) raw
  | .sweepExpired _ | .resplitAll _ => True

theorem Represents.exec (h : Represents params p) (op : MempoolOp) :
    Represents params (p.exec op) := by
  cases op with
  | submit raw acct spendable now => exact h.submit raw acct spendable now
  | submitVerified network raw lookup now authorPubkey =>
    exact h.submitVerified network raw lookup now authorPubkey
  | sweepExpired now => exact h.sheds (sweepExpired_sheds p now)
  | onBlockConnected spent account => exact h.onBlockConnected spent account
  | onReorgReinject disconnected now lookup => exact (reinject_keeps h lookup now _).1
  | resplitAll account => exact h.settleAll _ account

theorem Tracked.exec (h : Tracked p) (hrep : Represents params p) {op : MempoolOp}
    (hmeets : p.Meets op) : Tracked (p.exec op) := by
  cases op with
  | submit raw acct spendable now => exact h.submit hrep hmeets
  | submitVerified network raw lookup now authorPubkey =>
    exact h.submitVerified hrep network hmeets
  | sweepExpired now => exact (sweepExpired_sheds p now).tracked h
  | onBlockConnected spent account => exact h.onBlockConnected hrep hmeets account
  | onReorgReinject disconnected now lookup =>
    exact (reinject_keeps hrep lookup now _).2 h hmeets
  | resplitAll account => exact h.resplitAll hrep account

theorem run_concat (params : MempoolParams) (ops : List MempoolOp) (op : MempoolOp) :
    run params (ops ++ [op]) = (run params ops).exec op := by
  rw [run, List.foldl_append]
  rfl

theorem represents_run (params : MempoolParams) (ops : List MempoolOp) :
    Represents params (run params ops) := by
  induction ops using List.reverseRecOn with
  | nil => exact represents_new params
  | append_singleton ops op ih =>
    rw [run_concat]
    exact ih.exec op

/-- All along a run the tables agree and the caps hold, and as long as every operation meets its
condition the next nonces are those of the senders in the pool. -/
theorem run_represents (params : MempoolParams) (ops : List MempoolOp) :
    Represents params (run params ops) ∧ (run params ops).arrival.Perm (run params ops).txs.keys ∧
      (∀ id id' t t', (run params ops).txs.lookup id = some t →
        (run params ops).txs.lookup id' = some t' → t.sender = t'.sender → t.nonce = t'.nonce →
          id = id') ∧
      ((∀ before op, before ++ [op] <+: ops → (run params before).Meets op) →
        Tracked (run params ops)) := by
  have hrep := represents_run params
  refine ⟨hrep ops, (hrep ops).indexed.perm, fun _ _ _ _ ↦ (hrep ops).indexed.unique,
    fun hmeets ↦ ?_⟩
  induction ops using List.reverseRecOn with
  | nil => exact tracked_new params
  | append_singleton ops op ih =>
    rw [run_concat]
    refine Tracked.exec (ih fun before op' hbefore ↦ ?_) (hrep ops) (hmeets ops op List.prefix_rfl)
    exact hmeets before op' (hbefore.trans (List.prefix_append _ _))

end

/-- A block that spends from a sender without transactions in the pool leaves an entry behind. -/
theorem block_leaves_residue :
    letI := Crypto.ofSignatures []
    let p := run ⟨10, 1000, 4, 4, 60, 0, 1, 1, 5⟩
      [.onBlockConnected [(Arr.zero 20, 0)] fun _ ↦ ⟨0, 1⟩]
    p.txs.keys = [] ∧ p.nextNonce.lookup (Arr.zero 20) = some 1 ∧ ¬Tracked p := by
  refine ⟨rfl, by decide, fun h ↦ ?_⟩
  exact (h (Arr.zero 20)).mp (AList.lookup_isSome.mp rfl) rfl

end Mempool

end Plaine.Chain

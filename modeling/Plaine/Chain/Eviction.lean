import Plaine.Chain.Outlay

/-!
# Admissions and evictions

What an admission costs the others: an evicted transaction pays no more per byte than the newcomer,
and eviction cuts no sender's executable run.  For the latter the marks need not be up to date: in
every state that a run reaches the executable transactions of a sender are a run from some nonce, so
that a queued transaction is either above it or, left over from before the account moved, below.
-/

namespace Plaine.Chain

open Plaine.Lib Plaine.Consensus

namespace Mempool

variable {p q r m : Mempool} {t : PoolTx} {id : Hash32} {s : Address} {now : Nat} {c : Prepared}
  {d : Option PoolTx} {room : Option (List Hash32)}

/-! ## The executable runs -/

/-- The executable transactions of a sender are a run from some nonce. -/
def Spans (p : Mempool) (s : Address) : Prop := ∃ next, Marked p s next

theorem Untouched.spans (h : Untouched s p q) : Spans p s → Spans q s
  | ⟨next, hm⟩ => ⟨next, h.marked hm⟩

theorem spans_resplit (h : Indexed p) (s : Address) (next : Nat) : Spans (p.resplit s next).2 s :=
  ⟨next, resplit_marked h s next⟩

theorem Spans.resplit (h : Indexed p) (hs : Spans p s) (s' : Address) (next : Nat) :
    Spans (p.resplit s' next).2 s := by
  rcases eq_or_ne s s' with rfl | hne
  · exact spans_resplit h s next
  · exact (resplit_untouched h hne next).spans hs

theorem Spans.makeRoom (h : Indexed p) (hs : Spans p s) (fpb len fuel : Nat)
    (removed : List Hash32) : Spans (makeRoom fpb len fuel p removed).1 s := by
  induction fuel generalizing p removed with
  | zero => exact hs
  | succ fuel ih =>
    unfold Mempool.makeRoom
    split
    case isFalse => exact hs
    case isTrue =>
      split
      case h_1 => exact hs
      case h_2 victim hvictim =>
        split
        case isTrue => exact hs
        case isFalse =>
          obtain ⟨id, hid, hlookup⟩ := Option.bind_eq_some_iff.mp hvictim
          obtain ⟨next, hm⟩ := hs
          rw [h.txid id victim hlookup]
          exact ih (h.remove id) ⟨next, hm.evict h hid hlookup⟩ _

theorem spans_foldl_resplitKnown (h : Indexed p) {senders : List Address}
    (hs : s ∈ senders ∨ Spans p s) : Spans (senders.foldl Mempool.resplitKnown p) s := by
  induction senders generalizing p with
  | nil => exact hs.resolve_left List.not_mem_nil
  | cons s' senders ih =>
    refine ih (h.resplit s' _) ?_
    rcases hs with hmem | hs
    · rcases List.mem_cons.mp hmem with rfl | hmem
      · exact .inr (spans_resplit h s _)
      · exact .inl hmem
    · exact .inr (hs.resplit h s' _)

theorem Spans.sweepExpired (h : Indexed p) (hs : Spans p s) (now : Nat) :
    Spans (p.sweepExpired now) s := by
  have hindexed := (removeAll_sheds p ((p.expired now).map (·.txid))).indexed h
  rw [sweepExpired_eq]
  refine spans_foldl_resplitKnown hindexed ?_
  rw [List.mem_dedup]
  refine (em _).imp_right fun hnot ↦ (removeAll_untouched h fun id hid t ht heq ↦ ?_).spans hs
  obtain ⟨t', ht', rfl⟩ := List.mem_map.mp hid
  obtain ⟨k, hk⟩ := mem_values.mp (List.mem_filter.mp ht').1
  obtain rfl := h.txid k t' hk
  cases ht.symm.trans hk
  exact hnot (List.mem_map.mpr ⟨t, ht', heq.symm⟩)

theorem spans_settleAll (h : Indexed p) {senders : List Address} (account : Address → Account)
    (hs : s ∈ senders ∨ Spans p s) : Spans (p.settleAll senders account) s := by
  induction senders generalizing p with
  | nil => exact hs.resolve_left List.not_mem_nil
  | cons s' senders ih =>
    refine ih (h.settle s' _) ?_
    rcases eq_or_ne s s' with rfl | hne
    · exact .inr ⟨_, (settle_fresh h s _).marked⟩
    · exact hs.imp (fun hmem ↦ (List.mem_cons.mp hmem).resolve_left hne)
        (settle_untouched h hne _).spans

theorem Spans.displace (h : Indexed p) (hfits : Fits p c) (hs : s ≠ c.sender) (hp : Spans p s)
    (hd : (p.sweepExpired now).displace c = (d, r)) : Spans r s := by
  have hswept := hp.sweepExpired h now
  cases d with
  | none => rwa [eq_of_displace_none hd]
  | some old =>
    obtain ⟨hlookup, rfl, hsender, -⟩ := hfits.displaced h hd
    refine (remove_untouched ((sweepExpired_sheds p now).indexed h) fun t ht ↦ ?_).spans hswept
    cases hlookup.symm.trans ht
    rwa [hsender]

theorem Spans.commit (h : Indexed p) (hfits : Fits p c) (hp : Spans p s) (now : Nat) :
    Spans (p.commit c now).2 s := by
  obtain ⟨d, r, hd⟩ : ∃ d r, (p.sweepExpired now).displace c = (d, r) := ⟨_, _, rfl⟩
  obtain ⟨m, room, hm⟩ : ∃ m room, r.admitPrepared c = (m, room) := ⟨_, _, rfl⟩
  have hr := (sheds_of_displace hd).indexed ((sweepExpired_sheds p now).indexed h)
  have hroom (hspans : Spans r s) : Spans m s := by
    have hmade := hspans.makeRoom hr (c.fee / max c.raw.length 1) c.raw.length
      (r.txs.keys.length + 1) []
    rwa [← admitPrepared, hm] at hmade
  rcases commit_cases p c now hd hm with ⟨_, -, heq⟩ | ⟨old, -, rfl, heq⟩ | ⟨-, rfl, heq⟩
  · rw [heq]
    have hindexed := hfits.indexed_insert h hd hm
    rcases eq_or_ne s c.sender with rfl | hs
    · exact spans_resplit hindexed _ _
    · have hset : Untouched s m { m with nextNonce := m.nextNonce.insert c.sender c.next } :=
        ⟨rfl, AList.lookup_insert_ne hs, fun _ _ _ ↦ Iff.rfl⟩
      have hunknown := (sheds_of_stages hd hm).lookup_eq_none hfits.unknown
      have hins := hset.trans (insert_untouched (t := c.poolTx now) hunknown hs)
      exact (hins.trans (resplit_untouched hindexed hs _)).spans
        (hroom (hp.displace h hfits hs hd))
  · rw [heq]
    have hindexed := hfits.indexed_putBack h hd hm
    rcases eq_or_ne s c.sender with rfl | hs
    · exact spans_resplit hindexed _ _
    · obtain ⟨-, -, hsender, -⟩ := hfits.displaced h hd
      have hins := insert_untouched (hfits.displaced_unknown h hd hm)
        (show s ≠ old.sender by rwa [hsender])
      exact (hins.trans (resplit_untouched hindexed hs _)).spans
        (hroom (hp.displace h hfits hs hd))
  · rw [heq]
    refine hroom ?_
    rw [eq_of_displace_none hd]
    exact hp.sweepExpired h now

section

variable [Crypto]

theorem Spans.submit (h : Indexed p) (hp : Spans p s) (raw : Bytes) (acct : Account)
    (spendable now : Nat) : Spans (p.submit raw acct spendable now).2 s := by
  rcases submit_cases p raw acct spendable now with heq | ⟨c, hc, heq⟩
  · rwa [heq]
  · rw [heq]
    exact hp.commit h (fits_of_check hc) now

theorem Spans.exec {params : MempoolParams} (h : Represents params p) (hp : Spans p s)
    (op : MempoolOp) : Spans (p.exec op) s := by
  have hindexed := h.indexed
  cases op with
  | submit raw acct spendable now => exact hp.submit hindexed raw acct spendable now
  | submitVerified network raw lookup now authorPubkey =>
    rcases submitVerified_cases p network raw lookup now authorPubkey with heq | ⟨c, hc, heq⟩
    · exact (congrArg (Spans · s) heq).mpr hp
    · exact (congrArg (Spans · s) heq).mpr (hp.commit hindexed (fits_of_check hc) now)
  | sweepExpired now => exact hp.sweepExpired hindexed now
  | onBlockConnected spent account =>
    have hspent := (sheds_foldl spend_sheds spent p).indexed hindexed
    refine spans_settleAll hspent account ?_
    rw [List.mem_dedup]
    exact (em _).imp_right fun hnot ↦ (foldl_spend_untouched hindexed hnot).spans hp
  | onReorgReinject disconnected now lookup =>
    show Spans ((returned disconnected).foldl (reinject lookup now) (0, p)).2 s
    induction returned disconnected using List.reverseRecOn with
    | nil => exact hp
    | append_singleton raws raw ih =>
      have hraws := (reinject_keeps h lookup now raws).1.indexed
      rw [List.foldl_append]
      rcases reinject_cases lookup now (raws.foldl (reinject lookup now) (0, p)) raw with
        heq | ⟨tx, sender, -, -, heq⟩
      · exact (congrArg (Spans · s) heq).mpr ih
      · exact (congrArg (Spans · s) heq).mpr (ih.submit hraws raw _ _ now)
  | resplitAll account =>
    exact spans_settleAll hindexed account (.inr hp)

/-- All along a run the executable transactions of every sender are a run from some nonce. -/
theorem run_spans (params : MempoolParams) (ops : List MempoolOp) (s : Address) :
    Spans (run params ops) s := by
  induction ops using List.reverseRecOn with
  | nil => exact ⟨0, (fresh_of_nil (represents_new params).indexed rfl 0).marked⟩
  | append_singleton ops op ih =>
    rw [run_concat]
    exact ih.exec (represents_run params ops) op

end

/-! ## The evicted -/

theorem feePerByte_eq {t t' : PoolTx} (h : t.plain = t'.plain) : t.feePerByte = t'.feePerByte :=
  show t.plain.feePerByte = t'.plain.feePerByte by rw [h]

/-- What a newcomer pays per byte its victims do not pay more than. -/
theorem feePerByte_le_of_makeRoom (h : Indexed p) {fpb len fuel : Nat} {removed : List Hash32}
    (ht : p.txs.lookup id = some t)
    (hgone : (makeRoom fpb len fuel p removed).1.txs.lookup id = none) : t.feePerByte ≤ fpb := by
  induction fuel generalizing p removed with
  | zero => cases ht.symm.trans hgone
  | succ fuel ih =>
    unfold makeRoom at hgone
    split at hgone
    case isFalse => cases ht.symm.trans hgone
    case isTrue =>
      split at hgone
      case h_1 => cases ht.symm.trans hgone
      case h_2 victim hvictim =>
        split at hgone
        case isTrue => cases ht.symm.trans hgone
        case isFalse hcheap =>
          obtain ⟨k, -, hk⟩ := Option.bind_eq_some_iff.mp hvictim
          rw [h.txid k victim hk] at hgone
          rcases eq_or_ne id k with rfl | hne
          · cases ht.symm.trans hk
            exact Nat.not_lt.mp hcheap
          · refine ih (h.remove k) ?_ hgone
            rw [(remove_of_some hk).2.2.1]
            exact (AList.lookup_erase_ne hne).trans ht

theorem lookup_removeAll_of_notMem {ids : List Hash32} (hid : id ∉ ids) :
    (p.removeAll ids).txs.lookup id = p.txs.lookup id := by
  induction ids generalizing p with
  | nil => rfl
  | cons k ids ih =>
    obtain ⟨hne, hid⟩ := not_or.mp (mt List.mem_cons.mpr hid)
    refine (ih hid).trans ?_
    dsimp only
    cases ht : p.txs.lookup k with
    | none => rw [remove_of_none ht]
    | some t =>
      rw [(remove_of_some ht).2.2.1]
      exact AList.lookup_erase_ne hne

theorem flagged_foldl_resplitKnown (p : Mempool) (senders : List Address) :
    Flagged p.txs (senders.foldl Mempool.resplitKnown p).txs := by
  induction senders generalizing p with
  | nil => exact .refl p.txs
  | cons s senders ih =>
    have hfirst := flagged_resplitLoop (p.slotsOf s) ((p.nextNonce.lookup s).getD 0) p.txs
    exact hfirst.trans (ih (p.resplitKnown s))

/-- A sweep leaves what has not expired. -/
theorem lookup_sweepExpired_of_notMem (h : Indexed p) (ht : p.txs.lookup id = some t)
    (hlive : t ∉ p.expired now) :
    ∃ t', (p.sweepExpired now).txs.lookup id = some t' ∧ t.plain = t'.plain := by
  have hnot : id ∉ (p.expired now).map (·.txid) := by
    intro hmem
    obtain ⟨t', ht', rfl⟩ := List.mem_map.mp hmem
    obtain ⟨k, hk⟩ := mem_values.mp (List.mem_filter.mp ht').1
    obtain rfl := h.txid k t' hk
    cases ht.symm.trans hk
    exact hlive ht'
  have hkept := (lookup_removeAll_of_notMem (p := p) hnot).trans ht
  rw [sweepExpired_eq]
  exact (flagged_foldl_resplitKnown _ _).symm.of_lookup hkept

/-- A transaction that an admission of `t` has driven out: it is gone, had not expired, and was not
in the slot of `t`. -/
structure Evicted (p q : Mempool) (now : Nat) (t : PoolTx) (id : Hash32) (v : PoolTx) : Prop where
  pooled : p.txs.lookup id = some v
  gone : q.txs.lookup id = none
  live : v ∉ p.expired now
  other : (p.slotsOf t.sender).get t.nonce ≠ some id

/-- The pool `p` has become `q` by the admission of `t`, whose sender had so much to spend. -/
structure Admission (p q : Mempool) (now spendable : Nat) (t : PoolTx) : Prop where
  pooled : q.txs.lookup t.txid = some t
  affordable : ((q.senderTxs t.sender).map fun t ↦ t.amount + t.fee).sum ≤ spendable
  outbids : ∀ id old, (p.slotsOf t.sender).get t.nonce = some id → p.txs.lookup id = some old →
    old.fee + max (old.fee / 4) 1 ≤ t.fee
  cheaper : ∀ id v, Evicted p q now t id v → v.feePerByte ≤ t.feePerByte
  unbroken : ∀ id v, Evicted p q now t id v → ∀ id' t', q.txs.lookup id' = some t' →
    t'.sender = v.sender → t'.executable = true → v.nonce < t'.nonce →
      ∀ id'' t'', q.txs.lookup id'' = some t'' → t''.sender = v.sender → t''.executable = true →
        v.nonce < t''.nonce

/-- What is not in the slot of a newcomer is not displaced. -/
theorem lookup_displace (hfits : Fits p c) (h : Indexed p)
    (hd : (p.sweepExpired now).displace c = (d, r))
    (hother : (p.slotsOf c.sender).get c.nonce ≠ some id) :
    r.txs.lookup id = (p.sweepExpired now).txs.lookup id := by
  cases d with
  | none => rw [eq_of_displace_none hd]
  | some old =>
    have hswept := sweepExpired_sheds p now
    obtain ⟨hold, rfl, hs, hn⟩ := hfits.displaced h hd
    rw [(remove_of_some hold).2.2.1]
    refine AList.lookup_erase_ne ?_
    rintro rfl
    obtain ⟨t', ht', hplain⟩ := hswept.txs _ _ hold
    refine hother ((Slots.get_eq_some (h.sorted _)).mpr ((h.slot _ _ _).mpr ⟨t', ht', ?_, ?_⟩))
    · exact (PoolTx.sender_eq hplain).symm.trans hs
    · exact (PoolTx.nonce_eq hplain).symm.trans hn

/-- The pool with a newcomer in. -/
theorem plain_lookup_admitted (m : Mempool) (c : Prepared) (now : Nat) (id : Hash32) :
    ((({ m with nextNonce := m.nextNonce.insert c.sender c.next }.insert (c.poolTx now)).resplit
        c.sender c.next).2.txs.lookup id).map PoolTx.plain =
      if id = c.txid then some (c.poolTx now).plain else (m.txs.lookup id).map PoolTx.plain := by
  refine ((flagged_resplitLoop _ _ _).lookup id).trans ?_
  show ((m.txs.insert c.txid (c.poolTx now)).lookup id).map PoolTx.plain = _
  split
  case isTrue heq =>
    subst heq
    rw [AList.lookup_insert, Option.map_some]
  case isFalse hne => rw [AList.lookup_insert_ne hne]

/-- Nothing is left in the slot of an evicted transaction. -/
theorem evicted_slot (h : Indexed p) (hleft : Shrinks p m) {v : PoolTx}
    (hq : Indexed q) (hplain : ∀ id, (q.txs.lookup id).map PoolTx.plain =
      if id = c.txid then some (c.poolTx now).plain else (m.txs.lookup id).map PoolTx.plain)
    (hv : p.txs.lookup id = some v) (hgone : q.txs.lookup id = none)
    (hother : (p.slotsOf c.sender).get c.nonce ≠ some id) :
    ¬Slots.Holds (q.slotsOf v.sender) v.nonce := by
  rintro ⟨k, hk⟩
  obtain ⟨t, ht, hs, hn⟩ := (hq.slot _ _ _).mp hk
  have hlookup := hplain k
  rw [ht, Option.map_some] at hlookup
  split at hlookup
  case isTrue =>
    have heq := Option.some.inj hlookup
    refine hother ((Slots.get_eq_some (h.sorted _)).mpr ((h.slot _ _ _).mpr ⟨v, hv, ?_, ?_⟩))
    · exact hs.symm.trans (PoolTx.sender_eq heq)
    · exact hn.symm.trans (PoolTx.nonce_eq heq)
  case isFalse =>
    obtain ⟨t', ht', heq'⟩ := Option.map_eq_some_iff.mp hlookup.symm
    obtain ⟨t'', ht'', heq''⟩ := hleft.txs k t' ht'
    have hsame := heq'.symm.trans heq''
    have hid := h.unique ht'' hv ((PoolTx.sender_eq hsame).symm.trans hs)
      ((PoolTx.nonce_eq hsame).symm.trans hn)
    subst hid
    cases hgone.symm.trans ht

/-- An admission by `commit`. -/
theorem admission_of_commit [Crypto] {params : MempoolParams} (hrep : Represents params p)
    (hspans : ∀ s, Spans p s) {raw : Bytes} {author : AuthorRule}
    {lookup : Address → Account × Nat} (hc : p.check raw author lookup = .ok c)
    (hsum : p.outlayOf c.sender ≤ u128Max) {a : Admitted} (hok : (p.commit c now).1 = .ok a) :
    ∃ t, t.txid = a.txid ∧ t.sender = c.sender ∧
      Admission p (p.commit c now).2 now (lookup c.sender).2 t := by
  have h := hrep.indexed
  have hfits := fits_of_check hc
  obtain ⟨haffords, houtbids⟩ := affords_of_check h hc hsum
  have hrun (s : Address) := (hspans s).commit h hfits now
  have hq := (hrep.commit hfits now).indexed
  obtain ⟨d, r, hd⟩ : ∃ d r, (p.sweepExpired now).displace c = (d, r) := ⟨_, _, rfl⟩
  obtain ⟨m, room, hm⟩ : ∃ m room, r.admitPrepared c = (m, room) := ⟨_, _, rfl⟩
  have hleft := (sheds_of_stages hd hm).toShrinks
  have hr := (sheds_of_displace hd).indexed ((sweepExpired_sheds p now).indexed h)
  have hroom : room ≠ none := by
    intro hnone
    obtain ⟨e, hrefused⟩ := (commit_refused_iff p c now hd hm).mpr hnone
    cases hok.symm.trans hrefused
  rcases commit_cases p c now hd hm with ⟨evicted, -, heq⟩ | ⟨_, hnone, -⟩ | ⟨hnone, -⟩
  rotate_left
  · exact absurd hnone hroom
  · exact absurd hnone hroom
  have hplain := plain_lookup_admitted m c now
  have houtlay := (outlay_admitted h hfits hd hm).trans haffords
  rw [← heq] at hplain houtlay
  have hnew := hplain c.txid
  rw [if_pos rfl] at hnew
  obtain ⟨t, ht, heqt⟩ := Option.map_eq_some_iff.mp hnew
  have htxid : t.txid = c.txid := PoolTx.txid_eq heqt
  have hsender : t.sender = c.sender := PoolTx.sender_eq heqt
  have hnonce : t.nonce = c.nonce := PoolTx.nonce_eq heqt
  have hfee : t.fee = c.fee := show t.plain.fee = (c.poolTx now).plain.fee by rw [heqt]
  have hfpb : t.feePerByte = c.fee / max c.raw.length 1 := feePerByte_eq heqt
  refine ⟨t, htxid.trans (txid_of_commit hok).symm, hsender, ?_, ?_, ?_, ?_, ?_⟩
  · rwa [htxid]
  · rwa [hsender]
  · rw [hsender, hnonce, hfee]
    exact houtbids
  · rintro id v ⟨hv, hgone, hlive, hother⟩
    rw [hsender, hnonce] at hother
    obtain ⟨v', hv', heqv⟩ := lookup_sweepExpired_of_notMem h hv hlive
    rw [← lookup_displace hfits h hd hother] at hv'
    have hlookup := hplain id
    rw [hgone, Option.map_none] at hlookup
    split at hlookup
    case isTrue => cases hlookup
    case isFalse =>
      have hlost := Option.map_eq_none_iff.mp hlookup.symm
      have hnone : (r.admitPrepared c).1.txs.lookup id = none := by rwa [hm]
      have hpaid : _ ≤ c.fee / max c.raw.length 1 := feePerByte_le_of_makeRoom hr hv' hnone
      rwa [hfpb, feePerByte_eq heqv]
  · rintro id v ⟨hv, hgone, -, hother⟩ k t' ht' hs' hexec' hlt k' t'' ht'' hs'' hexec''
    rw [hsender, hnonce] at hother
    have hfree := evicted_slot h hleft hq hplain hv hgone hother
    obtain ⟨next, hmarked⟩ := hrun v.sender
    have hrun' := (hmarked k t' ht' hs').mp hexec'
    have hrun'' := (hmarked k' t'' ht'' hs'').mp hexec''
    by_contra hge
    exact hfree (hrun'.2 v.nonce (hrun''.1.trans (Nat.not_lt.mp hge)) hlt.le)

/-- An admission, in any state a run reaches. -/
theorem admission_spec [Crypto] (params : MempoolParams) (ops : List MempoolOp)
    (hops : ∀ op ∈ ops, Amounts op) (network : Network) (raw : Bytes) (acct : Account)
    (spendable now : Nat) (lookup : Address → Account × Nat) (authorPubkey : Arr 32) :
    (∀ a, ((run params ops).submit raw acct spendable now).1 = .ok a →
      ∃ t, t.txid = a.txid ∧
        Admission (run params ops) ((run params ops).submit raw acct spendable now).2 now
          spendable t) ∧
    (∀ a, ((run params ops).submitVerified network raw lookup now authorPubkey).1 = .ok a →
      ∃ t, t.txid = a.txid ∧
        Admission (run params ops)
          ((run params ops).submitVerified network raw lookup now authorPubkey).2 now
          (lookup t.sender).2 t) := by
  have hrep := (represents_run params ops)
  have hspans := run_spans params ops
  have hsolvent := run_solvent params ops hops
  generalize run params ops = p at hrep hspans hsolvent ⊢
  constructor
  · intro a ha
    unfold submit at ha ⊢
    cases hc : p.check raw .alreadyHeld (fun _ ↦ (acct, spendable)) with
    | error e =>
      rw [hc] at ha
      cases ha
    | ok c =>
      rw [hc] at ha
      obtain ⟨t, htxid, -, hadm⟩ := admission_of_commit hrep hspans hc (hsolvent _) ha
      exact ⟨t, htxid, hadm⟩
  · intro a ha
    unfold submitVerified at ha ⊢
    cases hc : p.check raw (.enforce authorPubkey) lookup with
    | error e =>
      rw [hc] at ha
      cases ha
    | ok c =>
      rw [hc] at ha
      dsimp only at ha ⊢
      cases hverified : verifySig network authorPubkey c.tx with
      | error e =>
        rw [hverified] at ha
        cases ha
      | ok u =>
        rw [hverified] at ha
        obtain ⟨t, htxid, hsender, hadm⟩ := admission_of_commit hrep hspans hc (hsolvent _) ha
        refine ⟨t, htxid, ?_⟩
        rwa [hsender]

end Mempool

namespace EvictionSample

open Mempool

/-- Room for two transactions. -/
def params : MempoolParams := ⟨2, 1000, 4, 4, 60, 0, 1, 1, 5⟩

def transfer (fromPub : Arr 32) (nonce : UInt64) (fee : U128) : TransferTx :=
  ⟨fromPub, .zero 20, 10, fee, nonce, .zero 64⟩

/-- A sender's fourth transfer, and its sixth after the account has spent five. -/
def ops : List MempoolOp :=
  [.submit (transfer (.ofNat 32 1) 3 157).encode ⟨10000, 3⟩ 10000 0,
    .submit (transfer (.ofNat 32 1) 5 157).encode ⟨10000, 5⟩ 10000 0]

theorem amounts [Crypto] : ∀ op ∈ ops, Amounts op := by
  intro op hop
  rcases List.mem_cons.mp hop with rfl | hop
  · exact show 10000 ≤ u128Max by decide
  · obtain rfl := List.mem_singleton.mp hop
    exact show 10000 ≤ u128Max by decide

/-- A transfer of another sender's. -/
def newcomer : TransferTx := transfer (.ofNat 32 2) 0 1570

section

variable [Crypto]

/-- The fourth transfer in the pool. -/
def left : PoolTx where
  txid := (transfer (.ofNat 32 1) 3 157).txid
  sender := addressPayload (.ofNat 32 1)
  nonce := 3
  fee := 157
  amount := 10
  bytes := (transfer (.ofNat 32 1) 3 157).encode
  arrived := 0
  sigVerified := true
  executable := false

/-- The sixth. -/
def kept : PoolTx where
  txid := (transfer (.ofNat 32 1) 5 157).txid
  sender := addressPayload (.ofNat 32 1)
  nonce := 5
  fee := 157
  amount := 10
  bytes := (transfer (.ofNat 32 1) 5 157).encode
  arrived := 0
  sigVerified := true
  executable := true

/-- The newcomer in the pool. -/
def entered : PoolTx :=
  ⟨newcomer.txid, addressPayload (.ofNat 32 2), 0, 1570, 10, newcomer.encode, 0, true, true⟩

def admitted : Admitted := ⟨newcomer.txid, true, [], [left.txid]⟩

end

end EvictionSample

namespace Mempool

theorem admission_spec_sample :
    letI := Crypto.ofSignatures []
    ((run EvictionSample.params EvictionSample.ops).submit EvictionSample.newcomer.encode
      ⟨10000, 0⟩ 10000 0).1 = .ok EvictionSample.admitted ∧
    ∃ t, t.txid = EvictionSample.newcomer.txid ∧
      Admission (run EvictionSample.params EvictionSample.ops)
        ((run EvictionSample.params EvictionSample.ops).submit EvictionSample.newcomer.encode
          ⟨10000, 0⟩ 10000 0).2 0 10000 t := by
  let _ := Crypto.ofSignatures []
  have hok : ((run EvictionSample.params EvictionSample.ops).submit EvictionSample.newcomer.encode
      ⟨10000, 0⟩ 10000 0).1 = .ok EvictionSample.admitted := by decide +kernel
  exact ⟨hok, (admission_spec EvictionSample.params EvictionSample.ops EvictionSample.amounts .main
    EvictionSample.newcomer.encode ⟨10000, 0⟩ 10000 0 (fun _ ↦ (⟨0, 0⟩, 0)) (.zero 32)).1 _ hok⟩

/-- A transaction that the account has left behind is evicted below one that stays executable. -/
theorem eviction_below :
    letI := Crypto.ofSignatures []
    ¬∀ (params : MempoolParams) (ops : List MempoolOp) (raw : Bytes) (acct : Account)
      (spendable now : Nat) (a : Admitted) (t : PoolTx), (∀ op ∈ ops, Amounts op) →
        ((run params ops).submit raw acct spendable now).1 = .ok a →
          ((run params ops).submit raw acct spendable now).2.txs.lookup a.txid = some t →
            ∀ id v, Evicted (run params ops) ((run params ops).submit raw acct spendable now).2 now
                t id v →
              ∀ id' t',
                ((run params ops).submit raw acct spendable now).2.txs.lookup id' = some t' →
                t'.sender = v.sender → t'.executable = true → ¬v.nonce < t'.nonce := by
  let _ := Crypto.ofSignatures []
  intro hall
  have hsample := hall EvictionSample.params EvictionSample.ops EvictionSample.newcomer.encode
    ⟨10000, 0⟩ 10000 0 EvictionSample.admitted EvictionSample.entered EvictionSample.amounts
  have hfacts :
      (((run EvictionSample.params EvictionSample.ops).submit EvictionSample.newcomer.encode
        ⟨10000, 0⟩ 10000 0).1 = .ok EvictionSample.admitted ∧
      ((run EvictionSample.params EvictionSample.ops).submit EvictionSample.newcomer.encode
        ⟨10000, 0⟩ 10000 0).2.txs.lookup EvictionSample.admitted.txid =
          some EvictionSample.entered) ∧
      ((run EvictionSample.params EvictionSample.ops).txs.lookup EvictionSample.left.txid =
        some EvictionSample.left ∧
      ((run EvictionSample.params EvictionSample.ops).submit EvictionSample.newcomer.encode
        ⟨10000, 0⟩ 10000 0).2.txs.lookup EvictionSample.left.txid = none ∧
      EvictionSample.left ∉ (run EvictionSample.params EvictionSample.ops).expired 0 ∧
      ((run EvictionSample.params EvictionSample.ops).slotsOf EvictionSample.entered.sender).get
        EvictionSample.entered.nonce ≠ some EvictionSample.left.txid) ∧
      ((run EvictionSample.params EvictionSample.ops).submit EvictionSample.newcomer.encode
        ⟨10000, 0⟩ 10000 0).2.txs.lookup EvictionSample.kept.txid = some EvictionSample.kept := by
    decide +kernel
  generalize (run EvictionSample.params EvictionSample.ops).submit EvictionSample.newcomer.encode
    ⟨10000, 0⟩ 10000 0 = q at hsample hfacts
  generalize run EvictionSample.params EvictionSample.ops = p at hsample hfacts
  obtain ⟨⟨hok, hentered⟩, ⟨hleft, hgone, hlive, hother⟩, hkept⟩ := hfacts
  exact hsample hok hentered _ _ ⟨hleft, hgone, hlive, hother⟩ _ _ hkept rfl rfl (by decide)

end Mempool

end Plaine.Chain

import Plaine.Chain.Executable

/-!
# Refused submissions

A newcomer is refused after the victims evicted for it are gone, and a transaction that it displaced
goes back to the end of the queue, split at the nonce the account has now.  So a refusal leaves the
pool as it was exactly if the first candidate for eviction is already worth more than the newcomer,
and what was displaced was the last to arrive, its sender marked as it should be.
-/

namespace Plaine.Chain

open Plaine.Lib Plaine.Consensus

namespace Mempool

variable {p q r m : Mempool} {t : PoolTx} {id : Hash32} {s : Address} {next now : Nat}

/-! ## The same pool -/

/-- The same transactions under the same marks, in the same order, of the same size. -/
structure SamePool (p q : Mempool) : Prop where
  txs : ∀ id, q.txs.lookup id = p.txs.lookup id
  arrival : q.arrival = p.arrival
  totalBytes : q.totalBytes = p.totalBytes

/-- The pool is as before but for transactions that had expired. -/
def AsBefore (p : Mempool) (now : Nat) (q : Mempool) : Prop :=
  SamePool p q ∨ SamePool (p.sweepExpired now) q

theorem SamePool.refl (p : Mempool) : SamePool p p := ⟨fun _ ↦ rfl, rfl, rfl⟩

/-- A pool that lost a transaction is not the same. -/
theorem not_samePool (ht : p.txs.lookup id = some t) (hq : q.txs.lookup id = none) :
    ¬SamePool p q := by
  intro h
  cases hq.symm.trans ((h.txs id).trans ht)

theorem lookup_remove (p : Mempool) (id : Hash32) : (p.remove id).2.txs.lookup id = none := by
  cases ht : p.txs.lookup id with
  | none => rwa [remove_of_none ht]
  | some t =>
    rw [(remove_of_some ht).2.2.1]
    exact AList.lookup_erase _ _

theorem lookup_removeAll {ids : List Hash32} (hid : id ∈ ids) :
    (p.removeAll ids).txs.lookup id = none := by
  induction ids generalizing p with
  | nil => cases hid
  | cons k ids ih =>
    rcases List.mem_cons.mp hid with rfl | hid
    · exact (removeAll_sheds (p.remove id).2 ids).lookup_eq_none (lookup_remove p id)
    · exact ih hid

/-- Expired transactions are swept. -/
theorem lookup_sweepExpired (ht : t ∈ p.expired now) :
    (p.sweepExpired now).txs.lookup t.txid = none := by
  rw [sweepExpired_eq]
  refine (sheds_foldl (fun p s ↦ resplit_sheds p s _) _ _).lookup_eq_none ?_
  exact lookup_removeAll (List.mem_map.mpr ⟨t, ht, rfl⟩)

theorem sweepExpired_of_nil (h : p.expired now = []) : p.sweepExpired now = p := by
  rw [sweepExpired_eq, h]
  rfl

/-- What is left of a swept pool is as before if it is the swept pool. -/
theorem asBefore_iff (h : Indexed p)
    (hq : ∀ id, (p.sweepExpired now).txs.lookup id = none → q.txs.lookup id = none) :
    AsBefore p now q ↔ SamePool (p.sweepExpired now) q := by
  refine ⟨fun hsame ↦ hsame.elim (fun hsame ↦ ?_) fun hsame ↦ hsame, .inr⟩
  rcases List.eq_nil_or_concat (p.expired now) with hnil | ⟨l, t, hexpired⟩
  · rwa [sweepExpired_of_nil hnil]
  · have ht : t ∈ p.expired now := by simp [hexpired]
    obtain ⟨id, hid⟩ := mem_values.mp (List.mem_filter.mp ht).1
    have hlost := lookup_sweepExpired ht
    rw [h.txid id t hid] at hlost
    exact absurd hsame (not_samePool hid (hq id hlost))

/-! ## Evictions -/

/-- The first candidate for eviction is worth more than a newcomer, or there is none. -/
def Refuses (p : Mempool) (fpb : Nat) : Prop :=
  ∀ v, (p.evictionCandidate.bind fun v ↦ p.txs.lookup v) = some v → fpb < v.feePerByte

/-- A loop of evictions that gives up does so at once, or has lost a transaction. -/
theorem makeRoom_refused (h : Indexed p) {fpb len fuel : Nat} {removed : List Hash32}
    (hroom : (makeRoom fpb len (fuel + 1) p removed).2 = none) :
    (Refuses p fpb ∧ (makeRoom fpb len (fuel + 1) p removed).1 = p) ∨
      (¬Refuses p fpb ∧ ∃ id t, p.txs.lookup id = some t ∧
        (makeRoom fpb len (fuel + 1) p removed).1.txs.lookup id = none) := by
  unfold makeRoom at hroom ⊢
  split at hroom
  case isFalse => cases hroom
  case isTrue hfull =>
    rw [if_pos hfull]
    unfold Refuses
    cases hvictim : p.evictionCandidate.bind fun v ↦ p.txs.lookup v with
    | none => exact .inl ⟨by rintro v ⟨⟩, rfl⟩
    | some victim =>
      dsimp only
      split
      case isTrue hcheap =>
        refine .inl ⟨fun v hv ↦ ?_, rfl⟩
        cases hv
        exact hcheap
      case isFalse hdear =>
        obtain ⟨id, -, hid⟩ := Option.bind_eq_some_iff.mp hvictim
        refine .inr ⟨fun hall ↦ hdear (hall victim rfl), id, victim, hid, ?_⟩
        rw [h.txid id victim hid]
        exact (makeRoom_sheds _ _ _ _ _).lookup_eq_none (lookup_remove p id)

/-! ## Putting back -/

theorem eq_of_plain {t t' : PoolTx} (hplain : t.plain = t'.plain)
    (hexec : t.executable = true ↔ t'.executable = true) : t = t' := by
  obtain ⟨txid, sender, nonce, fee, amount, bytes, arrived, sigVerified, executable⟩ := t
  obtain ⟨txid', sender', nonce', fee', amount', bytes', arrived', sigVerified', executable'⟩ := t'
  cases hplain
  obtain rfl := Bool.eq_iff_iff.mpr hexec
  rfl

/-- Two pools with the same transactions but for the marks have the same nonces. -/
theorem pools_congr (hplain : ∀ id, (q.txs.lookup id).map PoolTx.plain =
    (p.txs.lookup id).map PoolTx.plain) {n : Nat} (h : p.Pools s n) : q.Pools s n := by
  obtain ⟨id, t, ht, hs, hn⟩ := h
  have hlookup := hplain id
  rw [ht, Option.map_some] at hlookup
  obtain ⟨t', ht', heq⟩ := Option.map_eq_some_iff.mp hlookup
  exact ⟨id, t', ht', (PoolTx.sender_eq heq).trans hs, (PoolTx.nonce_eq heq).trans hn⟩

/-- A pool that differs from one that is marked right in the marks of one sender. -/
theorem lookup_eq_iff (hplain : ∀ id, (q.txs.lookup id).map PoolTx.plain =
      (p.txs.lookup id).map PoolTx.plain)
    (hother : ∀ id t, p.txs.lookup id = some t → t.sender ≠ s → q.txs.lookup id = some t)
    (hq : q.ExecutableRun s next) :
    (∀ id, q.txs.lookup id = p.txs.lookup id) ↔ p.ExecutableRun s next := by
  have hpools : q.Pools s = p.Pools s :=
    funext fun n ↦ propext ⟨pools_congr fun id ↦ (hplain id).symm, pools_congr hplain⟩
  constructor
  · intro hsame id t ht hs
    rw [← hpools]
    exact hq id t ((hsame id).trans ht) hs
  · intro hp id
    cases ht : p.txs.lookup id with
    | none =>
      have hlookup := hplain id
      rw [ht] at hlookup
      exact Option.map_eq_none_iff.mp hlookup
    | some t =>
      by_cases hs : t.sender = s
      · have hlookup := hplain id
        rw [ht, Option.map_some] at hlookup
        obtain ⟨t', ht', heq⟩ := Option.map_eq_some_iff.mp hlookup
        have hrun' := hq id t' ht' ((PoolTx.sender_eq heq).trans hs)
        rw [hpools, PoolTx.nonce_eq heq, ← hp id t ht hs] at hrun'
        rw [ht', eq_of_plain heq hrun']
      · exact hother id t ht hs

/-- A queue with an id moved to its end. -/
theorem filter_append_eq {l : List Hash32} (hl : l.Nodup) :
    l.filter (· ≠ id) ++ [id] = l ↔ l.getLast? = some id := by
  constructor
  · intro h
    rw [← h, List.getLast?_append]
    rfl
  · intro h
    obtain ⟨init, rfl⟩ := List.getLast?_eq_some_iff.mp h
    have hnot : id ∉ init := fun hmem ↦
      (List.nodup_append.mp hl).2.2 id hmem id List.mem_cons_self rfl
    rw [List.filter_append]
    have hinit : init.filter (· ≠ id) = init := by
      rw [List.filter_eq_self]
      intro k hk
      rw [decide_eq_true_iff]
      rintro rfl
      exact hnot hk
    rw [hinit]
    simp

theorem lookup_insert (p : Mempool) (t : PoolTx) (id : Hash32) :
    (p.insert t).txs.lookup id = if id = t.txid then some t else p.txs.lookup id := by
  show (p.txs.insert t.txid t).lookup id = _
  split
  case isTrue heq =>
    subst heq
    exact AList.lookup_insert _
  case isFalse hne => exact AList.lookup_insert_ne hne

/-- A transaction taken out and put back at once. -/
theorem lookup_insert_remove {old : PoolTx} (hold : p.txs.lookup old.txid = some old)
    (id : Hash32) : ((p.remove old.txid).2.insert old).txs.lookup id = p.txs.lookup id := by
  rw [lookup_insert, (remove_of_some hold).2.2.1]
  split
  case isTrue heq =>
    subst heq
    exact hold.symm
  case isFalse hne => exact AList.lookup_erase_ne hne

/-- Taking a transaction out and putting it back at once leaves the pool the same if it was the last
to arrive and its sender was marked right. -/
theorem samePool_putBack (h : Indexed p) {old : PoolTx} (hold : p.txs.lookup old.txid = some old)
    (hindexed : Indexed ((p.remove old.txid).2.insert old)) (next : Nat) :
    SamePool p (((p.remove old.txid).2.insert old).resplit old.sender next).2 ↔
      p.arrival.getLast? = some old.txid ∧ p.ExecutableRun old.sender next := by
  obtain ⟨-, -, -, hbytes, harrival, -⟩ := remove_of_some hold
  have hlookup := lookup_insert_remove hold
  have hflagged := flagged_resplitLoop
    (((p.remove old.txid).2.insert old).slotsOf old.sender) next
    ((p.remove old.txid).2.insert old).txs
  have hmarked := (executableRun_iff (hindexed.resplit old.sender next)).mpr
    (resplit_marked hindexed old.sender next)
  have hplain (id : Hash32) :
      ((((p.remove old.txid).2.insert old).resplit old.sender next).2.txs.lookup id).map
        PoolTx.plain = (p.txs.lookup id).map PoolTx.plain :=
    (hflagged.lookup id).trans (congrArg _ (hlookup id))
  have htxs := lookup_eq_iff hplain (fun id t ht hs ↦ ?_) hmarked
  · have hqueue : (((p.remove old.txid).2.insert old).resplit old.sender next).2.arrival =
        p.arrival.filter (· ≠ old.txid) ++ [old.txid] := by
      rw [← harrival]
      rfl
    rw [← filter_append_eq h.nodup, ← htxs, ← hqueue]
    constructor
    · exact fun hsame ↦ ⟨hsame.arrival, hsame.txs⟩
    · rintro ⟨hqueue, htxs⟩
      refine ⟨htxs, hqueue, ?_⟩
      show (p.remove old.txid).2.totalBytes + old.bytes.length = p.totalBytes
      rw [hbytes, h.totalBytes, ← AList.total_erase hold, Nat.add_sub_cancel]
  · -- the transactions of others
    have hother := resplit_untouched hindexed hs next
    exact (hother.txs id t rfl).mpr ((hlookup id).trans ht)

/-! ## Refusals -/

/-- A refusal does no harm: the first candidate for eviction is worth more than the newcomer, and a
transaction that the newcomer displaced is the last that arrived, its sender marked from its next
nonce on. -/
def Spared (p : Mempool) (q : Prepared) (now : Nat) : Prop :=
  Refuses ((p.sweepExpired now).displace q).2 (q.fee / max q.raw.length 1) ∧
    ∀ old, ((p.sweepExpired now).displace q).1 = some old →
      (p.sweepExpired now).arrival.getLast? = some old.txid ∧
        (p.sweepExpired now).ExecutableRun q.sender q.next

/-- A pool that shrank by more than what expired. -/
theorem not_asBefore (h : q.totalBytes ≠ p.totalBytes)
    (hswept : q.totalBytes ≠ (p.sweepExpired now).totalBytes) : ¬AsBefore p now q :=
  fun hsame ↦ hsame.elim (fun hsame ↦ h hsame.totalBytes) fun hsame ↦ hswept hsame.totalBytes

/-- A refused newcomer leaves the pool as it was exactly under that condition. -/
theorem commit_asBefore (h : Indexed p) {q : Prepared} (hfits : Fits p q) {e : Reject}
    (hrefused : (p.commit q now).1 = .error e) :
    AsBefore p now (p.commit q now).2 ↔ Spared p q now := by
  obtain ⟨d, r, hd⟩ : ∃ d r, (p.sweepExpired now).displace q = (d, r) := ⟨_, _, rfl⟩
  obtain ⟨m, room, hm⟩ : ∃ m room, r.admitPrepared q = (m, room) := ⟨_, _, rfl⟩
  obtain rfl := (commit_refused_iff p q now hd hm).mp ⟨e, hrefused⟩
  have hswept := (sweepExpired_sheds p now).indexed h
  have hr := (sheds_of_displace hd).indexed hswept
  have hleft := sheds_of_admitPrepared hm
  have hnone : (r.admitPrepared q).2 = none := by rw [hm]
  have hroom := makeRoom_refused hr (show (makeRoom (q.fee / max q.raw.length 1) q.raw.length
    (r.txs.keys.length + 1) r []).2 = none from hnone)
  rw [← admitPrepared, hm] at hroom
  unfold Spared
  rw [hd]
  dsimp only
  rcases commit_cases p q now hd hm with ⟨_, hsome, -⟩ | ⟨old, -, rfl, heq⟩ | ⟨-, rfl, heq⟩
  · cases hsome
  · have hindexed := hfits.indexed_putBack h hd hm
    obtain ⟨hold, rfl, hs, -⟩ := hfits.displaced h hd
    have hgone (id : Hash32) (hid : (p.sweepExpired now).txs.lookup id = none) :
        ((m.insert old).resplit q.sender q.next).2.txs.lookup id = none := by
      refine (resplit_shrinks _ _ _).lookup_eq_none ?_
      rw [lookup_insert, if_neg]
      · exact ((sheds_of_displace hd).trans hleft).lookup_eq_none hid
      · rintro rfl
        cases hid.symm.trans hold
    rw [heq, asBefore_iff h hgone]
    rcases hroom with ⟨hrefuses, rfl⟩ | ⟨hnot, id, t, ht, hlost⟩
    · have hput := samePool_putBack hswept hold hindexed q.next
      rw [hs] at hput
      rw [hput]
      constructor
      · exact fun hsame ↦ ⟨hrefuses, by rintro _ ⟨⟩; exact hsame⟩
      · exact fun hspared ↦ hspared.2 old rfl
    · refine iff_of_false ?_ fun hspared ↦ hnot hspared.1
      -- the victim was not the displaced transaction, and is gone
      have hne : id ≠ old.txid := by
        rintro rfl
        cases (lookup_remove _ _).symm.trans ht
      obtain ⟨t', ht', -⟩ := (sheds_of_displace hd).txs id t ht
      refine not_samePool ht' ((resplit_shrinks _ _ _).lookup_eq_none ?_)
      rw [lookup_insert, if_neg hne]
      exact hlost
  · have hreq := eq_of_displace_none hd
    subst hreq
    rw [heq, asBefore_iff h fun id ↦ hleft.lookup_eq_none]
    rcases hroom with ⟨hrefuses, rfl⟩ | ⟨hnot, id, t, ht, hlost⟩
    · exact iff_of_true (.refl _) ⟨hrefuses, by rintro _ ⟨⟩⟩
    · exact iff_of_false (not_samePool ht hlost) fun hspared ↦ hnot hspared.1

section

variable [Crypto]

/-- A refused submission, in any state a run reaches, leaves the pool as it was exactly if either
it does not come as far as the evictions or they are spared. -/
theorem refused_asBefore_iff (params : MempoolParams) (ops : List MempoolOp) (network : Network)
    (raw : Bytes) (acct : Account) (spendable now : Nat) (lookup : Address → Account × Nat)
    (authorPubkey : Arr 32) :
    (∀ e, ((run params ops).submit raw acct spendable now).1 = .error e →
      (AsBefore (run params ops) now ((run params ops).submit raw acct spendable now).2 ↔
        ∀ q, (run params ops).check raw .alreadyHeld (fun _ ↦ (acct, spendable)) = .ok q →
          Spared (run params ops) q now)) ∧
    (∀ e, ((run params ops).submitVerified network raw lookup now authorPubkey).1 = .error e →
      (AsBefore (run params ops) now
          ((run params ops).submitVerified network raw lookup now authorPubkey).2 ↔
        ∀ q, (run params ops).check raw (.enforce authorPubkey) lookup = .ok q →
          verifySig network authorPubkey q.tx = .ok () → Spared (run params ops) q now)) := by
  have hindexed := (represents_run params ops).indexed
  generalize run params ops = p at hindexed ⊢
  constructor
  · intro e he
    unfold submit at he ⊢
    cases hq : p.check raw .alreadyHeld (fun _ ↦ (acct, spendable)) with
    | error e' => exact iff_of_true (.inl (.refl p)) (by rintro q ⟨⟩)
    | ok q =>
      rw [hq] at he
      refine (commit_asBefore hindexed (fits_of_check hq) he).trans ⟨?_, fun hall ↦ hall q rfl⟩
      rintro hspared _ ⟨⟩
      exact hspared
  · intro e he
    unfold submitVerified at he ⊢
    cases hq : p.check raw (.enforce authorPubkey) lookup with
    | error e' => exact iff_of_true (.inl (.refl p)) (by rintro q ⟨⟩)
    | ok q =>
      rw [hq] at he
      dsimp only at he ⊢
      cases hverified : verifySig network authorPubkey q.tx with
      | error e' =>
        refine iff_of_true (.inl (.refl p)) ?_
        rintro _ ⟨⟩ hok
        cases hverified.symm.trans hok
      | ok u =>
        rw [hverified] at he
        refine (commit_asBefore hindexed (fits_of_check hq) he).trans
          ⟨?_, fun hall ↦ hall q rfl hverified⟩
        rintro hspared _ ⟨⟩ -
        exact hspared

end

end Mempool

namespace RefusalSample

open Mempool

/-- Room for two transfers, of 157 bytes each. -/
def params : MempoolParams := ⟨10, 314, 4, 4, 60, 0, 1, 1, 5⟩

/-- A transfer at a fee of so much a byte. -/
def transfer (fromPub : Arr 32) (feePerByte : U128) : Bytes :=
  (TransferTx.mk fromPub (.zero 20) 10 (157 * feePerByte) 0 (.zero 64)).encode

/-- An announcement of 158 bytes at a fee of five a byte. -/
def announcement : Bytes :=
  ((AnnouncementTx.mk (.ofNat 32 3) 790 0 0 (List.replicate 34 0) (.zero 64)).encode.toOption).getD
    []

def fill (fromPub : Arr 32) (feePerByte : U128) : MempoolOp :=
  .submit (transfer fromPub feePerByte) ⟨10000, 0⟩ 10000 0

/-- A full pool, one transfer worth less than the announcement and one worth more. -/
def ops : List MempoolOp := [fill (.ofNat 32 1) 1, fill (.ofNat 32 2) 10]

/-- A full pool, both transfers worth more. -/
def dear : List MempoolOp := [fill (.ofNat 32 1) 9, fill (.ofNat 32 2) 10]

end RefusalSample

namespace Mempool

theorem refused_asBefore_iff_sample :
    letI := Crypto.ofSignatures []
    ((run RefusalSample.params RefusalSample.dear).submit RefusalSample.announcement ⟨10000, 0⟩
      10000 0).1 = .error .poolFull ∧
    (AsBefore (run RefusalSample.params RefusalSample.dear) 0
        ((run RefusalSample.params RefusalSample.dear).submit RefusalSample.announcement ⟨10000, 0⟩
          10000 0).2 ↔
      ∀ q, (run RefusalSample.params RefusalSample.dear).check RefusalSample.announcement
          .alreadyHeld (fun _ ↦ (⟨10000, 0⟩, 10000)) = .ok q →
        Spared (run RefusalSample.params RefusalSample.dear) q 0) := by
  let _ := Crypto.ofSignatures []
  have hfull : ((run RefusalSample.params RefusalSample.dear).submit RefusalSample.announcement
      ⟨10000, 0⟩ 10000 0).1 = .error .poolFull := by decide +kernel
  exact ⟨hfull, (refused_asBefore_iff RefusalSample.params RefusalSample.dear .main
    RefusalSample.announcement ⟨10000, 0⟩ 10000 0 (fun _ ↦ (⟨0, 0⟩, 0)) (.zero 32)).1 _ hfull⟩

/-- An announcement is refused after the cheaper transfer was evicted for it. -/
theorem refusal_evicts :
    letI := Crypto.ofSignatures []
    ¬∀ (params : MempoolParams) (ops : List MempoolOp) (raw : Bytes) (acct : Account)
      (spendable now : Nat) (e : Reject),
        ((run params ops).submit raw acct spendable now).1 = .error e →
          AsBefore (run params ops) now ((run params ops).submit raw acct spendable now).2 := by
  let _ := Crypto.ofSignatures []
  intro hall
  have hsame := hall RefusalSample.params RefusalSample.ops RefusalSample.announcement ⟨10000, 0⟩
    10000 0 .poolFull (by decide +kernel)
  refine absurd hsame (not_asBefore ?_ ?_)
  · decide +kernel
  · decide +kernel

end Mempool

end Plaine.Chain

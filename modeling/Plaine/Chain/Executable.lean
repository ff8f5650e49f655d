import Plaine.Chain.Template

/-!
# Executable transactions

As long as the next nonce of a sender is the one the pool was last told, the executable transactions
of the sender are the run of nonces from it, and a template lists the beginning of that run.

A reorganisation hands its transactions back before the pool is told of the accounts that it moved:
the manager ends it with `resplit_all`.  `on_reorg_reinject` takes them one by one, those of the newest
block first.  A later transaction of a sender may get in and an earlier one not; but then the later
one is not executable, and no template has it.
-/

namespace Plaine.Chain

open Plaine.Lib Plaine.Consensus

namespace Mempool

variable {params : MempoolParams} {p r m : Mempool} {q : Prepared} {d : Option PoolTx}
  {room : Option (List Hash32)} {id : Hash32} {s : Address} {next now : Nat}

/-! ## Admission -/

theorem Bound.makeRoom (h : Indexed p) (hb : Bound s next p) (fpb len fuel : Nat)
    (removed : List Hash32) : Bound s next (makeRoom fpb len fuel p removed).1 := by
  induction fuel generalizing p removed with
  | zero => exact hb
  | succ fuel ih =>
    unfold Mempool.makeRoom
    split
    case isFalse => exact hb
    case isTrue =>
      split
      case h_1 => exact hb
      case h_2 victim _ =>
        split
        case isTrue => exact hb
        case isFalse => exact ih (h.remove victim.txid) (hb.remove h victim.txid) _

/-- A transaction of another sender put in. -/
theorem insert_untouched {t : PoolTx} (hid : p.txs.lookup t.txid = none) (hs : s ≠ t.sender) :
    Untouched s p (p.insert t) := by
  refine ⟨?_, rfl, fun id t' hsender ↦ ?_⟩
  · rw [slotsOf_insert, if_neg hs]
  · show (p.txs.insert t.txid t).lookup id = some t' ↔ _
    rcases eq_or_ne id t.txid with rfl | hne
    · rw [AList.lookup_insert, hid]
      refine iff_of_false ?_ (by rintro ⟨⟩)
      rintro ⟨⟩
      exact hs hsender.symm
    · rw [AList.lookup_insert_ne hne]

/-- The tables with the newcomer in. -/
theorem Fits.indexed_insert (hfits : Fits p q) (h : Indexed p)
    (hd : (p.sweepExpired now).displace q = (d, r)) (hm : r.admitPrepared q = (m, room)) :
    Indexed ({ m with nextNonce := m.nextNonce.insert q.sender q.next }.insert (q.poolTx now)) := by
  have hsheds := sheds_of_stages hd hm
  have hfree := hfits.free h hd hm
  exact ((hsheds.indexed h).next _).insert (hsheds.lookup_eq_none hfits.unknown) hfree

/-- The tables with a displaced transaction put back. -/
theorem Fits.indexed_putBack {old : PoolTx} (hfits : Fits p q) (h : Indexed p)
    (hd : (p.sweepExpired now).displace q = (some old, r)) (hm : r.admitPrepared q = (m, room)) :
    Indexed (m.insert old) := by
  obtain ⟨-, -, hs, hn⟩ := hfits.displaced h hd
  refine ((sheds_of_stages hd hm).indexed h).insert (hfits.displaced_unknown h hd hm) ?_
  rw [hs, hn]
  exact hfits.free h hd hm

/-- An admission makes its sender's marks right. -/
theorem fresh_admitted (hfits : Fits p q) (h : Indexed p)
    (hd : (p.sweepExpired now).displace q = (d, r)) (hm : r.admitPrepared q = (m, room)) :
    Fresh q.sender q.next
      (({ m with nextNonce := m.nextNonce.insert q.sender q.next }.insert (q.poolTx now)).resplit
        q.sender q.next).2 :=
  Bound.fresh_resplit (hfits.indexed_insert h hd hm) (.inl (AList.lookup_insert _))

/-- So does putting back what was displaced. -/
theorem Fresh.putBack {old : PoolTx} (hfits : Fits p q) (h : Indexed p)
    (hf : Fresh q.sender q.next p) (hd : (p.sweepExpired now).displace q = (some old, r))
    (hm : r.admitPrepared q = (m, room)) :
    Fresh q.sender q.next ((m.insert old).resplit q.sender q.next).2 := by
  have hindexed := hfits.indexed_putBack h hd hm
  have hswept := (sweepExpired_sheds p now).indexed h
  obtain ⟨hlookup, rfl, hs, -⟩ := hfits.displaced h hd
  have hb : Bound q.sender q.next m := by
    have hroom := ((hf.sweepExpired h now).bound_remove hswept hlookup hs).makeRoom
      (hswept.remove old.txid) (q.fee / max q.raw.length 1) q.raw.length
      (((p.sweepExpired now).remove old.txid).2.txs.keys.length + 1) []
    rwa [← admitPrepared, hm] at hroom
  refine ⟨resplit_marked hindexed _ _, fun _ ↦ ?_⟩
  rcases hb with hknown | ⟨hempty, hnone⟩
  · exact .inl hknown
  · refine .inr ⟨hnone, ?_⟩
    show ((m.insert old).slotsOf q.sender).length = 1
    rw [slotsOf_insert, if_pos hs.symm, hempty]
    rfl

theorem Fresh.displace (hfits : Fits p q) (h : Indexed p) (hs : s ≠ q.sender)
    (hf : Fresh s next p) (hd : (p.sweepExpired now).displace q = (d, r)) : Fresh s next r := by
  have hswept := hf.sweepExpired h now
  cases d with
  | some old =>
    obtain ⟨hlookup, rfl, hsender, -⟩ := hfits.displaced h hd
    refine (remove_untouched ((sweepExpired_sheds p now).indexed h) fun t ht ↦ ?_).fresh hswept
    cases hlookup.symm.trans ht
    rwa [hsender]
  | none => rwa [eq_of_displace_none hd]

/-- An admission is told the next nonce of its sender. -/
theorem Fresh.commit (h : Indexed p) (hfits : Fits p q) (hf : Fresh s next p)
    (hnext : s = q.sender → q.next = next) (now : Nat) : Fresh s next (p.commit q now).2 := by
  obtain ⟨d, r, hd⟩ : ∃ d r, (p.sweepExpired now).displace q = (d, r) := ⟨_, _, rfl⟩
  obtain ⟨m, room, hm⟩ : ∃ m room, r.admitPrepared q = (m, room) := ⟨_, _, rfl⟩
  have hr := (sheds_of_displace hd).indexed ((sweepExpired_sheds p now).indexed h)
  -- the transactions of others, and a refusal that displaced nothing
  have hroom (hf : Fresh s next r) : Fresh s next m := by
    have hmade := hf.makeRoom hr (q.fee / max q.raw.length 1) q.raw.length
      (r.txs.keys.length + 1) []
    rwa [← admitPrepared, hm] at hmade
  rcases eq_or_ne s q.sender with rfl | hs
  · obtain rfl := hnext rfl
    rcases commit_cases p q now hd hm with ⟨_, -, heq⟩ | ⟨old, -, rfl, heq⟩ | ⟨-, rfl, heq⟩
    · rw [heq]
      exact fresh_admitted hfits h hd hm
    · rw [heq]
      exact hf.putBack hfits h hd hm
    · rw [heq]
      refine hroom ?_
      rw [eq_of_displace_none hd]
      exact hf.sweepExpired h now
  · have hm' := hroom (hf.displace hfits h hs hd)
    rcases commit_cases p q now hd hm with ⟨_, -, heq⟩ | ⟨old, -, rfl, heq⟩ | ⟨-, rfl, heq⟩
    · rw [heq]
      have hset : Untouched s m { m with nextNonce := m.nextNonce.insert q.sender q.next } :=
        ⟨rfl, AList.lookup_insert_ne hs, fun _ _ _ ↦ Iff.rfl⟩
      have hunknown := (sheds_of_stages hd hm).lookup_eq_none hfits.unknown
      have hins : Untouched s m
          ({ m with nextNonce := m.nextNonce.insert q.sender q.next }.insert (q.poolTx now)) :=
        hset.trans (insert_untouched (t := q.poolTx now) hunknown hs)
      have hindexed := hfits.indexed_insert h hd hm
      exact (hins.trans (resplit_untouched hindexed hs q.next)).fresh hm'
    · rw [heq]
      obtain ⟨-, -, hsender, -⟩ := hfits.displaced h hd
      have hins := insert_untouched (hfits.displaced_unknown h hd hm)
        (show s ≠ old.sender by rwa [hsender])
      have hindexed := hfits.indexed_putBack h hd hm
      exact (hins.trans (resplit_untouched hindexed hs q.next)).fresh hm'
    · rw [heq]
      exact hm'

/-- An admission tells the pool the next nonce of its sender. -/
theorem fresh_of_commit_ok (h : Indexed p) (hfits : Fits p q) {a : Admitted}
    (hok : (p.commit q now).1 = .ok a) : Fresh q.sender q.next (p.commit q now).2 := by
  obtain ⟨d, r, hd⟩ : ∃ d r, (p.sweepExpired now).displace q = (d, r) := ⟨_, _, rfl⟩
  obtain ⟨m, room, hm⟩ : ∃ m room, r.admitPrepared q = (m, room) := ⟨_, _, rfl⟩
  rcases commit_cases p q now hd hm with ⟨_, -, heq⟩ | ⟨_, rfl, -⟩ | ⟨rfl, -⟩
  · rw [heq]
    exact fresh_admitted hfits h hd hm
  all_goals
    obtain ⟨e, hrefused⟩ := (commit_refused_iff p q now hd hm).mpr rfl
    cases hok.symm.trans hrefused

/-! ## Blocks -/

theorem spend_untouched (h : Indexed p) {sn : Address × Nat} (hs : s ≠ sn.1) :
    Untouched s p (p.spend sn) := by
  unfold spend
  split
  case h_2 => exact .refl s p
  case h_1 id hget =>
    obtain ⟨t, ht, hsender, -⟩ := (h.slot _ _ _).mp ((Slots.get_eq_some (h.sorted _)).mp hget)
    refine remove_untouched h fun t' ht' ↦ ?_
    cases ht.symm.trans ht'
    rwa [hsender]

theorem foldl_spend_untouched (h : Indexed p) {spent : List (Address × Nat)}
    (hs : s ∉ spent.map (·.1)) : Untouched s p (spent.foldl spend p) := by
  induction spent generalizing p with
  | nil => exact .refl s p
  | cons sn spent ih =>
    obtain ⟨hne, hs⟩ := not_or.mp (mt List.mem_cons.mpr hs)
    exact (spend_untouched h hne).trans (ih ((spend_sheds p sn).indexed h) hs)

/-! ## What is asked of the marks -/

/-- A nonce of a sender's that is in the pool. -/
def Pools (p : Mempool) (s : Address) (n : Nat) : Prop :=
  ∃ id t, p.txs.lookup id = some t ∧ t.sender = s ∧ t.nonce = n

/-- The executable transactions of a sender are the run of its nonces in the pool from its next
one on. -/
def ExecutableRun (p : Mempool) (s : Address) (next : Nat) : Prop :=
  ∀ id t, p.txs.lookup id = some t → t.sender = s →
    (t.executable = true ↔ RunFrom (p.Pools s) next t.nonce)

/-- A template is within its caps, lists executable transactions, and of a sender those of the
first nonces from its next one on. -/
def TemplateRun (p : Mempool) (s : Address) (next maxTxs maxBytes : Nat) : Prop :=
  p.template maxTxs maxBytes = (p.selected maxTxs maxBytes).map (·.bytes) ∧
    (p.selected maxTxs maxBytes).length ≤ maxTxs ∧
    ((p.selected maxTxs maxBytes).map (·.bytes.length)).sum ≤ maxBytes ∧
    (∀ t ∈ p.selected maxTxs maxBytes, t ∈ p.values ∧ t.executable = true) ∧
    ((p.selected maxTxs maxBytes).filter (·.sender = s)).map (·.nonce) =
      List.range' next ((p.selected maxTxs maxBytes).filter (·.sender = s)).length

theorem pools_iff (h : Indexed p) {n : Nat} : p.Pools s n ↔ Slots.Holds (p.slotsOf s) n :=
  exists_congr fun id ↦ (h.slot s n id).symm

theorem executableRun_iff (h : Indexed p) : p.ExecutableRun s next ↔ Marked p s next := by
  have hpools : p.Pools s = Slots.Holds (p.slotsOf s) := funext fun n ↦ propext (pools_iff h)
  unfold ExecutableRun Marked
  rw [hpools]

/-! ## Submissions -/

section

variable [Crypto] {raw : Bytes} {lookup : Address → Account × Nat}

/-- A raw transaction is sent from an address. -/
def SentBy (raw : Bytes) (s : Address) : Prop :=
  ∃ tx, decodeTx raw = .ok tx ∧ senderOf tx = some s

/-- What the checks read of the sender. -/
theorem sender_of_check {author : AuthorRule} (h : p.check raw author lookup = .ok q) :
    SentBy raw q.sender ∧ q.next = (lookup q.sender).1.nonce := by
  simp only [check, Except.bind_eq_ok, Except.require_eq_ok, Except.ofOption_eq_ok, exists_const,
    Prod.exists, Except.mapError_eq_ok] at h
  obtain ⟨-, _, -, -, tx, htx, pub, nonce, fee, amount, txid, hparts, _, -, -, -, -, h⟩ := h
  obtain ⟨-, -, _, -, _, -, _, -, -, -, h⟩ := h
  cases h
  refine ⟨⟨tx, htx, ?_⟩, rfl⟩
  cases tx with
  | transfer t =>
    cases hparts
    rfl
  | announcement a =>
    obtain ⟨_, -, heq⟩ := Except.bind_eq_ok.mp hparts
    cases heq
    rfl
  | coinbase c => cases hparts

theorem SentBy.unique {s' : Address} (h : SentBy raw s) (h' : SentBy raw s') : s = s' := by
  obtain ⟨tx, htx, hs⟩ := h
  obtain ⟨tx', htx', hs'⟩ := h'
  cases htx.symm.trans htx'
  exact Option.some.inj (hs.symm.trans hs')

/-- What the pool is told of the sender. -/
def Hears (raw : Bytes) (lookup : Address → Account × Nat) (accounts : Address → Nat) : Prop :=
  ∀ s, SentBy raw s → (lookup s).1.nonce = accounts s

variable {accounts : Address → Nat}

theorem Hears.prepared {author : AuthorRule} (hhears : Hears raw lookup accounts)
    (hq : p.check raw author lookup = .ok q) : q.next = accounts q.sender := by
  obtain ⟨hsent, hnext⟩ := sender_of_check hq
  exact hnext.trans (hhears _ hsent)

theorem Fresh.commit_checked {author : AuthorRule} (h : Indexed p) (hf : Fresh s next p)
    (hhears : Hears raw lookup accounts) (hnext : accounts s = next)
    (hq : p.check raw author lookup = .ok q) (now : Nat) : Fresh s next (p.commit q now).2 := by
  refine hf.commit h (fits_of_check hq) ?_ now
  rintro rfl
  exact (hhears.prepared hq).trans hnext

theorem fresh_of_checked {author : AuthorRule} (h : Indexed p) (hhears : Hears raw lookup accounts)
    (hs : SentBy raw s) (hq : p.check raw author lookup = .ok q) {a : Admitted}
    (hok : (p.commit q now).1 = .ok a) : Fresh s (accounts s) (p.commit q now).2 := by
  obtain rfl := (sender_of_check hq).1.unique hs
  rw [← hhears.prepared hq]
  exact fresh_of_commit_ok h (fits_of_check hq) hok

theorem Fresh.submit (h : Indexed p) (hf : Fresh s next p) {acct : Account} {spendable : Nat}
    (hhears : Hears raw (fun _ ↦ (acct, spendable)) accounts) (hnext : accounts s = next)
    (now : Nat) : Fresh s next (p.submit raw acct spendable now).2 := by
  rcases submit_cases p raw acct spendable now with heq | ⟨q, hq, heq⟩
  · rwa [heq]
  · rw [heq]
    exact hf.commit_checked h hhears hnext hq now

theorem fresh_of_submit_ok (h : Indexed p) {acct : Account} {spendable : Nat}
    (hhears : Hears raw (fun _ ↦ (acct, spendable)) accounts) (hs : SentBy raw s) {a : Admitted}
    (hok : (p.submit raw acct spendable now).1 = .ok a) :
    Fresh s (accounts s) (p.submit raw acct spendable now).2 := by
  unfold submit at hok ⊢
  split at hok
  case h_1 => cases hok
  case h_2 q hq => exact fresh_of_checked h hhears hs hq hok

theorem Fresh.submitVerified (h : Indexed p) (hf : Fresh s next p)
    (hhears : Hears raw lookup accounts) (hnext : accounts s = next) (network : Network)
    (now : Nat) (authorPubkey : Arr 32) :
    Fresh s next (p.submitVerified network raw lookup now authorPubkey).2 := by
  rcases submitVerified_cases p network raw lookup now authorPubkey with heq | ⟨q, hq, heq⟩
  · rwa [heq]
  · rw [heq]
    exact hf.commit_checked h hhears hnext hq now

theorem fresh_of_submitVerified_ok (h : Indexed p) (hhears : Hears raw lookup accounts)
    (hs : SentBy raw s) {network : Network} {authorPubkey : Arr 32} {a : Admitted}
    (hok : (p.submitVerified network raw lookup now authorPubkey).1 = .ok a) :
    Fresh s (accounts s) (p.submitVerified network raw lookup now authorPubkey).2 := by
  unfold submitVerified at hok ⊢
  split at hok
  case h_1 => cases hok
  case h_2 q hq =>
    split at hok
    case h_1 => cases hok
    case h_2 => exact fresh_of_checked h hhears hs hq hok

/-! ## Reinjection -/

/-- A round of `on_reorg_reinject` takes a transaction. -/
def Reinjects (lookup : Address → Account × Nat) (now : Nat) (acc : Nat × Mempool) (raw : Bytes) :
    Prop := (reinject lookup now acc raw).1 ≠ acc.1

theorem Fresh.reinject {acc : Nat × Mempool} (h : Indexed acc.2) (hf : Fresh s next acc.2)
    (hhears : Hears raw lookup accounts) (hnext : accounts s = next) (now : Nat) :
    Fresh s next (reinject lookup now acc raw).2 := by
  rcases reinject_cases lookup now acc raw with heq | ⟨tx, sender, htx, hsender, heq⟩
  · rwa [heq]
  · rw [heq]
    refine hf.submit h (fun s' hs' ↦ ?_) hnext now
    obtain rfl := SentBy.unique ⟨tx, htx, hsender⟩ hs'
    exact hhears _ hs'

/-- A transaction that a round takes has been submitted. -/
theorem submit_of_reinjects {acc : Nat × Mempool} (htakes : Reinjects lookup now acc raw)
    (hs : SentBy raw s) :
    (∃ a, (acc.2.submit raw (lookup s).1 (lookup s).2 now).1 = .ok a) ∧
      (Mempool.reinject lookup now acc raw).2 =
        (acc.2.submit raw (lookup s).1 (lookup s).2 now).2 := by
  obtain ⟨tx, htx, hsender⟩ := hs
  unfold Reinjects at htakes
  unfold Mempool.reinject at htakes ⊢
  split at htakes
  case isTrue => exact absurd rfl htakes
  case isFalse hroom =>
    rw [if_neg hroom]
    rw [htx] at htakes ⊢
    dsimp only at htakes ⊢
    rw [hsender] at htakes ⊢
    dsimp only at htakes ⊢
    generalize acc.2.submit raw (lookup s).1 (lookup s).2 now = r at htakes ⊢
    obtain ⟨e | a, p'⟩ := r
    · exact absurd rfl htakes
    · exact ⟨⟨a, rfl⟩, rfl⟩

theorem fresh_of_reinjects {acc : Nat × Mempool} (h : Indexed acc.2)
    (hhears : Hears raw lookup accounts) (hs : SentBy raw s)
    (htakes : Reinjects lookup now acc raw) :
    Fresh s (accounts s) (Mempool.reinject lookup now acc raw).2 := by
  obtain ⟨⟨a, hok⟩, heq⟩ := submit_of_reinjects htakes hs
  rw [heq]
  refine fresh_of_submit_ok h (fun s' hs' ↦ ?_) hs hok
  obtain rfl := hs.unique hs'
  exact hhears s hs

/-- The loop of `on_reorg_reinject`. -/
theorem fresh_reinject (h : Represents params p) (raws : List Bytes)
    (hhears : ∀ raw ∈ raws, Hears raw lookup accounts) (hnext : accounts s = next)
    (htold : Fresh s next p ∨ ∃ before raw, before ++ [raw] <+: raws ∧ SentBy raw s ∧
      Reinjects lookup now (before.foldl (Mempool.reinject lookup now) (0, p)) raw) :
    Fresh s next (raws.foldl (Mempool.reinject lookup now) (0, p)).2 := by
  induction raws using List.reverseRecOn with
  | nil =>
    refine htold.resolve_right ?_
    rintro ⟨before, raw, hpre, -⟩
    exact List.append_ne_nil_of_right_ne_nil _ (List.cons_ne_nil _ _) (List.prefix_nil.mp hpre)
  | append_singleton raws raw ih =>
    have hindexed := (reinject_keeps h lookup now raws).1.indexed
    have hraw := hhears raw (List.mem_append_right _ List.mem_cons_self)
    have hraws (r : Bytes) (hr : r ∈ raws) := hhears r (List.mem_append_left _ hr)
    rw [List.foldl_append]
    rcases htold with hf | ⟨before, raw', hpre, hs, htakes⟩
    · exact (ih hraws (.inl hf)).reinject hindexed hraw hnext now
    · rcases List.prefix_concat_iff.mp hpre with heq | hpre
      · obtain ⟨rfl, rfl⟩ := List.append_singleton_inj.mp heq
        rw [← hnext]
        exact fresh_of_reinjects hindexed hraw hs htakes
      · refine (ih hraws (.inr ⟨before, raw', hpre, hs, htakes⟩)).reinject hindexed hraw ?_ now
        exact hnext

/-! ## Runs -/

/-- The nonces an operation reads are those of the accounts. -/
def Consults (op : MempoolOp) (accounts : Address → Nat) : Prop :=
  match op with
  | .submit raw acct spendable _ => Hears raw (fun _ ↦ (acct, spendable)) accounts
  | .submitVerified _ raw lookup _ _ => Hears raw lookup accounts
  | .sweepExpired _ => True
  | .onBlockConnected _ account | .resplitAll account => ∀ s, (account s).nonce = accounts s
  | .onReorgReinject disconnected _ lookup =>
    ∀ raw ∈ returned disconnected, Hears raw lookup accounts

/-- An operation tells the pool the next nonce of a sender: it admits a transaction of it, or is
about a block that spends from it, or about all. -/
def Tells (p : Mempool) (s : Address) : MempoolOp → Prop
  | .submit raw acct spendable now =>
    SentBy raw s ∧ ∃ a, (p.submit raw acct spendable now).1 = .ok a
  | .submitVerified network raw lookup now authorPubkey =>
    SentBy raw s ∧ ∃ a, (p.submitVerified network raw lookup now authorPubkey).1 = .ok a
  | .sweepExpired _ => False
  | .onBlockConnected spent _ => s ∈ spent.map (·.1)
  | .onReorgReinject disconnected now lookup => ∃ before raw,
    before ++ [raw] <+: returned disconnected ∧ SentBy raw s ∧
      Reinjects lookup now (before.foldl (reinject lookup now) (0, p)) raw
  | .resplitAll _ => True

/-- A step keeps the marks of a sender whose next nonce is the same, and of one that the pool is
told of. -/
theorem Fresh.exec (h : Represents params p) {op : MempoolOp} (hconsults : Consults op accounts)
    (hnext : accounts s = next) (hs : Tells p s op ∨ Fresh s next p) :
    Fresh s next (p.exec op) := by
  have hindexed := h.indexed
  cases op with
  | submit raw acct spendable now =>
    rcases hs with ⟨hsent, a, hok⟩ | hf
    · exact hnext ▸ fresh_of_submit_ok hindexed hconsults hsent hok
    · exact hf.submit hindexed hconsults hnext now
  | submitVerified network raw lookup now authorPubkey =>
    rcases hs with ⟨hsent, a, hok⟩ | hf
    · exact hnext ▸ fresh_of_submitVerified_ok hindexed hconsults hsent hok
    · exact hf.submitVerified hindexed hconsults hnext network now authorPubkey
  | sweepExpired now => exact (hs.resolve_left fun h ↦ h).sweepExpired hindexed now
  | onBlockConnected spent account =>
    show Fresh s next (p.onBlockConnected spent account)
    rw [onBlockConnected_eq]
    refine fresh_settleAll ((sheds_foldl spend_sheds spent p).indexed hindexed)
      ((hconsults s).trans hnext) ?_
    rw [List.mem_dedup]
    refine (em _).imp_right fun hnot ↦ ?_
    exact (foldl_spend_untouched hindexed hnot).fresh (hs.resolve_left hnot)
  | onReorgReinject disconnected now lookup =>
    exact fresh_reinject h _ hconsults hnext hs.symm
  | resplitAll account =>
    by_cases hkeys : s ∈ p.bySender.keys
    · exact fresh_settleAll hindexed ((hconsults s).trans hnext) (.inl hkeys)
    · -- the pool has nothing of it
      refine fresh_settleAll hindexed ((hconsults s).trans hnext) (.inr ?_)
      refine fresh_of_nil hindexed ?_ next
      unfold slotsOf
      rw [AList.lookup_eq_none.mpr hkeys]
      rfl

/-- An operation, and the next nonces of the accounts while it runs. -/
structure PoolStep where
  op : MempoolOp
  accounts : Address → Nat

/-- The pool after some steps. -/
def after (params : MempoolParams) (steps : List PoolStep) : Mempool :=
  run params (steps.map (·.op))

/-- Since the start, or since the pool was told of a sender, its next nonce has been the same. -/
def Steady (params : MempoolParams) (s : Address) (next : Nat) (steps : List PoolStep) : Prop :=
  ∃ before rest, steps = before ++ rest ∧ (∀ step ∈ rest, step.accounts s = next) ∧
    (before = [] ∨ ∃ step, rest.head? = some step ∧ Tells (after params before) s step.op)

theorem after_concat (params : MempoolParams) (steps : List PoolStep) (step : PoolStep) :
    after params (steps ++ [step]) = (after params steps).exec step.op := by
  unfold after
  rw [List.map_append]
  exact run_concat params _ _

theorem after_represents (params : MempoolParams) (steps : List PoolStep) :
    Represents params (after params steps) := represents_run params _

theorem fresh_of_steady {params : MempoolParams} {steps : List PoolStep}
    (hconsults : ∀ step ∈ steps, Consults step.op step.accounts)
    (hsteady : Steady params s next steps) : Fresh s next (after params steps) := by
  obtain ⟨before, rest, rfl, hsame, htold⟩ := hsteady
  induction rest using List.reverseRecOn with
  | nil =>
    rcases htold with rfl | ⟨step, hstep, -⟩
    · exact fresh_of_nil (represents_new params).indexed rfl next
    · cases hstep
  | append_singleton rest step ih =>
    rw [← List.append_assoc, after_concat]
    refine Fresh.exec (after_represents params _) (hconsults step ?_) (hsame step ?_) ?_
    · exact List.mem_append_right _ (List.mem_append_right _ List.mem_cons_self)
    · exact List.mem_append_right _ List.mem_cons_self
    have hrest := ih (fun step' hmem ↦ hconsults step' ?_) fun step' hmem ↦
      hsame step' (List.mem_append_left _ hmem)
    · cases rest with
      | nil =>
        rcases htold with rfl | ⟨first, hfirst, htells⟩
        · exact .inr (hrest (.inl rfl))
        · cases hfirst
          rw [List.append_nil]
          exact .inl htells
      | cons first rest =>
        refine .inr (hrest (htold.imp_right ?_))
        rintro ⟨first', hfirst, htells⟩
        exact ⟨first', hfirst, htells⟩
    · rcases List.mem_append.mp hmem with hmem | hmem
      · exact List.mem_append_left _ hmem
      · exact List.mem_append_right _ (List.mem_append_left _ hmem)

/-- After every run, for every sender whose next nonce is the one the pool was last told, the
executable transactions are the run from it, and every template lists the beginning of that run. -/
theorem executable_run (params : MempoolParams) (steps : List PoolStep)
    (hconsults : ∀ step ∈ steps, Consults step.op step.accounts) (s : Address) (next : Nat)
    (hsteady : Steady params s next steps) :
    (after params steps).ExecutableRun s next ∧
      ∀ maxTxs maxBytes, (after params steps).TemplateRun s next maxTxs maxBytes := by
  have hindexed := (after_represents params steps).indexed
  have hm := (fresh_of_steady hconsults hsteady).marked
  refine ⟨(executableRun_iff hindexed).mpr hm, fun maxTxs maxBytes ↦ ?_⟩
  obtain ⟨hlen, hsum, hfrom⟩ := selected_spec (after params steps) maxTxs maxBytes
  exact ⟨rfl, hlen, hsum, hfrom, hm.selected hindexed maxTxs maxBytes⟩

end

end Mempool

namespace PoolSample

open Mempool

/-- A transfer of 10 at a fee of 2. -/
def transfer (nonce : UInt64) : TransferTx :=
  ⟨.zero 32, .zero 20, 10, 2, nonce, .zero 64⟩

def params : MempoolParams := ⟨10, 1000, 4, 4, 60, 0, 1, 1, 5⟩

section

variable [Crypto]

/-- The sender of the transfers. -/
def sender : Address := addressPayload (.zero 32)

/-- A transfer enters the pool, of an account that has spent its first nonce. -/
def admitted : PoolStep where
  op := .submit (transfer 1).encode ⟨100, 1⟩ 100 0
  accounts := fun _ ↦ 1

/-- A reorganisation takes back the block that spent it, and the account cannot pay any more. -/
def takenBack : PoolStep where
  op := .onReorgReinject [(1, [(transfer 0).encode])] 0 fun _ ↦ (⟨0, 0⟩, 0)
  accounts := fun _ ↦ 0

end

end PoolSample

namespace Mempool

theorem executable_run_sample :
    letI := Crypto.ofSignatures []
    (after PoolSample.params [PoolSample.admitted]).ExecutableRun PoolSample.sender 1 ∧
      ∀ maxTxs maxBytes, (after PoolSample.params [PoolSample.admitted]).TemplateRun
        PoolSample.sender 1 maxTxs maxBytes := by
  let _ := Crypto.ofSignatures []
  refine executable_run PoolSample.params [PoolSample.admitted] ?_ PoolSample.sender 1 ?_
  · intro step hstep
    obtain rfl := List.mem_singleton.mp hstep
    exact fun _ _ ↦ rfl
  · refine ⟨[], [PoolSample.admitted], rfl, fun step hstep ↦ ?_, .inl rfl⟩
    obtain rfl := List.mem_singleton.mp hstep
    rfl

/-- After a reorganisation has handed its transactions back, and before the pool is told of the
accounts, a transaction beyond a gap is still executable. -/
theorem reorg_leaves_mark :
    letI := Crypto.ofSignatures []
    ¬∀ (params : MempoolParams) (steps : List PoolStep) (s : Address) (next : Nat),
      (∀ step ∈ steps, Consults step.op step.accounts) →
        steps.getLast?.map (·.accounts s) = some next →
          (after params steps).ExecutableRun s next := by
  let _ := Crypto.ofSignatures []
  intro hall
  have hrun := hall PoolSample.params [PoolSample.admitted, PoolSample.takenBack]
    PoolSample.sender 0 (fun step hstep ↦ ?_) rfl
  · have hvalues : (after PoolSample.params [PoolSample.admitted, PoolSample.takenBack]).values.map
        (fun t ↦ (t.sender, t.nonce, t.executable)) = [(PoolSample.sender, 1, true)] := by
      decide +kernel
    have hmem : (PoolSample.sender, 1, true) ∈ _ := hvalues.symm ▸ List.mem_singleton.mpr rfl
    obtain ⟨t, ht, heq⟩ := List.mem_map.mp hmem
    obtain ⟨hs, heq⟩ := Prod.mk.inj heq
    obtain ⟨-, hexec⟩ := Prod.mk.inj heq
    obtain ⟨id, hid⟩ := mem_values.mp ht
    obtain ⟨id', t', ht', -, hzero⟩ :=
      ((hrun id t hid hs).mp hexec).2 0 (Nat.zero_le _) (Nat.zero_le _)
    have hmem' := List.mem_map_of_mem
      (f := fun t : PoolTx ↦ (t.sender, t.nonce, t.executable)) (mem_values.mpr ⟨id', ht'⟩)
    rw [hvalues, List.mem_singleton] at hmem'
    cases hzero.symm.trans (congrArg (·.2.1) hmem')
  · rcases List.mem_cons.mp hstep with rfl | hstep
    · exact fun _ _ ↦ rfl
    · obtain rfl := List.mem_singleton.mp hstep
      exact fun _ _ _ _ ↦ rfl

end Mempool

/-! ## What a reorganisation hands back -/

namespace Mempool

variable [Crypto]

/-- A raw transaction is of a sender's, with a nonce. -/
def SentWith (raw : Bytes) (s : Address) (n : Nat) : Prop :=
  ∃ tx pub fee amount txid, decodeTx raw = .ok tx ∧
    partsOf tx = .ok (pub, n, fee, amount, txid) ∧ addressPayload pub = s

/-- The transaction `raw` of disconnected blocks was put back. -/
def PutBack (p : Mempool) (disconnected : List (Nat × List Bytes)) (now : Nat)
    (lookup : Address → Account × Nat) (raw : Bytes) : Prop :=
  ∃ before, before ++ [raw] <+: returned disconnected ∧
    Reinjects lookup now (before.foldl (reinject lookup now) (0, p)) raw

theorem SentWith.sentBy {raw : Bytes} {s : Address} {n : Nat} (h : SentWith raw s n) :
    SentBy raw s := by
  obtain ⟨tx, pub, fee, amount, txid, htx, hparts, rfl⟩ := h
  refine ⟨tx, htx, ?_⟩
  cases tx with
  | transfer t =>
    cases hparts
    rfl
  | announcement a =>
    obtain ⟨_, -, heq⟩ := Except.bind_eq_ok.mp hparts
    cases heq
    rfl
  | coinbase c => cases hparts

end Mempool

namespace PoolSample

/-- Two disconnected blocks, each with a transfer of one sender. -/
def twoBlocks : List (Nat × List Bytes) :=
  [(10, [(transfer 0).encode]), (11, [(transfer 1).encode])]

/-- One transaction is put back at most. -/
def capOne : MempoolParams := { params with reorgReinjectCap := 1 }

/-- The sender can pay for both. -/
def rich (_ : Address) : Account × Nat := (⟨100, 0⟩, 100)

end PoolSample

namespace Mempool

open PoolSample

theorem sentWith_transfer [Crypto] {raw : Bytes} {t : TransferTx} (h : decodeTx raw = .ok (.transfer t)) :
    SentWith raw (addressPayload t.fromPub) t.nonce.toNat :=
  ⟨.transfer t, t.fromPub, t.fee.toNat, t.amount.toNat, t.txid, h, rfl, rfl⟩

/-- The newest block is first, and its transaction is taken. -/
theorem putBack_later :
    letI := Crypto.ofSignatures []
    PutBack (run capOne []) twoBlocks 0 rich (transfer 1).encode := by
  let _ := Crypto.ofSignatures []
  refine ⟨[], ⟨[(transfer 0).encode], by decide +kernel⟩, ?_⟩
  unfold Reinjects
  decide +kernel

end Mempool

end Plaine.Chain

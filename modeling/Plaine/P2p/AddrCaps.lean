import Plaine.P2p.AddrMan

/-!
# The caps of the address book

What a call demotes, and what becomes of the caps: the tried entries are never too many.  A call
keeps the new entries within their caps, in all and from any group, if what it demotes goes back to
a table and a group that have room.
-/

namespace Plaine.P2p

open Plaine.Lib

namespace AddrMan

variable {m m' : AddrMan} {op : AddrOp} {i : Nat} {e : AddrEntry} {f : AddrEntry → AddrEntry}
variable {load : Prop} {g : Group}

/-! ## Counts -/

theorem Consistent.countNewFrom_eq (h : Consistent m) (g : Group) :
    m.countNewFrom g = m.entries.countP (AddrEntry.NewFrom g ·) := h.sources.getD_eq g

/-- Every entry is in one of the tables. -/
theorem Consistent.length_eq (h : Consistent m) : m.entries.length = m.nNew + m.nTried := by
  rw [h.nNew, h.nTried, List.length_eq_countP_add_countP (·.table = .new)]
  congr 1
  refine List.countP_congr fun e _ ↦ ?_
  cases e.table <;> decide

theorem push_nNew (m : AddrMan) (e : AddrEntry) :
    (m.push e).nNew = m.nNew + if e.table = .new then 1 else 0 := by
  unfold push noteAdded
  cases e.table <;> rfl

theorem push_nTried (m : AddrMan) (e : AddrEntry) :
    (m.push e).nTried = m.nTried + if e.table = .tried then 1 else 0 := by
  unfold push noteAdded
  cases e.table <;> rfl

theorem push_entries (m : AddrMan) (e : AddrEntry) : (m.push e).entries = m.entries ++ [e] := by
  unfold push noteAdded
  cases e.table <;> rfl

theorem removeAt_entries (he : m.entries[i]? = some e) :
    (m.removeAt i).entries = m.entries.swapRemove i := by
  rw [Consistent.removeAt_eq he]
  exact noteRemoved_entries _ e

theorem removeAt_of_none (h : m.entries[i]? = none) : m.removeAt i = m := by rw [removeAt, h]

/-- What is removed is counted no more. -/
theorem Consistent.countP_removeAt_le (p : AddrEntry → Bool) (m : AddrMan) (i : Nat) :
    (m.removeAt i).entries.countP p ≤ m.entries.countP p := by
  cases he : m.entries[i]? with
  | none => rw [removeAt_of_none he]
  | some e =>
    rw [removeAt_entries he, List.countP_swapRemove p he]
    exact Nat.le_add_right _ _

theorem setTable_entries (m : AddrMan) (i : Nat) (t : Table) :
    (m.setTable i t).entries = m.entries.modify i fun e ↦ { e with table := t } := by
  unfold setTable
  cases he : m.entries[i]? with
  | none => rw [List.modify_eq_self (List.getElem?_eq_none_iff.mp he)]
  | some e =>
    dsimp only
    split
    case isTrue ht =>
      obtain ⟨hi, rfl⟩ := List.getElem?_eq_some_iff.mp he
      rw [List.modify_eq_take_cons_drop hi, ← ht, ← List.drop_eq_getElem_cons hi,
        List.take_append_drop]
    case isFalse => cases t <;> rfl

theorem promote_entries (m : AddrMan) (i : Nat) (services : UInt32) :
    (m.promote i services).entries =
      m.entries.modify i fun e ↦ { e with table := .tried, failures := 0, services } := by
  rw [promote, update_entries, setTable_entries, List.modify_modify_eq]
  rfl

theorem demote_entries (m : AddrMan) (i : Nat) (f : AddrEntry → AddrEntry) :
    (m.demote i f).entries = m.entries.modify i fun e ↦ f { e with table := .new } := by
  rw [demote, update_entries, setTable_entries, List.modify_modify_eq]
  rfl

/-- A change of an entry changes a count by one at most, and not at all if the entry counts alike. -/
theorem countP_modify_le (p : AddrEntry → Bool) (l : List AddrEntry) (i : Nat)
    (f : AddrEntry → AddrEntry) : (l.modify i f).countP p ≤ l.countP p + 1 := by
  cases he : l[i]? with
  | none =>
    rw [List.modify_eq_self (List.getElem?_eq_none_iff.mp he)]
    exact Nat.le_succ _
  | some e =>
    have h := List.countP_modify p (f := f) he
    split_ifs at h <;> omega

/-- A change that makes no entry count does not make a count greater. -/
theorem countP_modify_le_of (p : AddrEntry → Bool) (l : List AddrEntry) (i : Nat)
    (hf : ∀ e, p (f e) = true → p e = true) : (l.modify i f).countP p ≤ l.countP p := by
  cases he : l[i]? with
  | none => rw [List.modify_eq_self (List.getElem?_eq_none_iff.mp he)]
  | some e =>
    have h := List.countP_modify p (f := f) he
    by_cases hp : p (f e)
    · rw [if_pos hp, if_pos (hf e hp)] at h
      exact (Nat.add_right_cancel h).le
    · rw [if_neg hp] at h
      exact Nat.le_of_add_right_le h.le

/-! ## Demotions -/

/-- The entry with the key, if the handshake or the failure of a call is its. -/
def demotion (m : AddrMan) : AddrOp → Option (AddrMan × Nat)
  | .onHandshakeOk ip port services => do
    let m := m.promote (← m.index.lookup (ip, port)) services
    guard (m.nTried > addrTriedMax)
    return (m, ← m.oldestTried)
  | .onFailure ip port protocol => do
    let i ← m.index.lookup (ip, port)
    let m := m.update i (failed protocol)
    guard (demotes (← m.entries[i]?))
    return (m, i)
  | _ => none

/-- Over the cap, a tried entry is found to be demoted. -/
theorem oldestTried_eq (h : Consistent m) (hpos : 0 < m.nTried) :
    ∃ i e, m.oldestTried = some i ∧ m.entries[i]? = some e ∧ e.table = .tried := by
  unfold oldestTried
  cases hmin : (m.entries.zipIdx.filter (·.1.table = .tried)).argmin (·.1.lastAttempt.getD 0) with
  | none =>
    rw [List.argmin_eq_none, List.filter_eq_nil_iff] at hmin
    rw [h.nTried, List.countP_pos_iff] at hpos
    obtain ⟨e, he, htable⟩ := hpos
    obtain ⟨i, hi⟩ := List.getElem?_of_mem he
    exact absurd htable (hmin (e, i) (List.mk_mem_zipIdx_iff_getElem?.mpr hi))
  | some x =>
    obtain ⟨e, i⟩ := x
    obtain ⟨hmem, htable⟩ := List.mem_filter.mp (List.argmin_mem hmin)
    exact ⟨i, e, rfl, List.mk_mem_zipIdx_iff_getElem?.mp hmem, by simpa using htable⟩

theorem promote_nTried_le (m : AddrMan) (i : Nat) (services : UInt32) :
    (m.promote i services).nTried ≤ m.nTried + 1 := by
  show (m.setTable i .tried).nTried ≤ _
  unfold setTable
  split
  · exact Nat.le_succ _
  split
  · exact Nat.le_succ _
  · exact Nat.le_refl _

theorem promote_nNew_le (m : AddrMan) (i : Nat) (services : UInt32) :
    (m.promote i services).nNew ≤ m.nNew := by
  show (m.setTable i .tried).nNew ≤ _
  unfold setTable
  split
  · exact Nat.le_refl _
  split
  · exact Nat.le_refl _
  · exact Nat.sub_le _ _

theorem demote_nTried (hi : m.entries[i]? = some e) (htable : e.table = .tried) :
    (m.demote i f).nTried = m.nTried - 1 := by
  rw [demote, update_nTried, setTable, hi]
  dsimp only
  rw [htable, if_neg (by decide)]
  rfl

theorem demote_nNew (hi : m.entries[i]? = some e) (htable : e.table = .tried) :
    (m.demote i f).nNew = m.nNew + 1 := by
  rw [demote, update_nNew, setTable, hi]
  dsimp only
  rw [htable, if_neg (by decide)]
  rfl

/-- The book `before` a demotion, in the course of a call to `m`: nothing is new that was not. -/
structure Before (m before : AddrMan) : Prop where
  consistent : Consistent before
  length_eq : before.entries.length = m.entries.length
  nNew_le : before.nNew ≤ m.nNew
  nTried_le : before.nTried ≤ addrTriedMax + 1
  countNewFrom_le (g : Group) : before.countNewFrom g ≤ m.countNewFrom g

/-- A call moves entries, or it demotes one, or it empties the book. -/
inductive Outcome (m : AddrMan) (op : AddrOp) : AddrMan → Prop where
  | moves {m' : AddrMan} (hnone : m.demotion op = none)
    (hm : Moves (∃ recs nowUnix allowLocal rng, op = .restore recs nowUnix allowLocal rng) m m') :
    Outcome m op m'
  | demotes {before : AddrMan} {i : Nat} {e : AddrEntry} {f : AddrEntry → AddrEntry}
    (hsome : m.demotion op = some (before, i)) (hi : before.entries[i]? = some e)
    (htable : e.table = .tried) (hf : Touches f) (hb : Before m before) :
    Outcome m op (before.demote i f)
  | clear (hnone : m.demotion op = none) : Outcome m op new

theorem outcome_onHandshakeOk (h : Consistent m) (hcap : m.nTried ≤ addrTriedMax) (ip : Ip)
    (port : UInt16) (services : UInt32) :
    Outcome m (.onHandshakeOk ip port services) (m.onHandshakeOk ip port services) := by
  cases hlookup : m.index.lookup (ip, port) with
  | none =>
    have hnone : m.demotion (.onHandshakeOk ip port services) = none := by
      rw [demotion, hlookup]
      rfl
    rw [onHandshakeOk, hlookup]
    exact .moves hnone .refl
  | some i =>
    rw [onHandshakeOk, hlookup]
    dsimp only
    have hconsistent := h.promote i services
    have hle := promote_nTried_le m i services
    rcases Nat.lt_or_ge addrTriedMax (m.promote i services).nTried with hover | hroom
    · -- the entry was a new one, and the tried ones were as many as there may be
      have hone : (m.promote i services).nTried - addrTriedMax = 1 := by omega
      obtain ⟨j, e, hold, hj, htable⟩ :=
        oldestTried_eq hconsistent (Nat.lt_of_le_of_lt (Nat.zero_le _) hover)
      have hsome : m.demotion (.onHandshakeOk ip port services) = some (m.promote i services, j) := by
        rw [demotion, hlookup]
        simp [hover, hold, guard]
      rw [enforceTriedCap, hone, enforceTriedCap.loop, if_pos hover, hold]
      dsimp only
      rw [enforceTriedCap.loop]
      refine .demotes hsome hj htable ⟨fun _ ↦ rfl, fun _ ↦ rfl, fun _ ↦ rfl⟩
        ⟨hconsistent, ?_, promote_nNew_le m i services, hle.trans (Nat.succ_le_succ hcap), fun g ↦ ?_⟩
      · rw [promote_entries, List.length_modify]
      · rw [hconsistent.countNewFrom_eq, h.countNewFrom_eq, promote_entries]
        refine countP_modify_le_of _ _ _ fun e he ↦ ?_
        simp [AddrEntry.NewFrom] at he
    · have hnone : m.demotion (.onHandshakeOk ip port services) = none := by
        rw [demotion, hlookup]
        simp [hroom.not_gt, guard]
      rw [enforceTriedCap, Nat.sub_eq_zero_of_le hroom, enforceTriedCap.loop]
      exact .moves hnone (.single (.promote i services hroom))

theorem touches_failed (protocol : Bool) : Touches (failed protocol) :=
  ⟨fun _ ↦ rfl, fun _ ↦ rfl, fun _ ↦ rfl⟩

theorem outcome_onFailure (h : Consistent m) (hcap : m.nTried ≤ addrTriedMax) (ip : Ip)
    (port : UInt16) (protocol : Bool) :
    Outcome m (.onFailure ip port protocol) (m.onFailure ip port protocol).1 := by
  cases hlookup : m.index.lookup (ip, port) with
  | none =>
    have hnone : m.demotion (.onFailure ip port protocol) = none := by
      rw [demotion, hlookup]
      rfl
    rw [onFailure, hlookup]
    exact .moves hnone .refl
  | some i =>
    have htouch := touches_failed protocol
    have hconsistent := h.touch (i := i) htouch
    rw [onFailure, hlookup]
    dsimp only
    cases hi : (m.update i (failed protocol)).entries[i]? with
    | none =>
      have hnone : m.demotion (.onFailure ip port protocol) = none := by
        rw [demotion, hlookup]
        simp [-update_entries, hi]
      exact .moves hnone (.single (.touch i _ htouch))
    | some e =>
      dsimp only
      split
      case isTrue hdemotes =>
        have hsome : m.demotion (.onFailure ip port protocol) =
            some (m.update i (failed protocol), i) := by
          rw [demotion, hlookup]
          simp [-update_entries, hi, hdemotes, guard]
        have htable : e.table = .tried := by
          have := hdemotes
          simp only [AddrMan.demotes, Bool.and_eq_true, decide_eq_true_eq] at this
          exact this.1
        refine .demotes hsome hi htable ⟨fun _ ↦ rfl, fun _ ↦ rfl, fun _ ↦ rfl⟩
          ⟨hconsistent, ?_, Nat.le_refl _, hcap.trans (Nat.le_succ _), fun g ↦ Nat.le_refl _⟩
        rw [update_entries, List.length_modify]
      case isFalse hdemotes =>
        have hnone : m.demotion (.onFailure ip port protocol) = none := by
          rw [demotion, hlookup]
          simp [-update_entries, hi, hdemotes, guard]
        exact .moves hnone (.single (.touch i _ htouch))

/-- What a call does. -/
theorem outcome_apply (h : Consistent m) (hcap : m.nTried ≤ addrTriedMax) (op : AddrOp) :
    Outcome m op (m.apply op) := by
  cases op with
  | add ip port fromSeed lastSeen => exact .moves rfl (moves_add h _ _ _ _)
  | addFromPeer => exact .moves rfl (moves_addFromPeer _ _ _ _ _ _ _)
  | restore recs nowUnix allowLocal rng =>
    refine .moves rfl ?_
    have hload : (∃ r n a g, AddrOp.restore recs nowUnix allowLocal rng = .restore r n a g) = True :=
      eq_true ⟨_, _, _, _, rfl⟩
    rw [hload]
    exact moves_restore recs nowUnix allowLocal rng
  | reapExpired nowUnix => exact .moves rfl (moves_reapExpired nowUnix)
  | onHandshakeOk ip port services => exact outcome_onHandshakeOk h hcap ip port services
  | onFailure ip port protocol => exact outcome_onFailure h hcap ip port protocol
  | noteAttempt ip port now =>
    refine .moves rfl ?_
    show Moves _ m (m.noteAttempt ip port now)
    unfold noteAttempt
    split
    · exact .refl
    · exact .single (.touch _ _ ⟨fun _ ↦ rfl, fun _ ↦ rfl, fun _ ↦ rfl⟩)
  | markForeign ip port now =>
    refine .moves rfl ?_
    show Moves _ m (m.markForeign ip port now)
    unfold markForeign
    split
    · exact .refl
    · exact .single (.touch _ _ ⟨fun _ ↦ rfl, fun _ ↦ rfl, fun _ ↦ rfl⟩)
  | clear => exact .clear rfl

/-! ## The tried entries -/

theorem removeAt_nTried_le (m : AddrMan) (i : Nat) : (m.removeAt i).nTried ≤ m.nTried := by
  cases he : m.entries[i]? with
  | none => rw [removeAt_of_none he]
  | some e =>
    rw [Consistent.removeAt_eq he]
    show ({ m with entries := m.entries.swapRemove i }.noteRemoved e).nTried ≤ _
    unfold noteRemoved
    cases e.table with
    | new => exact Nat.le_refl _
    | tried => exact Nat.sub_le _ _

theorem Move.nTried_le (hm : Move load m m') (hcap : m.nTried ≤ addrTriedMax) :
    m'.nTried ≤ addrTriedMax := by
  cases hm with
  | touch => exact hcap
  | remove i => exact (removeAt_nTried_le m i).trans hcap
  | promote i services hroom => exact hroom
  | pushNew e _ htable =>
    rw [push_nTried, htable]
    exact hcap
  | pushTried e _ _ htable hroom =>
    rw [push_nTried, if_pos htable]
    exact hroom
  | replace i old e _ _ _ htable =>
    rw [push_nTried, htable]
    exact (removeAt_nTried_le m i).trans hcap

theorem Moves.nTried_le (hm : Moves load m m') (hcap : m.nTried ≤ addrTriedMax) :
    m'.nTried ≤ addrTriedMax := by
  induction hm with
  | refl => exact hcap
  | tail _ hm ih => exact hm.nTried_le ih

/-- A call keeps the index, the counts and the cap of the tried entries. -/
theorem Outcome.kept (ho : Outcome m op m') (h : Consistent m) (hcap : m.nTried ≤ addrTriedMax) :
    Consistent m' ∧ m'.nTried ≤ addrTriedMax := by
  cases ho with
  | moves _ hm => exact ⟨h.moves hm, Moves.nTried_le hm hcap⟩
  | demotes _ hi htable hf hb =>
    refine ⟨hb.consistent.demote hf, ?_⟩
    rw [demote_nTried hi htable]
    exact Nat.sub_le_of_le_add hb.nTried_le
  | clear => exact ⟨.empty, Nat.zero_le _⟩

/-- After any calls. -/
theorem run_kept (ops : List AddrOp) (h : Consistent m) (hcap : m.nTried ≤ addrTriedMax) :
    Consistent (m.run ops) ∧ (m.run ops).nTried ≤ addrTriedMax := by
  induction ops generalizing m with
  | nil => exact ⟨h, hcap⟩
  | cons op ops ih =>
    obtain ⟨h', hcap'⟩ := (outcome_apply h hcap op).kept h hcap
    exact ih h' hcap'

/-- The book's own check of its index and counts goes through. -/
theorem Consistent.countersConsistent (h : Consistent m) : m.countersConsistent = true := by
  have hindex : m.entries.zipIdx.all (fun x ↦ m.index.lookup x.1.key = some x.2) = true := by
    rw [List.all_eq_true]
    rintro ⟨e, i⟩ he
    exact decide_eq_true (h.index.lookup_key (List.mk_mem_zipIdx_iff_getElem?.mp he))
  have hsources : Tallies (fun g ↦ m.entries.countP (AddrEntry.NewFrom g ·))
      ((m.entries.filter (·.table = .new)).foldl (fun t e ↦ bump t e.sourceGroup) ∅) := by
    refine (Tallies.empty.foldl_bump _ _).congr fun g ↦ ?_
    rw [List.countP_filter, Nat.zero_add]
    refine List.countP_congr fun e _ ↦ ?_
    rw [Bool.and_eq_true, decide_eq_true_iff, decide_eq_true_iff, decide_eq_true_iff, and_comm]
    exact Iff.rfl
  unfold AddrMan.countersConsistent
  dsimp only
  rw [if_neg (by simp [h.nNew, h.nTried]), if_neg (not_not_intro h.index.length_eq),
    if_neg (not_not_intro hindex), Bool.and_eq_true, decide_eq_true_eq, List.all_eq_true]
  exact ⟨hsources.length_keys_eq h.sources, fun g _ ↦
    decide_eq_true (h.sources.lookup_eq hsources g)⟩

/-! ## The new entries -/

/-- The caps on the new entries. -/
def WithinCaps (m : AddrMan) : Prop :=
  m.nNew ≤ addrNewMax ∧ ∀ g, g ≠ Arr.zero 4 → m.countNewFrom g ≤ addrPerSourceGroupMax

/-- What a call demotes, if anything, goes back to a table with room, and its group has room. -/
def HasRoom (m : AddrMan) (op : AddrOp) : Prop :=
  ∀ before i e, m.demotion op = some (before, i) → before.entries[i]? = some e →
    before.nNew < addrNewMax ∧ before.Spare e.sourceGroup

/-- A move keeps the cap on the new entries. -/
theorem Move.nNew_le (hm : Move load m m') (h : Consistent m) (hnew : m.nNew ≤ addrNewMax) :
    m'.nNew ≤ addrNewMax := by
  rw [(h.move hm).nNew]
  rw [h.nNew] at hnew
  cases hm with
  | touch i f hf =>
    refine (List.countP_modify_of_eq _ fun e ↦ ?_).trans_le hnew
    rw [hf.table]
  | remove i => exact (Consistent.countP_removeAt_le _ m i).trans hnew
  | promote i services =>
    rw [promote_entries]
    refine (countP_modify_le_of _ _ _ fun e he ↦ ?_).trans hnew
    simp at he
  | pushNew e _ _ hroom =>
    rw [push_entries, List.countP_append, List.countP_singleton, ← h.nNew]
    split
    · exact hroom
    · exact hroom.le
  | pushTried e _ _ htable =>
    rw [push_entries, List.countP_append, List.countP_singleton, if_neg (by simp [htable])]
    exact hnew
  | replace i old e hold hold' =>
    have hcount := List.countP_swapRemove (·.table = .new) hold
    rw [if_pos (by simpa using hold')] at hcount
    rw [push_entries, removeAt_entries hold, List.countP_append, List.countP_singleton]
    refine Nat.le_trans ?_ (hcount ▸ hnew)
    refine Nat.add_le_add_left ?_ _
    split <;> decide

theorem Move.withinCaps (hm : Move load m m') (h : Consistent m) (hcaps : WithinCaps m) :
    WithinCaps m' := by
  have h' := h.move hm
  obtain ⟨hnew, hgroups⟩ := hcaps
  constructor
  · exact hm.nNew_le h hnew
  · intro g hg
    have hle := hgroups g hg
    rw [h'.countNewFrom_eq]
    rw [h.countNewFrom_eq] at hle
    cases hm with
    | touch i f hf =>
      refine (List.countP_modify_of_eq (AddrEntry.NewFrom g ·) fun e ↦ ?_).trans_le hle
      rw [decide_eq_decide, AddrEntry.NewFrom, AddrEntry.NewFrom, hf.table, hf.sourceGroup]
    | remove i => exact (Consistent.countP_removeAt_le _ m i).trans hle
    | promote i services =>
      rw [promote_entries]
      refine (countP_modify_le_of _ _ _ fun e he ↦ ?_).trans hle
      simp [AddrEntry.NewFrom] at he
    | pushNew e _ _ _ hspare =>
      rw [push_entries, List.countP_append, List.countP_singleton]
      split
      case isTrue he =>
        obtain rfl : e.sourceGroup = g := (of_decide_eq_true he).2
        rcases hspare with hzero | hlt
        · exact absurd hzero hg
        · rwa [h.countNewFrom_eq] at hlt
      case isFalse => exact hle
    | pushTried e _ _ htable =>
      rw [push_entries, List.countP_append, List.countP_singleton,
        if_neg (by simp [AddrEntry.NewFrom, htable])]
      exact hle
    | replace i old e _ _ _ _ hzero =>
      rw [push_entries, List.countP_append, List.countP_singleton, if_neg]
      · exact (Consistent.countP_removeAt_le _ m i).trans hle
      · simp [AddrEntry.NewFrom, hzero, hg.symm]

theorem Moves.withinCaps (hm : Moves load m m') (h : Consistent m) (hcaps : WithinCaps m) :
    WithinCaps m' := by
  induction hm with
  | refl => exact hcaps
  | tail hms hm ih => exact hm.withinCaps (h.moves hms) ih

/-- A demotion keeps the caps if there is room for it. -/
theorem withinCaps_demote_iff (h : Consistent m) (hi : m.entries[i]? = some e)
    (htable : e.table = .tried) (hf : Touches f) (hcaps : WithinCaps m) :
    WithinCaps (m.demote i f) ↔ m.nNew < addrNewMax ∧ m.Spare e.sourceGroup := by
  have hcount : ∀ g, (m.demote i f).countNewFrom g =
      m.countNewFrom g + if e.sourceGroup = g then 1 else 0 := by
    intro g
    rw [(h.demote hf).countNewFrom_eq, h.countNewFrom_eq, demote_entries]
    have hone := List.countP_modify (AddrEntry.NewFrom g ·)
      (f := fun e ↦ f { e with table := .new }) hi
    simpa [AddrEntry.NewFrom, htable, hf.table, hf.sourceGroup] using hone
  rw [WithinCaps, demote_nNew hi htable, Nat.succ_le_iff]
  refine and_congr_right fun _ ↦ ?_
  constructor
  · intro hgroups
    by_cases hzero : e.sourceGroup = Arr.zero 4
    · exact .inl hzero
    · have hle := hgroups _ hzero
      rw [hcount, if_pos rfl] at hle
      exact .inr hle
  · intro hspare g hg
    rw [hcount]
    split
    case isTrue heq =>
      subst heq
      exact hspare.resolve_left hg
    case isFalse => exact hcaps.2 g hg

/-- A call keeps the caps on the new entries if and only if there is room for what it demotes. -/
theorem withinCaps_apply_iff (h : Consistent m) (hcap : m.nTried ≤ addrTriedMax)
    (hcaps : WithinCaps m) (op : AddrOp) : WithinCaps (m.apply op) ↔ HasRoom m op := by
  have ho := outcome_apply h hcap op
  generalize m.apply op = m' at ho
  cases ho with
  | moves hnone hm =>
    refine iff_of_true (Moves.withinCaps hm h hcaps) fun before i e hsome ↦ ?_
    cases hnone.symm.trans hsome
  | @demotes before i e f hsome hi htable hf hb =>
    have hbefore : WithinCaps before :=
      ⟨hb.nNew_le.trans hcaps.1, fun g hg ↦ (hb.countNewFrom_le g).trans (hcaps.2 g hg)⟩
    rw [withinCaps_demote_iff hb.consistent hi htable hf hbefore]
    constructor
    · intro hroom before' i' e' hsome' hi'
      cases hsome.symm.trans hsome'
      cases hi.symm.trans hi'
      exact hroom
    · intro hroom
      exact hroom before i e hsome hi
  | clear hnone =>
    refine iff_of_true ⟨Nat.zero_le _, fun g _ ↦ Nat.zero_le _⟩ fun before i e hsome ↦ ?_
    cases hnone.symm.trans hsome

/-- There is room for every demotion of the calls. -/
def RunHasRoom : AddrMan → List AddrOp → Prop
  | _, [] => True
  | m, op :: ops => HasRoom m op ∧ RunHasRoom (m.apply op) ops

/-- The caps hold all the way if and only if there is room for every demotion. -/
theorem withinCaps_run_iff (h : Consistent m) (hcap : m.nTried ≤ addrTriedMax)
    (hcaps : WithinCaps m) (ops : List AddrOp) :
    (∀ done, done <+: ops → WithinCaps (m.run done)) ↔ RunHasRoom m ops := by
  induction ops generalizing m with
  | nil =>
    refine iff_of_true (fun done hdone ↦ ?_) trivial
    obtain rfl := List.prefix_nil.mp hdone
    exact hcaps
  | cons op ops ih =>
    obtain ⟨h', hcap'⟩ := (outcome_apply h hcap op).kept h hcap
    have hiff := withinCaps_apply_iff h hcap hcaps op
    constructor
    · intro hall
      have hcaps' : WithinCaps (m.apply op) :=
        hall [op] (List.cons_prefix_cons.mpr ⟨rfl, List.nil_prefix⟩)
      refine ⟨hiff.mp hcaps', (ih h' hcap' hcaps').mp fun done hdone ↦ ?_⟩
      exact hall (op :: done) (List.cons_prefix_cons.mpr ⟨rfl, hdone⟩)
    · rintro ⟨hroom, hrest⟩ done hdone
      rcases done with _ | ⟨op', done⟩
      · exact hcaps
      · obtain ⟨rfl, hdone'⟩ := List.cons_prefix_cons.mp hdone
        exact (ih h' hcap' (hiff.mpr hroom)).mpr hrest done hdone'

/-- The new entries, and those of them from any group, are never too many if and only if there is
room for every demotion. -/
theorem newEntries_le_iff (ops : List AddrOp) :
    (∀ done, done <+: ops →
      (new.run done).entries.countP (·.table = .new) ≤ addrNewMax ∧
        ∀ g, g ≠ Arr.zero 4 →
          (new.run done).entries.countP (AddrEntry.NewFrom g ·) ≤ addrPerSourceGroupMax) ↔
      RunHasRoom new ops := by
  rw [← withinCaps_run_iff .empty (Nat.zero_le _) ⟨Nat.zero_le _, fun _ _ ↦ Nat.zero_le _⟩]
  refine forall_congr' fun done ↦ forall_congr' fun _ ↦ ?_
  have h := (run_kept done .empty (Nat.zero_le _)).1
  simp only [WithinCaps, h.nNew, h.countNewFrom_eq]

/-! ## The length of the book -/

/-- As many entries as both tables may have. -/
abbrev bookMax : Nat := addrNewMax + addrTriedMax

theorem Move.length_le (hm : Move load m m') (h : Consistent m) (hcap : m.nTried ≤ addrTriedMax)
    (hload : load → m.nNew ≤ addrNewMax) (hlen : m.entries.length ≤ bookMax) :
    m'.entries.length ≤ bookMax := by
  cases hm with
  | touch => rwa [update_entries, List.length_modify]
  | promote => rwa [promote_entries, List.length_modify]
  | remove i =>
    cases hi : m.entries[i]? with
    | none => rwa [removeAt_of_none hi]
    | some e =>
      rw [removeAt_entries hi, List.length_swapRemove]
      exact (Nat.sub_le _ _).trans hlen
  | pushNew e _ _ hroom =>
    rw [push_entries, List.length_append, h.length_eq, Nat.add_right_comm]
    exact Nat.add_le_add hroom hcap
  | pushTried e hl _ _ hroom =>
    rw [push_entries, List.length_append, h.length_eq, Nat.add_assoc]
    exact Nat.add_le_add (hload hl) hroom
  | replace i old e hi =>
    rw [push_entries, List.length_append, removeAt_entries hi, List.length_swapRemove]
    exact (Nat.sub_add_cancel (Nat.zero_lt_of_lt (List.getElem?_eq_some_iff.mp hi).1)).trans_le hlen

/-- A `restore` finds no more new entries than there may be. -/
def InTime (m : AddrMan) (op : AddrOp) : Prop :=
  (∃ recs nowUnix allowLocal rng, op = .restore recs nowUnix allowLocal rng) → m.nNew ≤ addrNewMax

theorem Moves.length_le (hm : Moves load m m') (h : Consistent m) (hcap : m.nTried ≤ addrTriedMax)
    (hload : load → m.nNew ≤ addrNewMax) (hlen : m.entries.length ≤ bookMax) :
    m'.entries.length ≤ bookMax ∧ (load → m'.nNew ≤ addrNewMax) := by
  induction hm with
  | refl => exact ⟨hlen, hload⟩
  | tail hms hm ih =>
    have h' := h.moves hms
    exact ⟨hm.length_le h' (Moves.nTried_le hms hcap) ih.2 ih.1, fun hl ↦ hm.nNew_le h' (ih.2 hl)⟩

/-- A call keeps the length of the book, if a `restore` is in time. -/
theorem length_apply_le (h : Consistent m) (hcap : m.nTried ≤ addrTriedMax)
    (hlen : m.entries.length ≤ bookMax) (hin : InTime m op) :
    (m.apply op).entries.length ≤ bookMax := by
  have ho := outcome_apply h hcap op
  generalize m.apply op = m' at ho
  cases ho with
  | moves _ hm => exact (Moves.length_le hm h hcap hin hlen).1
  | demotes _ _ _ _ hb =>
    rw [demote_entries, List.length_modify, hb.length_eq]
    exact hlen
  | clear => exact Nat.zero_le _

/-- Every `restore` of the calls is in time. -/
def RunInTime : AddrMan → List AddrOp → Prop
  | _, [] => True
  | m, op :: ops => InTime m op ∧ RunInTime (m.apply op) ops

theorem length_run_le (h : Consistent m) (hcap : m.nTried ≤ addrTriedMax)
    (hlen : m.entries.length ≤ bookMax) {ops : List AddrOp} (hin : RunInTime m ops) :
    (m.run ops).entries.length ≤ bookMax := by
  induction ops generalizing m with
  | nil => exact hlen
  | cons op ops ih =>
    obtain ⟨h', hcap'⟩ := (outcome_apply h hcap op).kept h hcap
    exact ih h' hcap' (length_apply_le h hcap hlen hin.1) hin.2

/-! ## A flood -/

/-- An address of the network `2000::/32`. -/
def host (i : Nat) : Ip :=
  ⟨[0x20, 0, UInt8.ofNat (i / 256), UInt8.ofNat i, 0, 0, 0, 0, 0, 0, 0, 0, 0, 0, 0, 0], rfl⟩

theorem host_inj {i j : Nat} (hi : i < 65536) (hj : j < 65536) (h : host i = host j) : i = j := by
  simp only [host, Arr.mk.injEq, List.cons.injEq, true_and, and_true] at h
  have hhigh := congrArg UInt8.toNat h.1
  have hlow := congrArg UInt8.toNat h.2
  simp only [UInt8.toNat_ofNat'] at hhigh hlow
  omega

theorem admissible_host (i : Nat) : admissible (host i) 1 false = true := by
  have hmapped : v4Mapped (host i) = false := by
    simp [v4Mapped, host]
  have hword : beWord (host i) 0 = 0x2000 := by simp [beWord, byte, host]
  have hfirst : byte (host i) 0 = 0x20 := by simp [byte, host]
  have hall : (host i).bytes.all (· == 0) = false := by simp [host]
  have htake : ((host i).bytes.take 15).all (· == 0) = false := by simp [host]
  rw [admissible, if_neg (by decide), if_neg (by decide), isRoutable, v4Of, if_neg (by simp [hmapped])]
  show routableV6 (host i) = true
  have hdoc : ((0x2000 : UInt16) == 0x2001) = false := by decide
  have hnat : ((0x2000 : UInt16) == 0x0064) = false := by decide
  rw [routableV6, hword, hfirst, hall, htake]
  simp only [hdoc, hnat, Bool.false_and]
  decide

/-- What a group tells of. -/
def tell (g : Group) (i : Nat) : AddrOp := .addFromPeer (host i) 1 0 0 g 0 false

/-- The entry that becomes of it. -/
def told (g : Group) (i : Nat) : AddrEntry :=
  { AddrEntry.new (host i) 1 false with sourceGroup := g }

/-- While the group and the table have room, an address that is not in the book is added. -/
theorem entries_tell (h : Consistent m) (habsent : ∀ e ∈ m.entries, e.key ≠ (host i, 1))
    (hspare : m.entries.countP (AddrEntry.NewFrom g ·) < addrPerSourceGroupMax)
    (hroom : m.entries.countP (·.table = .new) < addrNewMax) :
    (m.apply (tell g i)).entries = m.entries ++ [told g i] := by
  have hlookup := h.index.lookup_eq_none.mpr habsent
  rw [← h.countNewFrom_eq] at hspare
  rw [← h.nNew] at hroom
  show (m.addFromPeer (host i) 1 0 0 g 0 false).1.entries = _
  rw [addFromPeer, if_neg (not_not_intro (admissible_host i)), if_neg (by decide), hlookup]
  dsimp only
  rw [if_neg hspare.not_ge, if_neg hroom.not_ge, push_entries]
  rfl

theorem run_append (m : AddrMan) (ops ops' : List AddrOp) :
    m.run (ops ++ ops') = (m.run ops).run ops' := List.foldl_append

theorem run_singleton (m : AddrMan) (op : AddrOp) : m.run [op] = m.apply op := rfl

/-- Calls that each put an address in the book that was not there. -/
theorem entries_fill (ops : Nat → List AddrOp) (ent : Nat → AddrEntry) {start n : Nat}
    (h : Consistent m) (hcap : m.nTried ≤ addrTriedMax) (hkey : ∀ i, (ent i).key = (host i, 1))
    (hmax : start + n ≤ 65536)
    (hfresh : ∀ i, start ≤ i → i < start + n → ∀ e ∈ m.entries, e.key ≠ (host i, 1))
    (hstep : ∀ m' k, k < n → Consistent m' →
      m'.entries = m.entries ++ (List.range' start k).map ent →
      (∀ e ∈ m'.entries, e.key ≠ (host (start + k), 1)) →
        (m'.run (ops (start + k))).entries = m'.entries ++ [ent (start + k)]) :
    (m.run ((List.range' start n).flatMap ops)).entries =
      m.entries ++ (List.range' start n).map ent := by
  induction n with
  | zero => exact (List.append_nil _).symm
  | succ n ih =>
    have ih := ih (Nat.le_of_succ_le hmax)
      (fun i hle hlt ↦ hfresh i hle (hlt.trans (Nat.lt_succ_self _)))
      fun m' k hk ↦ hstep m' k (hk.trans (Nat.lt_succ_self n))
    have hkept := run_kept ((List.range' start n).flatMap ops) h hcap
    have habsent : ∀ e ∈ (m.run ((List.range' start n).flatMap ops)).entries,
        e.key ≠ (host (start + n), 1) := by
      intro e he
      rw [ih, List.mem_append, List.mem_map] at he
      rcases he with he | ⟨j, hj, rfl⟩
      · exact hfresh _ (Nat.le_add_right _ _) (Nat.lt_succ_self _) e he
      · obtain ⟨-, hj⟩ := List.mem_range'_1.mp hj
        intro heq
        rw [hkey] at heq
        exact hj.ne (host_inj (hj.trans hmax) hmax (Prod.ext_iff.mp heq).1)
    rw [List.range'_1_concat, List.flatMap_append, run_append, List.flatMap_singleton,
      hstep _ n (Nat.lt_succ_self n) hkept.1 ih habsent, ih, List.map_append, List.append_assoc]
    rfl

/-- A group tells of as many addresses as it may. -/
theorem entries_tell_range (h : Consistent m) (hcap : m.nTried ≤ addrTriedMax)
    (hnone : m.entries.countP (·.table = .new) = 0)
    (hfresh : ∀ i < addrPerSourceGroupMax, ∀ e ∈ m.entries, e.key ≠ (host i, 1)) :
    (m.run ((List.range' 0 addrPerSourceGroupMax).flatMap fun i ↦ [tell g i])).entries =
      m.entries ++ (List.range' 0 addrPerSourceGroupMax).map (told g) := by
  refine entries_fill _ _ h hcap (fun _ ↦ rfl) (by decide)
    (fun i _ hi ↦ hfresh i (by rwa [Nat.zero_add] at hi)) fun m' k hk h' hentries habsent ↦ ?_
  have hnew : m'.entries.countP (·.table = .new) ≤ k := by
    rw [hentries, List.countP_append, hnone, Nat.zero_add]
    exact List.countP_le_length.trans_eq (by rw [List.length_map, List.length_range'])
  have hgroup : m'.entries.countP (AddrEntry.NewFrom g ·) ≤ k := by
    refine (List.countP_mono_left fun e _ he ↦ ?_).trans hnew
    exact decide_eq_true (of_decide_eq_true he).1
  exact entries_tell h' habsent (hgroup.trans_lt hk) (hnew.trans_lt (hk.trans (by decide)))

/-- A group. -/
def floodGroup : Group := ⟨[1, 2, 0, 0], rfl⟩

/-- An address is told of, reached, and fails twice. -/
def reachedOps : List AddrOp :=
  [tell floodGroup 65535, .onHandshakeOk (host 65535) 1 0, .onFailure (host 65535) 1 true,
    .onFailure (host 65535) 1 true]

/-- It is still a tried one. -/
def reached : AddrEntry :=
  { told floodGroup 65535 with table := .tried, failures := 2, protocolDeaths := 2 }

theorem entries_reached : (new.run reachedOps).entries = [reached] := by decide +kernel

/-- The third failure of the first entry makes it a new one again. -/
theorem entries_third_failure (h : Consistent m) {l : List AddrEntry} (hl : m.entries = reached :: l) :
    (m.apply (.onFailure (host 65535) 1 true)).entries = told floodGroup 65535 :: l := by
  have hi : m.entries[0]? = some reached := by rw [hl]; rfl
  have hlookup : m.index.lookup (host 65535, 1) = some 0 := h.index.lookup_key hi
  have hi' : (m.update 0 (failed true)).entries[0]? = some (failed true reached) := by
    rw [update_entries, hl]
    rfl
  show (m.onFailure (host 65535) 1 true).1.entries = _
  rw [onFailure, hlookup]
  dsimp only
  rw [hi']
  dsimp only
  rw [if_pos (by decide), demote_entries, update_entries, hl]
  rfl

/-- A group that has told of as many addresses as it may gets one more of them when an address that
was reached fails. -/
theorem flood_exceeds_quota : ¬ ∀ (ops : List AddrOp) (g : Group), g ≠ Arr.zero 4 →
    (new.run ops).entries.countP (AddrEntry.NewFrom g ·) ≤ addrPerSourceGroupMax := by
  intro hall
  have hkept := run_kept reachedOps .empty (Nat.zero_le _)
  have hrange := entries_tell_range (g := floodGroup) hkept.1 hkept.2
    (by rw [entries_reached]; decide) fun i hi e he ↦ by
      rw [entries_reached, List.mem_singleton] at he
      subst he
      intro heq
      have := host_inj (by decide) (hi.trans (by decide)) (Prod.ext_iff.mp heq).1
      exact absurd hi (this ▸ by decide)
  rw [entries_reached, List.singleton_append] at hrange
  have hkept' := run_kept ((List.range' 0 addrPerSourceGroupMax).flatMap fun i ↦ [tell floodGroup i]) hkept.1 hkept.2
  have hentries := entries_third_failure hkept'.1 hrange
  have hle := hall (reachedOps ++ ((List.range' 0 addrPerSourceGroupMax).flatMap (fun i ↦ [tell floodGroup i]) ++
    [.onFailure (host 65535) 1 true])) floodGroup (by decide)
  rw [run_append, run_append, run_singleton] at hle
  have htold : ((List.range' 0 addrPerSourceGroupMax).map (told floodGroup)).countP
      (AddrEntry.NewFrom floodGroup ·) = addrPerSourceGroupMax := by
    rw [List.countP_eq_length.mpr, List.length_map, List.length_range']
    intro a ha
    obtain ⟨i, -, rfl⟩ := List.mem_map.mp ha
    exact decide_eq_true ⟨rfl, rfl⟩
  rw [hentries, List.countP_cons, htold, if_pos (decide_eq_true ⟨rfl, rfl⟩)] at hle
  exact Nat.not_succ_le_self addrPerSourceGroupMax hle

end AddrMan

end Plaine.P2p

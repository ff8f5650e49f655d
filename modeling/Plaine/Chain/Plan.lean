import Plaine.Chain.Arena
import Plaine.Chain.Manager
import Plaine.Consensus.Reorg

/-!
# What a plan leads to

A plan cuts the canonical chain at the fork and puts the blocks to apply on top; together they
are the lineage of the node it goes for.  When the reorg predicate lets it pass, the chain it
leads to is better in the order of fork choice, and holds every checkpoint the old one held.
-/

namespace Plaine.Chain

open Plaine.Lib Plaine.Consensus

section

variable [Crypto]

namespace HeaderIndex

variable {D : Realm} {index : HeaderIndex} {rs rs' : List HeaderRec} {best : Nat}

/-! ## Lineages and the headers they stand for -/

/-- A node with the data of a header. -/
structure Shows (index : HeaderIndex) (i : Nat) (r : HeaderRec) : Prop where
  hash : (index.node i).hash = r.hash
  height : (index.node i).height = r.height
  bits : (index.node i).bits = r.bits
  time : (index.node i).time = r.time

theorem Wf.lineage_shows (h : index.Wf D) {i : Nat} {l : List Nat}
    (hl : Lineage index.prev i l) (hi : i < index.nodes.length)
    (hs : (index.node i).StandsFor D rs) : List.Forall₂ index.Shows l rs := by
  obtain ⟨hlen, hnodes⟩ := h.lineage hl hi hs
  refine List.forall₂_iff_get.mpr ⟨hlen, fun k hk hk' ↦ ?_⟩
  obtain ⟨-, hs⟩ := hnodes k l[k] (List.getElem?_eq_getElem hk)
  obtain ⟨r, hr, hhash, htime, hbits, hheight⟩ := hs.exists_last
  rw [List.getLast?_eq_getElem?, List.length_take_of_le (by omega), Nat.add_sub_cancel,
    List.getElem?_take_of_lt (Nat.lt_succ_self k), List.getElem?_eq_getElem hk'] at hr
  cases hr
  exact ⟨hhash.symm, hheight.symm, hbits.symm, htime.symm⟩

/-- What a view says of nodes, and the work it comes to. -/
theorem sum_work_of_shows {is : List Nat} {infos : List HeaderInfo}
    (hs : List.Forall₂ index.Shows is rs)
    (hi : List.Forall₂ (fun i info ↦ headerInfoOf D.powLimit (index.node i) = some info) is
      infos) :
    (infos.map fun i ↦ workFromTarget i.target).sum = D.chainWork rs ∧
      List.Forall₂ (fun info (r : HeaderRec) ↦ info.hash = r.hash ∧ info.height = r.height)
        infos rs := by
  induction hs generalizing infos with
  | nil => cases hi; exact ⟨rfl, .nil⟩
  | @cons i r is rs hshow _ ih =>
    cases hi with
    | @cons _ info _ infos hinfo hi =>
      obtain ⟨hsum, hall⟩ := ih hi
      simp only [headerInfoOf, Option.bind_eq_bind, Option.bind_eq_some_iff] at hinfo
      obtain ⟨target, htarget, hinfo⟩ := hinfo
      cases hinfo
      have hwork : D.work r = workFromTarget target := by
        rw [Realm.work, workOf, ← hshow.bits, htarget]
        rfl
      refine ⟨?_, .cons ⟨hshow.hash, hshow.height⟩ hall⟩
      rw [List.map_cons, List.sum_cons, hsum]
      simp [Realm.chainWork, hwork]

/-! ## Plans -/

/-- What a plan says of the node it goes for. -/
structure Leads (index : HeaderIndex) (best : Nat) (plan : Plan) : Prop where
  fork_le : plan.forkHeight ≤ index.tipHeight
  lineage : Lineage index.prev best (index.canonical.take (plan.forkHeight + 1) ++ plan.apply)
  off : ∀ i ∈ plan.apply, i ∉ index.canonical
  rollback : plan.rollback =
    (List.range' (plan.forkHeight + 1) (index.tipHeight - plan.forkHeight)).reverse

/-- The loop of `plan_reorg` splits a lineage where it leaves the canonical chain. -/
theorem Wf.branchFrom (h : index.Wf D) {fuel cur : Nat} {l : List Nat} (hcur : cur < fuel)
    (hlt : cur < index.nodes.length) (hl : Lineage index.prev cur l) :
    (branchFrom index fuel cur).2 ∈ index.canonical ∧
      l = index.canonical.take ((index.node (branchFrom index fuel cur).2).height + 1) ++
        (branchFrom index fuel cur).1 ∧
      ∀ i ∈ (branchFrom index fuel cur).1, i ∉ index.canonical := by
  induction fuel generalizing cur l with
  | zero => omega
  | succ fuel ih =>
    unfold Chain.branchFrom
    by_cases hcan : index.isCanonical cur
    · simp only [hcan, if_true, List.append_nil, List.not_mem_nil, false_implies, implies_true,
        and_true]
      refine ⟨h.isCanonical_iff.mp hcan, ?_⟩
      rw [isCanonical, decide_eq_true_iff] at hcan
      exact hl.unique (h.canonical.take hcan)
    · simp only [hcan, Bool.false_eq_true, if_false]
      cases hl with
      | root hp =>
        obtain rfl := (h.prev_eq_none hlt).mp hp
        exact absurd (h.isCanonical_iff.mpr (List.mem_of_getElem? h.canonical_zero)) hcan
      | @child _ p l hp hl =>
        have hltp := (h.lt_of_prev hp).1
        obtain ⟨hfork, hsplit, hoff⟩ := ih (by omega) (hltp.trans hlt) hl
        simp only [hp]
        refine ⟨hfork, by rw [← List.append_assoc, ← hsplit], fun i hi ↦ ?_⟩
        rcases List.mem_append.mp hi with hi | hi
        · exact hoff i hi
        · rw [List.mem_singleton.mp hi]
          exact fun hmem ↦ hcan (h.isCanonical_iff.mpr hmem)

theorem Wf.planReorg (h : index.Wf D) {plan : Plan} (hbest : best < index.nodes.length)
    (hp : planReorg index best = some plan) : index.Leads best plan := by
  unfold Chain.planReorg at hp
  split at hp
  · cases hp
  obtain ⟨l, hl⟩ := h.exists_lineage best
  obtain ⟨hfork, hsplit, hoff⟩ := h.branchFrom (Nat.lt_succ_of_lt hbest) hbest hl
  generalize Chain.branchFrom index (index.nodes.length + 1) best = out at *
  obtain ⟨branch, fork⟩ := out
  cases hp
  change fork ∈ index.canonical at hfork
  refine ⟨?_, hsplit ▸ hl, hoff, rfl⟩
  obtain ⟨k, hk⟩ := List.mem_iff_getElem?.mp hfork
  have := (List.getElem?_eq_some_iff.mp hk).1
  have := h.canonical_height hk
  have := h.canonical_length
  change (index.node fork).height ≤ _
  omega

/-- The node `select_best_excluding` returns is in the arena. -/
theorem Wf.selectBest_lt (h : index.Wf D) (skip : List Nat) :
    selectBestExcluding index skip < index.nodes.length := by
  unfold selectBestExcluding
  suffices hfold : ∀ (is : List Nat) (b : Nat), (∀ i ∈ is, i < index.nodes.length) →
      b < index.nodes.length → is.foldl (fun best i ↦
        if i ∈ skip then best
        else
          let n := index.node i
          if n.invalid ∨ ¬n.powOk then best
          else if n.Beats (index.node best) then i else best) b < index.nodes.length from
    hfold _ _ (fun i hi ↦ List.mem_range.mp hi) h.tip_lt
  intro is
  induction is with
  | nil => exact fun _ _ hb ↦ hb
  | cons i is ih =>
    intro b his hb
    refine ih _ (fun j hj ↦ his j (List.mem_cons_of_mem _ hj)) ?_
    have hi := his i List.mem_cons_self
    dsimp only
    split_ifs <;> assumption

end HeaderIndex

/-! ## Fork choice -/

namespace Realm

/-- The order of fork choice on chains: more work, or as much with the last block alone
replaced, by one of a lower hash. -/
def Improves (D : Realm) (rs rs' : List HeaderRec) : Prop :=
  D.chainWork rs < D.chainWork rs' ∨
    (D.chainWork rs' = D.chainWork rs ∧ rs'.length = rs.length ∧ rs'.dropLast = rs.dropLast ∧
      ∃ r r', rs.getLast? = some r ∧ rs'.getLast? = some r' ∧ r'.hash < r.hash)

namespace Improves

variable {D : Realm} {rs rs' rs'' : List HeaderRec}

theorem irrefl (rs : List HeaderRec) : ¬D.Improves rs rs := by
  rintro (h | ⟨-, -, -, r, r', hr, hr', h⟩)
  · exact Nat.lt_irrefl _ h
  · cases hr.symm.trans hr'
    exact Arr.lt_irrefl _ h

theorem trans (h : D.Improves rs rs') (h' : D.Improves rs' rs'') : D.Improves rs rs'' := by
  rcases h with h | ⟨hw, hlen, hinit, r, r', hr, hr', h⟩ <;>
    rcases h' with h' | ⟨hw', hlen', hinit', q, q', hq, hq', h'⟩
  · exact .inl (h.trans h')
  · exact .inl (hw' ▸ h)
  · exact .inl (hw ▸ h')
  · cases hr'.symm.trans hq
    exact .inr ⟨hw'.trans hw, hlen'.trans hlen, hinit'.trans hinit, r, q', hr, hq', Arr.lt_trans h' h⟩

end Improves

end Realm

/-! ## The verdict -/

omit [Crypto] in
/-- What the predicate reads of the canonical chain from a height on. -/
theorem forall₂_of_mapM_headerAt {index : HeaderIndex} {powLimit start : Nat}
    {infos : List HeaderInfo} (hlen : index.canonical.length = index.tipHeight + 1)
    (h : (List.range' start (index.tipHeight + 1 - start)).mapM
      (arenaView index powLimit).headerAt = some infos) :
    List.Forall₂ (fun i info ↦ headerInfoOf powLimit (index.node i) = some info)
      (index.canonical.drop start) infos := by
  have hall := List.forall₂_of_mapM_some h
  have hlen' := hall.length_eq
  rw [List.length_range'] at hlen'
  refine List.forall₂_iff_get.mpr ⟨by rw [List.length_drop]; omega, fun k hk hk' ↦ ?_⟩
  have hget := (List.forall₂_iff_get.mp hall).2 k (by rw [List.length_range']; omega) hk'
  rw [List.length_drop] at hk
  have hidx : start + k < index.canonical.length := by omega
  simpa [arenaView, HeaderIndex.canonicalAt, List.getElem?_eq_getElem hidx] using hget

omit [Crypto] in
/-- What the predicate reads of the tip. -/
theorem arenaView_tip {index : HeaderIndex} {powLimit : Nat} {info : HeaderInfo}
    (hlen : index.canonical.length = index.tipHeight + 1)
    (h : (arenaView index powLimit).tip = some info) :
    info.hash = index.tip.hash ∧ info.height = index.tip.height := by
  have htip : index.canonical[index.tipHeight]? = some index.tipIndex := by
    have hget := List.getElem?_eq_getElem (l := index.canonical) (i := index.tipHeight) (by omega)
    rw [HeaderIndex.tipIndex, List.getLastD_eq_getLast?, List.getLast?_eq_getElem?, hlen,
      Nat.add_sub_cancel, hget, Option.getD_some]
  simp only [ChainView.tip, arenaView, HeaderIndex.canonicalAt, Nat.add_sub_cancel, htip,
    Option.map_some, Option.bind_some, headerInfoOf, Option.bind_eq_bind,
    Option.bind_eq_some_iff] at h
  obtain ⟨target, -, h⟩ := h
  cases h
  exact ⟨rfl, rfl⟩

variable {D : Realm} {m : Manager} {best : Nat} {plan : Plan} {rs rs' : List HeaderRec}

/-- What `try_adopt` has judged before it lets a plan pass. -/
theorem judge_eq_ok {v : ReorgVerdict} (h : World.judge m plan = some (.ok v)) :
    ∃ candidate, List.Forall₂
      (fun i info ↦ headerInfoOf m.params.powLimit (m.index.node i) = some info)
        plan.apply candidate ∧
      evaluateReorgWithCap (arenaView m.index m.params.powLimit) (plan.forkHeight + 1) candidate
        ⟨m.cps.anchor, m.cps.enforced⟩ m.params.maxReorgDepth = some (.ok v) := by
  unfold World.judge at h
  split at h
  · cases h
  · rename_i candidate hmap
    refine ⟨candidate, ?_, ?_⟩
    · refine (List.forall₂_of_mapM_ok hmap).imp fun i info hinfo ↦ ?_
      exact Except.ofOption_eq_ok.mp hinfo
    · obtain ⟨out, hout, h⟩ := Option.map_eq_some_iff.mp h
      rw [hout]
      cases out with
      | error e => cases h
      | ok v' => cases h; rfl

/-- A plan that passes leads to a better chain. -/
theorem improves_of_judge (hwf : m.index.Wf D) (hlimit : m.params.powLimit = D.powLimit)
    (hleads : m.index.Leads best plan) (hbest : best < m.index.nodes.length)
    (hrs : m.index.tip.StandsFor D rs) (hrs' : (m.index.node best).StandsFor D rs')
    {v : ReorgVerdict} (h : World.judge m plan = some (.ok v)) : D.Improves rs rs' := by
  obtain ⟨candidate, hcand, heval⟩ := judge_eq_ok h
  obtain ⟨ourTip, candWork, candTip, htip, hwork, hlast, hshape, -, hv⟩ :=
    evaluateReorgWithCap_ok heval
  obtain ⟨hne, -, -⟩ := reorgShape_eq_ok.mp hshape
  obtain ⟨ours, hours, hsum⟩ := candidateWork_eq hwork
  rw [hlimit] at hcand hours htip
  have hfork := hleads.fork_le
  have hlen := hwf.canonical_length
  have hshow := hwf.lineage_shows hwf.canonical hwf.tip_lt hrs
  have hshow' := hwf.lineage_shows hleads.lineage hbest hrs'
  have hlen' := hshow.length_eq
  have hgone := List.forall₂_drop (plan.forkHeight + 1) hshow
  have hcome := List.forall₂_drop (plan.forkHeight + 1) hshow'
  rw [List.drop_left' (List.length_take_of_le (by omega))] at hcome
  obtain ⟨hgoneWork, -⟩ := HeaderIndex.sum_work_of_shows hgone
    (forall₂_of_mapM_headerAt hlen hours)
  obtain ⟨hcomeWork, hcomeAll⟩ := HeaderIndex.sum_work_of_shows hcome hcand
  have hfork' := List.getElem?_eq_getElem (l := m.index.canonical) (i := plan.forkHeight)
    (by omega)
  have hkept : rs.take (plan.forkHeight + 1) = rs'.take (plan.forkHeight + 1) := by
    refine Node.StandsFor.unique ((hwf.lineage hwf.canonical hwf.tip_lt hrs).2 _ _ hfork').2
      ((hwf.lineage hleads.lineage hbest hrs').2 plan.forkHeight _ ?_).2 rfl
    rw [List.getElem?_append_left (by rw [List.length_take_of_le] <;> omega),
      List.getElem?_take_of_lt (Nat.lt_succ_self _), hfork']
  have hwork : candWork = D.chainWork rs' := by
    have hview : (arenaView m.index m.params.powLimit).cumulativeWork = D.chainWork rs := hrs.work
    have hsplit := D.chainWork_append (rs.take (plan.forkHeight + 1)) (rs.drop (plan.forkHeight + 1))
    have hsplit' := D.chainWork_append (rs'.take (plan.forkHeight + 1))
      (rs'.drop (plan.forkHeight + 1))
    rw [List.take_append_drop] at hsplit hsplit'
    rw [hgoneWork, hcomeWork, hview, hsplit, hkept] at hsum
    rw [hsplit']
    exact Nat.add_right_cancel (hsum.trans (Nat.add_right_comm _ _ _))
  rcases hv with hmore | htie
  · left
    rw [← hwork]
    exact hrs.work ▸ hmore
  · rw [tieBreakPrefersCandidate, decide_eq_true_iff] at htie
    obtain ⟨hdepth, heq, hheight, hhash⟩ := htie
    have hdepth : m.index.tipHeight + 1 - (plan.forkHeight + 1) = 1 := hdepth
    obtain ⟨htipHash, htipHeight⟩ := arenaView_tip hlen htip
    obtain ⟨r, hr, hrHash, -, -, -⟩ := hrs.exists_last
    obtain ⟨r', hr', hr'Hash, hr'Height⟩ := hcomeAll.getLast? hlast
    have hlong : plan.forkHeight + 1 < rs'.length := by
      have := hcome.length_eq
      have := List.length_pos_of_ne_nil hne
      have := hcand.length_eq
      rw [List.length_drop] at *
      omega
    rw [List.getLast?_drop, if_neg (by omega)] at hr'
    have hlast' := hrs'.linked.height_last hr'
    have hrlen := hrs.height
    refine .inr ⟨hwork ▸ heq.trans hrs.work, by omega, ?_, r, r', hr, hr', ?_⟩
    · rw [List.dropLast_eq_take, List.dropLast_eq_take, show rs'.length - 1 = plan.forkHeight + 1
        by omega, show rs.length - 1 = plan.forkHeight + 1 by omega, hkept]
    · rw [← hr'Hash, hrHash, ← htipHash]
      exact hhash

omit [Crypto] in
/-- What the predicate reads of a candidate's hashes. -/
theorem candidate_hash {index : HeaderIndex} {powLimit : Nat} {apply : List Nat}
    {candidate : List HeaderInfo}
    (h : List.Forall₂ (fun i info ↦ headerInfoOf powLimit (index.node i) = some info) apply
      candidate) (k : Nat) :
    (candidate[k]?).map (·.hash) = (apply[k]?).map fun i ↦ (index.node i).hash := by
  have hmap : apply.map (fun i ↦ (index.node i).hash) = candidate.map (·.hash) := by
    refine (h.imp fun i info hinfo ↦ ?_).map_eq_map
    simp only [headerInfoOf, Option.bind_eq_bind, Option.bind_eq_some_iff] at hinfo
    obtain ⟨target, -, hinfo⟩ := hinfo
    cases hinfo
    rfl
  rw [← List.getElem?_map, ← List.getElem?_map, hmap]

/-- A plan that passes keeps every enforced checkpoint that the canonical chain holds. -/
theorem checkpoint_of_judge (hwf : m.index.Wf D) (hleads : m.index.Leads best plan)
    {v : ReorgVerdict} (h : World.judge m plan = some (.ok v)) {cp : Nat × Hash32}
    (hcp : cp ∈ m.cps.enforced) (hheld : (m.index.canonicalAt cp.1).map (·.hash) = some cp.2) :
    ((m.index.canonical.take (plan.forkHeight + 1) ++ plan.apply)[cp.1]?).map
      (fun i ↦ (m.index.node i).hash) = some cp.2 := by
  obtain ⟨candidate, hcand, heval⟩ := judge_eq_ok h
  obtain ⟨-, -, -, -, -, -, -, hguards, -⟩ := evaluateReorgWithCap_ok heval
  have hfork := hleads.fork_le
  have hlen := hwf.canonical_length
  have htake : (m.index.canonical.take (plan.forkHeight + 1)).length = plan.forkHeight + 1 :=
    List.length_take_of_le (by omega)
  rw [HeaderIndex.canonicalAt, Option.map_map] at hheld
  rcases Nat.lt_or_ge cp.1 (plan.forkHeight + 1) with hlt | hge
  · rw [List.getElem?_append_left (by omega), List.getElem?_take_of_lt hlt]
    exact hheld
  · obtain ⟨hshort, hmatch⟩ := reorgGuards_eq_ok hguards hcp hge
    have htip : cp.1 ≤ m.index.tipHeight := by
      obtain ⟨i, hi, -⟩ := Option.map_eq_some_iff.mp hheld
      have := (List.getElem?_eq_some_iff.mp hi).1
      omega
    rw [List.getElem?_append_right (by omega), htake, ← candidate_hash hcand]
    exact hmatch (hshort (by simpa [arenaView] using htip))

end

end Plaine.Chain

import Plaine.Chain.MockRun

/-!
# Headers checked against their own ancestors

A header's bits must be the ASERT target of its own anchor, and its time above the median of
its own ancestors' times.  Times are found by following parent links.  The anchor is found
through the branch base: at or below it the canonical chain is read in place of the links.
For a node of the arena the base is kept right by `set_canonical`; for a staged header it is
the one of the moment it was staged, and a reorg since then makes it point into another
branch.  Where no such header is built on, every node of the arena is checked.
-/

namespace Plaine.Chain

open Plaine.Lib Plaine.Consensus

section

variable [Crypto]

/-! ## What is checked -/

/-- The bits ASERT gives a header on top of a chain. -/
def chainBits (params : ChainParams) (genesisTime : Nat) (rs : List HeaderRec) :
    Except AsertError UInt32 :=
  let height := rs.length - 1
  let ah := anchorHeightFor height params.asertAnchorInterval
  let parentTime := if ah = 0 then genesisTime - blockTimeSecs
    else (rs[ah - 1]?.map (·.time)).getD 0
  asertNextBits ((rs[ah]?.map (·.bits)).getD 0) ah parentTime height
    ((rs[height]?.map (·.time)).getD 0) params.powLimit

/-- The headers of a run, each checked against the chain below it. -/
def Headers.own (H : Headers) (params : ChainParams) : Realm :=
  { H with checked := fun rs r ↦ chainBits params H.genesis.time rs = .ok r.bits ∧
      medianTimePast (rs.map (·.time)) < r.time }

namespace HeaderIndex

variable (index : HeaderIndex) (params : ChainParams) (genesisTime i : Nat)

/-- The times of a node and its ancestors, genesis first. -/
def ownTimes : List Nat := (index.ancestry i).map fun j ↦ (index.node j).time

/-- The ancestor of a node at a height, by its own parent links. -/
def ownAt (height : Nat) : Node := index.node ((index.ancestry i).getD height 0)

/-- The bits ASERT gives a child of a node. -/
def ownBits : Except AsertError UInt32 :=
  let n := index.node i
  let ah := anchorHeightFor n.height params.asertAnchorInterval
  let parentTime := if ah = 0 then genesisTime - blockTimeSecs else (index.ownAt i (ah - 1)).time
  asertNextBits (index.ownAt i ah).bits (index.ownAt i ah).height parentTime n.height n.time
    params.powLimit

/-- A node that was checked against its own ancestors. -/
def OwnChecked : Prop :=
  ∃ p ∈ index.prev i,
    (index.node i).height = (index.node p).height + 1 ∧
    some (index.node i).cumWork = (workOf (index.node i).bits params.powLimit).map
      ((index.node p).cumWork + ·) ∧
    index.ownBits params genesisTime p = .ok (index.node i).bits ∧
    medianTimePast (index.ownTimes p) < (index.node i).time

instance : Decidable (index.OwnChecked params genesisTime i) :=
  inferInstanceAs (Decidable (∃ p ∈ index.prev i, _))

end HeaderIndex

/-! ## Following links -/

/-- A view of a node of the arena or of a staged header. -/
def Lite.InView (index : HeaderIndex) (staged : List Staged) (p : Lite) : Prop :=
  (∃ i < index.nodes.length, p = liteOfNode index i) ∨ ∃ t ∈ staged, p = liteOfStaged t

variable {D : Realm} {index : HeaderIndex} {staged : List Staged} {p : Lite} {rs : List HeaderRec}
  {r : HeaderRec}

theorem HeaderIndex.Wf.inView (h : index.Wf D) {hash : Hash32}
    (hp : findParent index staged hash = some p) : p.InView index staged := by
  unfold findParent at hp
  cases hi : index.indexOf hash with
  | some i =>
    rw [hi] at hp
    cases hp
    exact .inl ⟨i, ((h.byHash hash i).mp hi).1, rfl⟩
  | none =>
    rw [hi] at hp
    obtain ⟨t, ht, rfl⟩ := Option.map_eq_some_iff.mp hp
    exact .inr ⟨t, List.mem_reverse.mp (List.mem_of_find?_eq_some ht), rfl⟩

/-- The parent of a staged header is in view. -/
theorem Staging.exists_findParent (hst : Staging D index staged) {t : Staged} (ht : t ∈ staged) :
    ∃ q, Chain.findParent index staged t.hdr.prevHash = some q := by
  obtain ⟨k, hk⟩ := List.mem_iff_getElem?.mp ht
  unfold Chain.findParent
  cases hi : index.indexOf t.hdr.prevHash with
  | some i => exact ⟨_, rfl⟩
  | none =>
    rcases hst.attached k t hk with hc | ⟨j, -, q, hq, heq⟩
    · rw [HeaderIndex.contains, hi] at hc
      cases hc
    · have hfound : (staged.reverse.find? (·.hdr.hash = t.hdr.prevHash)).isSome :=
        List.find?_isSome.mpr
          ⟨q, List.mem_reverse.mpr (List.mem_of_getElem? hq), decide_eq_true heq⟩
      obtain ⟨q', hq'⟩ := Option.isSome_iff_exists.mp hfound
      exact ⟨liteOfStaged q', by rw [hq']; rfl⟩

/-- One step down the links. -/
theorem Staging.liteParent_eq_some (hst : Staging D index staged) (h : index.Wf D)
    (hp : p.InView index staged) (hs : p.StandsFor D (rs ++ [r])) (hne : rs ≠ []) :
    ∃ q, liteParent index staged p = some q ∧ q.InView index staged ∧ q.StandsFor D rs := by
  rcases hp with ⟨i, hi, rfl⟩ | ⟨t, ht, rfl⟩
  · have hs : (index.node i).StandsFor D (rs ++ [r]) :=
      ⟨hs.linked, hs.hash, hs.time, hs.bits, hs.height, hs.work⟩
    have hpos : i ≠ 0 := by
      rintro rfl
      have hlen := hs.height.symm.trans h.root.2.height
      have := List.length_pos_of_ne_nil hne
      simp only [List.length_append, List.length_singleton] at hlen
      omega
    obtain ⟨j, hj⟩ := Option.ne_none_iff_exists'.mp (mt (h.prev_eq_none hi).mp hpos)
    obtain ⟨rs', r', heq, hsj⟩ := h.stands_prev hj hs
    obtain ⟨rfl, -⟩ := List.append_inj' heq rfl
    exact ⟨liteOfNode index j, by simp [liteParent, liteOfNode, hj],
      .inl ⟨j, (h.lt_of_prev hj).1.trans hi, rfl⟩, hsj.lite⟩
  · obtain ⟨q, hq⟩ := hst.exists_findParent ht
    obtain ⟨rs', hs', hhash⟩ := hst.findParent h hq
    obtain ⟨hrs, hf⟩ := hs.linked.of_snoc hne
    have hlast : r.hash = t.hdr.hash := by
      have := hs.hash
      rw [List.getLast?_concat] at this
      exact Option.some.inj this
    obtain ⟨rs₂, -, hs₂⟩ := hst.standsFor ht
    have hr : r = t.hdr := Realm.eq_of_hash hf.mem
      (hs₂.linked.mem_raws (List.mem_append_right _ (List.mem_singleton_self _))) hlast
    obtain rfl : rs' = rs := hs'.linked.unique hrs (by rw [hs'.hash, hf.prevHash, hr, hhash])
    exact ⟨q, hq, h.inView hq, hs'⟩

/-- Following links down to a height. -/
theorem Staging.climbTo_eq_some (hst : Staging D index staged) (h : index.Wf D) {k fuel : Nat}
    (hp : p.InView index staged) (hs : p.StandsFor D rs) (hk : k ≤ p.height)
    (hfuel : p.height - k ≤ fuel) :
    ∃ q, climbTo index staged k fuel p = some q ∧ q.StandsFor D (rs.take (k + 1)) := by
  have hstay : p.height = k → p.StandsFor D (rs.take (k + 1)) := fun heq ↦ by
    rwa [List.take_of_length_le (by rw [← hs.height, heq])]
  induction fuel generalizing p rs with
  | zero =>
    have heq : p.height = k := by omega
    exact ⟨p, by rw [climbTo, if_pos heq], hstay heq⟩
  | succ fuel ih =>
    unfold climbTo
    rcases hk.eq_or_lt with heq | hlt
    · rw [if_neg (by omega), if_pos heq.symm]
      exact ⟨p, rfl, hstay heq.symm⟩
    · obtain ⟨rs', r, rfl⟩ := (List.eq_nil_or_concat rs).resolve_left hs.linked.ne_nil
      rw [List.concat_eq_append] at hs ⊢
      have hlen := hs.height
      rw [List.length_append, List.length_singleton] at hlen
      have hne : rs' ≠ [] := List.ne_nil_of_length_pos (by omega)
      obtain ⟨q, hq, hview, hsq⟩ := hst.liteParent_eq_some h hp hs hne
      have hqlen := hsq.height
      rw [if_pos hlt, hq, Option.bind_some, List.take_append_of_le_length (by omega)]
      refine ih hview hsq (by omega) (by omega) fun heq ↦ ?_
      rwa [List.take_of_length_le (by omega)]

/-- The times met on the way down the links. -/
theorem Staging.ancestorTimesFrom_eq (hst : Staging D index staged) (h : index.Wf D) {span : Nat}
    (hp : p.InView index staged) (hs : p.StandsFor D rs) :
    ancestorTimesFrom index staged span p = (rs.reverse.map (·.time)).take span := by
  induction span generalizing p rs with
  | zero => rfl
  | succ span ih =>
    obtain ⟨rs', r, rfl⟩ := (List.eq_nil_or_concat rs).resolve_left hs.linked.ne_nil
    rw [List.concat_eq_append] at hs ⊢
    have htime : r.time = p.time := by
      have := hs.time
      rw [List.getLast?_concat] at this
      exact Option.some.inj this
    rw [ancestorTimesFrom, List.reverse_append, List.reverse_singleton, List.singleton_append,
      List.map_cons, List.take_succ_cons, htime]
    refine congrArg _ ?_
    by_cases hne : rs' = []
    · subst hne
      have hroot : liteParent index staged p = none := by
        have hlen := hs.height
        rcases hp with ⟨i, hi, rfl⟩ | ⟨t, ht, rfl⟩
        · have hzero : i = 0 := by
            by_contra hpos
            obtain ⟨j, hj⟩ := Option.ne_none_iff_exists'.mp (mt (h.prev_eq_none hi).mp hpos)
            have hheight := h.height_prev hj
            have hlen : (index.node i).height + 1 = 1 := hlen
            omega
          subst hzero
          simp [liteParent, liteOfNode, h.root.1]
        · obtain ⟨rs₂, hne₂, hs₂⟩ := hst.standsFor ht
          have hlen₂ := hs₂.height.symm.trans hlen
          have := List.length_pos_of_ne_nil hne₂
          simp only [List.length_append, List.length_singleton, List.nil_append] at hlen₂
          omega
      simp [hroot]
    · obtain ⟨q, hq, hview, hsq⟩ := hst.liteParent_eq_some h hp hs hne
      rw [hq]
      exact ih hview hsq

/-! ## The anchor -/

omit [Crypto] in
theorem anchorHeightFor_le (height interval : Nat) : anchorHeightFor height interval ≤ height :=
  Nat.div_mul_le_self _ _

omit [Crypto] in
/-- One height up the anchor stays where it is, or the parent's child is the anchor. -/
theorem anchorHeightFor_succ (height interval : Nat) :
    anchorHeightFor (height + 1) interval = anchorHeightFor height interval ∨
      anchorHeightFor (height + 1) interval = height + 1 := by
  unfold anchorHeightFor
  dsimp only
  generalize hn : (if interval = 0 then asertAnchorInterval else interval) = n
  have hpos : 0 < n := by
    rw [← hn]
    split
    · decide
    · exact Nat.pos_of_ne_zero ‹_›
  rcases em (n ∣ height + 1) with hdvd | hdvd
  · exact .inr (Nat.div_mul_cancel hdvd)
  · left
    rw [Nat.succ_div_of_not_dvd hdvd]

omit [Crypto] in
/-- The median is taken of the last times only. -/
theorem medianTimePast_eq {times times' : List Nat}
    (h : times'.drop (times'.length - medianTimeSpan) = times.drop (times.length - medianTimeSpan)) :
    medianTimePast times' = medianTimePast times := by
  unfold medianTimePast
  rw [h]

/-- The two heights at which `resolve_anchor` reads a block. -/
def AnchorHeight (params : ChainParams) (height k : Nat) : Prop :=
  k = anchorHeightFor height params.asertAnchorInterval ∨
    k + 1 = anchorHeightFor height params.asertAnchorInterval

/-- Where the branch base covers them, the canonical blocks at these heights are on the chain. -/
def ReadsOwn (params : ChainParams) (index : HeaderIndex) (rs : List HeaderRec)
    (height base : Nat) : Prop :=
  ∀ k, AnchorHeight params height k → k ≤ base →
    (index.canonicalAt k).map (·.hash) = rs[k]?.map (·.hash)

/-- The ancestor read at one of these heights stands for the chain up to there. -/
theorem Staging.ancestorOf_standsFor (hst : Staging D index staged) (h : index.Wf D)
    {params : ChainParams} (hp : p.InView index staged) (hs : p.StandsFor D rs)
    (hown : ReadsOwn params index rs p.height p.branchBaseHeight) {k : Nat}
    (hk : AnchorHeight params p.height k) {q : Lite} (hq : ancestorOf index staged p k = some q) :
    q.StandsFor D (rs.take (k + 1)) := by
  have hkle : k ≤ p.height := by
    have := anchorHeightFor_le p.height params.asertAnchorInterval
    unfold AnchorHeight at hk
    omega
  have hklt : k < rs.length := by
    rw [← hs.height]
    omega
  unfold ancestorOf at hq
  rw [if_neg (by omega)] at hq
  split at hq
  case isTrue hbase =>
    obtain ⟨i, hi, rfl⟩ := Option.map_eq_some_iff.mp hq
    have hhash := hown k hk hbase
    rw [HeaderIndex.canonicalAt, hi, List.getElem?_eq_getElem hklt] at hhash
    have hnode : (index.node i).StandsFor D (rs.take (k + 1)) := by
      refine h.stands_of_hash (hs.linked.take (Nat.succ_pos k)) (h.canonical_lt hi) ?_
      rw [List.getLast?_eq_getElem?, List.length_take_of_le hklt, Nat.succ_sub_one,
        List.getElem?_take_of_lt (Nat.lt_succ_self k), List.getElem?_eq_getElem hklt]
      exact hhash.symm
    exact ⟨hnode.linked, hnode.hash, hnode.time, hnode.bits, hnode.height, hnode.work⟩
  case isFalse =>
    obtain ⟨q', hq', hsq⟩ := hst.climbTo_eq_some h hp hs hkle le_rfl
    rw [hq] at hq'
    cases hq'
    exact hsq

/-- A view that stands for a chain shows the data of its last header. -/
theorem Lite.StandsFor.getElem? (hs : p.StandsFor D rs) :
    ∃ r, rs[p.height]? = some r ∧ r.bits = p.bits ∧ r.time = p.time ∧ p.height = rs.length - 1 := by
  obtain ⟨r, hr⟩ := Option.isSome_iff_exists.mp (List.getLast?_isSome.mpr hs.linked.ne_nil)
  have hbits := hs.bits
  have htime := hs.time
  have hheight := hs.height
  rw [hr] at hbits htime
  refine ⟨r, ?_, Option.some.inj hbits, Option.some.inj htime, by omega⟩
  rw [← hr, List.getLast?_eq_getElem?, ← hheight, Nat.add_sub_cancel]

/-- The bits expected of a header are those of its own chain. -/
theorem Staging.asert_eq (hst : Staging D index staged) (h : index.Wf D) {ctx : IngestCtx}
    (hp : p.InView index staged) (hs : p.StandsFor D rs)
    (hown : ReadsOwn ctx.params index rs p.height p.branchBaseHeight) {bits : UInt32}
    {height parentTime : Nat} (hr : resolveAnchor index staged p ctx = .ok (bits, height, parentTime)) :
    asertNextBits bits height parentTime p.height p.time ctx.params.powLimit =
      chainBits ctx.params ctx.genesisTime rs := by
  have hle := anchorHeightFor_le p.height ctx.params.asertAnchorInterval
  obtain ⟨r, hr₀, -, htime, hheight⟩ := hs.getElem?
  have htake : ∀ {k}, k ≤ p.height → ∀ {q : Lite}, q.StandsFor D (rs.take (k + 1)) →
      q.height = k ∧ (rs[k]?.map (·.bits)).getD 0 = q.bits ∧
        (rs[k]?.map (·.time)).getD 0 = q.time := by
    intro k hk q hq
    obtain ⟨r', hr', hb, ht, hqh⟩ := hq.getElem?
    have hlen := hs.height
    rw [List.length_take_of_le (by omega), Nat.add_sub_cancel] at hqh
    rw [hqh, List.getElem?_take_of_lt (Nat.lt_succ_self k)] at hr'
    rw [hr']
    exact ⟨hqh, hb, ht⟩
  obtain ⟨a, ha, hr⟩ := Except.bind_eq_ok.mp hr
  have hsa := hst.ancestorOf_standsFor h hp hs hown (.inl rfl) (Except.ofOption_eq_ok.mp ha)
  obtain ⟨hah, hab, -⟩ := htake hle hsa
  unfold chainBits
  dsimp only
  rw [← hheight, hab, hr₀, Option.map_some, Option.getD_some, htime]
  split at hr
  · rename_i hzero
    cases hr
    rw [if_pos hzero, hah]
  · rename_i hpos
    cases hb : ancestorOf index staged p
        (anchorHeightFor p.height ctx.params.asertAnchorInterval - 1) with
    | none =>
      rw [hb] at hr
      cases hr
    | some b =>
      rw [hb] at hr
      cases hr
      have hsb := hst.ancestorOf_standsFor h hp hs hown (.inr (Nat.sub_add_cancel (by omega))) hb
      obtain ⟨-, -, hbt⟩ := htake (by omega) hsb
      rw [if_neg hpos, hbt, hah]

/-- The median time past of a header is that of its own chain. -/
theorem Staging.medianTimePast_eq (hst : Staging D index staged) (h : index.Wf D)
    (hp : p.InView index staged) (hs : p.StandsFor D rs) :
    medianTimePast (ancestorTimes index staged p medianTimeSpan) =
      medianTimePast (rs.map (·.time)) := by
  have heq : ancestorTimes index staged p medianTimeSpan =
      (rs.map (·.time)).drop ((rs.map (·.time)).length - medianTimeSpan) := by
    rw [ancestorTimes, hst.ancestorTimesFrom_eq h hp hs, List.map_reverse, List.reverse_take,
      List.reverse_reverse, List.length_reverse]
  refine Chain.medianTimePast_eq ?_
  rw [heq, List.length_drop, List.drop_drop]
  congr 1
  omega

/-! ## Staging -/

/-- The canonical blocks that the branch base stands for, at the heights of the anchor, are the
staged header's own ancestors. -/
def Own (D : Realm) (params : ChainParams) (index : HeaderIndex) (t : Staged) : Prop :=
  ∀ rs, D.Linked (rs ++ [t.hdr]) →
    ReadsOwn params index (rs ++ [t.hdr]) t.hdr.height t.branchBaseHeight

/-- The canonical blocks up to the base of a child of a node are on the node's lineage. -/
theorem HeaderIndex.Wf.childBase_own (h : index.Wf D) {i : Nat} (hi : i < index.nodes.length)
    (hs : (index.node i).StandsFor D rs) {k : Nat} (hk : k ≤ index.childBase i) :
    (index.canonicalAt k).map (·.hash) = rs[k]?.map (·.hash) := by
  obtain ⟨l, hl⟩ := h.exists_lineage i
  obtain ⟨hbase, hle⟩ := h.base_mem_lineage hl hi
  have hshow := h.lineage_shows hl hi hs
  have hlen := hshow.length_eq
  have hheight := hs.height
  -- The two lineages meet at the base of the child.
  have hmeet : index.canonical[index.childBase i]? = l[index.childBase i]? ∧
      index.childBase i ≤ (index.node i).height := by
    unfold HeaderIndex.childBase
    split
    case isTrue hcan =>
      rw [HeaderIndex.isCanonical, decide_eq_true_iff] at hcan
      have hlast := hl.getElem?_length
      rw [hlen, ← hheight, Nat.add_sub_cancel] at hlast
      exact ⟨hcan.trans hlast.symm, le_rfl⟩
    case isFalse => exact ⟨hbase, hle⟩
  obtain ⟨hmeet, hle⟩ := hmeet
  have hj := List.getElem?_eq_getElem (l := l) (i := index.childBase i) (by omega)
  have htake := (h.canonical.take (hmeet.trans hj)).unique (hl.take hj)
  have hsame : index.canonical[k]? = l[k]? := by
    rw [← List.getElem?_take_of_lt (Nat.lt_succ_of_le hk), htake,
      List.getElem?_take_of_lt (Nat.lt_succ_of_le hk)]
  have hmap : l.map (fun j ↦ (index.node j).hash) = rs.map (·.hash) :=
    (hshow.imp fun i r hs ↦ hs.hash).map_eq_map
  rw [HeaderIndex.canonicalAt, hsame, Option.map_map, ← List.getElem?_map, ← List.getElem?_map,
    ← hmap]
  rfl

/-- What staging keeps: a header staged on an `Own` one, or on a node of the arena, is checked
and `Own`. -/
theorem Headers.stagingRule_own {H : Headers} {params : ChainParams} {ctx : IngestCtx}
    (hctx : ctx.params = params) (htime : ctx.genesisTime = H.genesis.time) :
    StagingRule (H.own params) ctx (Own (H.own params) params) where
  mono {index index' t} hwf hg hcan hown rs hl k hk hbase := by
    rw [← hown rs hl k hk hbase, HeaderIndex.canonicalAt, HeaderIndex.canonicalAt, hcan,
      Option.map_map, Option.map_map]
    cases hi : index.canonical[k]? with
    | none => rfl
    | some i => exact congrArg some (hg.hash_eq (hwf.canonical_lt hi))
  stage {index staged raw s p rs} hwf hst hs hp hstands hparent := by
    subst hctx
    have hview := hwf.inView hp
    obtain ⟨p', w, hp', hheight, ⟨bits, height, parentTime, hanchor, hexp⟩, hmtp, -, heq⟩ :=
      stageHeader_eq_ok hs
    cases hp.symm.trans hp'
    have hlen := hstands.height
    have hlt := hstands.linked.length_lt
    have hsat : saturatingAdd u64Max p.height 1 = p.height + 1 :=
      saturatingAdd_of_le (by unfold u64Max; omega)
    have hheight : (HeaderRec.fromRaw raw).height = p.height + 1 := Eq.trans hheight hsat
    have hhash : p.hash = (HeaderRec.fromRaw raw).prevHash := by
      obtain ⟨rs', hs', hhash⟩ := hst.findParent hwf hp
      exact hhash
    -- A staged parent is `Own`; a node of the arena always reads its own ancestors.
    have hreads : ReadsOwn ctx.params index rs p.height p.branchBaseHeight := by
      rcases hview with ⟨i, hi, rfl⟩ | ⟨t, ht, rfl⟩
      · intro k _ hk
        obtain ⟨rs', hs'⟩ := hwf.stands hi
        obtain rfl := hs'.lite.linked.unique hstands.linked (hs'.lite.hash.trans hstands.hash.symm)
        refine hwf.childBase_own hi hs' (le_trans hk ?_)
        obtain ⟨l, hl⟩ := hwf.exists_lineage i
        unfold HeaderIndex.childBase
        split
        · exact (hwf.base_mem_lineage hl hi).2
        · exact le_rfl
      · obtain ⟨rs', -, hs'⟩ := hst.standsFor ht
        obtain rfl := hs'.linked.unique hstands.linked (hs'.hash.trans hstands.hash.symm)
        exact hparent t ht hhash rs' hs'.linked
    rw [heq]
    refine ⟨⟨?_, ?_⟩, fun rs' hl k hk hbase ↦ ?_⟩
    · rw [← htime, ← hst.asert_eq hwf hview hstands hreads hanchor]
      exact hexp
    · rw [← hst.medianTimePast_eq hwf hview hstands]
      exact hmtp
    · have hne : rs' ≠ [] := by
        rintro rfl
        have hzero := hl.height_last (r := HeaderRec.fromRaw raw) rfl
        simp only [List.nil_append, List.length_singleton] at hzero
        omega
      obtain ⟨hrs', hf⟩ := hl.of_snoc hne
      obtain rfl : rs' = rs := hrs'.unique hstands.linked (by rw [hf.prevHash, hstands.hash, hhash])
      have hbase : k ≤ childBranchBase index p := hbase
      have hkle := hbase.trans (hst.childBranchBase_le hwf hp)
      rw [List.getElem?_append_left (by omega)]
      rcases hview with ⟨i, hi, rfl⟩ | ⟨t, ht, rfl⟩
      · exact hwf.childBase_own hi ⟨hstands.linked, hstands.hash, hstands.time, hstands.bits,
          hstands.height, hstands.work⟩ hbase
      · have hbelow := hst.base t ht
        refine hreads k ?_ hbase
        have hk : AnchorHeight ctx.params ((HeaderRec.fromRaw raw).height) k := hk
        rw [hheight] at hk
        unfold AnchorHeight at hk ⊢
        rcases anchorHeightFor_succ (liteOfStaged t).height ctx.params.asertAnchorInterval with
          hsame | hnew
        · rwa [hsame] at hk
        · have hle : k ≤ t.branchBaseHeight := hbase
          have hheightt : (liteOfStaged t).height = t.hdr.height := rfl
          omega

/-! ## The arena -/

/-- Every node of such an arena was checked against its own ancestors. -/
theorem HeaderIndex.Wf.ownChecked {H : Headers} {params : ChainParams}
    (h : index.Wf (H.own params)) (hlimit : params.powLimit = H.powLimit) {i : Nat} (hpos : 0 < i)
    (hi : i < index.nodes.length) : index.OwnChecked params H.genesis.time i := by
  obtain ⟨p, rs, r, hp, hlt, hsp, hsi⟩ := h.child i hpos hi
  have hplt := hlt.trans hi
  obtain ⟨-, hf⟩ := hsi.linked.of_snoc hsp.linked.ne_nil
  have hshow := h.lineage_shows (h.ancestry hplt) hplt hsp
  have hlen := hsp.height
  have hbits : r.bits = (index.node i).bits := by
    have := hsi.bits
    rw [List.getLast?_concat] at this
    exact Option.some.inj this
  have htime : r.time = (index.node i).time := by
    have := hsi.time
    rw [List.getLast?_concat] at this
    exact Option.some.inj this
  -- An ancestor found by links has the data of the header at its height.
  have hown : ∀ {k}, k ≤ (index.node p).height → ∃ q, rs[k]? = some q ∧
      (index.ownAt p k).bits = q.bits ∧ (index.ownAt p k).height = k ∧
      (index.ownAt p k).time = q.time := by
    intro k hk
    have hklt : k < rs.length := by omega
    have hklt' : k < (index.ancestry p).length := hshow.length_eq ▸ hklt
    have hs := (List.forall₂_iff_get.mp hshow).2 k hklt' hklt
    have hget : (index.ancestry p).getD k 0 = (index.ancestry p)[k] := by
      rw [List.getD_eq_getElem?_getD, List.getElem?_eq_getElem hklt', Option.getD_some]
    refine ⟨rs[k], List.getElem?_eq_getElem hklt, ?_⟩
    rw [HeaderIndex.ownAt, hget]
    refine ⟨hs.bits, ?_, hs.time⟩
    exact hs.height.trans (hsp.linked.height_getElem? (List.getElem?_eq_getElem hklt))
  refine ⟨p, hp, h.height_prev hp, ?_, ?_, ?_⟩
  · obtain ⟨w, hw⟩ := Option.isSome_iff_exists.mp hf.legal
    have hlegal : workOf r.bits H.powLimit = some w := hw
    have hwork := hsi.work
    rw [Realm.chainWork_append, Realm.chainWork_singleton, ← hsp.work, Realm.work_eq hw] at hwork
    rw [hwork, ← hbits, hlimit, hlegal]
    rfl
  · rw [← hbits, ← hf.checked.1]
    obtain ⟨q, hq, -, -, hqtime⟩ := hown (k := (index.node p).height) le_rfl
    have hself : index.ownAt p (index.node p).height = index.node p := by
      have hlast := (h.ancestry hplt).getElem?_length
      rw [hshow.length_eq, ← hlen, Nat.add_sub_cancel] at hlast
      rw [HeaderIndex.ownAt, List.getD_eq_getElem?_getD, hlast, Option.getD_some]
    rw [hself] at hqtime
    obtain ⟨a, ha, habits, haheight, -⟩ := hown
      (anchorHeightFor_le (index.node p).height params.asertAnchorInterval)
    unfold HeaderIndex.ownBits chainBits
    dsimp only
    rw [← hlen, Nat.add_sub_cancel, hq, ha, habits, haheight, hqtime]
    split
    · rfl
    · have := anchorHeightFor_le (index.node p).height params.asertAnchorInterval
      obtain ⟨b, hb, -, -, hbtime⟩ := hown
        (k := anchorHeightFor (index.node p).height params.asertAnchorInterval - 1) (by omega)
      rw [hb, hbtime]
      rfl
  · have htimes : index.ownTimes p = rs.map (·.time) :=
      (hshow.imp fun j q hs ↦ hs.time).map_eq_map
    rw [htimes, ← htime]
    exact hf.checked.2

/-! ## Runs -/

/-- The canonical blocks that a staged header's branch base stands for, at the two heights of
its anchor, are those its links lead to. -/
def Staged.Current (params : ChainParams) (index : HeaderIndex) (staged : List Staged)
    (t : Staged) : Prop :=
  ∀ k, AnchorHeight params t.hdr.height k → k ≤ t.branchBaseHeight →
    (index.canonicalAt k).map (·.hash) =
      (climbTo index staged k (t.hdr.height - k) (liteOfStaged t)).map (·.hash)

/-- Every staged header that an operation builds on is current. -/
def Op.Current {σ : Type} (w : World σ) : Op → Prop
  | .submitHeaders _ _ source raws _ => ∀ t ∈ w.chain.ingest.stagedOf source, ∀ raw ∈ raws,
      t.hdr.hash = (Header.ofRaw raw).prevHash →
        t.Current w.chain.params w.chain.index (w.chain.ingest.stagedOf source)
  | _ => True

theorem Staging.own_of_current {params : ChainParams} (hst : Staging D index staged) (h : index.Wf D)
    {t : Staged} (ht : t ∈ staged) (hcur : t.Current params index staged) :
    Own D params index t := by
  intro rs hl k hk hbase
  obtain ⟨rs', -, hs⟩ := hst.standsFor ht
  obtain ⟨rfl, -⟩ := List.append_inj' (hs.linked.unique hl (by
    rw [List.getLast?_concat, List.getLast?_concat])) rfl
  have hkle : k ≤ t.hdr.height := hbase.trans (hst.base t ht).le
  obtain ⟨q, hq, hsq⟩ := hst.climbTo_eq_some h (.inr ⟨t, ht, rfl⟩) hs hkle le_rfl
  have hlen := hs.height
  have hklt : k < (rs' ++ [t.hdr]).length := by
    rw [← hlen]
    exact Nat.lt_succ_of_le hkle
  rw [hcur k hk hbase]
  have hq : climbTo index staged k (t.hdr.height - k) (liteOfStaged t) = some q := hq
  have hhash := hsq.hash
  rw [List.getLast?_eq_getElem?, List.length_take_of_le hklt, Nat.succ_sub_one,
    List.getElem?_take_of_lt (Nat.lt_succ_self k)] at hhash
  rw [hq, hhash]
  rfl

variable {σ : Type} [Store σ] [Sink σ] [HeaderStore σ] [PowVerifier] {params : ChainParams}
  {H : Headers} {w : World σ}

end

namespace Scene

/-- The parameters with an anchor at every height, and budget for one header. -/
def staleParams : ChainParams := { params with asertAnchorInterval := 1, powBudgetBurstMicros := 2000 }

/-- The first header is delivered. -/
def firstOps : List Op := [deliver [first]]

theorem raws_firstOps : ∀ op ∈ firstOps, ∀ raw ∈ op.raws, raw ∈ raws := by
  simp [firstOps, deliver, Op.raws, raws]

theorem run_firstOps : letI := crypto
    (run params firstOps).map (fun w ↦ w.chain.index.nodes.length) = some 2 := by decide +kernel

theorem boot_stagedOf : letI := crypto
    (boot params).map (fun w ↦ w.chain.ingest.stagedOf 1) = some [] := by decide +kernel

/-- A header staged on the first block waits while the rival takes the first block's place, and
is then built on. -/
def staleOps : List Op :=
  [.submitHeaders 1000200 1000 1 [first] .unsolicited, .submitBlock firstHash body,
    .advance 1000200, .submitHeaders 1000200 1000 1 [second] .unsolicited,
    .submitHeaders 1000200 1000 2 [rival] .solicitedIbd, .submitBlock rivalHash body,
    .advance 1000200, deliver [third]]

theorem raws_staleOps : ∀ op ∈ staleOps, ∀ raw ∈ op.raws, raw ∈ raws := by
  simp [staleOps, deliver, Op.raws, raws]

theorem run_staleOps : letI := crypto
    (run staleParams staleOps).map (fun w ↦ (decide (4 < w.chain.index.nodes.length),
      decide (w.chain.index.OwnChecked staleParams headers.genesis.time 4))) =
      some (true, false) := by decide +kernel

end Scene

end Plaine.Chain

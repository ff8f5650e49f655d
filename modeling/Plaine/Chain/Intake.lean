import Plaine.Chain.Arena

/-!
# What header intake keeps

A staged header follows the chain of its parent, which is in the arena or staged before it.
Staging checks this, promotion moves a first part of the staged headers into the arena, and
nothing else touches them.  What a header must have passed besides is a parameter: a
`StagingRule` says that staging checks it.
-/

namespace Plaine.Chain

open Plaine.Lib Plaine.Consensus

section

variable [Crypto]

/-- A header of the realm: one with a chain down to genesis. -/
def Realm.Known (D : Realm) (r : HeaderRec) : Prop := ∃ rs, D.Linked (rs ++ [r])

/-- A view that stands for the last header of a chain. -/
structure Lite.StandsFor (n : Lite) (D : Realm) (rs : List HeaderRec) : Prop where
  linked : D.Linked rs
  hash : rs.getLast?.map HeaderRec.hash = some n.hash
  time : rs.getLast?.map HeaderRec.time = some n.time
  bits : rs.getLast?.map HeaderRec.bits = some n.bits
  height : n.height + 1 = rs.length
  work : n.cumWork = D.chainWork rs

theorem Node.StandsFor.lite {D : Realm} {index : HeaderIndex} {i : Nat} {rs : List HeaderRec}
    (h : (index.node i).StandsFor D rs) : (liteOfNode index i).StandsFor D rs :=
  ⟨h.linked, h.hash, h.time, h.bits, h.height, h.work⟩

/-- The staged headers of a source, each behind its parent. -/
structure Staging (D : Realm) (index : HeaderIndex) (staged : List Staged) : Prop where
  linked : ∀ s ∈ staged, ∃ rs, rs ≠ [] ∧ D.Linked (rs ++ [s.hdr]) ∧
    s.cumWork = D.chainWork (rs ++ [s.hdr])
  attached : ∀ (k : Nat) (s : Staged), staged[k]? = some s →
    index.contains s.hdr.prevHash = true ∨ ∃ j < k, ∃ t : Staged, staged[j]? = some t ∧ t.hdr.hash = s.hdr.prevHash
  base : ∀ s ∈ staged, s.branchBaseHeight < s.hdr.height

variable {D : Realm} {index index' : HeaderIndex} {staged : List Staged}

theorem HeaderIndex.Wf.contains_iff (h : index.Wf D) {hash : Hash32} :
    index.contains hash = true ↔ ∃ i < index.nodes.length, (index.node i).hash = hash := by
  rw [contains, Option.isSome_iff_exists]
  exact exists_congr fun i ↦ h.byHash hash i

theorem HeaderIndex.Wf.contains_mono (h : index.Wf D) (h' : index'.Wf D)
    (hg : index.Grows index') {hash : Hash32} (hc : index.contains hash = true) :
    index'.contains hash = true := by
  obtain ⟨i, hi, heq⟩ := h.contains_iff.mp hc
  exact h'.contains_iff.mpr ⟨i, hi.trans_le hg.length_le, by rw [hg.hash_eq hi, heq]⟩

namespace Staging

theorem nil : Staging D index [] := ⟨by simp, by simp, by simp⟩

theorem mono (h : Staging D index staged) (hc : ∀ hash, index.contains hash = true →
    index'.contains hash = true) : Staging D index' staged where
  linked := h.linked
  attached k s hk := (h.attached k s hk).imp_left (hc _)
  base := h.base

theorem standsFor (h : Staging D index staged) {s : Staged} (hs : s ∈ staged) :
    ∃ rs, rs ≠ [] ∧ (liteOfStaged s).StandsFor D (rs ++ [s.hdr]) := by
  obtain ⟨rs, hne, hl, hw⟩ := h.linked s hs
  refine ⟨rs, hne, hl, by simp [liteOfStaged], by simp [liteOfStaged], by simp [liteOfStaged],
    ?_, hw⟩
  exact hl.height_last List.getLast?_concat

/-- The parent of a new header. -/
theorem findParent (h : Staging D index staged) (hwf : index.Wf D) {hash : Hash32} {p : Lite}
    (hp : findParent index staged hash = some p) : ∃ rs, p.StandsFor D rs ∧ p.hash = hash := by
  unfold Chain.findParent at hp
  cases hi : index.indexOf hash with
  | some i =>
    rw [hi] at hp
    cases hp
    obtain ⟨hlt, hhash⟩ := (hwf.byHash hash i).mp hi
    obtain ⟨rs, hs⟩ := hwf.stands hlt
    exact ⟨rs, hs.lite, hhash⟩
  | none =>
    rw [hi] at hp
    obtain ⟨s, hs, rfl⟩ := Option.map_eq_some_iff.mp hp
    obtain ⟨rs, -, hstands⟩ := h.standsFor (List.mem_reverse.mp (List.mem_of_find?_eq_some hs))
    exact ⟨_, hstands, by simpa [liteOfStaged] using List.find?_some hs⟩

/-- The branch base of a child is at or below its parent. -/
theorem childBranchBase_le (h : Staging D index staged) (hwf : index.Wf D) {hash : Hash32} {p : Lite}
    (hp : Chain.findParent index staged hash = some p) : childBranchBase index p ≤ p.height := by
  unfold Chain.findParent at hp
  cases hi : index.indexOf hash with
  | some i =>
    rw [hi] at hp
    cases hp
    obtain ⟨l, hl⟩ := hwf.exists_lineage i
    have hle := (hwf.base_mem_lineage hl ((hwf.byHash hash i).mp hi).1).2
    change (if index.isCanonical i then (index.node i).height else (index.node i).branchBaseHeight) ≤ _
    split
    · exact le_rfl
    · exact hle
  | none =>
    rw [hi] at hp
    obtain ⟨s, hs, rfl⟩ := Option.map_eq_some_iff.mp hp
    exact (h.base s (List.mem_reverse.mp (List.mem_of_find?_eq_some hs))).le

/-- A header whose parent is in the arena or staged can be staged behind the others. -/
theorem concat (h : Staging D index staged) {s : Staged} {p : Lite} {rs : List HeaderRec}
    (hp : Chain.findParent index staged s.hdr.prevHash = some p) (hne : rs ≠ [])
    (hl : D.Linked (rs ++ [s.hdr])) (hw : s.cumWork = D.chainWork (rs ++ [s.hdr]))
    (hbase : s.branchBaseHeight < s.hdr.height) : Staging D index (staged ++ [s]) := by
  refine ⟨fun t ht ↦ ?_, fun k t hk ↦ ?_, fun t ht ↦ ?_⟩
  · rcases List.mem_append.mp ht with ht | ht
    · exact h.linked t ht
    · rw [List.mem_singleton.mp ht]
      exact ⟨rs, hne, hl, hw⟩
  · rcases Nat.lt_or_ge k staged.length with hlt | hge
    · rw [List.getElem?_append_left hlt] at hk
      refine (h.attached k t hk).imp_right ?_
      rintro ⟨j, hj, q, hq, heq⟩
      exact ⟨j, hj, q, by rwa [List.getElem?_append_left (hj.trans hlt)], heq⟩
    · have hlen := (List.getElem?_eq_some_iff.mp hk).1
      rw [List.length_append, List.length_singleton] at hlen
      obtain rfl : k = staged.length := by omega
      rw [List.getElem?_concat_length] at hk
      cases hk
      unfold Chain.findParent at hp
      cases hi : index.indexOf s.hdr.prevHash with
      | some i => exact .inl (by rw [HeaderIndex.contains, hi]; rfl)
      | none =>
        rw [hi] at hp
        obtain ⟨t, ht, -⟩ := Option.map_eq_some_iff.mp hp
        obtain ⟨j, hj⟩ := List.mem_iff_getElem?.mp
          (List.mem_reverse.mp (List.mem_of_find?_eq_some ht))
        exact .inr ⟨j, (List.getElem?_eq_some_iff.mp hj).1, t,
          by rwa [List.getElem?_append_left (List.getElem?_eq_some_iff.mp hj).1],
          by simpa using List.find?_some ht⟩
  · rcases List.mem_append.mp ht with ht | ht
    · exact h.base t ht
    · rw [List.mem_singleton.mp ht]
      exact hbase

/-- The first staged header has its parent in the arena. -/
theorem head {s : Staged} (h : Staging D index (s :: staged)) :
    index.contains s.hdr.prevHash = true := by
  rcases h.attached 0 s rfl with hc | ⟨j, hj, -⟩
  · exact hc
  · omega

/-- With the first staged header in the arena the rest stay behind their parents. -/
theorem tail {s : Staged} (h : Staging D index (s :: staged)) (hs : index'.contains s.hdr.hash = true)
    (hc : ∀ hash, index.contains hash = true → index'.contains hash = true) :
    Staging D index' staged := by
  refine ⟨fun t ht ↦ h.linked t (List.mem_cons_of_mem _ ht), fun k t hk ↦ ?_,
    fun t ht ↦ h.base t (List.mem_cons_of_mem _ ht)⟩
  rcases h.attached (k + 1) t hk with hin | ⟨j, hj, q, hq, heq⟩
  · exact .inl (hc _ hin)
  · cases j with
    | zero =>
      cases hq
      exact .inl (heq ▸ hs)
    | succ j => exact .inr ⟨j, by omega, q, hq, heq⟩

end Staging

/-! ## The gates -/

/-- What a header has passed when it is staged. -/
theorem stageHeader_eq_ok {ctx : IngestCtx} {raw : RawHeader} {s : Staged}
    (h : stageHeader index staged ctx raw = .ok s) :
    ∃ p w, findParent index staged (Header.ofRaw raw).prevHash = some p ∧
      (Header.ofRaw raw).height.toNat = saturatingAdd u64Max p.height 1 ∧
      (∃ bits height parentTime, resolveAnchor index staged p ctx = .ok (bits, height, parentTime) ∧
        asertNextBits bits height parentTime p.height p.time ctx.params.powLimit =
          .ok (Header.ofRaw raw).bits) ∧
      medianTimePast (ancestorTimes index staged p medianTimeSpan) <
        (Header.ofRaw raw).time.toNat ∧
      workOf (Header.ofRaw raw).bits ctx.params.powLimit = some w ∧
      s = ⟨HeaderRec.fromRaw raw, p.cumWork + w, childBranchBase index p⟩ := by
  simp only [stageHeader, Except.bind_eq_ok, Except.ofOption_eq_ok, Except.mapError_eq_ok,
    s2Height, s3Bits, s4Time, Except.require_eq_ok, checkBlockTime, s1FixedFields, Prod.exists] at h
  obtain ⟨hdr, ⟨_, -, _, -, _, -, _, -, hhdr⟩, _, -, p, hp, _, hheight, bits, height, parentTime,
    hanchor, expected, hexp, _, hbits, _, ⟨_, htime, _⟩, _, -, w, hw, cumWork, hcum, hs⟩ := h
  cases hhdr
  cases hs
  obtain ⟨-, rfl⟩ := checkedAdd_eq_some.mp hcum
  exact ⟨p, w, hp, hheight, ⟨bits, height, parentTime, hanchor, hbits ▸ hexp⟩, htime, hw, rfl⟩

/-! ## The staging areas -/

namespace SourceState

variable (st : SourceState)

@[simp] theorem staged_refill (params : ChainParams) (costMicros monoMs : Nat) :
    (st.refill params costMicros monoMs).staged = st.staged := by
  unfold refill
  dsimp only
  split_ifs <;> rfl

@[simp] theorem staged_rollQuotaEpoch (epoch : Nat) (params : ChainParams) (monoMs : Nat) :
    (st.rollQuotaEpoch epoch params monoMs).staged = st.staged := by
  unfold rollQuotaEpoch
  split_ifs <;> rfl

end SourceState

namespace Ingest

variable {ing ing' : Ingest} {id id' : SourceId}

theorem source_setSource (ing : Ingest) (id id' : SourceId) (st : SourceState) :
    (ing.setSource id st).source id' = if id' = id then st else ing.source id' := by
  unfold source setSource
  split_ifs with h
  · rw [h, AList.lookup_insert, Option.getD_some]
  · rw [AList.lookup_insert_ne h]

theorem stagedOf_setSource (ing : Ingest) (id id' : SourceId) (st : SourceState) :
    (ing.setSource id st).stagedOf id' = if id' = id then st.staged else ing.stagedOf id' := by
  rw [stagedOf, source_setSource]
  split_ifs <;> rfl

/-- Changing the budgets of a source leaves the staged headers alone. -/
theorem stagedOf_setSource_of_eq {st : SourceState} (h : st.staged = ing.stagedOf id)
    (id' : SourceId) : (ing.setSource id st).stagedOf id' = ing.stagedOf id' := by
  rw [stagedOf_setSource]
  split_ifs with hid
  · rw [hid, h]
  · rfl

theorem stagedOf_forget (ing : Ingest) (id id' : SourceId) :
    (ing.forget id).stagedOf id' = if id' = id then [] else ing.stagedOf id' := by
  unfold stagedOf source forget
  split_ifs with h
  · rw [h, AList.lookup_erase]
    rfl
  · rw [AList.lookup_erase_ne h]

theorem stagedOf_refillShared (ing : Ingest) (params : ChainParams) (monoMs : Nat)
    (id : SourceId) : (ing.refillShared params monoMs).stagedOf id = ing.stagedOf id := by
  unfold refillShared
  dsimp only
  split_ifs <;> rfl

theorem stagedOf_refillAll (ing : Ingest) (params : ChainParams) (cost monoMs : Nat)
    (id : SourceId) : (ing.refillAll params cost monoMs).stagedOf id = ing.stagedOf id := by
  unfold refillAll
  generalize ing.sources.keys = ids
  induction ids generalizing ing with
  | nil => rfl
  | cons i ids ih =>
    rw [List.foldl_cons, ih]
    exact stagedOf_setSource_of_eq (SourceState.staged_refill _ _ _ _) id

theorem stagedOf_spendClassBudget {cost : Nat} (h : ing.spendClassBudget id cost = some ing')
    (id' : SourceId) : ing'.stagedOf id' = ing.stagedOf id' := by
  unfold spendClassBudget at h
  dsimp only at h
  split_ifs at h
  · cases h
    refine (stagedOf_setSource_of_eq ?_ id').trans ?_ <;> rfl
  · cases h
    refine stagedOf_setSource_of_eq ?_ id'
    rfl

/-- Touching a source empties the area of the one evicted at most. -/
theorem stagedOf_touch (ing : Ingest) (id : SourceId) (params : ChainParams) (cost monoMs : Nat)
    (id' : SourceId) : (ing.touch id params cost monoMs).2.stagedOf id' = ing.stagedOf id' ∨
      (ing.touch id params cost monoMs).2.stagedOf id' = [] := by
  unfold touch
  dsimp only
  split_ifs
  · split
    · rw [stagedOf_setSource_of_eq (SourceState.staged_refill _ _ _ _), stagedOf_forget]
      split_ifs
      · exact .inr rfl
      · exact .inl (stagedOf_refillAll ing params cost monoMs id')
    · exact .inl (stagedOf_refillAll ing params cost monoMs id')
  · exact .inl (stagedOf_setSource_of_eq (SourceState.staged_refill _ _ _ _) id')

end Ingest

/-! ## Staging and promotion -/

/-- What staging checks of a header beyond its links, when its parent, if it is a staged one,
is `Own`. -/
structure StagingRule (D : Realm) (ctx : IngestCtx) (Own : HeaderIndex → Staged → Prop) :
    Prop where
  mono : ∀ {index index' : HeaderIndex} {s : Staged}, index.Wf D → index.Grows index' →
    index'.canonical = index.canonical → Own index s → Own index' s
  stage : ∀ {index : HeaderIndex} {staged : List Staged} {raw : RawHeader} {s : Staged} {p : Lite}
    {rs : List HeaderRec}, index.Wf D → Staging D index staged →
    stageHeader index staged ctx raw = .ok s →
    findParent index staged (Header.ofRaw raw).prevHash = some p → p.StandsFor D rs →
    (∀ t ∈ staged, t.hdr.hash = (Header.ofRaw raw).prevHash → Own index t) →
    D.checked rs s.hdr ∧ Own index s

/-- A staged header follows the chain of its parent. -/
theorem Staging.stage (h : Staging D index staged) (hwf : index.Wf D) {ctx : IngestCtx}
    {Own : HeaderIndex → Staged → Prop} (hrule : StagingRule D ctx Own)
    (hlimit : ctx.params.powLimit = D.powLimit) {raw : RawHeader} (hraw : raw ∈ D.raws)
    {s : Staged} (hs : stageHeader index staged ctx raw = .ok s)
    (hown : ∀ t ∈ staged, t.hdr.hash = (Header.ofRaw raw).prevHash → Own index t) :
    Staging D index (staged ++ [s]) ∧ Own index s := by
  obtain ⟨p, w, hp, hheight, -, -, hw, heq⟩ := stageHeader_eq_ok hs
  obtain ⟨rs, hstands, hhash⟩ := h.findParent hwf hp
  obtain ⟨hchecked, hnew⟩ := hrule.stage hwf h hs hp hstands hown
  subst heq
  have hlen := hstands.linked.length_lt
  have hfollows : D.Follows rs (HeaderRec.fromRaw raw) := {
    mem := hraw
    prevHash := hstands.hash.trans (congrArg some hhash)
    height := by
      have := hstands.height
      rw [saturatingAdd_of_le (by unfold u64Max; omega)] at hheight
      exact hheight.trans this
    legal := by rw [← hlimit]; exact Option.isSome_iff_exists.mpr ⟨w, hw⟩
    checked := hchecked }
  have hbase := h.childBranchBase_le hwf hp
  refine ⟨h.concat hp hstands.linked.ne_nil (.snoc hstands.linked hfollows) ?_ ?_, hnew⟩
  swap
  · have hlt : p.height < (HeaderRec.fromRaw raw).height := by
      rw [hfollows.height, ← hstands.height]
      exact Nat.lt_succ_self _
    exact hbase.trans_lt hlt
  rw [D.chainWork_append, D.chainWork_singleton, ← hstands.work,
    Realm.work_eq (w := w) (by rw [← hlimit]; exact hw)]

/-- What intake keeps. -/
structure Ingest.Sound (ing : Ingest) (D : Realm) (index : HeaderIndex) : Prop where
  wf : index.Wf D
  staging : ∀ id, Staging D index (ing.stagedOf id)

/-- Where the arena only grows, every source's staged headers stay behind their parents. -/
theorem Ingest.Sound.grow {ing : Ingest} (h : ing.Sound D index) (hwf : index'.Wf D)
    (hg : index.Grows index') : ing.Sound D index' :=
  ⟨hwf, fun id ↦ (h.staging id).mono fun _ ↦ h.wf.contains_mono hwf hg⟩

variable [PowVerifier]

/-- What a run of the promotion loop leaves, when it starts with `todo` still to do: the arena
has grown by known headers, and unless a proof of work failed the headers not consumed are
still behind their parents. -/
structure Promotion.From (D : Realm) (todo : List Staged) (p q : Promotion) : Prop where
  wf : q.index.Wf D
  grows : p.index.Grows q.index
  canonical : q.index.canonical = p.index.canonical
  staged : ∀ id, q.ing.stagedOf id = p.ing.stagedOf id
  connected : ∀ r ∈ q.connectedOut, r ∈ p.connectedOut ∨ D.Known r
  rest : q.failed = false → ∃ n, q.consumed = p.consumed + n ∧ Staging D q.index (todo.drop n)

omit [PowVerifier] in
/-- A staged header whose parent is in the arena is promoted to follow it. -/
theorem HeaderIndex.Wf.promote (h : index.Wf D) {s : Staged}
    (hs : Staging D index (s :: staged)) {p : Nat} (hp : index.indexOf s.hdr.prevHash = some p) :
    (index.insert s.hdr p s.cumWork true).2.Wf D := by
  obtain ⟨hlt, hhash⟩ := (h.byHash _ _).mp hp
  obtain ⟨rs, hne, hl, hw⟩ := hs.linked s List.mem_cons_self
  obtain ⟨hrs, hf⟩ := hl.of_snoc hne
  refine h.insert hlt (h.stands_of_hash hrs hlt ?_) hf hw
  rw [hf.prevHash, hhash]

theorem promoteLoop_from (ctx : IngestCtx) (id : SourceId) (todo : List Staged) (p : Promotion)
    (hwf : p.index.Wf D) (htodo : Staging D p.index todo) (hfailed : p.failed = false) :
    Promotion.From D todo p (promoteLoop ctx id todo p) := by
  have hstop : ∀ {todo : List Staged} {p : Promotion}, p.index.Wf D → Staging D p.index todo →
      Promotion.From D todo p p := fun hwf htodo ↦
    ⟨hwf, .refl _, rfl, fun _ ↦ rfl, fun _ hr ↦ .inl hr, fun _ ↦ ⟨0, rfl, htodo⟩⟩
  induction todo generalizing p with
  | nil => exact hstop hwf htodo
  | cons s todo ih =>
    unfold promoteLoop
    dsimp only
    split
    case isTrue => exact hstop hwf htodo
    case isFalse =>
      cases hpaid : (if ctx.solicitation.chargesBudget then
          p.ing.spendClassBudget id PowVerifier.costMicros else some p.ing) with
      | none => exact hstop hwf htodo
      | some ing =>
        have hing : ∀ id', ing.stagedOf id' = p.ing.stagedOf id' := by
          intro id'
          split at hpaid
          · exact Ingest.stagedOf_spendClassBudget hpaid id'
          · cases hpaid
            rfl
        dsimp only
        split
        case isFalse =>
          refine ⟨hwf, .refl _, rfl, fun id' ↦ ?_, fun _ hr ↦ .inl hr, fun h ↦ ?_⟩
          · refine (Ingest.stagedOf_setSource_of_eq ?_ id').trans (hing id')
            rfl
          · cases h
        case isTrue =>
          obtain ⟨parent, hparent⟩ := Option.isSome_iff_exists.mp htodo.head
          rw [hparent]
          have hwf' := hwf.promote htodo hparent
          have hg := p.index.grows_insert s.hdr parent s.cumWork true
          have hself := p.index.indexOf_insert_self s.hdr parent s.cumWork true
          obtain ⟨hwf'', hg', hcan, hstaged, hconn, hrest⟩ := ih { p with
              ing
              index := (p.index.insert s.hdr parent s.cumWork true).2
              connectedOut := p.connectedOut ++ [s.hdr]
              connected := p.connected + 1
              consumed := p.consumed + 1 } hwf'
            (htodo.tail (by rw [HeaderIndex.contains, hself]; rfl)
              fun _ ↦ hwf.contains_mono hwf' hg) hfailed
          refine ⟨hwf'', hg.trans hg', hcan.trans (p.index.canonical_insert _ _ _ _),
            fun id' ↦ (hstaged id').trans (hing id'), fun r hr ↦ ?_, fun hf ↦ ?_⟩
          · rcases hconn r hr with hr | hr
            · rcases List.mem_append.mp hr with hr | hr
              · exact .inl hr
              · rw [List.mem_singleton.mp hr]
                obtain ⟨rs, -, hl, -⟩ := htodo.linked s List.mem_cons_self
                exact .inr ⟨rs, hl⟩
            · exact .inr hr
          · obtain ⟨n, hn, hrest⟩ := hrest hf
            exact ⟨n + 1, by rw [hn]; exact Nat.add_right_comm _ _ _ |>.trans (Nat.add_assoc _ _ _),
              hrest⟩

/-- `promote` keeps what intake keeps; the source's staged headers are a last part of what they
were. -/
theorem promote_sound (ctx : IngestCtx) (id : SourceId) {ing : Ingest} (h : ing.Sound D index)
    (connectedOut : List HeaderRec) (lost : Option Rejection) (held : Option Held) :
    let q := (promote ing index ctx id connectedOut lost held).1
    q.ing.Sound D q.index ∧ index.Grows q.index ∧ q.index.canonical = index.canonical ∧
      (∀ t ∈ q.ing.stagedOf id, t ∈ ing.stagedOf id) ∧
      ∀ r ∈ q.connectedOut, r ∈ connectedOut ∨ D.Known r := by
  have hidle : ing.Sound D index ∧ index.Grows index ∧ index.canonical = index.canonical ∧
      (∀ t ∈ ing.stagedOf id, t ∈ ing.stagedOf id) ∧
      ∀ r ∈ connectedOut, r ∈ connectedOut ∨ D.Known r :=
    ⟨h, .refl _, rfl, fun _ ht ↦ ht, fun _ hr ↦ .inl hr⟩
  unfold promote
  dsimp only
  split
  · exact hidle
  split
  · exact hidle
  split
  · exact hidle
  obtain ⟨hwf, hg, hcan, hstaged, hconn, hrest⟩ := promoteLoop_from ctx id (ing.stagedOf id)
    ⟨ing, index, connectedOut, 0, 0, false, lost⟩ h.wf (h.staging id) rfl
  generalize promoteLoop ctx id (ing.stagedOf id)
    ⟨ing, index, connectedOut, 0, 0, false, lost⟩ = q at *
  have hself : (q.drain id).ing.stagedOf id =
      if q.failed then [] else (ing.stagedOf id).drop q.consumed := by
    simp only [Promotion.drain, Ingest.stagedOf_setSource, if_true]
    rw [← hstaged id]
    rfl
  refine ⟨⟨hwf, fun id' ↦ ?_⟩, hg, hcan, fun t ht ↦ ?_, hconn⟩
  · by_cases hid : id' = id
    · rw [hid]
      change Staging D q.index ((q.drain id).ing.stagedOf id)
      rw [hself]
      cases hf : q.failed with
      | true => exact .nil
      | false =>
        obtain ⟨n, hn, hrest⟩ := hrest hf
        rw [Nat.zero_add] at hn
        simpa [hn] using hrest
    · have hother : (q.drain id).ing.stagedOf id' = ing.stagedOf id' := by
        simp only [Promotion.drain, Ingest.stagedOf_setSource, if_neg hid, hstaged]
      change Staging D q.index ((q.drain id).ing.stagedOf id')
      rw [hother]
      exact (h.staging id').mono fun _ ↦ h.wf.contains_mono hwf hg
  · change t ∈ (q.drain id).ing.stagedOf id at ht
    rw [hself] at ht
    split at ht
    · cases ht
    · exact List.mem_of_mem_drop ht

/-! ## Batches -/

/-- What a batch keeps: the arena it started from has grown by known headers, and a header the
source has staged was staged before the batch or is `Own`. -/
structure Batch.Sound (b : Batch) (D : Realm) (Own : HeaderIndex → Staged → Prop) (id : SourceId)
    (index : HeaderIndex) (staged : List Staged) : Prop where
  sound : b.ing.Sound D b.index
  grows : index.Grows b.index
  canonical : b.index.canonical = index.canonical
  own : ∀ t ∈ b.ing.stagedOf id, t ∈ staged ∨ Own b.index t
  connected : ∀ r ∈ b.connectedOut, D.Known r

section

variable {ctx : IngestCtx} {Own : HeaderIndex → Staged → Prop} {id : SourceId} {b : Batch}

theorem Batch.Sound.promote (h : b.Sound D Own id index staged) (hrule : StagingRule D ctx Own) :
    (b.promote ctx id).Sound D Own id index staged := by
  obtain ⟨hsound, hg, hcan, hsub, hconn⟩ := promote_sound ctx id h.sound b.connectedOut
    b.out.firstRejection b.out.firstHeld
  refine ⟨hsound, h.grows.trans hg, hcan.trans h.canonical, fun t ht ↦ ?_, fun r hr ↦ ?_⟩
  · exact (h.own t (hsub t ht)).imp_right (hrule.mono h.sound.wf hg hcan)
  · exact (hconn r hr).elim (h.connected r) fun hr ↦ hr

theorem Batch.Sound.stage (h : b.Sound D Own id index staged) (hrule : StagingRule D ctx Own)
    (hlimit : ctx.params.powLimit = D.powLimit) {raw : RawHeader} (hraw : raw ∈ D.raws)
    (hwf : index.Wf D)
    (hown : ∀ t ∈ staged, t.hdr.hash = (Header.ofRaw raw).prevHash → Own index t) :
    (b.stage ctx id raw).Sound D Own id index staged := by
  unfold Batch.stage
  dsimp only
  have hstart : (if ctx.params.maxStagedHeaders ≤ (b.ing.stagedOf id).length then b.promote ctx id
      else b).Sound D Own id index staged := by
    split
    · exact h.promote hrule
    · exact h
  generalize (if ctx.params.maxStagedHeaders ≤ (b.ing.stagedOf id).length then b.promote ctx id
      else b) = b at hstart
  cases hone : stageOne b.ing b.index ctx id raw with
  | error e => exact ⟨⟨hstart.sound.wf, hstart.sound.staging⟩, hstart.grows, hstart.canonical,
      hstart.own, hstart.connected⟩
  | ok ing =>
    simp only [stageOne, Except.bind_eq_ok] at hone
    obtain ⟨s, hs, _, -, hing⟩ := hone
    cases hing
    have hall : ∀ t ∈ b.ing.stagedOf id, t.hdr.hash = (Header.ofRaw raw).prevHash →
        Own b.index t := fun t ht heq ↦ (hstart.own t ht).elim
      (fun hmem ↦ hrule.mono hwf hstart.grows hstart.canonical (hown t hmem heq)) fun h ↦ h
    obtain ⟨hstaging, hnew⟩ := (hstart.sound.staging id).stage hstart.sound.wf hrule hlimit hraw
      hs hall
    refine ⟨⟨hstart.sound.wf, fun id' ↦ ?_⟩, hstart.grows, hstart.canonical, fun t ht ↦ ?_,
      hstart.connected⟩
    · rw [Ingest.stagedOf_setSource]
      split_ifs with hid
      · exact hstaging
      · exact hstart.sound.staging id'
    · rw [Ingest.stagedOf_setSource, if_pos rfl] at ht
      rcases List.mem_append.mp ht with ht | ht
      · exact hstart.own t ht
      · rw [List.mem_singleton.mp ht]
        exact .inr hnew

variable {σ : Type} [Store σ]

theorem submitLoop_sound (store : σ) (hrule : StagingRule D ctx Own)
    (hlimit : ctx.params.powLimit = D.powLimit) (hwf : index.Wf D) {raws : List RawHeader}
    (hraws : ∀ raw ∈ raws, raw ∈ D.raws)
    (hown : ∀ t ∈ staged, ∀ raw ∈ raws, t.hdr.hash = (Header.ofRaw raw).prevHash → Own index t)
    (h : b.Sound D Own id index staged) :
    (submitLoop store ctx id raws b).Sound D Own id index staged := by
  induction raws generalizing b with
  | nil => exact h
  | cons raw raws ih =>
    unfold submitLoop
    dsimp only
    split
    · have hdup : (b.duplicate id (headerHash raw)).Sound D Own id index staged :=
        ⟨h.sound, h.grows, h.canonical, h.own, h.connected⟩
      split
      · exact hdup
      · exact ih (fun r hr ↦ hraws r (List.mem_cons_of_mem _ hr))
          (fun t ht r hr ↦ hown t ht r (List.mem_cons_of_mem _ hr)) hdup
    · exact ih (fun r hr ↦ hraws r (List.mem_cons_of_mem _ hr))
        (fun t ht r hr ↦ hown t ht r (List.mem_cons_of_mem _ hr))
        (h.stage hrule hlimit (hraws raw List.mem_cons_self) hwf
          fun t ht ↦ hown t ht raw List.mem_cons_self)

variable (Own) in
/-- The accumulators a batch starts from are sound. -/
theorem Ingest.Sound.batchStart {ing mid : Ingest} (h : ing.Sound D index) {verdict : Except Reject Unit}
    (htouch : (ing.refillShared ctx.params ctx.monoMs).touch id ctx.params PowVerifier.costMicros
      ctx.monoMs = (verdict, mid)) :
    Batch.Sound ⟨mid.setSource id ((mid.source id).rollQuotaEpoch ctx.tipEpoch ctx.params ctx.monoMs),
      index, [], ⟨0, 0, 0, 0, index.tipHeight, none, none⟩, 0, none⟩ D Own id index
      (ing.stagedOf id) := by
  have hroll : ∀ id', (mid.setSource id ((mid.source id).rollQuotaEpoch ctx.tipEpoch ctx.params
      ctx.monoMs)).stagedOf id' = mid.stagedOf id' :=
    Ingest.stagedOf_setSource_of_eq (SourceState.staged_rollQuotaEpoch _ _ _ _)
  have hmid : ∀ id', mid.stagedOf id' = ing.stagedOf id' ∨ mid.stagedOf id' = [] := by
    intro id'
    have hor := Ingest.stagedOf_touch (ing.refillShared ctx.params ctx.monoMs) id ctx.params
      PowVerifier.costMicros ctx.monoMs id'
    rwa [htouch, Ingest.stagedOf_refillShared] at hor
  refine ⟨⟨h.wf, fun id' ↦ ?_⟩, .refl _, rfl, fun t ht ↦ ?_, by simp⟩
  · rw [hroll]
    rcases hmid id' with heq | heq
    · rw [heq]
      exact h.staging id'
    · rw [heq]
      exact .nil
  · rw [hroll] at ht
    rcases hmid id with heq | heq
    · exact .inl (heq ▸ ht)
    · rw [heq] at ht
      cases ht

/-- A batch of headers grows the arena by known headers and keeps what intake keeps. -/
theorem submitHeaders_sound (store : σ) (hrule : StagingRule D ctx Own)
    (hlimit : ctx.params.powLimit = D.powLimit) {ing : Ingest} (h : ing.Sound D index)
    {raws : List RawHeader} (hraws : ∀ raw ∈ raws, raw ∈ D.raws)
    (hown : ∀ t ∈ ing.stagedOf id, ∀ raw ∈ raws, t.hdr.hash = (Header.ofRaw raw).prevHash →
      Own index t) :
    let out := submitHeaders store ing index ctx id raws
    out.2.1.Sound D out.2.2.1 ∧ index.Grows out.2.2.1 ∧
      out.2.2.1.canonical = index.canonical ∧ ∀ r ∈ out.2.2.2, D.Known r := by
  unfold submitHeaders
  dsimp only
  cases htouch : (ing.refillShared ctx.params ctx.monoMs).touch id ctx.params
      PowVerifier.costMicros ctx.monoMs with
  | mk verdict mid =>
    have hstart := h.batchStart Own htouch
    cases verdict with
    | error e =>
      refine ⟨⟨h.wf, fun id' ↦ ?_⟩, .refl _, rfl, by simp⟩
      have hstaging := hstart.sound.staging id'
      rwa [Ingest.stagedOf_setSource_of_eq (SourceState.staged_rollQuotaEpoch _ _ _ _)] at hstaging
    | ok u =>
      have hdone := (submitLoop_sound store hrule hlimit h.wf hraws hown hstart).promote hrule
      exact ⟨hdone.sound, hdone.grows, hdone.canonical, hdone.connected⟩

end

end

end Plaine.Chain

import Plaine.Consensus.Work

/-!
# Fork choice

What `evaluate_reorg_with_cap` lets pass, and that over a view that shows a chain it decides the
rule of fork choice exactly: the branch attaches, the checkpoints hold, the depth is allowed, and the
chain it leads to has more work, or as much and the lower tip hash.
-/

namespace Plaine.Consensus

open Plaine.Lib

/-! ## What the predicate lets pass -/

variable {view : ChainView} {start : Nat} {candidate : List HeaderInfo} {params : ReorgParams}
  {cap : Nat}

theorem reorgShape_eq_ok {u : Unit} : reorgShape view start candidate = .ok u ↔
    candidate ≠ [] ∧ (start ≠ 0 ∧ start ≤ view.len) ∧
      candidate.map (·.height) = List.range' start candidate.length := by
  simp only [reorgShape, Except.bind_eq_ok, Except.require_eq_ok]
  constructor
  · rintro ⟨_, h₁, _, h₂, h₃⟩
    exact ⟨h₁, h₂, h₃⟩
  · rintro ⟨h₁, h₂, h₃⟩
    exact ⟨(), h₁, (), h₂, h₃⟩

theorem reorgGuards_eq_ok {u : Unit} (h : reorgGuards view start candidate params cap = .ok u)
    {cp : Nat × Hash32} (hcp : cp ∈ params.checkpoints) (hstart : start ≤ cp.1) :
    (cp.1 ≤ view.len - 1 → cp.1 ≤ start + candidate.length - 1) ∧
      (cp.1 ≤ start + candidate.length - 1 →
        (candidate[cp.1 - start]?).map (·.hash) = some cp.2) := by
  simp only [reorgGuards, Except.bind_eq_ok, refuseFirst_eq_ok] at h
  obtain ⟨_, -, _, hshort, hmatch⟩ := h
  have hs := hshort cp hcp
  have hm := hmatch cp hcp
  simp only [decide_eq_false_iff_not] at hs hm
  constructor
  · intro hle
    by_contra hlt
    exact hs ⟨hstart, hle, by omega⟩
  · intro hle
    by_contra hne
    exact hm ⟨hstart, hle, hne⟩

/-- What the predicate lets pass. -/
theorem evaluateReorgWithCap_ok {v : ReorgVerdict}
    (h : evaluateReorgWithCap view start candidate params cap = some (.ok v)) :
    ∃ ourTip candWork candTip, view.tip = some ourTip ∧
      candidateWork view start candidate = some candWork ∧ candidate.getLast? = some candTip ∧
      reorgShape view start candidate = .ok () ∧
      reorgGuards view start candidate params cap = .ok () ∧
      (view.cumulativeWork < candWork ∨ tieBreakPrefersCandidate (view.len - start) candWork
        view.cumulativeWork candTip ourTip) := by
  unfold evaluateReorgWithCap at h
  cases hshape : reorgShape view start candidate with
  | error e => rw [hshape] at h; cases h
  | ok u =>
    simp only [hshape, Option.bind_eq_bind, Option.bind_eq_some_iff] at h
    obtain ⟨ourTip, htip, h⟩ := h
    cases hguards : reorgGuards view start candidate params cap with
    | error e => rw [hguards] at h; cases h
    | ok u =>
      simp only [hguards, Option.bind_eq_some_iff] at h
      obtain ⟨candWork, hwork, candTip, hlast, h⟩ := h
      refine ⟨ourTip, candWork, candTip, htip, hwork, hlast, rfl, rfl, ?_⟩
      by_cases hmore : view.cumulativeWork < candWork
      · exact .inl hmore
      · rw [if_neg hmore] at h
        by_cases htie : tieBreakPrefersCandidate (view.len - start) candWork view.cumulativeWork
          candTip ourTip
        · exact .inr htie
        · rw [if_neg htie] at h
          cases h

theorem sumWork_eq {targets : List Nat} {w : Work} (h : sumWork targets = some w) :
    w = (targets.map workFromTarget).sum := by
  suffices hfrom : ∀ (start : Work), targets.foldlM
      (fun sum target ↦ Work.add sum (workFromTarget target)) start = some w →
      w = start + (targets.map workFromTarget).sum by
    rw [hfrom 0 h, Nat.zero_add]
  clear h
  intro start h
  induction targets generalizing start with
  | nil => cases h; rfl
  | cons t targets ih =>
    simp only [List.foldlM_cons, Option.bind_eq_bind, Option.bind_eq_some_iff] at h
    obtain ⟨m, hm, h⟩ := h
    obtain ⟨-, rfl⟩ := checkedAdd_eq_some.mp hm
    rw [ih _ h, List.map_cons, List.sum_cons, Nat.add_assoc]

/-- The candidate's work: ours, the discarded blocks' taken off and the added ones' put on. -/
theorem candidateWork_eq {w : Work} (h : candidateWork view start candidate = some w) :
    ∃ ours, (List.range' start (view.len - start)).mapM view.headerAt = some ours ∧
      w + (ours.map fun i ↦ workFromTarget i.target).sum =
        view.cumulativeWork + (candidate.map fun i ↦ workFromTarget i.target).sum := by
  simp only [candidateWork, Option.bind_eq_bind, Option.bind_eq_some_iff] at h
  obtain ⟨ours, hours, discarded, hd, added, ha, kept, hk, hw⟩ := h
  obtain ⟨hle, rfl⟩ := checkedSub_eq_some.mp hk
  obtain ⟨-, rfl⟩ := checkedAdd_eq_some.mp hw
  have hd := sumWork_eq hd
  have ha := sumWork_eq ha
  rw [List.map_map] at hd ha
  refine ⟨ours, hours, ?_⟩
  calc view.cumulativeWork - discarded + added + (ours.map (workFromTarget ∘ (·.target))).sum
      = view.cumulativeWork - discarded + added + discarded := by rw [hd]
    _ = view.cumulativeWork - discarded + discarded + added := Nat.add_right_comm _ _ _
    _ = view.cumulativeWork + added := by rw [Nat.sub_add_cancel hle]
    _ = _ := by rw [ha]; rfl

/-! ## The rule -/

/-- The work of a chain of headers. -/
def totalWork (headers : List HeaderInfo) : Nat :=
  (headers.map fun i ↦ workFromTarget i.target).sum

/-- The contract of a view: it shows the headers of a chain, in order and with their work. -/
structure ChainView.Presents (view : ChainView) (headers : List HeaderInfo) : Prop where
  len : view.len = headers.length
  len_lt : headers.length < 2 ^ 64
  headerAt : ∀ h, view.headerAt h = headers[h]?
  cumulativeWork : view.cumulativeWork = totalWork headers

/-- The branch starts at a height on top of a block of the chain, and its heights follow on. -/
structure Attaches (headers : List HeaderInfo) (start : Nat) (candidate : List HeaderInfo) :
    Prop where
  nonempty : candidate ≠ []
  start_pos : 1 ≤ start
  start_le : start ≤ headers.length
  heights : ∀ i info, candidate[i]? = some info → info.height = start + i

/-- The branch holds the block of a signed anchor. -/
def Carries (anchor : Anchor) (start : Nat) (candidate : List HeaderInfo) : Prop :=
  anchor.height ≠ 0 ∧ anchor.hash ≠ zeroHash ∧
    ∃ i info, candidate[i]? = some info ∧ start + i = anchor.height ∧ info.hash = anchor.hash

/-- What the rollback drops is within the cap, or the branch carries the anchor. -/
def DepthAllowed (headers : List HeaderInfo) (start : Nat) (candidate : List HeaderInfo)
    (anchor : Option Anchor) (cap : Nat) : Prop :=
  cap = 0 ∨ headers.length - start ≤ cap ∨ ∃ a ∈ anchor, Carries a start candidate

/-- No enforced checkpoint is cut off, and none on the applied part is contradicted. -/
structure CheckpointsHeld (headers : List HeaderInfo) (start : Nat) (candidate : List HeaderInfo)
    (checkpoints : List (Nat × Hash32)) : Prop where
  kept : ∀ cp ∈ checkpoints, start ≤ cp.1 → cp.1 < headers.length →
    cp.1 < start + candidate.length
  agrees : ∀ cp ∈ checkpoints, ∀ i info, candidate[i]? = some info → start + i = cp.1 →
    info.hash = cp.2

/-- One block for another of the same height and a lower hash. -/
def TieRule (headers : List HeaderInfo) (start : Nat) (candidate : List HeaderInfo) : Prop :=
  headers.length - start = 1 ∧ ∃ ours ∈ headers.getLast?, ∃ theirs ∈ candidate.getLast?,
    theirs.height = ours.height ∧ theirs.hash < ours.hash

/-- The rule of fork choice. -/
structure ForkChoice (headers : List HeaderInfo) (start : Nat) (candidate : List HeaderInfo)
    (params : ReorgParams) (cap : Nat) : Prop where
  attaches : Attaches headers start candidate
  depth : DepthAllowed headers start candidate params.anchor cap
  checkpoints : CheckpointsHeld headers start candidate params.checkpoints
  work : totalWork headers < totalWork (headers.take start ++ candidate) ∨
    (totalWork (headers.take start ++ candidate) = totalWork headers ∧
      TieRule headers start candidate)

section

variable {headers : List HeaderInfo}

theorem totalWork_cons (info : HeaderInfo) (headers : List HeaderInfo) :
    totalWork (info :: headers) = workFromTarget info.target + totalWork headers := rfl

theorem totalWork_append (xs ys : List HeaderInfo) :
    totalWork (xs ++ ys) = totalWork xs + totalWork ys := by
  rw [totalWork, List.map_append, List.sum_append]
  rfl

theorem totalWork_le (headers : List HeaderInfo) :
    totalWork headers ≤ 2 ^ 256 * headers.length := by
  induction headers with
  | nil => exact Nat.zero_le _
  | cons info headers ih =>
    have hle := Limbs.workFromTarget_le info.target
    rw [totalWork_cons, List.length_cons, Nat.mul_succ, Nat.add_comm (2 ^ 256 * _)]
    exact Nat.add_le_add hle ih

/-- As many headers as there are heights have room. -/
theorem totalWork_le_workMax (hlength : headers.length ≤ 2 ^ 64) :
    totalWork headers ≤ workMax :=
  (totalWork_le headers).trans ((Nat.mul_le_mul_left _ hlength).trans Limbs.works_le_workMax)

theorem sumWork_of_le (h : totalWork headers ≤ workMax) :
    sumWork (headers.map (·.target)) = some (totalWork headers) := by
  have hfold : ∀ start : Nat, start + totalWork headers ≤ workMax →
      (headers.map (·.target)).foldlM (fun sum target ↦ Work.add sum (workFromTarget target)) start =
        some (start + totalWork headers) := by
    clear h
    induction headers with
    | nil => exact fun start _ ↦ rfl
    | cons info headers ih =>
      intro start hle
      rw [totalWork_cons, ← Nat.add_assoc] at hle ⊢
      rw [List.map_cons, List.foldlM_cons, Work.add,
        checkedAdd_of_le ((Nat.le_add_right _ _).trans hle)]
      exact ih _ hle
  exact (hfold 0 (by rwa [Nat.zero_add])).trans (by rw [Nat.zero_add])

variable {view : ChainView} {start : Nat} {candidate : List HeaderInfo} {params : ReorgParams}
  {cap : Nat}

namespace ChainView.Presents

/-- Every lookup from a height on finds its header. -/
theorem mapM_headerAt (h : view.Presents headers) (hstart : start ≤ headers.length) :
    (List.range' start (view.len - start)).mapM view.headerAt = some (headers.drop start) := by
  rw [h.len]
  obtain ⟨n, hn⟩ := Nat.exists_eq_add_of_le hstart
  rw [hn, Nat.add_sub_cancel_left]
  clear hstart
  induction n generalizing start with
  | zero =>
    rw [List.drop_of_length_le (show headers.length ≤ start from hn.le)]
    rfl
  | succ n ih =>
    have hlt : start < headers.length := by omega
    rw [List.range'_succ, List.mapM_cons, h.headerAt, List.getElem?_eq_getElem hlt,
      List.drop_eq_getElem_cons hlt]
    rw [Option.bind_eq_bind, Option.bind_some, ih (show headers.length = start + 1 + n by omega)]
    rfl

/-- The work got by taking off and putting on is the exact sum over the chain it leads to. -/
theorem candidateWork_eq_totalWork (h : view.Presents headers) (hstart : start ≤ headers.length)
    (hlength : start + candidate.length ≤ 2 ^ 64) :
    candidateWork view start candidate = some (totalWork (headers.take start ++ candidate)) := by
  have hsplit : totalWork headers = totalWork (headers.take start) + totalWork (headers.drop start) := by
    rw [← totalWork_append, List.take_append_drop]
  have hdrop : totalWork (headers.drop start) ≤ workMax :=
    totalWork_le_workMax (by rw [List.length_drop]; have := h.len_lt; omega)
  have hadded : totalWork candidate ≤ workMax := totalWork_le_workMax (by omega)
  have hfinal : totalWork (headers.take start ++ candidate) ≤ workMax := by
    refine totalWork_le_workMax ?_
    rw [List.length_append, List.length_take, Nat.min_eq_left hstart]
    exact hlength
  rw [totalWork_append] at hfinal ⊢
  unfold candidateWork
  simp only [Option.bind_eq_bind]
  rw [h.mapM_headerAt hstart, Option.bind_some, sumWork_of_le hdrop, Option.bind_some,
    sumWork_of_le hadded, Option.bind_some, h.cumulativeWork, hsplit,
    checkedSub_of_le (Nat.le_add_left _ _), Nat.add_sub_cancel, Option.bind_some, Work.add,
    checkedAdd_of_le hfinal]

theorem tip (h : view.Presents headers) : view.tip = headers.getLast? := by
  rw [ChainView.tip, h.headerAt, h.len, List.getLast?_eq_getElem?]

end ChainView.Presents

/-! ## The checks -/

theorem heights_iff : candidate.map (·.height) = List.range' start candidate.length ↔
    ∀ i info, candidate[i]? = some info → info.height = start + i := by
  constructor
  · intro h i info hinfo
    have hat : (candidate.map (·.height))[i]? = (List.range' start candidate.length)[i]? := by
      rw [h]
    rw [List.getElem?_map, hinfo, List.getElem?_range' (List.getElem?_eq_some_iff.mp hinfo).1] at hat
    simpa using hat
  · intro h
    refine List.ext_getElem? fun i ↦ ?_
    rw [List.getElem?_map]
    by_cases hi : i < candidate.length
    · rw [List.getElem?_range' hi, List.getElem?_eq_getElem hi, Option.map_some,
        h i _ (List.getElem?_eq_getElem hi), Nat.one_mul]
    · rw [List.getElem?_eq_none (Nat.le_of_not_lt hi), List.getElem?_eq_none (by
        rw [List.length_range']
        exact Nat.le_of_not_lt hi)]
      rfl

theorem reorgShape_iff (h : view.Presents headers) {u : Unit} :
    reorgShape view start candidate = .ok u ↔ Attaches headers start candidate := by
  rw [reorgShape_eq_ok, heights_iff, h.len]
  constructor
  · rintro ⟨hne, ⟨hpos, hle⟩, hheights⟩
    exact ⟨hne, Nat.pos_of_ne_zero hpos, hle, hheights⟩
  · rintro ⟨hne, hpos, hle, hheights⟩
    exact ⟨hne, ⟨Nat.pos_iff_ne_zero.mp hpos, hle⟩, hheights⟩

theorem candidateMeetsAnchor_iff {anchor : Anchor} :
    candidateMeetsAnchor anchor start candidate ↔ Carries anchor start candidate := by
  unfold candidateMeetsAnchor Carries
  rw [decide_eq_true_iff]
  constructor
  · rintro ⟨hheight, hhash, hle, hfound⟩
    obtain ⟨info, hinfo, hsame⟩ := Option.map_eq_some_iff.mp hfound
    exact ⟨hheight, hhash, _, info, hinfo, Nat.add_sub_cancel' hle, hsame⟩
  · rintro ⟨hheight, hhash, i, info, hinfo, hi, hsame⟩
    refine ⟨hheight, hhash, by omega, ?_⟩
    rw [← hi, Nat.add_sub_cancel_left, hinfo, Option.map_some, hsame]

theorem depth_iff (h : view.Presents headers) :
    (cap = 0 ∨ view.len - start ≤ cap ∨
      params.anchor.any (candidateMeetsAnchor · start candidate)) ↔
    DepthAllowed headers start candidate params.anchor cap := by
  rw [h.len]
  unfold DepthAllowed
  cases params.anchor with
  | none => simp
  | some anchor => simp [candidateMeetsAnchor_iff]

theorem reorgGuards_iff (h : view.Presents headers) (hattach : Attaches headers start candidate)
    {u : Unit} : reorgGuards view start candidate params cap = .ok u ↔
      DepthAllowed headers start candidate params.anchor cap ∧
        CheckpointsHeld headers start candidate params.checkpoints := by
  have hpos := List.length_pos_iff.mpr hattach.nonempty
  have hstart := hattach.start_pos
  have hle := hattach.start_le
  rw [← depth_iff h]
  unfold reorgGuards
  simp only [Except.bind_eq_ok, Except.require_eq_ok, refuseFirst_eq_ok, decide_eq_false_iff_not,
    h.len]
  constructor
  · rintro ⟨_, hdepth, _, hkept, hagrees⟩
    refine ⟨hdepth, ⟨fun cp hcp hge hlt ↦ ?_, fun cp hcp i info hinfo hi ↦ ?_⟩⟩
    · by_contra hcut
      exact hkept cp hcp ⟨hge, by omega, by omega⟩
    · have hbound := (List.getElem?_eq_some_iff.mp hinfo).1
      by_contra hne
      refine hagrees cp hcp ⟨by omega, by omega, ?_⟩
      rw [← hi, Nat.add_sub_cancel_left, hinfo, Option.map_some, Ne, Option.some_inj]
      exact hne
  · rintro ⟨hdepth, hheld⟩
    refine ⟨(), hdepth, (), fun cp hcp ↦ ?_, fun cp hcp ↦ ?_⟩
    · rintro ⟨hge, hlt, hcut⟩
      have := hheld.kept cp hcp hge (by omega)
      omega
    · rintro ⟨hge, hlt, hne⟩
      have hbound : cp.1 - start < candidate.length := by omega
      refine hne ?_
      rw [List.getElem?_eq_getElem hbound, Option.map_some]
      exact congrArg some (hheld.agrees cp hcp _ _ (List.getElem?_eq_getElem hbound) (by omega))

/-- Heights are 64 bits wide, so a branch that follows on ends below the last. -/
theorem Attaches.length_le (h : Attaches headers start candidate)
    (hheights : ∀ info ∈ candidate, info.height < 2 ^ 64) : start + candidate.length ≤ 2 ^ 64 := by
  have hpos := List.length_pos_iff.mpr h.nonempty
  have hlast : candidate.length - 1 < candidate.length := by omega
  have hheight := h.heights _ _ (List.getElem?_eq_getElem hlast)
  have hlt := hheights _ (List.getElem_mem hlast)
  omega

theorem tieBreak_iff (start candWork : Nat) {ours theirs : HeaderInfo} (h : view.Presents headers)
    (hours : headers.getLast? = some ours) (htheirs : candidate.getLast? = some theirs) :
    tieBreakPrefersCandidate (view.len - start) candWork view.cumulativeWork theirs ours ↔
      candWork = totalWork headers ∧ TieRule headers start candidate := by
  unfold tieBreakPrefersCandidate TieRule
  rw [decide_eq_true_iff, h.len, h.cumulativeWork, hours, htheirs]
  simp only [Option.mem_some_iff, exists_eq_left']
  constructor
  · rintro ⟨hdepth, hwork, hrest⟩
    exact ⟨hwork, hdepth, hrest⟩
  · rintro ⟨hwork, hdepth, hrest⟩
    exact ⟨hdepth, hwork, hrest⟩

theorem exists_verdict_iff {p q : Prop} [Decidable p] [Decidable q] {e : RuleError} :
    (∃ v, some (if p then Except.ok ReorgVerdict.strictlyMoreWork
      else if q then .ok .tieBreak else .error e) = some (.ok v)) ↔ p ∨ q := by
  by_cases hp : p
  · exact iff_of_true ⟨_, congrArg some (if_pos hp)⟩ (.inl hp)
  · rw [if_neg hp]
    by_cases hq : q
    · exact iff_of_true ⟨_, congrArg some (if_pos hq)⟩ (.inr hq)
    · rw [if_neg hq]
      refine iff_of_false ?_ (not_or.mpr ⟨hp, hq⟩)
      rintro ⟨v, hv⟩
      cases hv

/-- Over a view that shows a chain, the predicate of fork choice fails no lookup and no sum, reads
the exact work of the chain the branch leads to, and lets the branch pass exactly by the rule. -/
theorem evaluateReorg_exact {view : ChainView} {headers : List HeaderInfo} {start : Nat}
    {candidate : List HeaderInfo} {params : ReorgParams} {cap : Nat} (h : view.Presents headers)
    (hheights : ∀ info ∈ candidate, info.height < 2 ^ 64) :
    (∃ verdict, evaluateReorgWithCap view start candidate params cap = some verdict) ∧
    (Attaches headers start candidate →
      candidateWork view start candidate = some (totalWork (headers.take start ++ candidate))) ∧
    ((∃ v, evaluateReorgWithCap view start candidate params cap = some (.ok v)) ↔
      ForkChoice headers start candidate params cap) := by
  have hwork : Attaches headers start candidate →
      candidateWork view start candidate = some (totalWork (headers.take start ++ candidate)) :=
    fun hattach ↦ h.candidateWork_eq_totalWork hattach.start_le (hattach.length_le hheights)
  by_cases hattach : Attaches headers start candidate
  case neg =>
    -- a branch that does not attach is refused before anything is read
    have hrefused : ∃ e, evaluateReorgWithCap view start candidate params cap =
        some (.error e) := by
      unfold evaluateReorgWithCap
      cases hshape : reorgShape view start candidate with
      | ok u => exact absurd ((reorgShape_iff h).mp hshape) hattach
      | error e => exact ⟨e, rfl⟩
    obtain ⟨e, he⟩ := hrefused
    refine ⟨⟨_, he⟩, hwork, ?_, fun hrule ↦ absurd hrule.attaches hattach⟩
    rintro ⟨v, hv⟩
    cases he.symm.trans hv
  case pos =>
    have hpos := hattach.start_pos
    have hle := hattach.start_le
    have hnonempty : headers ≠ [] := List.length_pos_iff.mp (by omega)
    obtain ⟨ours, hours⟩ : ∃ ours, headers.getLast? = some ours :=
      ⟨_, List.getLast?_eq_some_getLast hnonempty⟩
    obtain ⟨theirs, htheirs⟩ : ∃ theirs, candidate.getLast? = some theirs :=
      ⟨_, List.getLast?_eq_some_getLast hattach.nonempty⟩
    have hguards : ∀ u, reorgGuards view start candidate params cap = .ok u ↔ _ :=
      fun u ↦ reorgGuards_iff h hattach
    have htie := tieBreak_iff start (totalWork (headers.take start ++ candidate)) h hours htheirs
    have hshape : reorgShape view start candidate = .ok () := (reorgShape_iff h).mpr hattach
    unfold evaluateReorgWithCap
    rw [hshape]
    dsimp only
    rw [h.tip, hours, Option.bind_eq_bind, Option.bind_some]
    cases hchecked : reorgGuards view start candidate params cap with
    | error e =>
      refine ⟨⟨_, rfl⟩, hwork, ?_, fun hrule ↦ ?_⟩
      · rintro ⟨v, hv⟩
        cases hv
      · rw [(hguards ()).mpr ⟨hrule.depth, hrule.checkpoints⟩] at hchecked
        cases hchecked
    | ok u =>
      obtain ⟨hdepth, hheld⟩ := (hguards u).mp hchecked
      rw [h.cumulativeWork] at htie
      simp only [Option.bind_eq_bind]
      rw [hwork hattach, htheirs, Option.bind_some, Option.bind_some, h.cumulativeWork]
      refine ⟨⟨_, rfl⟩, fun _ ↦ rfl, ?_⟩
      refine exists_verdict_iff.trans ((or_congr_right htie).trans ⟨fun hbetter ↦ ?_, ?_⟩)
      · exact ⟨hattach, hdepth, hheld, hbetter⟩
      · exact fun hrule ↦ hrule.work

end

namespace Sample

/-- A chain of two headers. -/
def twoHeaders : List HeaderInfo := [⟨0, zeroHash, 0, 9⟩, ⟨1, Arr.ofNat 32 5, 60, 9⟩]

def shown : ChainView := ⟨2, fun h ↦ twoHeaders[h]?, totalWork twoHeaders⟩

/-- A branch with more work. -/
def heavier : List HeaderInfo := [⟨1, Arr.ofNat 32 7, 61, 3⟩]

end Sample

theorem evaluateReorg_exact_sample :
    (∃ verdict, evaluateReorgWithCap Sample.shown 1 Sample.heavier ⟨none, []⟩ maxReorgDepth =
      some verdict) ∧
    ((∃ v, evaluateReorgWithCap Sample.shown 1 Sample.heavier ⟨none, []⟩ maxReorgDepth =
      some (.ok v)) ↔ ForkChoice Sample.twoHeaders 1 Sample.heavier ⟨none, []⟩ maxReorgDepth) := by
  have hview : Sample.shown.Presents Sample.twoHeaders := ⟨rfl, by decide, fun _ ↦ rfl, rfl⟩
  obtain ⟨hverdict, -, hrule⟩ := evaluateReorg_exact hview
    (show ∀ info ∈ Sample.heavier, info.height < 2 ^ 64 by decide)
  exact ⟨hverdict, hrule⟩

end Plaine.Consensus

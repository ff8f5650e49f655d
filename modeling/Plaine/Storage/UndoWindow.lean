import Plaine.Chain.Undo
import Plaine.Storage.InStep

/-!
# The undo window

The undo rows of a chain are those of its last heights, as many as the ring holds, and the floor
is the lowest of them.  Extending keeps it so.  A reorg takes rows away from its tip downwards
and puts rows in from its fork upwards, but the rows that fell off the ring at the old tip do not
come back: the window stays covered as long as the branch is no shorter than what it replaces.
-/

namespace Plaine.Storage

open Plaine.Lib Plaine.Consensus

section

variable [Crypto]

/-- The heights whose undo rows are there. -/
def Spans (v : View) (low high : Nat) : Prop :=
  ∀ k, (v.undo.lookup k).isSome ↔ low ≤ k ∧ k < high

/-- The floor is where the ring ends, and the undo rows are those from there up to the tip. -/
structure Windowed (v : View) : Prop where
  undoFloor : v.core.undoFloor = v.core.hdrWatermark - undoRing
  spans : Spans v (v.core.hdrWatermark - undoRing) v.core.hdrWatermark

variable {cfg : StoreConfig} {v v' : View} {bs blocks : List BlockToCommit} {b : BlockToCommit}
  {low : Nat}

/-! ## Blocks -/

/-- A block adds its row and takes the one that falls off the ring. -/
theorem Spans.appliesOne (h : Spans v low b.height) (hring : b.height - undoRing ≤ low)
    (hlow : low ≤ b.height) (happ : AppliesOne cfg b v v') :
    Spans v' (max low (b.height + 1 - undoRing)) (b.height + 1) := by
  intro k
  obtain ⟨-, -, -, hundo⟩ := happ.spec
  rw [hundo]
  rcases eq_or_ne k b.height with rfl | hne
  · rw [if_pos rfl]
    have hpos : 0 < undoRing := by decide
    have : max low (b.height + 1 - undoRing) ≤ b.height := by omega
    exact ⟨fun _ ↦ ⟨this, Nat.lt_succ_self _⟩, fun _ ↦ rfl⟩
  · rw [if_neg hne]
    split
    case isTrue hoff =>
      constructor
      · intro hsome
        cases hsome
      · rintro ⟨hk, -⟩
        have := le_of_max_le_right hk
        omega
    case isFalse hoff =>
      rw [h k]
      omega

theorem Windowed.appliesOne (h : Windowed v) (hheight : b.height = v.core.hdrWatermark)
    (happ : AppliesOne cfg b v v') : Windowed v' := by
  obtain ⟨-, hwm, hfloor, -⟩ := happ.spec
  have hspans := (hheight ▸ h.spans).appliesOne le_rfl (Nat.sub_le _ _) happ
  refine ⟨by rw [hfloor, hwm], ?_⟩
  rw [hwm]
  rwa [max_eq_right (by omega)] at hspans

/-- A branch adds its rows and takes those that fall off the ring. -/
theorem Spans.applied (hchain : IsChain (bs ++ blocks)) (h : Spans v low bs.length)
    (hring : bs.length - undoRing ≤ low) (hlow : low ≤ bs.length) (happ : Applied cfg v blocks v') :
    Spans v' (max low ((bs ++ blocks).length - undoRing)) (bs ++ blocks).length ∧
      (blocks ≠ [] → v'.core.undoFloor = (bs ++ blocks).length - undoRing) := by
  induction happ with
  | nil =>
    rw [List.append_nil, max_eq_left hring]
    exact ⟨h, fun hne ↦ (hne rfl).elim⟩
  | @snoc blocks b v' v'' _ hone ih =>
    rw [← List.append_assoc] at hchain ⊢
    obtain ⟨hbelow, hheight, hb⟩ := IsChain.concat_iff.mp hchain
    obtain ⟨hspans, -⟩ := ih hbelow
    obtain ⟨-, -, hfloor, -⟩ := hone.spec
    have hle : (bs ++ blocks).length - undoRing ≤ (bs ++ blocks).length := Nat.sub_le _ _
    have hbs : bs.length ≤ (bs ++ blocks).length := by simp
    have hnext := (hheight ▸ hspans).appliesOne (by omega) (by omega) hone
    rw [List.length_append, List.length_singleton, ← hheight]
    refine ⟨?_, fun _ ↦ hfloor⟩
    rwa [max_assoc, max_eq_right (a := b.height - undoRing) (by omega)] at hnext

/-- Extending keeps the window, of what is open and of what is committed. -/
theorem Windowed.grows {db db' : Db} (hchain : IsChain (bs ++ blocks))
    (h : Windowed v) (hdb : ∀ v₀, db.tables.settled = some v₀ → Windowed v₀)
    (hgrows : Grows cfg v db blocks v' db') :
    Windowed v' ∧ ∀ v₀, db'.tables.settled = some v₀ → Windowed v₀ := by
  induction hgrows with
  | refl => exact ⟨h, hdb⟩
  | block _ hheight hone ih =>
    rw [← List.append_assoc] at hchain
    obtain ⟨hbelow, -, hb⟩ := IsChain.concat_iff.mp hchain
    obtain ⟨hopen, hstored⟩ := ih hbelow
    exact ⟨hopen.appliesOne hheight hone, hstored⟩
  | commit _ hsettled _ ih =>
    obtain ⟨hopen, -⟩ := ih hchain
    refine ⟨hopen, fun v₀ hv₀ ↦ ?_⟩
    cases hsettled.symm.trans hv₀
    exact hopen
  | upkeep _ hsettled hup ih =>
    obtain ⟨hopen, -⟩ := ih hchain
    refine ⟨hopen, fun v₀ hv₀ ↦ ?_⟩
    cases (hup.settled.trans hsettled).symm.trans hv₀
    exact hopen

/-! ## Reorgs -/

/-- What a reorg leaves of the window: the rows below the old floor stay away. -/
theorem Spans.reorged {plan : ReorgPlan} (hchain : IsChain bs) (hshown : Shown v bs)
    (hne : bs ≠ []) (hwhole : plan.Whole bs)
    (hfit : Fitting (bs.take (plan.forkHeight + 1)) plan.apply) (h : Windowed v)
    (hre : Reorged cfg plan v v') :
    Spans v' (max (bs.length - undoRing) (v'.core.hdrWatermark - undoRing)) v'.core.hdrWatermark ∧
      v'.core.undoFloor = v'.core.hdrWatermark - undoRing ∧
      v'.core.hdrWatermark = plan.forkHeight + 1 + plan.apply.length ∧
      bs.length - undoRing ≤ plan.forkHeight + 1 ∧ plan.forkHeight + 1 ≤ bs.length := by
  obtain ⟨hle, hfacts, t, m, t₁, m₁, hv, hroll, hshows, happ⟩ := hre.fork hchain hshown hne hwhole
  obtain ⟨hchain', hshown'⟩ := Shown.reorged hchain hshown hne hwhole hfit hre
  have hpos : 0 < bs.length := List.length_pos_iff.mpr hne
  have hlen : (bs.take (plan.forkHeight + 1)).length = plan.forkHeight + 1 :=
    List.length_take_of_le hle
  have hspans := h.spans
  have hundoFloor := h.undoFloor
  rw [hshown.hdrWatermark] at hspans hundoFloor
  -- A plan that rolls back forks at the floor or above it.
  have hfloor : bs.length - undoRing ≤ plan.forkHeight + 1 := by
    rcases eq_or_ne plan.rollback [] with hnil | hrolls
    · have := hfacts.rolled hnil
      omega
    · exact hundoFloor ▸ hfacts.floor hrolls
  have hfork : Spans ((t₁.view m₁).rewound plan.forkHeight)
      (bs.length - undoRing) (bs.take (plan.forkHeight + 1)).length := by
    intro k
    have hold : (t.undo.lookup k).isSome ↔ bs.length - undoRing ≤ k ∧ k < bs.length := by
      rw [← hv] at hspans
      exact hspans k
    rw [hlen]
    rcases Nat.lt_or_ge k (plan.forkHeight + 1) with hlt | hge
    · -- The rows below the fork are the old ones.
      have hnot : k ∉ plan.rollback := by
        rw [hwhole, heightsDown, List.mem_reverse, List.mem_range'_1]
        omega
      have heq : t₁.undo.lookup k = t.undo.lookup k := (rollbackHeights_unwound hroll).undo k hnot
      show (t₁.undo.lookup k).isSome ↔ _
      rw [heq, hold]
      omega
    · constructor
      · intro hsome
        obtain ⟨blob, hblob⟩ := Option.isSome_iff_exists.mp hsome
        obtain ⟨c, hc, -⟩ := hshows.undo k blob hblob
        have := (List.getElem?_eq_some_iff.mp hc).1
        omega
      · rintro ⟨-, hlt⟩
        omega
  obtain ⟨hdone, hnew⟩ := hfork.applied hchain' (by omega) (by omega) happ
  have hwm : (bs.take (plan.forkHeight + 1) ++ plan.apply).length = v'.core.hdrWatermark :=
    hshown'.hdrWatermark.symm
  rw [hwm] at hdone hnew
  refine ⟨hdone, hnew hfacts.nonempty, ?_, hfloor, hle⟩
  rw [← hwm, List.length_append, hlen]

/-- A call that keeps the window: a reorg has to apply as many blocks as it rolls back, unless
nothing has fallen off the ring yet. -/
def Call.KeepsWindow (c : Committer) : Call → Prop
  | .reorg plan => plan.rollback.length ≤ plan.apply.length ∨ c.info.tip.height < undoRing
  | .deepReorg _ => False
  | _ => True

omit [Crypto] in
theorem Call.KeepsWindow.shallow {c : Committer} {call : Call} (h : call.KeepsWindow c) :
    call.Shallow := by
  cases call with
  | deepReorg _ => exact h
  | extend _ | reorg _ | flush | setMode _ | pruneTo _ => trivial

/-- A reorg that meets the condition keeps the window, and one that does not loses it. -/
theorem Windowed.reorged_iff {plan : ReorgPlan} (hchain : IsChain bs) (hshown : Shown v bs)
    (hne : bs ≠ []) (hwhole : plan.Whole bs)
    (hfit : Fitting (bs.take (plan.forkHeight + 1)) plan.apply) (h : Windowed v)
    (hre : Reorged cfg plan v v') :
    (plan.rollback.length ≤ plan.apply.length ∨ v.core.tip.height < undoRing → Windowed v') ∧
      (Covered v' v'.core.undoFloor v'.core.hdrWatermark →
        plan.rollback.length ≤ plan.apply.length ∨ v.core.tip.height < undoRing) := by
  obtain ⟨hspans, hundoFloor, hwm, hfloor, hle⟩ :=
    Spans.reorged hchain hshown hne hwhole hfit h hre
  have hpos : 0 < bs.length := List.length_pos_iff.mpr hne
  have hroll : plan.rollback.length = bs.length - (plan.forkHeight + 1) := by
    rw [hwhole, heightsDown, List.length_reverse, List.length_range']
  rw [hroll, hshown.height]
  constructor
  · intro hkeeps
    refine ⟨hundoFloor, ?_⟩
    rwa [max_eq_right (by omega)] at hspans
  · intro hcov
    by_contra hbreaks
    -- The new floor is below the old one, and has no row.
    have hrow := hcov v'.core.undoFloor le_rfl (by omega)
    rw [hspans] at hrow
    omega

/-- What a reorg that meets the condition leaves, also where it fails after its commit. -/
theorem Windowed.reorgs {db db' flushed : Db} {plan : ReorgPlan} {c : Committer}
    (hlive : Live c bs) (hfit : (Call.reorg plan).Fits bs c) (h : Windowed c.view)
    (hkeeps : (Call.reorg plan).KeepsWindow c) (hre : Reorgs cfg plan c.view db flushed v' db') :
    Windowed v' ∧ ∀ v₀, db'.tables.settled = some v₀ → Windowed v₀ := by
  obtain ⟨hne, hwhole, hfit⟩ := hfit
  cases hre with
  | intro _ _ _ _ hre hsettled _ hup =>
    have hwindow := (h.reorged_iff hlive.chain hlive.shown hne hwhole hfit hre).1 hkeeps
    refine ⟨hwindow, fun v₀ hv₀ ↦ ?_⟩
    cases (hup.settled.trans hsettled).symm.trans hv₀
    exact hwindow

/-! ## Runs -/

/-- A committer with its undo window, in what is committed and in what is open. -/
structure Ringed (c : Committer) : Prop where
  stored : ∀ v, c.disk.db.tables.settled = some v → Windowed v
  live : c.poisoned = false → Windowed c.view

omit [Crypto] in
theorem ringed_fresh (cfg : StoreConfig) : Ringed (.fresh cfg) := by
  have hview : Windowed (Committer.fresh cfg).view := by
    have hfloor : (Committer.fresh cfg).view.core.hdrWatermark - undoRing = 0 := Nat.zero_sub _
    refine ⟨hfloor.symm, fun k ↦ ⟨fun hsome ↦ ?_, fun hk ↦ absurd hk.2 (Nat.not_lt_zero k)⟩⟩
    cases hsome
  refine ⟨fun v hv ↦ ?_, fun _ ↦ hview⟩
  cases hv
  exact hview

/-- A call that meets the condition keeps the window. -/
theorem Ringed.call {c : Committer} {call : Call} (hheld : Held c bs) (h : Ringed c)
    (hfit : call.Fits bs c) (hkeeps : call.KeepsWindow c) : Ringed (call.run c).state := by
  rcases Bool.eq_false_or_eq_true c.poisoned with hpois | hpois
  · rw [call.state_of_poisoned hpois]
    exact h
  have hlive := hheld.live hpois
  have heffect := call.effect hlive.tidy hfit.atRest hkeeps.shallow
  generalize (call.run c).result = r at heffect
  generalize (call.run c).state = c' at heffect
  cases heffect with
  | grown hpre _ _ hg =>
    have hlive' := hlive.grown (hfit.extended.of_prefix hpre) hg
    obtain ⟨hopen, hstored⟩ := (h.live hpois).grows hlive'.chain h.stored hg.grows
    exact ⟨hstored, fun _ ↦ hopen⟩
  | reorg hcall _ hre =>
    subst hcall
    obtain ⟨hopen, hstored⟩ := (h.live hpois).reorgs hlive hfit hkeeps hre
    exact ⟨hstored, fun _ ↦ hopen⟩
  | failed hcall hpois' htrail =>
    subst hcall
    refine ⟨?_, fun hfalse ↦ absurd (hpois'.symm.trans hfalse) (by decide)⟩
    rcases htrail with hg | ⟨v', hre⟩
    · exact ((h.live hpois).grows ((List.append_nil bs).symm ▸ hlive.chain) h.stored hg).2
    · exact ((h.live hpois).reorgs hlive hfit hkeeps hre).2

/-- A run whose calls meet the condition keeps the window, and its chain. -/
theorem Reached.ringed {cfg : StoreConfig} {c : Committer}
    (h : Reached cfg (fun _ c call ↦ call.KeepsWindow c) c bs) : Held c bs ∧ Ringed c := by
  induction h with
  | fresh => exact ⟨held_fresh cfg, ringed_fresh cfg⟩
  | call _ hfit hkeeps ih =>
    exact ⟨ih.1.call hfit hkeeps.shallow, ih.2.call ih.1 hfit hkeeps⟩

/-! ## The blocks of the rules -/

/-- The undo records in `CommitSink::own`. -/
def ownUndo (undo : List Chain.UndoRec) : List UndoRec :=
  undo.map fun u ↦ ⟨u.addr, .ofNat 128 u.prevBalance, .ofNat u.prevNonce, u.existed⟩

/-- A block with the undo records of a body the rules accept. -/
def BlockToCommit.Accepted (b : BlockToCommit) : Prop :=
  ∃ overlay ledger header rawBody params trust v o l,
    Chain.validateBlockBody overlay ledger header rawBody params trust = .ok (v, o, l) ∧
      b.undo = ownUndo v.undo

theorem BlockToCommit.Accepted.length_le (h : b.Accepted) : b.undo.length ≤ maxUndoRecs := by
  obtain ⟨_, _, _, _, _, _, v, _, _, hv, hundo⟩ := h
  rw [hundo, ownUndo, List.length_map]
  exact Chain.validateBlockBody_undo_length_le hv

/-- Every height from the floor to the tip has the undo row of its block, which can be read if
the rules accept the block, and the way down to any fork not below the floor goes through. -/
structure UndoCovered (t : Tables) (m : Meta) (bs : List BlockToCommit) : Prop where
  watermark : m.hdrWatermark = bs.length
  row : ∀ h, m.undoFloor ≤ h → h < m.hdrWatermark →
    ∃ b, bs[h]? = some b ∧ t.undo.lookup h = some (encodeUndo b.undo b.issuedDelta) ∧
      (b.Accepted → decodeUndo (encodeUndo b.undo b.issuedDelta) = some (b.undo, b.issuedDelta))
  rollback : ∀ n, m.undoFloor ≤ n → n ≤ bs.length → (∀ b ∈ bs.drop n, b.Accepted) →
    ∃ t' m', rollbackHeights (heightsDown n (bs.length - n)) t m = (.ok t', m')

theorem Windowed.undoCovered {t : Tables} {m : Meta} (h : Windowed (t.view m)) (hchain : IsChain bs)
    (hshown : Shown (t.view m) bs) : UndoCovered t m bs := by
  have hwm : m.hdrWatermark = bs.length := hshown.hdrWatermark
  have hfloor : m.undoFloor = m.hdrWatermark - undoRing := h.undoFloor
  have hrow : ∀ k, m.undoFloor ≤ k → k < m.hdrWatermark → (t.undo.lookup k).isSome :=
    fun k hlow hhigh ↦ (h.spans k).mpr ⟨hfloor ▸ hlow, hhigh⟩
  have hshows := hshown.shows t m rfl
  refine ⟨hwm, fun k hlow hhigh ↦ ?_, fun n hlow hn haccepted ↦ ?_⟩
  · obtain ⟨blob, hblob⟩ := Option.isSome_iff_exists.mp (hrow k hlow hhigh)
    obtain ⟨b, hb, rfl⟩ := hshows.undo k blob hblob
    refine ⟨b, hb, hblob, fun haccepted ↦ ?_⟩
    rw [decodeUndo_encodeUndo, if_pos haccepted.length_le]
  · have hsplit := List.take_append_drop n bs
    have hlen : (bs.take n).length = n := List.length_take_of_le hn
    have hgo := Shows.exists_rollbackHeights (t := t) (m := m) (l := bs.drop n)
      (hsplit.symm ▸ hchain) (hsplit.symm ▸ hshows) (fun k hk₁ hk₂ ↦ ?_)
      fun b hb ↦ (haccepted b hb).length_le
    · rwa [hlen, List.length_drop] at hgo
    · rw [hlen] at hk₁ hk₂
      rw [List.length_drop] at hk₂
      exact hrow k (hlow.trans hk₁) (by omega)

/-- A reorg that goes through covers the new window if and only if it meets the condition. -/
theorem Reached.covered_iff {cfg : StoreConfig} {c : Committer} {plan : ReorgPlan}
    (h : Reached cfg (fun _ c call ↦ call.KeepsWindow c) c bs) (hpois : c.poisoned = false)
    (hfit : (Call.reorg plan).Fits bs c) (hok : ((Call.reorg plan).run c).result.isOk) :
    ((Call.reorg plan).run c).state.poisoned = false ∧
    ((∀ k, ((Call.reorg plan).run c).state.info.undoFloor ≤ k →
        k < ((Call.reorg plan).run c).state.info.hdrWatermark →
        (((Call.reorg plan).run c).state.tables.undo.lookup k).isSome) ↔
      plan.rollback.length ≤ plan.apply.length ∨ c.info.tip.height < undoRing) := by
  obtain ⟨hheld, hringed⟩ := h.ringed
  have hlive := hheld.live hpois
  obtain ⟨hne, hwhole, hfit⟩ := hfit
  rcases (Committer.reorg_spec hlive.tidy plan).cases with ⟨_, -, hre, -, -, hpois'⟩ | ⟨e, hres, -⟩
  · refine ⟨hpois', ?_⟩
    change Reorgs _ _ _ _ _ ((Call.reorg plan).run c).state.view _ at hre
    generalize ((Call.reorg plan).run c).state = c' at hre
    cases hre with
    | intro _ _ _ _ hre _ _ _ =>
      have hiff := (hringed.live hpois).reorged_iff hlive.chain hlive.shown hne hwhole hfit hre
      constructor
      · exact hiff.2
      · intro hkeeps k hlow hhigh
        have hwindow := hiff.1 hkeeps
        exact (hwindow.spans k).mpr ⟨hwindow.undoFloor ▸ hlow, hhigh⟩
  · rw [show ((Call.reorg plan).run c).result = .error e from hres] at hok
    cases hok

/-- In every run of extends, prunings and reorgs that apply as many blocks as they roll back, or
start from a tip in the first ring, the undo rows cover the window from the floor to the tip, in
what is committed and in what is open.  A reorg that goes through and does not meet this leaves
a height of the window without a row. -/
theorem undo_window {cfg : StoreConfig} {c : Committer}
    (h : Reached cfg (fun _ c call ↦ call.KeepsWindow c) c bs) :
    (∀ m, c.disk.db.tables.info = some m →
      ∃ bs₀, IsChain bs₀ ∧ UndoCovered c.disk.db.tables m bs₀) ∧
    (c.poisoned = false → UndoCovered c.tables c.info bs) ∧
    ∀ plan, c.poisoned = false → (Call.reorg plan).Fits bs c →
      ((Call.reorg plan).run c).result.isOk →
      ((∀ k, ((Call.reorg plan).run c).state.info.undoFloor ≤ k →
          k < ((Call.reorg plan).run c).state.info.hdrWatermark →
          (((Call.reorg plan).run c).state.tables.undo.lookup k).isSome) ↔
        plan.rollback.length ≤ plan.apply.length ∨ c.info.tip.height < undoRing) := by
  obtain ⟨hheld, hringed⟩ := h.ringed
  refine ⟨fun m hm ↦ ?_, fun hpois ↦ ?_, fun plan hpois hfit hok ↦ (h.covered_iff hpois hfit hok).2⟩
  · obtain ⟨v, bs₀, hsettled, hchain, hshown⟩ := hheld.stored
    have hwindow := hringed.stored v hsettled
    rw [Tables.settled, hm, Option.map_some] at hsettled
    cases hsettled
    exact ⟨bs₀, hchain, hwindow.undoCovered hchain hshown⟩
  · have hlive := hheld.live hpois
    exact (hringed.live hpois).undoCovered hlive.chain hlive.shown

end

/-- The reorg of the sample keeps the window. -/
theorem undo_window_switched : letI := Scene.crypto
    Scene.switched.poisoned = false ∧ Scene.switched.info.undoFloor = 0 ∧
      UndoCovered Scene.switched.tables Scene.switched.info
        [Scene.genesis, Scene.rival, Scene.second] := by
  let _ := Scene.crypto
  have hpois : Scene.switched.poisoned = false := by decide +kernel
  have h := undo_window (Scene.reached_switched trivial (.inl (by decide)))
  exact ⟨hpois, by decide +kernel, h.2.1 hpois⟩

namespace Scene

/-- A chain one block longer than the ring, without transactions. -/
def long : List BlockToCommit := (List.range 257).map (block 0 · [])

/-- The reorg that replaces its last two blocks by one. -/
def shrinking : ReorgPlan := ⟨254, [256, 255], [block 1 255 []]⟩

/-- The extend that makes a store with the long chain. -/
def growing : Outcome Committer Disk StoreError Unit :=
  letI := crypto
  (Call.extend long).run ((Call.setMode .ibd).run (.fresh config)).state

theorem reached_growing : letI := crypto
    ∃ bs, Reached config (fun _ c call ↦ call.KeepsWindow c) growing.state bs := by
  let _ := crypto
  have hidle : Reached config (fun _ c call ↦ call.KeepsWindow c)
      ((Call.setMode .ibd).run (.fresh config)).state [] :=
    .call .fresh trivial trivial
  have hfits : (Call.extend long).Fits [] ((Call.setMode .ibd).run (.fresh config)).state := by
    intro done b hpre _ _
    have hmem : b ∈ long := hpre.subset (List.mem_append_right done List.mem_cons_self)
    obtain ⟨h, hh, rfl⟩ := List.mem_map.mp hmem
    exact fits_block ((List.mem_range.mp hh).le.trans (by decide)) _
  exact ⟨_, .call hidle hfits trivial⟩

/-- A chain the reorg goes through on is the long one, and the reorg leaves a gap. -/
theorem gap_of_shrinking {c : Committer} {bs : List BlockToCommit} : letI := crypto
    Reached config (fun _ c call ↦ call.KeepsWindow c) c bs →
    ((Call.reorg shrinking).run c).result.isOk = true →
    ∃ c' bs', Reached config (fun _ _ call ↦ call.Shallow) c' bs' ∧ c'.poisoned = false ∧
      ¬∀ k, c'.info.undoFloor ≤ k → k < c'.info.hdrWatermark →
        (c'.tables.undo.lookup k).isSome := by
  let _ := crypto
  intro h hgo
  have hpois := Committer.poisoned_of_reorg hgo
  have hlive := h.ringed.1.live hpois
  have htip : c.info.tip.height = 256 := by
    rcases (Committer.reorg_spec hlive.tidy shrinking).cases with ⟨_, -, hre, -⟩ | ⟨e, hres, -⟩
    · cases hre with
      | intro _ _ _ _ hre _ _ _ =>
        obtain ⟨m, replayFloor, hcore, hchecked⟩ := hre.checked
        have htop := (planFacts hchecked).top (List.cons_ne_nil _ _)
        exact (congrArg (·.tip.height) hcore).symm.trans (Option.some.inj htop).symm
    · rw [show ((Call.reorg shrinking).run c).result = .error e from hres] at hgo
      cases hgo
  have hlen : bs.length = 257 := by
    have : c.info.tip.height = bs.length - 1 := hlive.shown.height
    omega
  have hfit : (Call.reorg shrinking).Fits bs c := by
    refine ⟨List.ne_nil_of_length_eq_add_one hlen, ?_, .cons (fun _ ↦ fits_block (by decide) _) .nil⟩
    rw [ReorgPlan.Whole, hlen]
    rfl
  obtain ⟨hpois', hiff⟩ := h.covered_iff hpois hfit hgo
  refine ⟨_, _, .call (h.mono fun _ _ _ h ↦ h.shallow) hfit trivial, hpois', fun hcov ↦ ?_⟩
  rcases hiff.mp hcov with h | h
  · exact absurd h (by decide)
  · rw [htip] at h
    exact absurd h (by decide)

end Scene

section
variable [Crypto]

/-! ## A long run

Every block looks its hash up among those of all blocks before it.  Nothing but the index itself
depends on what is found, so a long run is followed with the index set apart. -/

/-- Tables and metadata with the hash index of others. -/
def indexedAs (t : Tables) (m : Meta) (x : Tables × Meta) : Tables × Meta :=
  ({ t with hashIndex := x.1.hashIndex, hashIndexFull := x.1.hashIndexFull },
    { m with hashIndexFullRows := x.2.hashIndexFullRows })

omit [Crypto] in
theorem indexedAs_foldl_dropHash (n : Nat) (rows : List (Nat × Hash32)) (t : Tables) (m : Meta) :
    indexedAs t m (rows.foldl (fun x row ↦ Committer.dropHash n x.1 x.2 row) (t, m)) =
      rows.foldl (fun x row ↦ Committer.dropHash n x.1 x.2 row) (t, m) := by
  obtain ⟨_, _, _, h⟩ := Committer.foldl_dropHash n rows t m
  rw [h]
  rfl

theorem putHash_indexedAs (readHeader : Nat → Option RawHeader) (n : Nat) (b : BlockToCommit)
    (t : Tables) (m : Meta) :
    putHash readHeader n b t m = indexedAs t m (putHash readHeader n b t m) := by
  obtain ⟨_, _, _, h⟩ := putHash_eq readHeader n b
  rw [h]
  rfl

open Prog

namespace Lazily

/-- `apply_block` with the index set apart. -/
def applyBlock (readHeader : Nat → Option RawHeader) (cfg : StoreConfig) (b : BlockToCommit)
    (t : Tables) (m : Meta) : Except StoreError (Tables × Meta) := do
  let (t, m) ← applyDeltas (b.deltas.zip b.undo) t m
  let t := putUndo b t
  let (t, m) := indexedAs t m (putHash readHeader cfg.hashPrefixBytes b t m)
  let t := putChainwork b t
  let (t, m) := putTxids cfg.txindex b t m
  return (t, advanceMeta b m)

theorem applyBlock_eq : Storage.applyBlock = applyBlock := by
  funext readHeader cfg b t m
  unfold Storage.applyBlock applyBlock
  simp only [← putHash_indexedAs]

/-- `apply_block` on the open transaction, in the same way. -/
def applyTxn (b : BlockToCommit) : Op Unit := do
  let c ← peek
  let (t, m) ← lift (applyBlock c.disk.readHeader c.cfg b (c.txn.getD c.disk.db.tables) c.info)
  alter fun c ↦ { c with txn := some t, info := m }

/-- `write_block`, in the same way. -/
def writeBlock (b : BlockToCommit) : Op Unit := do
  lift (checkBlockInputs b)
  Committer.enterSegment b
  Committer.writeHeader b
  Committer.writeBody b
  Committer.ensureTxn
  applyTxn b

/-- One block of `extend`, in the same way. -/
def extendOne (b : BlockToCommit) : Op Unit := do
  let c ← peek
  require (b.height = c.info.hdrWatermark)
    (.badPlan "extend must be contiguous with hdr_watermark")
  lift (checkBlockInputs b)
  (writeBlock b).onError Committer.poison
  alter fun c ↦ { c with
    batchBlocks := c.batchBlocks + 1
    batchBytes := c.batchBytes + (headerBytes + b.body.length + bodyFrameBytes) }
  let c ← peek
  let limit := match c.mode with
    | .tip => 1
    | .ibd => c.info.ibdBatchBlocks
  if limit ≤ c.batchBlocks ∨ maxBatchBytes ≤ c.batchBytes then
    (Committer.sealBatch true).onError Committer.poison

theorem extendOne_eq : Committer.extendOne = extendOne := by
  funext b
  unfold Committer.extendOne Committer.writeBlock Committer.applyTxn
  rw [applyBlock_eq]
  rfl

/-- The blocks of `commit_branch`, in the same way. -/
def applyBranch : List BlockToCommit → Tables → Op Tables
  | [], t => pure t
  | b :: blocks, t => do
    lift (checkBlockInputs b)
    Committer.enterSegment b
    Committer.writeBody b
    let c ← peek
    let (t, m) ← lift (applyBlock c.disk.readHeader c.cfg b t c.info)
    Committer.onMeta fun _ ↦ m
    applyBranch blocks t

theorem applyBranch_eq (blocks : List BlockToCommit) :
    Committer.applyBranch blocks = applyBranch blocks := by
  induction blocks with
  | nil => rfl
  | cons b blocks ih =>
    funext t
    rw [Committer.applyBranch, applyBranch, ih, applyBlock_eq]

/-- `commit_branch` up to the blocks, in the same way. -/
def rewindBranch (forkHeight : Nat) (rollback : List Nat) (oldHashes : List (Nat × Hash32)) :
    Op Tables := do
  let c ← peek
  let (r, m) := rollbackHeights rollback { c.disk.db.tables with hdrUndo := ∅ } c.info
  Committer.onMeta fun _ ↦ m
  let t ← lift r
  let (t, m) := indexedAs t m
    (oldHashes.foldl (fun x row ↦ Committer.dropHash c.cfg.hashPrefixBytes x.1 x.2 row) (t, m))
  Committer.onMeta fun _ ↦ { m with
    staleIndexCount := m.staleIndexCount + rollback.length
    tip := { m.tip with height := forkHeight }
    hdrWatermark := forkHeight + 1
    bodyWatermark := forkHeight + 1 }
  return t

theorem rewindBranch_eq : Committer.rewindBranch = rewindBranch := by
  funext forkHeight rollback oldHashes
  unfold Committer.rewindBranch rewindBranch
  simp only [indexedAs_foldl_dropHash]

/-- `commit_branch`, in the same way. -/
def commitBranch (forkHeight : Nat) (rollback : List Nat) (oldHashes : List (Nat × Hash32))
    (apply : List BlockToCommit) : Op Unit := do
  let t ← rewindBranch forkHeight rollback oldHashes
  let t ← applyBranch apply t
  Committer.barrier
  let c ← peek
  Committer.onDb fun db ↦ db.commit { t with info := some c.info }
  Committer.maybeCheckpoint
  Committer.maybeRebuildIndex

theorem commitBranch_eq : Committer.commitBranch = commitBranch := by
  funext forkHeight rollback oldHashes apply
  unfold Committer.commitBranch commitBranch
  rw [rewindBranch_eq, applyBranch_eq]

/-- `reorg`, in the same way. -/
def reorg (plan : ReorgPlan) : Op Unit := do
  Committer.guard
  Committer.sealBatch true
  let c ← peek
  lift (Committer.checkPlan c.info c.replayFloor plan)
  let oldHashes := plan.rollback.filterMap fun h ↦
    (c.disk.readHeader h).map fun hdr ↦ (h, headerHash hdr)
  alter fun c ↦ { c with poisoned := true }
  (do
    Committer.writeHdrUndo (plan.forkHeight + 1)
      (min (plan.forkHeight + plan.apply.length) c.info.tip.height)
    Committer.overwriteHeaders plan.apply
    let c ← peek
    Committer.onMeta fun m ↦
      { m with bodyAppendOffset := c.disk.bodyAppendFor (plan.forkHeight + 1) }
    commitBranch plan.forkHeight plan.rollback oldHashes plan.apply)
  alter fun c ↦ { c with poisoned := false }

theorem reorg_eq : Committer.reorg = reorg := by
  funext plan
  unfold Committer.reorg Committer.reorgDestructive reorg
  rw [commitBranch_eq]

end Lazily
end

namespace Scene

/-- The extend by the long chain, in the same way. -/
def grown : Outcome Committer Disk StoreError Unit :=
  letI := crypto
  (do
    Committer.guard
    Prog.forEach Lazily.extendOne long : Op Unit) ((Call.setMode .ibd).run (.fresh config)).state

theorem growing_eq : growing = grown := by
  let _ := crypto
  unfold growing grown
  rw [← Lazily.extendOne_eq]
  rfl

theorem shrinking_isOk : letI := crypto; (Lazily.reorg shrinking grown.state).result.isOk = true := by
  decide +kernel

end Scene

/-- After a reorg that applies one block for two and ends within the first ring, the floor is the
genesis, whose undo row has fallen off the ring. -/
theorem undo_window_shrinking : letI := Scene.crypto
    ¬∀ (cfg : StoreConfig) (c : Committer) (bs : List BlockToCommit),
      Reached cfg (fun _ _ call ↦ call.Shallow) c bs → c.poisoned = false →
        ∀ k, c.info.undoFloor ≤ k → k < c.info.hdrWatermark →
          (c.tables.undo.lookup k).isSome := by
  let _ := Scene.crypto
  intro hclaim
  have hgo : ((Call.reorg Scene.shrinking).run Scene.growing.state).result.isOk = true := by
    change (Committer.reorg Scene.shrinking Scene.growing.state).result.isOk = true
    rw [Lazily.reorg_eq, Scene.growing_eq]
    exact Scene.shrinking_isOk
  obtain ⟨bs, hreached⟩ := Scene.reached_growing
  obtain ⟨c', bs', hreached', hpois, hgap⟩ := Scene.gap_of_shrinking hreached hgo
  exact hgap (hclaim _ c' bs' hreached' hpois)

end Plaine.Storage

import Plaine.Storage.Heights
import Plaine.Storage.InStep

/-!
# State checkpoints

A chart says which chain each savepoint holds.  It is kept over extends, and over a reorg that
forks at or above every checkpoint listed; a checkpoint that is restored brings back the rows of
its own table, which the chart knows as long as the savepoints they name are still there.
-/

namespace Plaine.Storage

open Plaine.Lib Plaine.Consensus

section

variable [Crypto]

/-- Tables that show a chain. -/
def Tables.Holds (t : Tables) (bs : List BlockToCommit) : Prop :=
  ∃ v, t.settled = some v ∧ IsChain bs ∧ Shown v bs

/-- A database and the chain it has committed, with the chains its savepoints hold: every row
names a savepoint of the chain up to its height, and so does every row of a savepoint whose own
savepoint is still there. -/
structure Charted (f : Nat → List BlockToCommit) (db : Db) (bs : List BlockToCommit) : Prop where
  holds : db.tables.Holds bs
  row : ∀ k id, db.tables.stateCkpt.lookup k = some id →
    (db.savepoints.lookup id).isSome ∧ k < bs.length ∧ f id = bs.take (k + 1)
  saved : ∀ id t, db.savepoints.lookup id = some t →
    id < db.nextSavepoint ∧ t.Holds (f id) ∧ ∀ k id', t.stateCkpt.lookup k = some id' →
      id' < id ∧ k < (f id).length ∧
        ((db.savepoints.lookup id').isSome → f id' = (f id).take (k + 1))

variable {f : Nat → List BlockToCommit} {db db' : Db} {bs bs₀ blocks : List BlockToCommit}
  {t : Tables} {v v' : View} {keep : Nat} {cfg : StoreConfig}

/-! ## The database -/

/-- A commit charts the new chain when its rows are charted. -/
theorem Charted.commit (h : Charted f db bs₀) (hholds : t.Holds bs)
    (hrow : ∀ k id, t.stateCkpt.lookup k = some id →
      (db.savepoints.lookup id).isSome ∧ k < bs.length ∧ f id = bs.take (k + 1)) :
    Charted f (db.commit t) bs :=
  ⟨hholds, hrow, h.saved⟩

/-- Rows at heights where two chains agree. -/
theorem Charted.row_of_take (h : Charted f db bs₀)
    (hagree : ∀ k id, db.tables.stateCkpt.lookup k = some id →
      k < bs.length ∧ bs.take (k + 1) = bs₀.take (k + 1)) (k id : Nat)
    (hrow : db.tables.stateCkpt.lookup k = some id) :
    (db.savepoints.lookup id).isSome ∧ k < bs.length ∧ f id = bs.take (k + 1) := by
  obtain ⟨hsome, -, hf⟩ := h.row k id hrow
  obtain ⟨hk, heq⟩ := hagree k id hrow
  exact ⟨hsome, hk, hf.trans heq.symm⟩

/-- A new savepoint holds the chain that is committed. -/
theorem Charted.savepoint (h : Charted f db bs) :
    Charted (Function.update f db.nextSavepoint bs) db.persistentSavepoint.2 bs := by
  have hlt : ∀ {id}, (db.savepoints.lookup id).isSome → id < db.nextSavepoint := by
    intro id hid
    obtain ⟨t, ht⟩ := Option.isSome_iff_exists.mp hid
    exact (h.saved id t ht).1
  have hf : ∀ {id}, id < db.nextSavepoint → Function.update f db.nextSavepoint bs id = f id :=
    fun hid ↦ Function.update_of_ne hid.ne _ _
  have hkept : ∀ {id}, id < db.nextSavepoint →
      db.persistentSavepoint.2.savepoints.lookup id = db.savepoints.lookup id :=
    fun hid ↦ AList.lookup_insert_ne hid.ne
  refine ⟨h.holds, fun k id hrow ↦ ?_, fun id t hid ↦ ?_⟩
  · obtain ⟨hsome, hk, heq⟩ := h.row k id hrow
    exact ⟨hkept (hlt hsome) ▸ hsome, hk, (hf (hlt hsome)).trans heq⟩
  rcases eq_or_ne id db.nextSavepoint with rfl | hne
  · obtain rfl : db.tables = t := Option.some.inj ((AList.lookup_insert _).symm.trans hid)
    rw [Function.update_self]
    refine ⟨Nat.lt_succ_self _, h.holds, fun k id' hrow ↦ ?_⟩
    obtain ⟨hsome, hk, heq⟩ := h.row k id' hrow
    exact ⟨hlt hsome, hk, fun _ ↦ (hf (hlt hsome)).trans heq⟩
  · obtain ⟨hid', hholds, hrows⟩ := h.saved id t ((AList.lookup_insert_ne hne).symm.trans hid)
    rw [hf hid']
    refine ⟨Nat.lt_succ_of_lt hid', hholds, fun k id' hrow ↦ ?_⟩
    obtain ⟨hlt', hk, heq⟩ := hrows k id' hrow
    refine ⟨hlt', hk, fun hsome ↦ ?_⟩
    rw [hf (hlt'.trans hid')]
    exact heq (hkept (hlt'.trans hid') ▸ hsome)

/-- Savepoints that no row names may go. -/
theorem Charted.delete (h : Charted f db bs) {ids : List Nat}
    (hids : ∀ k id, db.tables.stateCkpt.lookup k = some id → id ∉ ids) :
    Charted f (ids.foldl Db.deletePersistentSavepoint db) bs := by
  have htables := Committer.tables_foldl_deletePersistentSavepoint ids db
  refine ⟨htables ▸ h.holds, fun k id hrow ↦ ?_, fun id t hid ↦ ?_⟩
  · rw [htables] at hrow
    obtain ⟨hsome, hk, heq⟩ := h.row k id hrow
    refine ⟨?_, hk, heq⟩
    rwa [lookup_foldl_deletePersistentSavepoint, if_neg (hids k id hrow)]
  · rw [lookup_foldl_deletePersistentSavepoint] at hid
    split at hid
    case isTrue => cases hid
    obtain ⟨hlt, hholds, hrows⟩ := h.saved id t hid
    refine ⟨(nextSavepoint_foldl_deletePersistentSavepoint ids db).symm ▸ hlt, hholds,
      fun k id' hrow ↦ ?_⟩
    obtain ⟨hlt', hk, heq⟩ := hrows k id' hrow
    refine ⟨hlt', hk, fun hsome ↦ heq ?_⟩
    rw [lookup_foldl_deletePersistentSavepoint] at hsome
    split at hsome
    case isTrue => cases hsome
    exact hsome

/-! ## Checkpoints -/

/-- A checkpoint at the tip is charted, and so are the rows it leaves. -/
theorem Charted.checkpoint (h : Charted f db bs) (hne : bs ≠ []) {tip : Nat}
    (htip : tip = bs.length - 1) :
    Charted (Function.update f db.nextSavepoint bs) (db.persistentSavepoint.2.commit
      (Committer.withCheckpoint keep tip db.nextSavepoint db.tables).1) bs ∧
    Charted (Function.update f db.nextSavepoint bs)
      ((Committer.withCheckpoint keep tip db.nextSavepoint db.tables).2.foldl Db.deletePersistentSavepoint
        (db.persistentSavepoint.2.commit
          (Committer.withCheckpoint keep tip db.nextSavepoint db.tables).1)) bs := by
  have hsaved := h.savepoint
  have hpos : 0 < bs.length := List.length_pos_iff.mpr hne
  -- Every row of the longer table names a savepoint of the chain up to its height.
  have hinserted : ∀ k id, (db.tables.stateCkpt.insert tip db.nextSavepoint).lookup k = some id →
      (db.persistentSavepoint.2.savepoints.lookup id).isSome ∧ k < bs.length ∧
        Function.update f db.nextSavepoint bs id = bs.take (k + 1) := by
    intro k id hrow
    rcases eq_or_ne k tip with rfl | hk
    · rw [AList.lookup_insert] at hrow
      obtain rfl := Option.some.inj hrow
      refine ⟨?_, by omega, ?_⟩
      · show ((db.savepoints.insert db.nextSavepoint db.tables).lookup db.nextSavepoint).isSome
        rw [AList.lookup_insert]
        rfl
      · rw [Function.update_self, List.take_of_length_le (by omega)]
    · rw [AList.lookup_insert_ne hk] at hrow
      exact hsaved.row k id hrow
  have hlisted : Charted (Function.update f db.nextSavepoint bs) (db.persistentSavepoint.2.commit
      (Committer.withCheckpoint keep tip db.nextSavepoint db.tables).1) bs := by
    refine hsaved.commit h.holds fun k id hrow ↦ ?_
    rw [lookup_withCheckpoint] at hrow
    split at hrow
    case isTrue => cases hrow
    exact hinserted k id hrow
  refine ⟨hlisted, hlisted.delete fun k id hrow hmem ↦ ?_⟩
  have hrow : (Committer.withCheckpoint keep tip db.nextSavepoint db.tables).1.stateCkpt.lookup k = some id :=
    hrow
  rw [lookup_withCheckpoint] at hrow
  split at hrow
  case isTrue => cases hrow
  case isFalse hkept =>
    -- A row that went has a height of its own, since it names the chain up to it.
    obtain ⟨j, hj, hrow'⟩ := List.mem_filterMap.mp hmem
    obtain ⟨-, hk, hf⟩ := hinserted k id hrow
    obtain ⟨-, hjlt, hf'⟩ := hinserted j id hrow'
    have hlen := congrArg List.length (hf.symm.trans hf')
    rw [List.length_take_of_le hk, List.length_take_of_le hjlt] at hlen
    obtain rfl : k = j := Nat.succ.inj hlen
    exact hkept hj

/-- Upkeep keeps the database charted. -/
theorem Charted.upkeep (h : Charted f db bs) (hup : Committer.Upkeep keep db db') :
    ∃ f', Charted f' db' bs := by
  have hne : ∀ {db : Db} {m : Meta}, db.tables.Holds bs → db.tables.info = some m → 0 < m.hdrWatermark →
      bs ≠ [] ∧ m.tip.height = bs.length - 1 := by
    rintro db m ⟨v, hsettled, -, hshown⟩ hm hpos
    rw [Tables.settled, hm, Option.map_some] at hsettled
    obtain rfl := Option.some.inj hsettled
    have hwm : m.hdrWatermark = bs.length := hshown.hdrWatermark
    exact ⟨List.length_pos_iff.mp (hwm ▸ hpos), hshown.height⟩
  induction hup with
  | refl => exact ⟨f, h⟩
  | store _ hsettled hckpt ih =>
    obtain ⟨f', h'⟩ := ih
    refine ⟨f', h'.commit ?_ fun k id hrow ↦ h'.row k id (hckpt ▸ hrow)⟩
    obtain ⟨v, hv, hchain, hshown⟩ := h'.holds
    exact ⟨v, hsettled.trans hv, hchain, hshown⟩
  | savepoint _ ih =>
    obtain ⟨f', h'⟩ := ih
    exact ⟨_, h'.savepoint⟩
  | row _ hm hpos _ ih =>
    obtain ⟨f', h'⟩ := ih
    obtain ⟨hbs, htip⟩ := hne h'.holds hm hpos
    exact ⟨_, (h'.checkpoint hbs htip).1⟩
  | checkpoint _ hm hpos _ ih =>
    obtain ⟨f', h'⟩ := ih
    obtain ⟨hbs, htip⟩ := hne h'.holds hm hpos
    exact ⟨_, (h'.checkpoint hbs htip).2⟩

/-! ## Calls -/

/-- Extending keeps the database charted, with the chain it has committed. -/
theorem Charted.grows (hchain : IsChain bs) (hshown : Shown v bs) (hfit : Fitting bs blocks)
    (h : Charted f db bs₀) (hpre : bs₀ <+: bs) (hgrows : Grows cfg v db blocks v' db') :
    ∃ f' bs₁, bs₁ <+: bs ++ blocks ∧ Charted f' db' bs₁ := by
  have hdb : ∃ v₀ bs₀, db.tables.settled = some v₀ ∧ bs₀ <+: bs ∧ Shown v₀ bs₀ := by
    obtain ⟨v₀, hv₀, -, hshown₀⟩ := h.holds
    exact ⟨v₀, bs₀, hv₀, hpre, hshown₀⟩
  induction hgrows with
  | refl => exact ⟨f, bs₀, (List.append_nil bs).symm ▸ hpre, h⟩
  | block hg hheight hone ih =>
    obtain ⟨f', bs₁, hpre', h'⟩ := ih (hfit.of_prefix (List.prefix_append _ _))
    rw [← List.append_assoc]
    exact ⟨f', bs₁, hpre'.trans (List.prefix_append _ _), h'⟩
  | commit hg hsettled hckpt ih =>
    obtain ⟨f', bs₁, hpre', h'⟩ := ih hfit
    obtain ⟨hchain', hshown', -⟩ := Shown.grows hchain hshown hfit hg hdb
    refine ⟨f', _, List.prefix_rfl, h'.commit ⟨_, hsettled, hchain', hshown'⟩ ?_⟩
    rw [hckpt]
    refine h'.row_of_take fun k id hrow ↦ ?_
    -- The rows are within what was committed before, where the chains agree.
    obtain ⟨-, hk, -⟩ := h'.row k id hrow
    refine ⟨hk.trans_le hpre'.length_le, ?_⟩
    rw [List.prefix_iff_eq_take.mp hpre', List.take_take, Nat.min_eq_left hk]
  | upkeep hg _ hup ih =>
    obtain ⟨f', bs₁, hpre', h'⟩ := ih hfit
    obtain ⟨f'', h''⟩ := h'.upkeep hup
    exact ⟨f'', bs₁, hpre', h''⟩

/-- A database that has committed all of a chain is charted for it. -/
theorem Charted.flushed {flushed : Db} (hchain : IsChain bs) (hshown : Shown v bs)
    (h : Charted f db bs₀) (hpre : bs₀ <+: bs) (hgrows : Grows cfg v db [] v flushed)
    (hsettled : flushed.tables.settled = some v) : ∃ f', Charted f' flushed bs := by
  obtain ⟨f', bs₁, hpre', h'⟩ := h.grows hchain hshown .nil hpre hgrows
  rw [List.append_nil] at hpre'
  obtain ⟨v₁, hv₁, -, hshown₁⟩ := h'.holds
  obtain rfl : v = v₁ := Option.some.inj (hsettled.symm.trans hv₁)
  have hlen : bs₁.length = bs.length := hshown₁.hdrWatermark.symm.trans hshown.hdrWatermark
  obtain rfl : bs₁ = bs := hpre'.eq_of_length hlen
  exact ⟨f', h'⟩

/-- A reorg that forks at or above every checkpoint keeps the database charted. -/
theorem Charted.reorgs {plan : ReorgPlan} {flushed : Db} {c : Committer} (hchain : IsChain bs)
    (hshown : Shown v bs) (hfit : (Call.reorg plan).Fits bs c) (h : Charted f db bs₀)
    (hpre : bs₀ <+: bs) (hfork : ∀ k ∈ flushed.tables.stateCkpt, k ≤ plan.forkHeight)
    (hre : Reorgs cfg plan v db flushed v' db') :
    ∃ f', Charted f' db' (bs.take (plan.forkHeight + 1) ++ plan.apply) := by
  obtain ⟨hne, hwhole, hfit⟩ := hfit
  cases hre with
  | intro hgrows hflushed hup₁ hrows₁ hre hsettled hckpt hup =>
    obtain ⟨f₁, h₁⟩ := h.flushed hchain hshown hpre hgrows hflushed
    obtain ⟨f₂, h₂⟩ := h₁.upkeep hup₁
    obtain ⟨hchain', hshown'⟩ := Shown.reorged hchain hshown hne hwhole hfit hre
    have hle := (hre.fork hchain hshown hne hwhole).1
    have hlen : (bs.take (plan.forkHeight + 1)).length = plan.forkHeight + 1 :=
      List.length_take_of_le hle
    refine (h₂.commit ⟨_, hsettled, hchain', hshown'⟩ ?_).upkeep hup
    rw [hckpt]
    refine h₂.row_of_take fun k id hrow ↦ ?_
    have hk : k ≤ plan.forkHeight := by
      refine hfork k ?_
      rw [← hrows₁, ← AList.lookup_isSome, hrow]
      rfl
    refine ⟨?_, ?_⟩
    · rw [List.length_append, hlen]
      omega
    · rw [List.take_append_of_le_length (by omega), List.take_take, Nat.min_eq_left (by omega)]

/-- Restoring a checkpoint whose own rows still have their savepoints keeps the database charted,
with the chain up to the checkpoint. -/
theorem Charted.restores {rewindTo : Nat} {flushed : Db} {saved : Tables} (hchain : IsChain bs)
    (hshown : Shown v bs) (h : Charted f db bs₀) (hpre : bs₀ <+: bs)
    (hkeeps : ∀ id, flushed.tables.stateCkpt.lookup rewindTo = some id →
      flushed.savepoints.lookup id = some saved → ∀ k id', saved.stateCkpt.lookup k = some id' →
        (flushed.savepoints.lookup id').isSome)
    (hre : Committer.Restores cfg rewindTo v db flushed saved db') :
    rewindTo < bs.length ∧ saved.Holds (bs.take (rewindTo + 1)) ∧
      ∃ f', Charted f' db' (bs.take (rewindTo + 1)) := by
  cases hre with
  | @intro id _ hgrows hflushed hrow hsaved =>
    have hrows := hkeeps id hrow hsaved
    obtain ⟨f₁, h₁⟩ := h.flushed hchain hshown hpre hgrows hflushed
    obtain ⟨-, hlt, hf⟩ := h₁.row rewindTo id hrow
    obtain ⟨hid, hholds, hold⟩ := h₁.saved id saved hsaved
    rw [hf] at hholds hold
    refine ⟨hlt, hholds, f₁, hholds, fun k j hj ↦ ?_, fun j t hj ↦ ?_⟩
    · rw [lookup_restoreSavepoint]
      rcases eq_or_ne k rewindTo with rfl | hk
      · obtain rfl : id = j := Option.some.inj ((AList.lookup_insert _).symm.trans hj)
        rw [if_neg (lt_irrefl _), hsaved, List.take_take, Nat.min_self]
        refine ⟨rfl, ?_, hf⟩
        rw [List.length_take_of_le hlt]
        exact Nat.lt_succ_self _
      · have hj : saved.stateCkpt.lookup k = some j := (AList.lookup_insert_ne hk).symm.trans hj
        obtain ⟨hlt', hk', heq⟩ := hold k j hj
        rw [if_neg hlt'.not_gt]
        exact ⟨hrows k j hj, hk', heq (hrows k j hj)⟩
    · rw [lookup_restoreSavepoint] at hj
      split at hj
      case isTrue => cases hj
      case isFalse hle =>
      obtain ⟨hjlt, hjholds, hjrows⟩ := h₁.saved j t hj
      refine ⟨hjlt, hjholds, fun k i hi ↦ ?_⟩
      obtain ⟨hilt, hk, heq⟩ := hjrows k i hi
      refine ⟨hilt, hk, fun hsome ↦ heq ?_⟩
      rwa [lookup_restoreSavepoint, if_neg (by omega)] at hsome

/-! ## Runs -/

/-- A call that keeps the checkpoints: a reorg has to fork at or above all of them, and a deep
reorg to restore one whose own table names no savepoint that has been deleted since. -/
def Call.KeepsCheckpoints (c : Committer) : Call → Prop
  | .reorg plan => ∀ k ∈ c.flushed.tables.stateCkpt, k ≤ plan.forkHeight
  | .deepReorg plan => ∀ id saved, c.flushed.tables.stateCkpt.lookup plan.rewindTo = some id →
      c.flushed.savepoints.lookup id = some saved → ∀ k id', saved.stateCkpt.lookup k = some id' →
        (c.flushed.savepoints.lookup id').isSome
  | _ => True

/-- A committer whose database is charted. -/
structure Moored (c : Committer) (bs : List BlockToCommit) : Prop where
  charted : ∃ f bs₀, Charted f c.disk.db bs₀ ∧ (c.poisoned = false → bs₀ <+: bs)
  live : c.poisoned = false → Live c bs

theorem Live.moored {c : Committer} (h : Live c bs)
    (hcharted : ∃ f bs₀, bs₀ <+: bs ∧ Charted f c.disk.db bs₀) : Moored c bs := by
  obtain ⟨f, bs₀, hpre, hcharted⟩ := hcharted
  exact ⟨⟨f, bs₀, hcharted, fun _ ↦ hpre⟩, fun _ ↦ h⟩

theorem moored_fresh (cfg : StoreConfig) : Moored (.fresh cfg) [] := by
  have hlive := (held_fresh cfg).live rfl
  refine hlive.moored ⟨fun _ ↦ [], [], List.prefix_rfl, ?_, ?_, ?_⟩
  · exact ⟨_, rfl, .nil, hlive.shown⟩
  · rintro k id ⟨⟩
  · rintro id t ⟨⟩

variable {c : Committer}

/-- A deep reorg restores its checkpoint and extends the chain up to there, or it is refused. -/
theorem Moored.deepReorg {plan : DeepReorgPlan} (h : Moored c bs) (hpois : c.poisoned = false)
    (hfit : (Call.deepReorg plan).Fits bs c) (hkeeps : (Call.deepReorg plan).KeepsCheckpoints c) :
    Moored ((Call.deepReorg plan).run c).state ((Call.deepReorg plan).left bs c) := by
  have hlive := h.live hpois
  obtain ⟨f, bs₀, hcharted, hpre⟩ := h.charted
  have hpre := hpre hpois
  show Moored (Committer.deepReorg plan c).state _
  rcases (Committer.restoreCheckpoint_spec plan hlive.tidy).cases with
    ⟨_, hres, hrest, hcfg, -, saved, hre, hsettled⟩ | ⟨e, hres, hfail⟩
  · obtain ⟨hgo, -⟩ : (Committer.deepReorg plan c).state = _ ∧ _ := Prog.bind_of_ok hres
    rw [Call.left, hres, hgo]
    generalize (Committer.restoreCheckpoint plan c).state = c₁ at *
    obtain ⟨-, ⟨v₁, hv₁, hchain₁, hshown₁⟩, f₁, h₁⟩ :=
      hcharted.restores hlive.chain hlive.shown hpre (fun id ↦ hkeeps id saved) hre
    obtain rfl : c₁.view = v₁ := Option.some.inj (hsettled.symm.trans hv₁)
    have hlive₁ : Live c₁ (bs.take (plan.rewindTo + 1)) :=
      ⟨hrest.tidy, hchain₁, hshown₁, _, _, hrest.settled, List.prefix_rfl, hshown₁⟩
    have hgrown : ∀ {done c'}, done <+: plan.replay ++ plan.apply → c₁.Grown done c' →
        Moored c' ((bs.take (plan.rewindTo + 1) ++ (plan.replay ++ plan.apply)).take
          c'.info.hdrWatermark) := by
      intro done c' hdone hg
      have hlive' := hlive₁.grown (hfit.of_prefix hdone) hg
      rw [hlive'.take_extended hdone]
      exact hlive'.moored (h₁.grows hchain₁ hshown₁ (hfit.of_prefix hdone) List.prefix_rfl hg.grows)
    rcases (Committer.replay_spec hrest.tidy).cases with ⟨_, -, hg, -⟩ | ⟨e, -, done, hdone, hg⟩
    · exact hgrown List.prefix_rfl hg
    · exact hgrown hdone hg
  · obtain ⟨hgo, -⟩ : (Committer.deepReorg plan c).state = _ ∧ _ := Prog.bind_of_error hres
    rw [Call.left, hres, hgo]
    generalize (Committer.restoreCheckpoint plan c).state = c₁ at *
    rcases hfail with ⟨hg, -⟩ | ⟨-, saved, hnone, hre⟩
    · have hlive₁ := hlive.grown .nil hg
      obtain ⟨f', bs', hpre', h'⟩ := hcharted.grows hlive.chain hlive.shown .nil hpre hg.grows
      rw [List.append_nil] at hlive₁ hpre'
      exact hlive₁.moored ⟨f', bs', hpre', h'⟩
    · -- A checkpoint that was restored has its metadata.
      obtain ⟨-, ⟨v₁, hv₁, -⟩, -⟩ :=
        hcharted.restores hlive.chain hlive.shown hpre (fun id ↦ hkeeps id saved) hre
      rw [Tables.settled, hnone] at hv₁
      cases hv₁

/-- A call that keeps the checkpoints keeps the database charted. -/
theorem Moored.call {call : Call} (h : Moored c bs) (hfit : call.Fits bs c)
    (hkeeps : call.KeepsCheckpoints c) : Moored (call.run c).state (call.chain bs c) := by
  rcases Bool.eq_false_or_eq_true c.poisoned with hpois | hpois
  · rw [call.state_of_poisoned hpois, Call.chain, if_pos hpois]
    exact h
  rw [Call.chain, if_neg (by rw [hpois]; exact Bool.false_ne_true)]
  have hlive := h.live hpois
  by_cases hshallow : call.Shallow
  case neg =>
    cases call with
    | deepReorg plan => exact h.deepReorg hpois hfit hkeeps
    | extend _ | reorg _ | flush | setMode _ | pruneTo _ => exact absurd trivial hshallow
  obtain ⟨f, bs₀, hcharted, hpre⟩ := h.charted
  have hpre := hpre hpois
  have hnext := hlive.call hfit hshallow
  have heffect := call.effect hlive.tidy hfit.atRest hshallow
  generalize hr : (call.run c).result = r at heffect hnext
  generalize hc' : (call.run c).state = c' at heffect hnext ⊢
  cases heffect with
  | grown hdone _ hne hg =>
    have hlive' := hlive.grown (hfit.extended.of_prefix hdone) hg
    rw [Live.left_of_grown (hc'.symm ▸ hlive') hshallow hdone (hr.symm ▸ hne)]
    exact hlive'.moored (hcharted.grows hlive.chain hlive.shown (hfit.extended.of_prefix hdone)
      hpre hg.grows)
  | @reorg _ plan hcall _ hre =>
    subst hcall
    obtain ⟨f', h'⟩ := hcharted.reorgs hlive.chain hlive.shown hfit hpre hkeeps hre
    rcases hnext with hlive' | ⟨-, ⟨e, ⟨⟩⟩, -⟩
    have hleft : (Call.reorg plan).left bs c = bs.take (plan.forkHeight + 1) ++ plan.apply := by
      rw [Call.left, show (Committer.reorg plan c).result = .ok () from hr]
    exact hlive'.moored ⟨f', _, hleft ▸ List.prefix_rfl, h'⟩
  | failed hcall hpois' htrail =>
    subst hcall
    refine ⟨?_, fun hfalse ↦ absurd (hpois'.symm.trans hfalse) (by decide)⟩
    have hvacuous : ∀ {bs' bs'' : List BlockToCommit}, c'.poisoned = false → bs' <+: bs'' :=
      fun hfalse ↦ absurd (hpois'.symm.trans hfalse) (by decide)
    rcases htrail with hg | ⟨v', hre⟩
    · obtain ⟨f', bs', -, h'⟩ := hcharted.grows hlive.chain hlive.shown .nil hpre hg
      exact ⟨f', bs', h', hvacuous⟩
    · obtain ⟨f', h'⟩ := hcharted.reorgs hlive.chain hlive.shown hfit hpre hkeeps hre
      exact ⟨f', _, h', hvacuous⟩

theorem Reached.moored {cfg : StoreConfig}
    (h : Reached cfg (fun _ c call ↦ call.KeepsCheckpoints c) c bs) : Moored c bs := by
  induction h with
  | fresh => exact moored_fresh cfg
  | call _ hfit hkeeps ih => exact ih.call hfit hkeeps

/-- What is open flushes, and the database is charted for the whole chain then. -/
theorem Moored.flushed (h : Moored c bs) (hpois : c.poisoned = false) :
    (∃ f, Charted f c.flushed bs) ∧ (Committer.flush c).result = .ok () := by
  have hlive := h.live hpois
  obtain ⟨f, bs₀, hcharted, hpre⟩ := h.charted
  rcases (Committer.sealBatch_spec hlive.tidy).cases with ⟨_, hres, hsealed⟩ | ⟨e, -, -, hpois'⟩
  · have hview := hsealed.view hlive.tidy
    have hgrows := (hsealed.grown hlive.tidy).grows
    have hsettled := hsealed.rest.settled
    rw [hview] at hgrows hsettled
    exact ⟨hcharted.flushed hlive.chain hlive.shown (hpre hpois) hgrows hsettled, hres⟩
  · exact absurd (hpois.symm.trans hpois') (by decide)

/-- A checkpoint that is listed and not below the prune floor is restored. -/
theorem Moored.restoreCheckpoint_ok {plan : DeepReorgPlan} (h : Moored c bs)
    (hpois : c.poisoned = false) (hrow : plan.rewindTo ∈ c.flushed.tables.stateCkpt)
    (hfloor : (Committer.flush c).state.info.pruneFloor ≤ plan.rewindTo)
    (hfork : plan.rewindTo ≤ plan.forkHeight)
    (hreplay : plan.replay.length = plan.forkHeight - plan.rewindTo) :
    (Committer.restoreCheckpoint plan c).result = .ok () := by
  obtain ⟨⟨f, hcharted⟩, hflush⟩ := h.flushed hpois
  obtain ⟨id, hid⟩ := Option.isSome_iff_exists.mp (AList.lookup_isSome.mpr hrow)
  obtain ⟨hsome, -, -⟩ := hcharted.row _ _ hid
  obtain ⟨saved, hsaved⟩ := Option.isSome_iff_exists.mp hsome
  obtain ⟨-, ⟨v, hv, -⟩, -⟩ := hcharted.saved _ _ hsaved
  have hinfo : ∃ m, saved.info = some m := by
    cases hinfo : saved.info with
    | some m => exact ⟨m, rfl⟩
    | none =>
      rw [Tables.settled, hinfo] at hv
      cases hv
  have hgo : (Committer.restoreCheckpoint plan).wp (fun _ ↦ True) (fun _ _ ↦ True)
      (fun _ _ ↦ False) c := by
    unfold Committer.restoreCheckpoint Committer.guard
    simp only [Prog.wp_bind, Prog.wp_peek, Prog.wp_require]
    refine ⟨fun _ ↦ Prog.wp_self.imp (fun _ _ ↦ trivial) (fun _ c₁ h₁ ↦ ?_) fun e c₁ h₁ ↦ ?_,
      absurd hpois⟩
    · have hflushed : c.flushed = c₁.disk.db := congrArg (·.disk.db) h₁.2.symm
      have hinfo₁ : (Committer.flush c).state.info = c₁.info := congrArg (·.info) h₁.2.symm
      rw [hflushed] at hid hsaved
      rw [hinfo₁] at hfloor
      simp only [Committer.onDb, Committer.onDisk, Committer.onMeta, Committer.refreshReplayFloor,
        Prog.wp_bind, Prog.wp_peek, Prog.wp_require, Prog.wp_lift, Prog.wp_write, Prog.wp_alter]
      refine ⟨fun _ ↦ ⟨fun _ ↦ ⟨fun _ ↦ ⟨fun i hi ↦ ⟨fun saved' hs ↦ ?_, fun e he ↦ ?_⟩,
        fun e he ↦ ?_⟩, absurd hreplay⟩, absurd hfloor⟩, absurd hfork⟩
      · rw [hid, Except.ofOption_eq_ok] at hi
        obtain rfl := Option.some.inj hi
        rw [hsaved, Except.ofOption_eq_ok] at hs
        obtain rfl := Option.some.inj hs
        obtain ⟨m, hm⟩ := hinfo
        exact ⟨trivial, fun _ _ ↦ trivial, fun e he ↦ by rw [hm] at he; cases he⟩
      · rw [hid, Except.ofOption_eq_ok] at hi
        obtain rfl := Option.some.inj hi
        rw [hsaved] at he
        cases he
      · rw [hid] at he
        cases he
    · cases hflush.symm.trans h₁.1
  rcases hgo.cases with ⟨_, hres, -⟩ | ⟨_, -, hfalse⟩
  · exact hres
  · exact hfalse.elim

omit [Crypto] in
theorem lowestCheckpoint_le {k : Nat} (hk : k ∈ t.stateCkpt) :
    Committer.lowestCheckpoint t ≤ k := by
  have hk : k ∈ t.stateCkpt.keys := hk
  unfold Committer.lowestCheckpoint
  cases hmin : t.stateCkpt.keys.min? with
  | some low => exact (List.min?_eq_some_iff.mp hmin).2 k hk
  | none => exact Nat.zero_le k

omit [Crypto] in
theorem lowestCheckpoint_mem (hne : t.stateCkpt ≠ ∅) :
    Committer.lowestCheckpoint t ∈ t.stateCkpt := by
  unfold Committer.lowestCheckpoint
  cases hmin : t.stateCkpt.keys.min? with
  | some low => exact (List.min?_eq_some_iff.mp hmin).1
  | none =>
    have hkeys : t.stateCkpt.entries.map Sigma.fst = [] := List.min?_eq_none_iff.mp hmin
    exact absurd (AList.ext (List.map_eq_nil_iff.mp hkeys)) hne

/-- A database whose checkpoints are those of the chain it has committed. -/
structure CheckpointsOf (db : Db) (bs : List BlockToCommit) : Prop where
  committed : ∀ m, db.tables.info = some m → Shows db.tables m bs ∧ m.hdrWatermark = bs.length ∧
    m.tip.height = bs.length - 1
  row : ∀ k id, db.tables.stateCkpt.lookup k = some id → k < bs.length ∧
    ∃ saved m, db.savepoints.lookup id = some saved ∧ saved.info = some m ∧
      Shows saved m (bs.take (k + 1)) ∧ m.tip.height = k

/-- Tables that show a chain have its metadata. -/
theorem Tables.Holds.info (h : t.Holds bs) : ∃ m, t.info = some m ∧ Shows t m bs ∧
    m.hdrWatermark = bs.length ∧ m.tip.height = bs.length - 1 := by
  obtain ⟨v, hv, -, hshown⟩ := h
  cases hinfo : t.info with
  | none =>
    rw [Tables.settled, hinfo] at hv
    cases hv
  | some m =>
    rw [Tables.settled, hinfo] at hv
    obtain rfl : t.view m = v := Option.some.inj hv
    exact ⟨m, rfl, hshown.shows t m rfl, hshown.hdrWatermark, hshown.height⟩

theorem Charted.checkpointsOf (h : Charted f db bs) : CheckpointsOf db bs := by
  refine ⟨fun m hm ↦ ?_, fun k id hrow ↦ ?_⟩
  · obtain ⟨m', hm', hshows⟩ := h.holds.info
    obtain rfl : m = m' := Option.some.inj (hm.symm.trans hm')
    exact hshows
  · obtain ⟨hsome, hk, hf⟩ := h.row k id hrow
    obtain ⟨saved, hsaved⟩ := Option.isSome_iff_exists.mp hsome
    obtain ⟨-, hholds, -⟩ := h.saved id saved hsaved
    rw [hf] at hholds
    obtain ⟨m, hm, hshows, -, htip⟩ := hholds.info
    rw [List.length_take_of_le hk] at htip
    exact ⟨hk, saved, m, hsaved, hm, hshows, htip⟩

/-- In every run whose reorgs fork at or above every checkpoint listed, and whose deep reorgs
restore a checkpoint whose own rows still have their savepoints, every row of the checkpoint table
names a savepoint that is there and shows the chain up to its height, and the replay floor is the
lowest row.  A deep reorg to a checkpoint that is listed and not below the prune floor restores
it, and leaves the state, fingerprint and supply of any store with the chain it leads to. -/
theorem checkpoints_canonical {cfg : StoreConfig}
    (h : Reached cfg (fun _ c call ↦ call.KeepsCheckpoints c) c bs) :
    (∃ bs₀, (c.poisoned = false → bs₀ <+: bs) ∧ CheckpointsOf c.disk.db bs₀) ∧
    (c.poisoned = false →
      (∀ k ∈ c.disk.db.tables.stateCkpt, c.replayFloor ≤ k) ∧
      (c.disk.db.tables.stateCkpt ≠ ∅ → c.replayFloor ∈ c.disk.db.tables.stateCkpt) ∧
      ∀ plan : DeepReorgPlan, (Call.deepReorg plan).Fits bs c →
        plan.rewindTo ∈ c.flushed.tables.stateCkpt →
        (Committer.flush c).state.info.pruneFloor ≤ plan.rewindTo →
        plan.rewindTo ≤ plan.forkHeight →
        plan.replay.length = plan.forkHeight - plan.rewindTo →
        (Committer.restoreCheckpoint plan c).result = .ok () ∧
        ((Call.deepReorg plan).KeepsCheckpoints c →
          ((Call.deepReorg plan).run c).state.poisoned = false →
          Shows ((Call.deepReorg plan).run c).state.tables ((Call.deepReorg plan).run c).state.info
            ((Call.deepReorg plan).chain bs c) ∧
          ∀ cfg₀ c₀, Reached cfg₀ (fun _ c call ↦ call.KeepsCheckpoints c) c₀
              ((Call.deepReorg plan).chain bs c) → c₀.poisoned = false →
            rowsOf ((Call.deepReorg plan).run c).state.tables.state = rowsOf c₀.tables.state ∧
              ((Call.deepReorg plan).run c).state.info.fingerprint = c₀.info.fingerprint ∧
              ((Call.deepReorg plan).run c).state.info.issued = c₀.info.issued)) := by
  have hmoored := h.moored
  refine ⟨?_, fun hpois ↦ ?_⟩
  · obtain ⟨f, bs₀, hcharted, hpre⟩ := hmoored.charted
    exact ⟨bs₀, hpre, hcharted.checkpointsOf⟩
  have hfloor := (hmoored.live hpois).tidy.replayFloor
  refine ⟨fun k hk ↦ ?_, fun hne ↦ ?_, fun plan hfit hrow hprune hfork hreplay ↦ ?_⟩
  · rw [hfloor]
    exact lowestCheckpoint_le hk
  · rw [hfloor]
    exact lowestCheckpoint_mem hne
  refine ⟨hmoored.restoreCheckpoint_ok hpois hrow hprune hfork hreplay, fun hkeeps hpois' ↦ ?_⟩
  have hshows := ((hmoored.call hfit hkeeps).live hpois').shows
  refine ⟨hshows, fun cfg₀ c₀ h₀ hpois₀ ↦ ?_⟩
  have hshows₀ := (h₀.moored.live hpois₀).shows
  have hrows := hshows.rows.trans hshows₀.rows.symm
  refine ⟨hrows, ?_, hshows.issued.trans hshows₀.issued.symm⟩
  rw [hshows.fingerprint, hshows₀.fingerprint]
  exact AList.digest_congr fun a ↦ congrFun hrows a

end

/-- The reorg of the sample forks at its only checkpoint, and leaves two. -/
theorem checkpoints_canonical_switched : letI := Scene.crypto
    Scene.switched.poisoned = false ∧ Scene.switched.disk.db.tables.stateCkpt.keys = [2, 0] ∧
      ∃ bs₀, bs₀ <+: [Scene.genesis, Scene.rival, Scene.second] ∧
        CheckpointsOf Scene.switched.disk.db bs₀ := by
  let _ := Scene.crypto
  have hpois : Scene.switched.poisoned = false := by decide +kernel
  have hkeys : ∀ k ∈ Scene.started.flushed.tables.stateCkpt.keys, k ≤ 0 := by decide +kernel
  have h := checkpoints_canonical (Scene.reached_switched trivial fun k hk ↦ hkeys k hk)
  obtain ⟨bs₀, hpre, hcheckpoints⟩ := h.1
  exact ⟨hpois, by decide +kernel, bs₀, hpre hpois, hcheckpoints⟩

namespace Scene

/-- Three blocks without transactions, and a reorg that leaves one block in place of two. -/
def three : List BlockToCommit := [block 0 0 [], block 0 1 [], block 0 2 []]

def lower : ReorgPlan := ⟨0, [2, 1], [block 1 1 []]⟩

/-- The extend by the three blocks, with a checkpoint at the last. -/
def growing₃ : Outcome Committer Disk StoreError Unit :=
  letI := crypto
  (Call.extend three).run (.fresh config)

/-- The reorg from there. -/
def lowering : Outcome Committer Disk StoreError Unit :=
  letI := crypto
  (Call.reorg lower).run growing₃.state

theorem reached_lowering : letI := crypto
    ∃ bs, Reached config (fun _ _ _ ↦ True) lowering.state bs := by
  let _ := crypto
  have hfits : (Call.extend three).Fits [] (.fresh config) :=
    .cons (fun _ ↦ fits_block (by decide) _) (.cons (fun _ ↦ fits_block (by decide) _)
      (.cons (fun _ ↦ fits_block (by decide) _) .nil))
  have hchain : (Call.extend three).chain [] (.fresh config) = three := by decide +kernel
  have hthree : Reached config (fun _ _ _ ↦ True) growing₃.state three :=
    hchain ▸ Reached.call .fresh hfits trivial
  have hfits' : (Call.reorg lower).Fits three growing₃.state :=
    ⟨List.cons_ne_nil _ _, rfl, .cons (fun _ ↦ fits_block (by decide) _) .nil⟩
  exact ⟨_, .call hthree hfits' trivial⟩

end Scene

/-- After a reorg that ends below a checkpoint, the checkpoint is above the tip. -/
theorem checkpoints_canonical_lower : letI := Scene.crypto
    ¬∀ (cfg : StoreConfig) (c : Committer) (bs : List BlockToCommit),
      Reached cfg (fun _ _ _ ↦ True) c bs → c.poisoned = false →
        ∀ k ∈ c.disk.db.tables.stateCkpt, k ≤ c.info.tip.height := by
  let _ := Scene.crypto
  intro hclaim
  obtain ⟨bs, hreached⟩ := Scene.reached_lowering
  have hpois : Scene.lowering.state.poisoned = false := by decide +kernel
  have hrow : 2 ∈ Scene.lowering.state.disk.db.tables.stateCkpt.keys := by decide +kernel
  have htip : Scene.lowering.state.info.tip.height = 1 := by decide +kernel
  have hle := hclaim _ _ _ hreached hpois 2 hrow
  rw [htip] at hle
  exact absurd hle (by decide)

end Plaine.Storage

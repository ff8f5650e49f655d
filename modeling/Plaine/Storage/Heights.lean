import Plaine.Lib.Table
import Plaine.Storage.Calls

/-!
# Heights

What the calls do to the header watermark, whatever the blocks hold: an extend goes up from it one
by one, a reorg starts over above its fork, and a checkpoint that is restored brings back the
watermark above its own height, since the rows of the checkpoint table name savepoints of their
heights.
-/

namespace Plaine.Storage

open Plaine.Lib Plaine.Consensus

variable {keep : Nat} {db db' : Db} {t : Tables}

/-! ## Savepoints and the rows that name them -/

theorem lookup_foldl_deletePersistentSavepoint (ids : List Nat) (db : Db) (id : Nat) :
    (ids.foldl Db.deletePersistentSavepoint db).savepoints.lookup id =
      if id ∈ ids then none else db.savepoints.lookup id := by
  rw [← AList.lookup_foldl_erase]
  congr 1
  induction ids generalizing db with
  | nil => rfl
  | cons i ids ih => exact ih _

theorem nextSavepoint_foldl_deletePersistentSavepoint (ids : List Nat) (db : Db) :
    (ids.foldl Db.deletePersistentSavepoint db).nextSavepoint = db.nextSavepoint := by
  induction ids generalizing db with
  | nil => rfl
  | cons i ids ih => exact ih _

/-- The rows once a checkpoint is listed: the new one and the old ones, but for the lowest. -/
theorem lookup_withCheckpoint {tip id k : Nat} :
    (Committer.withCheckpoint keep tip id t).1.stateCkpt.lookup k =
      if k ∈ Committer.surplusCheckpoints keep { t with stateCkpt := t.stateCkpt.insert tip id } then none
      else (t.stateCkpt.insert tip id).lookup k :=
  AList.lookup_foldl_erase _ _ _

theorem lookup_restoreSavepoint {id j : Nat} :
    (db.restoreSavepoint id t).savepoints.lookup j =
      if id < j then none else db.savepoints.lookup j := by
  show AList.lookup j (List.foldl _ _ _) = _
  rw [AList.lookup_foldl_erase]
  by_cases hj : id < j
  · rw [if_pos hj]
    split
    case isTrue => rfl
    case isFalse hmem =>
      refine AList.lookup_eq_none.mpr fun hin ↦ hmem ?_
      exact List.mem_filter.mpr ⟨AList.mem_keys.mp hin, decide_eq_true hj⟩
  · rw [if_neg hj]
    split
    case isTrue hmem => exact absurd (of_decide_eq_true (List.mem_filter.mp hmem).2) hj
    case isFalse => rfl

/-! ## Views at a height -/

/-- Blocks of consecutive heights. -/
def Climbs (n : Nat) (blocks : List BlockToCommit) : Prop :=
  blocks.map (·.height) = List.range' n blocks.length

theorem Climbs.append {n : Nat} {blocks blocks' : List BlockToCommit} (h : Climbs n blocks)
    (h' : Climbs (n + blocks.length) blocks') : Climbs n (blocks ++ blocks') := by
  unfold Climbs
  rw [List.map_append, h, h', List.length_append, List.range'_append_1]

theorem Climbs.singleton {n : Nat} {b : BlockToCommit} (h : b.height = n) : Climbs n [b] := by
  unfold Climbs
  rw [List.map_singleton, h]
  rfl

theorem Climbs.getElem? {n i : Nat} {blocks : List BlockToCommit} {b : BlockToCommit}
    (h : Climbs n blocks) (hb : blocks[i]? = some b) : b.height = n + i := by
  have hmap := congrArg (·[i]?) h
  have hi : i < blocks.length := (List.getElem?_eq_some_iff.mp hb).1
  rw [List.getElem?_map, hb, Option.map_some, List.getElem?_range' hi, Nat.one_mul] at hmap
  exact Option.some.inj hmap

theorem Climbs.take {n m : Nat} {blocks : List BlockToCommit} (h : Climbs n blocks) :
    Climbs n (blocks.take m) := by
  unfold Climbs
  rw [List.map_take, h, List.length_take]
  refine List.ext_getElem ?_ fun i hi hi' ↦ ?_
  · rw [List.length_take, List.length_range', List.length_range']
  · rw [List.getElem_take, List.getElem_range', List.getElem_range']

/-- A view whose tip is the highest block below its watermark. -/
def View.Level (v : View) : Prop := 0 < v.core.hdrWatermark → v.core.tip.height + 1 = v.core.hdrWatermark

/-- A row of the checkpoint table, that names a savepoint of its height if it is still there. -/
def Named (db : Db) (k id : Nat) : Prop :=
  id < db.nextSavepoint ∧ ∀ t, db.savepoints.lookup id = some t →
    ∃ v, t.settled = some v ∧ v.Level ∧ v.core.hdrWatermark = k + 1

/-- A database whose checkpoints have their heights, in its tables and in those it has saved. -/
structure Labelled (db : Db) : Prop where
  level : ∀ v, db.tables.settled = some v → v.Level
  row : ∀ k id, db.tables.stateCkpt.lookup k = some id → Named db k id
  saved : ∀ i t, db.savepoints.lookup i = some t →
    i < db.nextSavepoint ∧ ∀ k id, t.stateCkpt.lookup k = some id → Named db k id

variable {k id : Nat} {v v' : View}

/-- A row stays named while no savepoint takes its place. -/
theorem Named.mono (h : Named db k id) (hnext : db.nextSavepoint ≤ db'.nextSavepoint)
    (hsaved : ∀ t, db'.savepoints.lookup id = some t → db.savepoints.lookup id = some t) :
    Named db' k id :=
  ⟨h.1.trans_le hnext, fun t ht ↦ h.2 t (hsaved t ht)⟩

/-- A commit of tables with the same rows. -/
theorem Labelled.commit (h : Labelled db) (hlevel : ∀ v, t.settled = some v → v.Level)
    (hckpt : t.stateCkpt = db.tables.stateCkpt) : Labelled (db.commit t) :=
  ⟨hlevel, fun k id hrow ↦ h.row k id (hckpt ▸ hrow), h.saved⟩

/-- A new savepoint takes no other's place. -/
theorem Named.savepoint (h : Named db k id) : Named db.persistentSavepoint.2 k id :=
  h.mono (Nat.le_succ _) fun _ ht ↦ (AList.lookup_insert_ne h.1.ne).symm.trans ht

theorem Labelled.savepoint (h : Labelled db) : Labelled db.persistentSavepoint.2 := by
  refine ⟨h.level, fun k id hrow ↦ (h.row k id hrow).savepoint, fun i t hi ↦ ?_⟩
  rcases eq_or_ne i db.nextSavepoint with rfl | hne
  · obtain rfl : db.tables = t := Option.some.inj ((AList.lookup_insert _).symm.trans hi)
    exact ⟨Nat.lt_succ_self _, fun k id hrow ↦ (h.row k id hrow).savepoint⟩
  · obtain ⟨hlt, hrows⟩ := h.saved i t ((AList.lookup_insert_ne hne).symm.trans hi)
    exact ⟨Nat.lt_succ_of_lt hlt, fun k id hrow ↦ (hrows k id hrow).savepoint⟩

/-- Deleting savepoints keeps what is left labelled. -/
theorem Labelled.delete (h : Labelled db) (ids : List Nat) :
    Labelled (ids.foldl Db.deletePersistentSavepoint db) := by
  have htables := Committer.tables_foldl_deletePersistentSavepoint ids db
  have hnext := nextSavepoint_foldl_deletePersistentSavepoint ids db
  have hkept : ∀ {i t}, (ids.foldl Db.deletePersistentSavepoint db).savepoints.lookup i = some t →
      db.savepoints.lookup i = some t := by
    intro i t hi
    rw [lookup_foldl_deletePersistentSavepoint] at hi
    split at hi
    case isTrue => cases hi
    case isFalse => exact hi
  have hnamed : ∀ {k id}, Named db k id → Named (ids.foldl Db.deletePersistentSavepoint db) k id :=
    fun h ↦ h.mono hnext.ge fun _ ↦ hkept
  refine ⟨htables ▸ h.level, fun k id hrow ↦ ?_, fun i t hi ↦ ?_⟩
  · rw [htables] at hrow
    exact hnamed (h.row k id hrow)
  · obtain ⟨hlt, hrows⟩ := h.saved i t (hkept hi)
    exact ⟨hnext.symm ▸ hlt, fun k id hrow ↦ hnamed (hrows k id hrow)⟩

/-- A checkpoint at the tip is labelled. -/
theorem Labelled.checkpoint (h : Labelled db) {m : Meta} (hm : db.tables.info = some m)
    (hpos : 0 < m.hdrWatermark) : Labelled (db.persistentSavepoint.2.commit
      (Committer.withCheckpoint keep m.tip.height db.nextSavepoint db.tables).1) := by
  have hsettled : db.tables.settled = some (db.tables.view m) := by rw [Tables.settled, hm]; rfl
  have hlevel : (db.tables.view m).Level := h.level _ hsettled
  have hs := h.savepoint
  refine ⟨h.level, fun k id hrow ↦ ?_, hs.saved⟩
  have hrow : (Committer.withCheckpoint keep m.tip.height db.nextSavepoint db.tables).1.stateCkpt.lookup k =
      some id := hrow
  rw [lookup_withCheckpoint] at hrow
  split at hrow
  case isTrue => cases hrow
  rcases eq_or_ne k m.tip.height with rfl | hne
  · rw [AList.lookup_insert] at hrow
    obtain rfl := Option.some.inj hrow
    refine ⟨Nat.lt_succ_self _, fun t ht ↦ ?_⟩
    obtain rfl : db.tables = t := Option.some.inj ((AList.lookup_insert _).symm.trans ht)
    exact ⟨_, hsettled, hlevel, (hlevel hpos).symm⟩
  · rw [AList.lookup_insert_ne hne] at hrow
    exact hs.row k id hrow

/-- Upkeep keeps a database labelled. -/
theorem Labelled.upkeep (h : Labelled db) (hup : Committer.Upkeep keep db db') : Labelled db' := by
  induction hup with
  | refl => exact h
  | store _ hsettled hckpt ih => exact ih.commit (fun v hv ↦ ih.level v (hsettled ▸ hv)) hckpt
  | savepoint _ ih => exact ih.savepoint
  | row _ hm hpos _ ih => exact ih.checkpoint hm hpos
  | checkpoint _ hm hpos _ ih => exact (ih.checkpoint hm hpos).delete _

/-! ## Calls -/

section

variable [Crypto] {cfg : StoreConfig} {b : BlockToCommit} {blocks : List BlockToCommit}

/-- What a block does to the tip and the watermark. -/
theorem AppliesOne.core (h : AppliesOne cfg b v v') :
    v'.core.tip = ⟨b.hash, b.height, b.chainwork⟩ ∧ v'.core.hdrWatermark = b.height + 1 := by
  obtain ⟨readHeader, t, m, t', m', rfl, rfl, hinputs, happ⟩ := h
  obtain ⟨_, _, _, _, _, heq, -, -⟩ := applyBlock_eq readHeader cfg t m
    (Committer.aligned_of_checkBlockInputs hinputs)
  rw [happ] at heq
  cases heq
  exact ⟨rfl, rfl⟩

theorem AppliesOne.level (h : AppliesOne cfg b v v') : v'.Level := by
  obtain ⟨htip, hwm⟩ := h.core
  intro
  rw [htip, hwm]

/-- An extend goes up from the watermark. -/
theorem Grows.climbs (h : Grows cfg v db blocks v' db') (hlevel : v.Level) (hdb : Labelled db) :
    v'.Level ∧ v'.core.hdrWatermark = v.core.hdrWatermark + blocks.length ∧
      Climbs v.core.hdrWatermark blocks ∧ Labelled db' := by
  induction h with
  | refl => exact ⟨hlevel, rfl, rfl, hdb⟩
  | block _ hheight hone ih =>
    obtain ⟨-, hwm, hclimbs, hdb'⟩ := ih
    rw [hwm] at hheight
    refine ⟨hone.level, ?_, hclimbs.append (.singleton hheight), hdb'⟩
    rw [hone.core.2, hheight, List.length_append, Nat.add_assoc]
    rfl
  | commit _ hsettled hckpt ih =>
    obtain ⟨hlevel', hwm, hclimbs, hdb'⟩ := ih
    refine ⟨hlevel', hwm, hclimbs, hdb'.commit (fun v₁ hv₁ ↦ ?_) hckpt⟩
    exact Option.some.inj (hsettled.symm.trans hv₁) ▸ hlevel'
  | upkeep _ _ hup ih =>
    obtain ⟨hlevel', hwm, hclimbs, hdb'⟩ := ih
    exact ⟨hlevel', hwm, hclimbs, hdb'.upkeep hup⟩

/-- The blocks of a branch leave their last height. -/
theorem Applied.climbs {n : Nat} (h : Applied cfg v blocks v') (hlevel : v.Level)
    (hwm : v.core.hdrWatermark = n) (hclimbs : Climbs n blocks) :
    v'.Level ∧ v'.core.hdrWatermark = n + blocks.length := by
  induction h with
  | nil => exact ⟨hlevel, hwm⟩
  | @snoc blocks b v' v'' _ hone =>
    have hheight : b.height = n + blocks.length := hclimbs.getElem? (by simp)
    refine ⟨hone.level, ?_⟩
    rw [hone.core.2, hheight, List.length_append, Nat.add_assoc]
    rfl

/-- A reorg forks at a height of the chain and starts over above it. -/
theorem Reorged.climbs {plan : ReorgPlan} (h : Reorged cfg plan v v') (hlevel : v.Level)
    (hpos : 0 < v.core.hdrWatermark) :
    plan.forkHeight + 1 ≤ v.core.hdrWatermark ∧ Climbs (plan.forkHeight + 1) plan.apply ∧
      v'.Level ∧ v'.core.hdrWatermark = plan.forkHeight + 1 + plan.apply.length := by
  obtain ⟨m, replayFloor, hcore, hchecked⟩ := h.checked
  have hfacts := planFacts hchecked
  have htip : m.tip.height + 1 = v.core.hdrWatermark := by
    rw [← hlevel hpos, ← hcore]
    rfl
  have hclimbs : Climbs (plan.forkHeight + 1) plan.apply := by
    refine List.ext_getElem ?_ fun i hi hi' ↦ ?_
    · rw [List.length_map, List.length_range']
    · rw [List.length_map] at hi
      rw [List.getElem_map, List.getElem_range', Nat.one_mul]
      have := hfacts.height (plan.apply.take i) plan.apply[i] (by
        rw [List.take_append_getElem]
        exact List.take_prefix _ _)
      rwa [List.length_take_of_le hi.le] at this
  obtain ⟨t, m', t₁, m₁, -, -, happ⟩ := h.unwound
  have hnext := happ.climbs (fun _ ↦ rfl) rfl hclimbs
  exact ⟨htip ▸ Nat.succ_le_succ hfacts.fork_le, hclimbs, hnext⟩

/-- A checkpoint that is restored has its height. -/
theorem Labelled.restores {rewindTo : Nat} {flushed : Db} {saved : Tables} (h : Labelled db)
    (hlevel : v.Level) (hre : Committer.Restores cfg rewindTo v db flushed saved db') :
    Labelled db' ∧ ∀ v₁, saved.settled = some v₁ → v₁.Level ∧ v₁.core.hdrWatermark = rewindTo + 1 := by
  cases hre with
  | @intro id _ hgrows _ hrow hsaved =>
    obtain ⟨-, -, -, hflushed⟩ := hgrows.climbs hlevel h
    have hnamed := hflushed.row rewindTo id hrow
    obtain ⟨v₀, hv₀, hlevel₀, hwm₀⟩ := hnamed.2 saved hsaved
    have hshown : ∀ v₁, saved.settled = some v₁ → v₁ = v₀ :=
      fun v₁ hv₁ ↦ Option.some.inj (hv₁.symm.trans hv₀)
    obtain ⟨hid, hold⟩ := hflushed.saved id saved hsaved
    have hkept : ∀ {k j}, Named flushed k j → Named (flushed.restoreSavepoint id
        { saved with stateCkpt := saved.stateCkpt.insert rewindTo id }) k j := by
      refine fun hn ↦ hn.mono le_rfl fun t ht ↦ ?_
      rw [lookup_restoreSavepoint] at ht
      split at ht
      case isTrue => cases ht
      case isFalse => exact ht
    refine ⟨⟨fun v₁ hv₁ ↦ ?_, fun k j hj ↦ ?_, fun j t hj ↦ ?_⟩, fun v₁ hv₁ ↦ ?_⟩
    · exact hshown v₁ hv₁ ▸ hlevel₀
    · rcases eq_or_ne k rewindTo with rfl | hne
      · obtain rfl : id = j := Option.some.inj ((AList.lookup_insert _).symm.trans hj)
        exact hkept hnamed
      · exact hkept (hold k j ((AList.lookup_insert_ne hne).symm.trans hj))
    · rw [lookup_restoreSavepoint] at hj
      split at hj
      case isTrue => cases hj
      obtain ⟨hlt, hrows⟩ := hflushed.saved j t hj
      exact ⟨hlt, fun k i hi ↦ hkept (hrows k i hi)⟩
    · exact hshown v₁ hv₁ ▸ ⟨hlevel₀, hwm₀⟩

namespace Committer

variable {c c' : Committer}

/-- A committer whose tip and checkpoints have their heights. -/
structure Ranged (c : Committer) : Prop where
  tidy : c.Tidy
  level : c.view.Level
  labelled : Labelled c.disk.db

omit [Crypto] in
theorem ranged_fresh (cfg : StoreConfig) : (Committer.fresh cfg).Ranged where
  tidy := ⟨fun _ ↦ ⟨_, rfl, rfl⟩, rfl, rfl⟩
  level := fun h ↦ absurd h (lt_irrefl 0)
  labelled := by
    refine ⟨?_, ?_, ?_⟩
    · rintro v ⟨⟩ h
      exact absurd h (lt_irrefl 0)
    · rintro k id ⟨⟩
    · rintro i t ⟨⟩

/-- Extending goes up from the watermark. -/
theorem Ranged.grown (h : c.Ranged) (hg : c.Grown blocks c') :
    c'.Ranged ∧ c'.info.hdrWatermark = c.info.hdrWatermark + blocks.length ∧
      Climbs c.info.hdrWatermark blocks := by
  obtain ⟨hlevel, hwm, hclimbs, hdb⟩ := hg.grows.climbs h.level h.labelled
  exact ⟨⟨hg.tidy, hlevel, hdb⟩, hwm, hclimbs⟩

/-- An extend that goes through goes up from the watermark. -/
theorem Ranged.extend (h : c.Ranged) (hok : (extend blocks c).result = .ok ()) :
    (extend blocks c).state.Ranged ∧
      (extend blocks c).state.info.hdrWatermark = c.info.hdrWatermark + blocks.length ∧
      Climbs c.info.hdrWatermark blocks := by
  rcases (extend_spec h.tidy blocks).cases with ⟨_, -, hg, -⟩ | ⟨e, hres, -⟩
  · exact h.grown hg
  · cases hok.symm.trans hres

/-- A flush leaves the watermark where it is. -/
theorem Ranged.flush (h : c.Ranged) :
    (flush c).state.Ranged ∧ (flush c).state.info.hdrWatermark = c.info.hdrWatermark := by
  rcases (sealBatch_spec h.tidy).cases with ⟨_, -, hs⟩ | ⟨_, -, hs, -⟩
  · obtain ⟨hr, hwm, -⟩ := h.grown (hs.grown h.tidy)
    exact ⟨hr, hwm⟩
  · have heq : (Committer.flush c).state = c := hs
    rw [heq]
    exact ⟨h, rfl⟩

/-- A reorg that goes through forks at a height of the chain and starts over above it. -/
theorem Ranged.reorg {plan : ReorgPlan} (h : c.Ranged) (hpos : 0 < c.info.hdrWatermark)
    (hok : (reorg plan c).result = .ok ()) :
    (reorg plan c).state.Ranged ∧ plan.forkHeight + 1 ≤ c.info.hdrWatermark ∧
      Climbs (plan.forkHeight + 1) plan.apply ∧
      (reorg plan c).state.info.hdrWatermark = plan.forkHeight + 1 + plan.apply.length := by
  rcases (reorg_spec h.tidy plan).cases with ⟨_, -, hre, htidy, -, -⟩ | ⟨e, hres, -⟩
  · generalize (Committer.reorg plan c).state = c' at *
    generalize hv : c'.view = v' at hre
    generalize hd : c'.disk.db = d' at hre
    cases hre with
    | intro hgrows hflushed hup₁ hckpt₁ hre hsettled hckpt hup =>
      obtain ⟨hfork, hclimbs, hlevel, hwm⟩ := hre.climbs h.level hpos
      obtain ⟨-, -, -, hdb⟩ := hgrows.climbs h.level h.labelled
      subst hv hd
      refine ⟨⟨htidy, hlevel, ?_⟩, hfork, hclimbs, hwm⟩
      refine Labelled.upkeep ((hdb.upkeep hup₁).commit (fun v₁ hv₁ ↦ ?_) hckpt) hup
      exact Option.some.inj (hsettled.symm.trans hv₁) ▸ hlevel
  · cases hok.symm.trans hres

/-- What a deep reorg checks of its plan. -/
theorem deepReorg_checked {plan : DeepReorgPlan} (hok : (deepReorg plan c).result = .ok ()) :
    plan.rewindTo ≤ plan.forkHeight ∧ plan.replay.length = plan.forkHeight - plan.rewindTo := by
  have hgo : (deepReorg plan).wp (fun _ ↦ True) (fun _ _ ↦ plan.rewindTo ≤ plan.forkHeight ∧
      plan.replay.length = plan.forkHeight - plan.rewindTo) (fun _ _ ↦ True) c := by
    unfold deepReorg restoreCheckpoint guard
    simp only [Prog.wp_bind, Prog.wp_peek, Prog.wp_require]
    refine ⟨fun _ ↦ Prog.wp_self.imp (fun _ _ ↦ trivial) (fun _ c₁ _ ↦ ?_) fun _ _ _ ↦ trivial,
      fun _ ↦ trivial⟩
    simp only [Prog.wp_bind, Prog.wp_peek, Prog.wp_require]
    refine ⟨fun hfork ↦ ⟨fun _ ↦ ⟨fun hreplay ↦ ?_, fun _ ↦ trivial⟩, fun _ ↦ trivial⟩,
      fun _ ↦ trivial⟩
    refine Prog.wp_bind.mp (Prog.wp_bind.mp ?_)
    exact Prog.wp_self.imp (fun _ _ ↦ trivial) (fun _ _ _ ↦ ⟨hfork, hreplay⟩) fun _ _ _ ↦ trivial
  rcases hgo.cases with ⟨_, -, h⟩ | ⟨e, hres, -⟩
  · exact h
  · cases hok.symm.trans hres

/-- A deep reorg that goes through starts over above its checkpoint. -/
theorem Ranged.deepReorg {plan : DeepReorgPlan} (h : c.Ranged)
    (hok : (deepReorg plan c).result = .ok ()) :
    (deepReorg plan c).state.Ranged ∧ Climbs (plan.rewindTo + 1) (plan.replay ++ plan.apply) ∧
      (deepReorg plan c).state.info.hdrWatermark =
        plan.rewindTo + 1 + (plan.replay ++ plan.apply).length := by
  rcases (deepReorg_spec h.tidy).cases with ⟨_, -, htidy, -, -, saved, db, v, hre, hsettled, hgrows⟩ |
    ⟨e, hres, -⟩
  · obtain ⟨hdb, hsaved⟩ := h.labelled.restores h.level hre
    obtain ⟨hlevel, hwm⟩ := hsaved v hsettled
    obtain ⟨hlevel', hwm', hclimbs, hdb'⟩ := hgrows.climbs hlevel hdb
    rw [hwm] at hwm' hclimbs
    exact ⟨⟨htidy, hlevel', hdb'⟩, hclimbs, hwm'⟩
  · cases hok.symm.trans hres

end Committer

end

end Plaine.Storage

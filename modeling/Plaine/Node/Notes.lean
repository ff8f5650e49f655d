import Plaine.Consensus.Blake3
import Plaine.Node.Sink
import Plaine.Storage.Heights

/-!
# The note index over a run

What the note index holds once blocks and reorgs have been committed: the announcements of those
blocks of the chain that `commit_block` brought, numbered from the lowest.  A branch that comes in
by a reorg is dropped from the index right after it is added.
-/

namespace Plaine.Node

open Plaine.Lib Plaine.Consensus Plaine.Storage
open Plaine.Chain (CommitBlock ReorgCommit DeepReorgCommit SinkError)

/-- Notes with consecutive numbers. -/
def numbered (rows : List Note) : List Note := rows.zipIdx.map fun n ↦ { n.1 with seq := n.2 }

theorem length_numbered (rows : List Note) : (numbered rows).length = rows.length := by
  rw [numbered, List.length_map, List.length_zipIdx]

theorem numbered_append_singleton (rows : List Note) (n : Note) :
    numbered (rows ++ [n]) = numbered rows ++ [{ n with seq := rows.length }] := by
  unfold numbered
  rw [List.zipIdx_append, List.map_append, Nat.zero_add]
  rfl

/-- Dropping by height leaves the numbers to be given anew. -/
theorem rollbackAbove_numbered (rows : List Note) (fork : Nat) :
    rollbackAbove (numbered rows) fork = numbered (rows.filter (·.height ≤ fork)) := by
  have hfilter : ∀ (k : Nat) (l : List Note), ∃ seqs : List Nat,
      ((l.zipIdx k).map fun n ↦ { n.1 with seq := n.2 }).filter (·.height ≤ fork) =
        (l.filter (·.height ≤ fork)).zipWith (fun n i ↦ { n with seq := i }) seqs ∧
      seqs.length = (l.filter (·.height ≤ fork)).length := by
    intro k l
    induction l generalizing k with
    | nil => exact ⟨[], rfl, rfl⟩
    | cons n l ih =>
      obtain ⟨seqs, heq, hlen⟩ := ih (k + 1)
      by_cases hn : n.height ≤ fork
      · refine ⟨k :: seqs, ?_, ?_⟩
        · rw [List.zipIdx_cons, List.map_cons, List.filter_cons_of_pos (by simpa using hn), heq,
            List.filter_cons_of_pos (by simpa using hn)]
          rfl
        · rw [List.filter_cons_of_pos (by simpa using hn), List.length_cons, hlen, List.length_cons]
      · refine ⟨seqs, ?_, ?_⟩
        · rw [List.zipIdx_cons, List.map_cons, List.filter_cons_of_neg (by simpa using hn), heq,
            List.filter_cons_of_neg (by simpa using hn)]
        · rw [List.filter_cons_of_neg (by simpa using hn), hlen]
  obtain ⟨seqs, heq, hlen⟩ := hfilter 0 rows
  show numbered ((numbered rows).filter _) = _
  rw [numbered, numbered, heq]
  refine List.ext_getElem ?_ fun i hi hi' ↦ ?_
  · simp [numbered, hlen]
  · simp [numbered]

section

variable [Crypto]

/-- The note of a transaction, if it is an announcement. -/
def noteOf (height : Nat) (record : Bytes) : Option Note :=
  match decodeTx record with
  | .ok (.announcement a) =>
    match a.txid with
    | .ok txid => some ⟨0, height, txid, 0, a.encoding, a.payload⟩
    | .error _ => none
  | _ => none

/-- The announcements a block lists, in the order of its body. -/
def announcements (b : BlockToCommit) : List Note :=
  match BlockBody.parse b.body with
  | .ok body => body.records.filterMap (noteOf b.height)
  | .error _ => []

theorem height_of_noteOf {height : Nat} {record : Bytes} {n : Note}
    (h : noteOf height record = some n) : n.height = height := by
  unfold noteOf at h
  split at h
  · split at h
    · exact Option.some.inj h ▸ rfl
    · cases h
  · cases h

theorem height_of_mem_announcements {b : BlockToCommit} {n : Note} (h : n ∈ announcements b) :
    n.height = b.height := by
  unfold announcements at h
  split at h
  · obtain ⟨record, -, hn⟩ := List.mem_filterMap.mp h
    exact height_of_noteOf hn
  · cases h

/-- One transaction of a block is numbered after those before. -/
theorem noteTx_numbered (height : Nat) (rows : List Note) (record : Bytes) :
    noteTx height (numbered rows) record = numbered (rows ++ (noteOf height record).toList) := by
  have hnone : numbered rows = numbered (rows ++ (none : Option Note).toList) :=
    (congrArg numbered (List.append_nil rows)).symm
  unfold noteTx noteOf
  cases decodeTx record with
  | error e => exact hnone
  | ok tx =>
    cases tx with
    | announcement a =>
      dsimp only
      cases a.txid with
      | error e => exact hnone
      | ok txid =>
        dsimp only
        rw [length_numbered, Option.toList_some, numbered_append_singleton]
    | coinbase _ | transfer _ => exact hnone

/-- A block's announcements are numbered after those before. -/
theorem onBlock_numbered (rows : List Note) (b : BlockToCommit) :
    onBlock (numbered rows) b.height b.body = numbered (rows ++ announcements b) := by
  unfold onBlock announcements
  cases BlockBody.parse b.body with
  | error e => exact (congrArg numbered (List.append_nil rows)).symm
  | ok body =>
    dsimp only
    induction body.records generalizing rows with
    | nil => exact (congrArg numbered (List.append_nil rows)).symm
    | cons record records ih =>
      rw [List.foldl_cons, noteTx_numbered, ih, List.append_assoc]
      cases hnote : noteOf b.height record with
      | none => rw [List.filterMap_cons_none hnote]; rfl
      | some n => rw [List.filterMap_cons_some hnote]; rfl

theorem foldl_onBlock_numbered (rows : List Note) (apply : List CommitBlock) :
    apply.foldl (fun notes b ↦ onBlock notes b.height b.body) (numbered rows) =
      numbered (rows ++ (apply.map toPlan).flatMap announcements) := by
  induction apply generalizing rows with
  | nil => exact (congrArg numbered (List.append_nil rows)).symm
  | cons b apply ih =>
    have hb : onBlock (numbered rows) b.height b.body = numbered (rows ++ announcements (toPlan b)) :=
      onBlock_numbered rows (toPlan b)
    rw [List.foldl_cons, hb, ih, List.append_assoc]
    rfl

/-! ## Runs -/

/-- A block of the chain, and whether `commit_block` brought it. -/
structure Placed where
  block : BlockToCommit
  extended : Bool

/-- A call of the sink. -/
inductive SinkCall where
  | commitBlock (b : CommitBlock)
  | commitReorg (p : ReorgCommit)
  | commitDeepReorg (p : DeepReorgCommit)
  | flush

namespace SinkCall

/-- The method of the sink a call is of. -/
def run : SinkCall → SinkOp Unit
  | .commitBlock b => do let _ ← CommitSink.commitBlock b
  | .commitReorg p => do let _ ← CommitSink.commitReorg p
  | .commitDeepReorg p => do let _ ← CommitSink.commitDeepReorg p
  | .flush => CommitSink.flush

/-- A deep reorg rewinds to a height of the chain. -/
def Rewinds (bs : List Placed) : SinkCall → Prop
  | .commitDeepReorg p => p.rewindTo < bs.length
  | _ => True

/-- The chain a call leaves that is committed. -/
def place (bs : List Placed) : SinkCall → List Placed
  | .commitBlock b => bs ++ [⟨toPlan b, true⟩]
  | .commitReorg p => bs.take (reorgFork p + 1) ++ p.apply.map fun b ↦ ⟨toPlan b, false⟩
  | .commitDeepReorg p => bs.take (p.rewindTo + 1) ++ p.apply.map fun b ↦ ⟨toPlan b, false⟩
  | .flush => bs

end SinkCall

/-- A sink reached by committed calls from an empty store with a genesis block, and the chain. -/
inductive Committed (cfg : StoreConfig) (genesis : BlockToCommit) : CommitSink → List Placed → Prop
  | start : (CommitSink.start genesis (.fresh cfg)).1 = .ok () →
      Committed cfg genesis (CommitSink.start genesis (.fresh cfg)).2 [⟨genesis, false⟩]
  | call {s : CommitSink} {bs : List Placed} (call : SinkCall) : Committed cfg genesis s bs →
      call.Rewinds bs → (call.run s).result = .ok () →
      Committed cfg genesis (call.run s).state (call.place bs)

/-- The announcements of a chain, numbered from the lowest. -/
def announced (bs : List Placed) : List Note := numbered (bs.flatMap fun p ↦ announcements p.block)

/-- The blocks of a chain that `commit_block` brought. -/
def extended (bs : List Placed) : List Placed := bs.filter (·.extended)

omit [Crypto] in
theorem extended_branch (apply : List CommitBlock) :
    extended (apply.map fun b ↦ ⟨toPlan b, false⟩) = [] :=
  List.filter_eq_nil_iff.mpr fun p hp ↦ by
    obtain ⟨b, -, rfl⟩ := List.mem_map.mp hp
    exact Bool.false_ne_true

/-! ## What a run keeps -/

/-- The announcements of the blocks up to a fork are those a rollback keeps. -/
theorem filter_announcements {bs bs' : List Placed} {fork : Nat}
    (hlow : ∀ p ∈ bs, p.block.height ≤ fork) (hhigh : ∀ p ∈ bs', fork < p.block.height) :
    ((bs ++ bs').flatMap fun p ↦ announcements p.block).filter (·.height ≤ fork) =
      bs.flatMap fun p ↦ announcements p.block := by
  rw [List.flatMap_append, List.filter_append, List.filter_eq_self.mpr, List.filter_eq_nil_iff.mpr,
    List.append_nil]
  · intro n hn
    obtain ⟨p, hp, hn⟩ := List.mem_flatMap.mp hn
    rw [height_of_mem_announcements hn]
    simpa using hhigh p hp
  · intro n hn
    obtain ⟨p, hp, hn⟩ := List.mem_flatMap.mp hn
    rw [height_of_mem_announcements hn]
    simpa using hlow p hp

/-- A sink and the chain it has committed: the note index holds what `commit_block` brought. -/
structure Kept (s : CommitSink) (bs : List Placed) : Prop where
  ranged : s.committer.Ranged
  watermark : s.committer.info.hdrWatermark = bs.length
  climbs : Climbs 0 (bs.map (·.block))
  nonempty : bs ≠ []
  notes : s.notes = announced (extended bs)

namespace Kept

open Prog

variable {s : CommitSink} {bs : List Placed}

/-- A part of the sink that leaves the chain and the note index alone. -/
theorem congr {s' : CommitSink} (h : Kept s bs) (hranged : s'.committer.Ranged)
    (hwm : s'.committer.info.hdrWatermark = s.committer.info.hdrWatermark)
    (hnotes : s'.notes = s.notes) : Kept s' bs :=
  ⟨hranged, hwm.trans h.watermark, h.climbs, h.nonempty, hnotes.trans h.notes⟩

omit [Crypto] in
theorem wp_storage {α : Type} {op : Op α} {Q : α → CommitSink → Prop} :
    (CommitSink.storage op).wp (fun _ ↦ True) Q (fun _ _ ↦ True) s ↔
      ∀ a, (op s.committer).result = .ok a → Q a { s with committer := (op s.committer).state } := by
  unfold CommitSink.storage wp
  dsimp only
  cases hres : (op s.committer).result with
  | ok a =>
    refine ⟨?_, fun h ↦ ⟨fun _ _ ↦ trivial, h a rfl⟩⟩
    rintro ⟨-, h⟩ a' ⟨⟩
    exact h
  | error e =>
    refine ⟨?_, fun _ ↦ ⟨fun _ _ ↦ trivial, trivial⟩⟩
    rintro - a ⟨⟩

/-- Flushing the committer. -/
theorem storage_flush (h : Kept s bs) : (CommitSink.storage Committer.flush).wp (fun _ ↦ True)
    (fun _ s' ↦ Kept s' bs ∧ s'.committer.info.hdrWatermark = s.committer.info.hdrWatermark)
    (fun _ _ ↦ True) s := by
  rw [wp_storage]
  intro _ _
  obtain ⟨hranged, hwm⟩ := h.ranged.flush
  exact ⟨h.congr hranged hwm rfl, hwm⟩

theorem afterWrite (h : Kept s bs) :
    CommitSink.afterWrite.wp (fun _ ↦ True) (fun _ s' ↦ Kept s' bs) (fun _ _ ↦ True) s := by
  unfold CommitSink.afterWrite CommitSink.onRing
  rw [wp_bind, wp_peek, wp_alter]
  exact h.congr h.ranged rfl rfl

/-- The heights of a chain with a branch on the part up to its fork. -/
theorem climbs_branch (h : Kept s bs) {fork : Nat} {apply : List CommitBlock}
    (hfork : fork + 1 ≤ bs.length) (hclimbs : Climbs (fork + 1) (apply.map toPlan)) :
    Climbs 0 ((bs.take (fork + 1) ++ apply.map fun b ↦ (⟨toPlan b, false⟩ : Placed)).map (·.block)) := by
  rw [List.map_append, List.map_take, List.map_map]
  refine h.climbs.take.append ?_
  rwa [List.length_take_of_le (by rwa [List.length_map]), Nat.zero_add]

/-- The note index after a branch: its announcements go with those of the blocks it replaces. -/
theorem notes_branch (h : Kept s bs) {fork : Nat} {apply : List CommitBlock}
    (hclimbs : Climbs (fork + 1) (apply.map toPlan)) :
    rollbackAbove (apply.foldl (fun notes b ↦ onBlock notes b.height b.body) s.notes) fork =
      announced (extended (bs.take (fork + 1) ++ apply.map fun b ↦ ⟨toPlan b, false⟩)) := by
  have hheight : ∀ {i : Nat} {p : Placed}, bs[i]? = some p → p.block.height = i := by
    intro i p hp
    have := h.climbs.getElem? (i := i) (b := p.block) (by rw [List.getElem?_map, hp]; rfl)
    rwa [Nat.zero_add] at this
  have hlow : ∀ p ∈ extended (bs.take (fork + 1)), p.block.height ≤ fork := by
    intro p hp
    obtain ⟨i, hi⟩ := List.mem_iff_getElem?.mp (List.mem_filter.mp hp).1
    rw [List.getElem?_take] at hi
    split at hi
    case isTrue hlt => exact (hheight hi).trans_le (Nat.le_of_lt_succ hlt)
    case isFalse => cases hi
  have hdrop : ∀ p ∈ extended (bs.drop (fork + 1)), fork < p.block.height := by
    intro p hp
    obtain ⟨i, hi⟩ := List.mem_iff_getElem?.mp (List.mem_filter.mp hp).1
    rw [List.getElem?_drop] at hi
    rw [hheight hi]
    omega
  have hhigh : ∀ p ∈ extended (bs.drop (fork + 1)) ++ apply.map (fun b ↦ ⟨toPlan b, false⟩),
      fork < p.block.height := by
    intro p hp
    rcases List.mem_append.mp hp with hp | hp
    · exact hdrop p hp
    · obtain ⟨b, hb, rfl⟩ := List.mem_map.mp hp
      obtain ⟨i, hi⟩ := List.mem_iff_getElem?.mp (List.mem_map_of_mem (f := toPlan) hb)
      have := hclimbs.getElem? hi
      show fork < (toPlan b).height
      omega
  have hsplit : extended bs = extended (bs.take (fork + 1)) ++ extended (bs.drop (fork + 1)) := by
    unfold extended
    rw [← List.filter_append, List.take_append_drop]
  have hfilter := filter_announcements hlow hhigh
  rw [← List.append_assoc, ← hsplit, List.flatMap_append, List.flatMap_map] at hfilter
  have hbranch : extended (bs.take (fork + 1) ++ apply.map fun b ↦ ⟨toPlan b, false⟩) =
      extended (bs.take (fork + 1)) := by
    unfold extended
    rw [List.filter_append]
    exact (congrArg _ (extended_branch apply)).trans (List.append_nil _)
  rw [hbranch, h.notes, announced, foldl_onBlock_numbered, rollbackAbove_numbered, List.flatMap_map,
    hfilter]
  rfl

/-- A branch that is committed above a fork. -/
theorem reorgDone (h : Kept s bs) {s' : CommitSink} {fork : Nat} {apply : List CommitBlock}
    (hranged : s'.committer.Ranged) (hnotes : s'.notes = s.notes) (hfork : fork + 1 ≤ bs.length)
    (hclimbs : Climbs (fork + 1) (apply.map toPlan))
    (hwm : s'.committer.info.hdrWatermark = fork + 1 + apply.length) :
    (CommitSink.reorgDone fork apply).wp (fun _ ↦ True) (fun _ s'' ↦
      Kept s'' (bs.take (fork + 1) ++ apply.map fun b ↦ ⟨toPlan b, false⟩)) (fun _ _ ↦ True) s' := by
  unfold CommitSink.reorgDone CommitSink.onNotes
  simp only [wp_bind, wp_peek, wp_alter, wp_pure]
  refine ⟨hranged, ?_, h.climbs_branch hfork hclimbs, ?_, ?_⟩
  · rw [List.length_append, List.length_take_of_le hfork, List.length_map]
    exact hwm
  · refine List.append_ne_nil_of_left_ne_nil (List.ne_nil_of_length_pos ?_) _
    rw [List.length_take_of_le hfork]
    exact Nat.succ_pos _
  · show rollbackAbove (apply.foldl _ s'.notes) fork = _
    rw [hnotes]
    exact h.notes_branch hclimbs

/-- A block that is committed goes on top, with its announcements. -/
theorem commitBlock (h : Kept s bs) (b : CommitBlock) :
    (CommitSink.commitBlock b).wp (fun _ ↦ True) (fun _ s' ↦ Kept s' (bs ++ [⟨toPlan b, true⟩]))
      (fun _ _ ↦ True) s := by
  have hbound : CommitSink.enforceBound.wp (fun _ ↦ True) (fun _ s' ↦ Kept s' bs)
      (fun _ _ ↦ True) s := by
    unfold CommitSink.enforceBound
    rw [wp_bind, wp_peek, wp_ite, wp_pure]
    exact ⟨fun _ ↦ h.storage_flush.imp (fun _ _ ↦ trivial) (fun _ _ h ↦ h.1) fun _ _ _ ↦ trivial,
      fun _ ↦ h⟩
  unfold CommitSink.commitBlock
  rw [wp_bind]
  refine hbound.imp (fun _ _ ↦ trivial) (fun _ s₁ h₁ ↦ ?_) fun _ _ _ ↦ trivial
  rw [wp_bind, CommitSink.onRing, wp_alter, wp_bind, wp_storage]
  intro _ hok
  obtain ⟨hranged, hwm, hclimbs⟩ := h₁.ranged.extend hok
  have hkept : ∀ s' : CommitSink, s'.committer = (Committer.extend [toPlan b] s₁.committer).state →
      s'.notes = onBlock s₁.notes b.height b.body → Kept s' (bs ++ [⟨toPlan b, true⟩]) := by
    intro s' hcommitter hnotes
    refine ⟨hcommitter ▸ hranged, ?_, ?_, List.append_ne_nil_of_left_ne_nil h₁.nonempty _, ?_⟩
    · rw [hcommitter, List.length_append, ← h₁.watermark]
      exact hwm
    · rw [List.map_append]
      refine h₁.climbs.append ?_
      rw [Nat.zero_add, List.length_map, ← h₁.watermark]
      exact hclimbs
    · rw [hnotes, h₁.notes]
      refine (onBlock_numbered _ (toPlan b)).trans ?_
      unfold announced extended
      rw [List.filter_append, List.flatMap_append, List.filter_cons_of_pos rfl, List.filter_nil,
        List.flatMap_singleton]
  rw [wp_bind, wp_peek, wp_bind, CommitSink.onNotes, wp_alter, wp_bind]
  exact (hkept _ rfl rfl).afterWrite.imp (fun _ _ ↦ trivial) (fun _ _ h ↦ wp_pure.mpr h)
    fun _ _ _ ↦ trivial

/-- A reorg that is committed takes the place of what is above its fork, without its
announcements. -/
theorem commitReorg (h : Kept s bs) (p : ReorgCommit) :
    (CommitSink.commitReorg p).wp (fun _ ↦ True) (fun _ s' ↦
      Kept s' (bs.take (reorgFork p + 1) ++ p.apply.map fun b ↦ ⟨toPlan b, false⟩))
      (fun _ _ ↦ True) s := by
  unfold CommitSink.commitReorg
  rw [wp_bind]
  refine h.storage_flush.imp (fun _ _ ↦ trivial) (fun _ s₁ h₁ ↦ ?_) fun _ _ _ ↦ trivial
  obtain ⟨h₁, -⟩ := h₁
  rw [wp_bind, CommitSink.onRing, wp_alter, wp_bind, wp_storage]
  intro _ hok
  have hpos : 0 < s₁.committer.info.hdrWatermark := by
    rw [h₁.watermark]
    exact List.length_pos_iff.mpr h₁.nonempty
  obtain ⟨hranged, hfork, hclimbs, hwm⟩ := h₁.ranged.reorg hpos hok
  rw [List.length_map] at hwm
  exact h₁.reorgDone hranged rfl (h₁.watermark ▸ hfork) hclimbs hwm

/-- A deep reorg that is committed takes the place of what is above its checkpoint, without its
announcements. -/
theorem commitDeepReorg (h : Kept s bs) (p : DeepReorgCommit) (hrewinds : p.rewindTo < bs.length) :
    (CommitSink.commitDeepReorg p).wp (fun _ ↦ True) (fun _ s' ↦
      Kept s' (bs.take (p.rewindTo + 1) ++ p.apply.map fun b ↦ ⟨toPlan b, false⟩))
      (fun _ _ ↦ True) s := by
  unfold CommitSink.commitDeepReorg
  rw [wp_bind]
  refine h.storage_flush.imp (fun _ _ ↦ trivial) (fun _ s₁ h₁ ↦ ?_) fun _ _ _ ↦ trivial
  obtain ⟨h₁, -⟩ := h₁
  rw [wp_bind, CommitSink.onRing, wp_alter, wp_bind, wp_storage]
  intro _ hok
  obtain ⟨hranged, hclimbs, hwm⟩ := h₁.ranged.deepReorg hok
  obtain ⟨hle, hreplay⟩ := Committer.deepReorg_checked hok
  rw [List.nil_append] at hclimbs hwm
  rw [List.length_map] at hwm
  -- Nothing is replayed, so the fork is the checkpoint.
  have hfork : deepReorgFork p = p.rewindTo := by
    have hle : p.rewindTo ≤ deepReorgFork p := hle
    have hzero : 0 = deepReorgFork p - p.rewindTo := hreplay
    omega
  rw [hfork] at hranged hwm ⊢
  exact h₁.reorgDone hranged rfl hrewinds hclimbs hwm

end Kept

/-- A run keeps the note index together with what `commit_block` brought. -/
theorem Committed.kept {cfg : StoreConfig} {genesis : BlockToCommit} {s : CommitSink}
    {bs : List Placed} (h : Committed cfg genesis s bs) : Kept s bs := by
  induction h with
  | start hok =>
    have hgo : (do
        Committer.extend [genesis]
        Committer.flush : Op Unit).wp (fun _ ↦ True) (fun _ c ↦ c.Ranged ∧ c.info.hdrWatermark = 1 ∧
          Climbs 0 [genesis]) (fun _ _ ↦ True) (.fresh cfg) := by
      rw [Prog.wp_bind]
      refine Prog.wp_self.imp (fun _ _ ↦ trivial) (fun _ c₁ h₁ ↦ ?_) fun _ _ _ ↦ trivial
      obtain ⟨hres, rfl⟩ := h₁
      obtain ⟨hranged, hwm, hclimbs⟩ := (Committer.ranged_fresh cfg).extend hres
      refine Prog.wp_self.imp (fun _ _ ↦ trivial) (fun _ c₂ h₂ ↦ ?_) fun _ _ _ ↦ trivial
      obtain ⟨-, rfl⟩ := h₂
      obtain ⟨hranged', hwm'⟩ := hranged.flush
      exact ⟨hranged', hwm'.trans hwm, hclimbs⟩
    rcases hgo.cases with ⟨_, -, hranged, hwm, hclimbs⟩ | ⟨e, hres, -⟩
    · exact ⟨hranged, hwm, hclimbs, List.cons_ne_nil _ _, rfl⟩
    · cases hok.symm.trans hres
  | @call s bs call _ hrewinds hok ih =>
    have hdrop : ∀ {op : SinkOp Chain.TipRef} {Q : CommitSink → Prop},
        op.wp (fun _ ↦ True) (fun _ ↦ Q) (fun _ _ ↦ True) s →
          (do let _ ← op : SinkOp Unit).wp (fun _ ↦ True) (fun _ ↦ Q) (fun _ _ ↦ True) s :=
      fun hop ↦ Prog.wp_bind.mpr (hop.imp (fun _ _ ↦ trivial) (fun _ _ h ↦ Prog.wp_pure.mpr h)
        fun _ _ _ ↦ trivial)
    have hgo : call.run.wp (fun _ ↦ True) (fun _ s' ↦ Kept s' (call.place bs)) (fun _ _ ↦ True) s := by
      cases call with
      | commitBlock b => exact hdrop (ih.commitBlock b)
      | commitReorg p => exact hdrop (ih.commitReorg p)
      | commitDeepReorg p => exact hdrop (ih.commitDeepReorg p hrewinds)
      | flush =>
        refine Prog.wp_bind.mpr (ih.storage_flush.imp (fun _ _ ↦ trivial) (fun _ _ h ↦ ?_)
          fun _ _ _ ↦ trivial)
        exact h.1.afterWrite
    rcases hgo.cases with ⟨_, -, h⟩ | ⟨e, hres, -⟩
    · exact h
    · cases hok.symm.trans hres

/-- Leaving out blocks leaves out none of the announcements only where those blocks have none. -/
theorem announced_extended_iff (bs : List Placed) :
    announced (extended bs) = announced bs ↔
      ∀ p ∈ bs, p.extended = false → announcements p.block = [] := by
  have hsub : ∀ bs : List Placed, List.Sublist ((extended bs).flatMap fun p ↦ announcements p.block)
      (bs.flatMap fun p ↦ announcements p.block) :=
    fun bs ↦ List.filter_sublist.flatMap _
  constructor
  · intro heq
    have hlen := congrArg List.length heq
    rw [announced, announced, length_numbered, length_numbered] at hlen
    clear heq
    induction bs with
    | nil => rintro p ⟨⟩
    | cons q bs ih =>
      have hle := (hsub bs).length_le
      cases hq : q.extended with
      | true =>
        rw [extended, List.filter_cons_of_pos hq, List.flatMap_cons, List.flatMap_cons,
          List.length_append, List.length_append] at hlen
        intro p hp hfalse
        rcases List.mem_cons.mp hp with rfl | hp
        · rw [hq] at hfalse
          cases hfalse
        · exact ih (Nat.add_left_cancel hlen) p hp hfalse
      | false =>
        rw [extended, List.filter_cons_of_neg (by rw [hq]; exact Bool.false_ne_true),
          List.flatMap_cons, List.length_append] at hlen
        change ((extended bs).flatMap _).length = _ at hlen
        intro p hp hfalse
        rcases List.mem_cons.mp hp with rfl | hp
        · exact List.eq_nil_of_length_eq_zero (by omega)
        · exact ih (by omega) p hp hfalse
  · intro hnone
    unfold announced
    congr 1
    induction bs with
    | nil => rfl
    | cons q bs ih =>
      have hih := ih fun p hp ↦ hnone p (List.mem_cons_of_mem _ hp)
      cases hq : q.extended with
      | true =>
        rw [extended, List.filter_cons_of_pos hq, List.flatMap_cons, List.flatMap_cons]
        exact congrArg _ hih
      | false =>
        rw [extended, List.filter_cons_of_neg (by rw [hq]; exact Bool.false_ne_true),
          List.flatMap_cons, hnone q List.mem_cons_self hq, List.nil_append]
        exact hih

/-- In every state reached, the note index holds the announcements of the blocks of the chain that
`commit_block` brought, each once, with consecutive numbers.  That is all the announcements of the
chain if and only if no other block of it, genesis or brought by a reorg, has one. -/
theorem notes_exact_iff {cfg : StoreConfig} {genesis : BlockToCommit} {s : CommitSink}
    {bs : List Placed} (h : Committed cfg genesis s bs) :
    s.notes = announced (extended bs) ∧
      (s.notes = announced bs ↔ ∀ p ∈ bs, p.extended = false → announcements p.block = []) := by
  have hnotes := h.kept.notes
  exact ⟨hnotes, hnotes ▸ announced_extended_iff bs⟩

end

namespace Scene

/-- The primitives. -/
@[reducible]
def crypto : Crypto := .ofSignatures []

/-- A store that keeps no checkpoints. -/
def config : StoreConfig where
  prune := false
  bodyRetainBlocks := 26280
  txindex := false
  stateCkptInterval := 0
  stateCkptKeep := 2
  ibdBatchBlocks := 64
  hashPrefixBytes := 8

/-- A block of a branch that moves no balance. -/
def block (branch height : Nat) (body : Bytes) : CommitBlock where
  headerRaw := .ofNat 132 (branch * 256 + height)
  hash := .ofNat 32 (2 ^ 192 * (branch * 65536 + height))
  height
  body
  deltas := []
  undo := []
  issuedDelta := blockReward height
  chainwork := height
  txids := []

/-- An announcement of one byte. -/
def note : Bytes :=
  txTypeAnnouncement :: (List.replicate 32 7 ++ leBytes 16 1000 ++ leBytes 8 0 ++ [1] ++ leBytes 2 1 ++
    [65] ++ List.replicate 64 0)

/-- A body with the announcement alone. -/
def noteBody : Bytes := leBytes 4 1 ++ leBytes 4 note.length ++ note

def genesis : BlockToCommit := toPlan (block 0 0 [0])

/-- A sink with the genesis block. -/
def begun : Except StoreError Unit × CommitSink :=
  letI := crypto
  CommitSink.start genesis (.fresh config)

/-- A block on top. -/
def grown : Outcome CommitSink Disk SinkError Unit :=
  letI := crypto
  (SinkCall.commitBlock (block 0 1 [1])).run begun.2

/-- The reorg that puts a block with the announcement in its place. -/
def turned : Outcome CommitSink Disk SinkError Unit :=
  letI := crypto
  (SinkCall.commitReorg ⟨[1], [block 1 1 noteBody]⟩).run grown.state

/-- The chain after the reorg. -/
def chain : List Placed := [⟨genesis, false⟩, ⟨toPlan (block 1 1 noteBody), false⟩]

theorem committed_turned : letI := crypto
    Committed config genesis turned.state chain := by
  let _ := crypto
  have hbegun : Committed config genesis begun.2 [⟨genesis, false⟩] := .start (by decide +kernel)
  have hgrown : Committed config genesis grown.state _ :=
    .call (.commitBlock (block 0 1 [1])) hbegun trivial (by decide +kernel)
  exact .call (.commitReorg ⟨[1], [block 1 1 noteBody]⟩) hgrown trivial (by decide +kernel)

end Scene

/-- The announcement of the block that the reorg brings is not in the index. -/
theorem notes_reorg_lost : letI := Scene.crypto
    ¬∀ (cfg : StoreConfig) (genesis : BlockToCommit) (s : CommitSink) (bs : List Placed),
      Committed cfg genesis s bs → s.notes = announced bs := by
  let _ := Scene.crypto
  intro hclaim
  have hnotes := congrArg List.length (hclaim _ _ _ _ Scene.committed_turned)
  have hnone : Scene.turned.state.notes.length = 0 := by decide +kernel
  have hone : (announced Scene.chain).length = 1 := by decide +kernel
  rw [hnone, hone] at hnotes
  cases hnotes

/-- What the index holds after the reorg is what `commit_block` brought. -/
theorem notes_exact_sample : letI := Scene.crypto
    Scene.turned.state.notes = announced (extended Scene.chain) ∧
      (Scene.turned.state.notes = announced Scene.chain ↔
        ∀ p ∈ Scene.chain, p.extended = false → announcements p.block = []) := by
  let _ := Scene.crypto
  exact notes_exact_iff Scene.committed_turned

end Plaine.Node

import Plaine.Storage.Heights
import Plaine.Storage.InStep

/-!
# The transaction index

The rows of the index are written when a block is applied, and no rollback takes them back: a row
tells the place a transaction had in the block applied last that lists it.  Of a transaction that
the chain lists that is its place in the chain, as long as no chain of the run lists it twice.  Of
one that only blocks rolled back list, it is where it was; the node looks at the body there
before it believes the answer.
-/

namespace Plaine.Storage

open Plaine.Lib Plaine.Consensus

/-! ## The reader -/

/-- `txid_key`. -/
def txidKey (txid : Hash32) : Arr 16 := .ofSlice 16 0 txid.bytes

/-- `TxLocation`. -/
inductive TxLocation where
  | found (height index : Nat)
  | notIndexed (indexedFrom : Nat)
  | absent
deriving DecidableEq

/-- `txindex_lookup`, of the tables committed and their metadata. -/
def txindexLookup (t : Tables) (m : Meta) (txid : Hash32) : TxLocation :=
  match m.txindexFrom with
  | none => .notIndexed (2 ^ 64 - 1)
  | some indexedFrom =>
    match t.txindex.lookup (txidKey txid) with
    | some (height, index) =>
      if height < indexedFrom then .notIndexed indexedFrom else .found height index
    | none => .absent

theorem txindexLookup_eq_found {t : Tables} {m : Meta} {txid : Hash32} {height index : Nat} :
    txindexLookup t m txid = .found height index ↔
      (∃ indexedFrom, m.txindexFrom = some indexedFrom ∧ indexedFrom ≤ height) ∧
        t.txindex.lookup (txidKey txid) = some (height, index) := by
  unfold txindexLookup
  cases m.txindexFrom with
  | none =>
    constructor
    · rintro ⟨⟩
    · rintro ⟨⟨_, ⟨⟩, -⟩, -⟩
  | some indexedFrom =>
    cases t.txindex.lookup (txidKey txid) with
    | none =>
      constructor
      · rintro ⟨⟩
      · rintro ⟨-, ⟨⟩⟩
    | some place =>
      dsimp only
      split
      case isTrue hlt =>
        constructor
        · rintro ⟨⟩
        · rintro ⟨⟨_, ⟨⟩, hle⟩, ⟨⟩⟩
          exact absurd hlt hle.not_gt
      case isFalse hge =>
        constructor
        · rintro ⟨⟩
          exact ⟨⟨_, rfl, Nat.le_of_not_lt hge⟩, rfl⟩
        · rintro ⟨-, ⟨⟩⟩
          rfl

/-! ## Places -/

/-- The places at which a block lists a transaction, as the rows hold them. -/
def BlockToCommit.places (txid : Hash32) (b : BlockToCommit) : List (Nat × Nat) :=
  ((b.txids.getD []).zipIdx.filter (·.1 = txid)).map fun id ↦ (b.height, id.2 % 2 ^ 16)

/-- The places at which blocks list a transaction, in the order of the blocks. -/
def places (txid : Hash32) (bs : List BlockToCommit) : List (Nat × Nat) :=
  bs.flatMap (·.places txid)

variable {txid : Hash32} {bs log l : List BlockToCommit} {b : BlockToCommit}

@[simp] theorem places_append : places txid (bs ++ l) = places txid bs ++ places txid l :=
  List.flatMap_append

@[simp] theorem places_singleton : places txid [b] = b.places txid := List.flatMap_singleton _ _

theorem places_sublist (h : bs.Sublist l) : (places txid bs).Sublist (places txid l) := by
  unfold places
  rw [List.flatMap_def, List.flatMap_def]
  exact (h.map _).flatten

/-- The height of the first block that comes with its transactions. -/
def indexedFrom (log : List BlockToCommit) : Option Nat :=
  log.findSome? fun b ↦ b.txids.map fun _ ↦ b.height

/-- No other transaction of the blocks has the key. -/
def OwnKey (txid : Hash32) (blocks : List BlockToCommit) : Prop :=
  ∀ b ∈ blocks, ∀ id ∈ b.txids.getD [], txidKey id = txidKey txid → id = txid

/-- The keys can be looked through. -/
theorem ownKey_of_all (h : ((bs.flatMap (·.txids.getD [])).all fun id ↦
    txidKey id ≠ txidKey txid ∨ id = txid) = true) : OwnKey txid bs := by
  intro b hb id hid hkey
  have hid := List.all_eq_true.mp h id (List.mem_flatMap.mpr ⟨b, hb, hid⟩)
  exact (of_decide_eq_true hid).resolve_left fun hne ↦ hne hkey

/-! ## What the chain does to the rows -/

/-- The index and the chain: a row is the place applied last, and a place of the chain is in force. -/
structure Indexed (txid : Hash32) (v : View) (bs log : List BlockToCommit) : Prop where
  row : v.txindex.lookup (txidKey txid) = (places txid log).getLast?
  start : v.core.txindexFrom = indexedFrom log
  once : (places txid bs).length ≤ 1
  inForce : ∀ p ∈ places txid bs, (places txid log).getLast? = some p

theorem indexed_nil {v : View} (hrow : v.txindex = ∅) (hstart : v.core.txindexFrom = none) :
    Indexed txid v [] [] :=
  ⟨by rw [hrow]; rfl, hstart, Nat.zero_le _, fun p hp ↦ by cases hp⟩

/-- A row is the place in the chain, or the chain has none. -/
theorem Indexed.row_eq_some {v : View} (h : Indexed txid v bs log) {p : Nat × Nat} :
    v.txindex.lookup (txidKey txid) = some p ↔
      p ∈ places txid bs ∨ places txid bs = [] ∧ (places txid log).getLast? = some p := by
  rw [h.row]
  constructor
  · intro hlast
    cases hplaces : places txid bs with
    | nil => exact .inr ⟨rfl, hlast⟩
    | cons q l =>
      have hq : (places txid log).getLast? = some q :=
        h.inForce q (hplaces ▸ List.mem_cons_self)
      obtain rfl : q = p := Option.some.inj (hq.symm.trans hlast)
      exact .inl List.mem_cons_self
  · rintro (hp | ⟨-, hlast⟩)
    · exact h.inForce p hp
    · exact hlast

/-- The rows stay when blocks are rolled back. -/
theorem Indexed.rewind {v v' : View} (h : Indexed txid v bs log) (hrows : v'.txindex = v.txindex)
    (hstart : v'.core.txindexFrom = v.core.txindexFrom) (n : Nat) :
    Indexed txid v' (bs.take n) log where
  row := hrows ▸ h.row
  start := hstart.trans h.start
  once := (places_sublist (List.take_sublist n bs)).length_le.trans h.once
  inForce p hp := h.inForce p ((places_sublist (List.take_sublist n bs)).subset hp)

section

variable [Crypto] {cfg : StoreConfig} {v v' : View} {db db' : Db} {blocks : List BlockToCommit}

/-- What a block does to the row of a transaction, and to the height the index starts at. -/
theorem AppliesOne.txindex (happ : AppliesOne cfg b v v') (htx : cfg.txindex = true)
    (hkey : OwnKey txid [b]) :
    v'.txindex.lookup (txidKey txid) =
        (b.places txid).getLast?.or (v.txindex.lookup (txidKey txid)) ∧
      v'.core.txindexFrom = v.core.txindexFrom.or (b.txids.map fun _ ↦ b.height) := by
  obtain ⟨readHeader, t, m, t', m', rfl, rfl, hinputs, happ⟩ := happ
  obtain ⟨_, _, _, _, _, heq, -, -⟩ := applyBlock_eq readHeader cfg t m
    (Committer.aligned_of_checkBlockInputs hinputs)
  rw [happ] at heq
  cases heq
  show (putTxids cfg.txindex b t m).1.txindex.lookup (txidKey txid) = _ ∧
    (putTxids cfg.txindex b t m).2.txindexFrom = _
  unfold putTxids BlockToCommit.places
  cases hids : b.txids with
  | none => exact ⟨rfl, (Option.or_none).symm⟩
  | some ids =>
    rw [htx]
    refine ⟨?_, rfl⟩
    refine (AList.lookup_foldl_insert (fun id : Hash32 × Nat ↦ txidKey id.1)
      (fun id ↦ (b.height, id.2 % 2 ^ 16)) ids.zipIdx t.txindex (txidKey txid)).trans ?_
    rw [List.getLast?_map]
    -- Among the block's own transactions the key stands for the transaction.
    have hfilter : ids.zipIdx.filter (fun id ↦ txidKey id.1 = txidKey txid) =
        ids.zipIdx.filter (·.1 = txid) := by
      refine List.filter_congr fun id hid ↦ ?_
      have hmem : id.1 ∈ b.txids.getD [] := by
        rw [hids]
        exact List.fst_mem_of_mem_zipIdx hid
      exact decide_eq_decide.mpr ⟨hkey b List.mem_cons_self _ hmem, fun h ↦ h ▸ rfl⟩
    rw [hfilter]
    rfl

/-- A block keeps the index and the chain together. -/
theorem Indexed.appliesOne (h : Indexed txid v bs log) (htx : cfg.txindex = true)
    (hkey : OwnKey txid [b]) (honce : (places txid (bs ++ [b])).length ≤ 1)
    (happ : AppliesOne cfg b v v') : Indexed txid v' (bs ++ [b]) (log ++ [b]) := by
  obtain ⟨hrow, hstart⟩ := happ.txindex htx hkey
  refine ⟨?_, ?_, honce, fun p hp ↦ ?_⟩
  · rw [hrow, h.row, places_append, places_singleton, List.getLast?_append]
  · rw [hstart, h.start, indexedFrom, indexedFrom, List.findSome?_append, List.findSome?_singleton]
  · rw [places_append, places_singleton, List.getLast?_append]
    rw [places_append, places_singleton, List.length_append] at honce
    rw [places_append, places_singleton, List.mem_append] at hp
    rcases hp with hold | hnew
    · have hnone : b.places txid = [] := by
        have := List.length_pos_of_mem hold
        exact List.eq_nil_of_length_eq_zero (by omega)
      rw [hnone]
      exact h.inForce p hold
    · obtain ⟨q, hq⟩ : ∃ q, b.places txid = [q] := by
        have := List.length_pos_of_mem hnew
        exact List.length_eq_one_iff.mp (by omega)
      rw [hq] at hnew ⊢
      exact congrArg some (List.mem_singleton.mp hnew).symm

/-- A branch keeps the index and the chain together. -/
theorem Indexed.applied (h : Indexed txid v bs log) (htx : cfg.txindex = true)
    (hkey : OwnKey txid blocks) (honce : (places txid (bs ++ blocks)).length ≤ 1)
    (happ : Applied cfg v blocks v') : Indexed txid v' (bs ++ blocks) (log ++ blocks) := by
  induction happ with
  | nil => rwa [List.append_nil, List.append_nil]
  | @snoc blocks b v' v'' _ hone ih =>
    rw [← List.append_assoc] at honce ⊢
    rw [← List.append_assoc]
    have hsub : (bs ++ blocks).Sublist (bs ++ blocks ++ [b]) := List.sublist_append_left _ _
    have hbelow := ih (fun c hc ↦ hkey c (List.mem_append_left _ hc))
      ((places_sublist hsub).length_le.trans honce)
    refine hbelow.appliesOne htx (fun c hc ↦ ?_) honce hone
    exact hkey c (List.mem_append_right _ hc)

/-- A reorg rolls back without the index and applies its branch with it. -/
theorem Indexed.reorged {plan : ReorgPlan} (h : Indexed txid v bs log) (htx : cfg.txindex = true)
    (hkey : OwnKey txid plan.apply)
    (honce : (places txid (bs.take (plan.forkHeight + 1) ++ plan.apply)).length ≤ 1)
    (hre : Reorged cfg plan v v') :
    Indexed txid v' (bs.take (plan.forkHeight + 1) ++ plan.apply) (log ++ plan.apply) := by
  obtain ⟨t, m, t₁, m₁, rfl, hroll, happ⟩ := hre.unwound
  have hframe := rollbackHeights_unwound hroll
  refine (h.rewind hframe.txindex ?_ _).applied htx hkey honce happ
  exact congrArg (·.txindexFrom) hframe.info

/-- A database that holds a chain with its index. -/
def Filed (txid : Hash32) (db : Db) (bs log : List BlockToCommit) : Prop :=
  ∃ v, db.tables.settled = some v ∧ v.core.hdrWatermark = bs.length ∧ Indexed txid v bs log

/-- An extend keeps the index and the chain together, also in what is committed on the way. -/
theorem Indexed.grows (h : Indexed txid v bs log) (htx : cfg.txindex = true)
    (hwm : v.core.hdrWatermark = bs.length) (hkey : OwnKey txid blocks)
    (honce : (places txid (bs ++ blocks)).length ≤ 1) (hgrows : Grows cfg v db blocks v' db')
    (hdb : ∃ bs₀ log₀ l, bs₀ ++ l = bs ∧ log₀ ++ l = log ∧ Filed txid db bs₀ log₀) :
    v'.core.hdrWatermark = (bs ++ blocks).length ∧ Indexed txid v' (bs ++ blocks) (log ++ blocks) ∧
      ∃ bs₀ log₀ l, bs₀ ++ l = bs ++ blocks ∧ log₀ ++ l = log ++ blocks ∧
        Filed txid db' bs₀ log₀ := by
  induction hgrows with
  | refl =>
    rw [List.append_nil, List.append_nil]
    exact ⟨hwm, h, hdb⟩
  | @block blocks b v' v'' db' _ hheight hone ih =>
    rw [← List.append_assoc] at honce ⊢
    rw [← List.append_assoc]
    have hsub : (bs ++ blocks).Sublist (bs ++ blocks ++ [b]) := List.sublist_append_left _ _
    obtain ⟨hwm', hindexed, bs₀, log₀, l, hbs, hlog, hfiled⟩ :=
      ih (fun c hc ↦ hkey c (List.mem_append_left _ hc))
        ((places_sublist hsub).length_le.trans honce)
    refine ⟨?_, hindexed.appliesOne htx (fun c hc ↦ hkey c (List.mem_append_right _ hc)) honce hone,
      bs₀, log₀, l ++ [b], by rw [← List.append_assoc, hbs], by rw [← List.append_assoc, hlog], hfiled⟩
    rw [hone.core.2, hheight, hwm']
    exact (List.length_append.trans (congrArg _ List.length_singleton)).symm
  | commit _ hsettled _ ih =>
    obtain ⟨hwm', hindexed, -⟩ := ih hkey honce
    exact ⟨hwm', hindexed, _, _, [], List.append_nil _, List.append_nil _, _, hsettled, hwm', hindexed⟩
  | upkeep _ hsettled hup ih =>
    obtain ⟨hwm', hindexed, -⟩ := ih hkey honce
    exact ⟨hwm', hindexed, _, _, [], List.append_nil _, List.append_nil _, _,
      hup.settled.trans hsettled, hwm', hindexed⟩

end

/-! ## Runs -/

section

variable [Crypto]

namespace Call

/-- The blocks a call applies, if it goes through. -/
def blocks : Call → List BlockToCommit
  | .extend blocks => blocks
  | .reorg plan => plan.apply
  | .deepReorg plan => plan.replay ++ plan.apply
  | .flush | .setMode _ | .pruneTo _ => []

/-- The blocks a call applies that is not refused.  An extend may stop after some of them. -/
def adds (bs : List BlockToCommit) (c : Committer) : Call → List BlockToCommit
  | .extend blocks => blocks.take ((Committer.extend blocks c).state.info.hdrWatermark - bs.length)
  | .reorg plan =>
    match (Committer.reorg plan c).result with
    | .ok _ => plan.apply
    | .error _ => []
  | .deepReorg _ | .flush | .setMode _ | .pruneTo _ => []

/-- The blocks a call applies. -/
def logged (bs : List BlockToCommit) (c : Committer) (call : Call) : List BlockToCommit :=
  if c.poisoned then [] else call.adds bs c

/-- The chain a call is to leave. -/
def target (bs : List BlockToCommit) : Call → List BlockToCommit
  | .extend blocks => bs ++ blocks
  | .reorg plan => bs.take (plan.forkHeight + 1) ++ plan.apply
  | .deepReorg _ | .flush | .setMode _ | .pruneTo _ => bs

/-- A call of extends and reorgs, with a transaction that its chain lists once at most and that
shares its key with no other.  No transaction is open when the store is pruned by hand, and a reorg
needs a chain. -/
structure Lists (txid : Hash32) (bs : List BlockToCommit) (c : Committer) (call : Call) : Prop where
  shallow : call.Shallow
  atRest : ∀ floor, call = .pruneTo floor → c.txn = none
  founded : ∀ plan, call = .reorg plan → bs ≠ []
  ownKey : OwnKey txid call.blocks
  once : (places txid (call.target bs)).length ≤ 1

end Call

/-- A committer reached from an empty directory by calls, its canonical chain, and all blocks
applied on the way. -/
inductive History (cfg : StoreConfig) (P : List BlockToCommit → Committer → Call → Prop) :
    Committer → List BlockToCommit → List BlockToCommit → Prop
  | fresh : History cfg P (.fresh cfg) [] []
  | call {c : Committer} {bs log : List BlockToCommit} {call : Call} : History cfg P c bs log →
      P bs c call → History cfg P (call.run c).state (call.chain bs c) (log ++ call.logged bs c)

/-- A committer that may go on, with its chain and the blocks applied. -/
structure Tracked (cfg : StoreConfig) (txid : Hash32) (c : Committer) (bs log : List BlockToCommit) :
    Prop where
  cfg : c.cfg = cfg
  ranged : c.Ranged
  watermark : c.info.hdrWatermark = bs.length
  indexed : Indexed txid c.view bs log
  filed : ∃ bs₀ log₀ l, bs₀ ++ l = bs ∧ log₀ ++ l = log ∧ Filed txid c.disk.db bs₀ log₀

variable {cfg : StoreConfig} {c c' : Committer} {blocks : List BlockToCommit}

omit [Crypto] in
theorem tracked_fresh (cfg : StoreConfig) (txid : Hash32) : Tracked cfg txid (.fresh cfg) [] [] where
  cfg := rfl
  ranged := Committer.ranged_fresh cfg
  watermark := rfl
  indexed := indexed_nil rfl rfl
  filed := ⟨[], [], [], rfl, rfl, _, rfl, rfl, indexed_nil rfl rfl⟩

/-- Extending keeps a committer, its chain and its index together. -/
theorem Tracked.grown (h : Tracked cfg txid c bs log) (htx : cfg.txindex = true)
    (hkey : OwnKey txid blocks) (honce : (places txid (bs ++ blocks)).length ≤ 1)
    (hg : c.Grown blocks c') : Tracked cfg txid c' (bs ++ blocks) (log ++ blocks) := by
  obtain ⟨hranged, -, -⟩ := h.ranged.grown hg
  obtain ⟨hwm, hindexed, hfiled⟩ :=
    h.indexed.grows (h.cfg ▸ htx) h.watermark hkey honce hg.grows h.filed
  exact ⟨hg.cfg.trans h.cfg, hranged, hwm, hindexed, hfiled⟩

/-- A reorg keeps a committer, its chain and its index together. -/
theorem Tracked.reorg {plan : ReorgPlan} (h : Tracked cfg txid c bs log) (htx : cfg.txindex = true)
    (hcall : Call.Lists txid bs c (.reorg plan)) (hok : (Committer.reorg plan c).result = .ok ()) :
    Tracked cfg txid (Committer.reorg plan c).state (bs.take (plan.forkHeight + 1) ++ plan.apply)
      (log ++ plan.apply) := by
  have hpos : 0 < c.info.hdrWatermark := by
    rw [h.watermark]
    exact List.length_pos_iff.mpr (hcall.founded plan rfl)
  obtain ⟨hranged, hfork, -, hwm⟩ := h.ranged.reorg hpos hok
  have hlen : (Committer.reorg plan c).state.info.hdrWatermark =
      (bs.take (plan.forkHeight + 1) ++ plan.apply).length := by
    rw [hwm, List.length_append, List.length_take_of_le (h.watermark ▸ hfork)]
  rcases (Committer.reorg_spec h.ranged.tidy plan).cases with ⟨_, -, hre, -, hcfg, -⟩ | ⟨e, hres, -⟩
  · generalize (Committer.reorg plan c).state = c' at *
    generalize hv : c'.view = v' at hre
    generalize hd : c'.disk.db = d' at hre
    cases hre with
    | intro _ _ _ _ hre hsettled _ hup =>
      have hindexed := h.indexed.reorged (h.cfg ▸ htx) hcall.ownKey hcall.once hre
      subst hv hd
      refine ⟨hcfg.trans h.cfg, hranged, hlen, hindexed, _, _, [], List.append_nil _,
        List.append_nil _, ?_⟩
      exact ⟨_, hup.settled.trans hsettled, hlen, hindexed⟩
  · cases hok.symm.trans hres

/-- A call that has done nothing but extend has applied what it extended by. -/
theorem Call.left_of_grown {call : Call} {done : List BlockToCommit} (hshallow : call.Shallow)
    (hwm : (call.run c).state.info.hdrWatermark = bs.length + done.length)
    (hpre : done <+: call.extended)
    (hne : ∀ plan, call = .reorg plan → ∃ e, (call.run c).result = .error e) :
    call.left bs c = bs ++ done ∧ call.adds bs c = done := by
  cases call with
  | extend blocks =>
    have hdone : done <+: blocks := hpre
    have hwm : (Committer.extend blocks c).state.info.hdrWatermark = bs.length + done.length := hwm
    rw [Call.left, Call.adds, hwm, Nat.add_sub_cancel_left, ← List.prefix_iff_eq_take.mp hdone,
      ← List.length_append]
    exact ⟨(List.prefix_iff_eq_take.mp ((List.prefix_append_right_inj bs).mpr hdone)).symm, rfl⟩
  | deepReorg plan => exact hshallow.elim
  | reorg plan =>
    obtain ⟨e, he⟩ := hne plan rfl
    rw [Call.left, Call.adds, show (Committer.reorg plan c).result = .error e from he,
      List.prefix_nil.mp hpre, List.append_nil]
    exact ⟨rfl, rfl⟩
  | flush | setMode _ | pruneTo _ =>
    rw [List.prefix_nil.mp hpre, List.append_nil]
    exact ⟨rfl, rfl⟩

omit [Crypto] in
/-- The blocks a call extends by are those of its chain. -/
theorem Call.Lists.extended {call : Call} {done : List BlockToCommit} (h : call.Lists txid bs c)
    (honce : (places txid bs).length ≤ 1) (hpre : done <+: call.extended) :
    OwnKey txid done ∧ (places txid (bs ++ done)).length ≤ 1 := by
  have hall : OwnKey txid call.extended ∧ (places txid (bs ++ call.extended)).length ≤ 1 := by
    cases call with
    | extend blocks => exact ⟨h.ownKey, h.once⟩
    | reorg _ | deepReorg _ | flush | setMode _ | pruneTo _ =>
      refine ⟨fun b hb ↦ (by cases hb), ?_⟩
      show (places txid (bs ++ [])).length ≤ 1
      rw [List.append_nil]
      exact honce
  refine ⟨fun b hb ↦ hall.1 b (hpre.subset hb), ?_⟩
  exact (places_sublist (hpre.sublist.append_left bs)).length_le.trans hall.2

/-- A call keeps a committer, its chain and its index together, unless it poisons the store. -/
theorem Tracked.call {call : Call} (h : Tracked cfg txid c bs log) (htx : cfg.txindex = true)
    (hpois : c.poisoned = false) (hcall : call.Lists txid bs c)
    (hlive : (call.run c).state.poisoned = false) :
    Tracked cfg txid (call.run c).state (call.chain bs c) (log ++ call.logged bs c) := by
  have hnot : ¬c.poisoned = true := by rw [hpois]; exact Bool.false_ne_true
  rw [Call.chain, if_neg hnot, Call.logged, if_neg hnot]
  have heffect := call.effect h.ranged.tidy hcall.atRest hcall.shallow
  generalize hr : (call.run c).result = r at heffect
  generalize hc' : (call.run c).state = c' at heffect hlive ⊢
  cases heffect with
  | @grown _ _ done hpre _ hne hg =>
    obtain ⟨-, hwm, -⟩ := h.ranged.grown hg
    obtain ⟨hleft, hadds⟩ := Call.left_of_grown hcall.shallow (by rw [hc', hwm, h.watermark])
      hpre (hr.symm ▸ hne)
    obtain ⟨hkey, honce⟩ := hcall.extended h.indexed.once hpre
    rw [hleft, hadds]
    exact h.grown htx hkey honce hg
  | @reorg _ plan hplan _ _ =>
    subst hplan hc'
    rw [Call.left, Call.adds, show (Committer.reorg plan c).result = .ok () from hr]
    exact h.reorg htx hcall hr
  | failed _ hpois' _ => cases hpois'.symm.trans hlive

/-- Every committer reached that may go on is tracked. -/
theorem History.tracked (h : History cfg (Call.Lists txid) c bs log) (htx : cfg.txindex = true)
    (hpois : c.poisoned = false) : Tracked cfg txid c bs log := by
  induction h with
  | fresh => exact tracked_fresh cfg txid
  | @call c bs log call _ hcall ih =>
    rcases Bool.eq_false_or_eq_true c.poisoned with hbefore | hbefore
    · rw [call.state_of_poisoned hbefore] at hpois
      cases hbefore.symm.trans hpois
    · exact (ih hbefore).call htx hbefore hcall hpois

/-- In every state reached the reader finds a transaction where the committed chain lists it.  Of a
transaction that chain does not list it finds the place in the block applied last that did, though
it has been rolled back since; and nothing if there was none. -/
theorem txindexLookup_places (htx : cfg.txindex = true)
    (h : History cfg (Call.Lists txid) c bs log) (hpois : c.poisoned = false) :
    ∃ m log₀, c.disk.db.tables.info = some m ∧ log = log₀ ++ bs.drop m.hdrWatermark ∧
      m.txindexFrom = indexedFrom log₀ ∧
      ∀ height index, txindexLookup c.disk.db.tables m txid = .found height index ↔
        (∃ start, m.txindexFrom = some start ∧ start ≤ height) ∧
          ((height, index) ∈ places txid (bs.take m.hdrWatermark) ∨
            places txid (bs.take m.hdrWatermark) = [] ∧
              (places txid log₀).getLast? = some (height, index)) := by
  obtain ⟨bs₀, log₀, l, rfl, rfl, v, hsettled, hwm, hindexed⟩ := (h.tracked htx hpois).filed
  obtain ⟨m, hm, rfl⟩ := Option.map_eq_some_iff.mp hsettled
  have hwm : m.hdrWatermark = bs₀.length := hwm
  refine ⟨m, log₀, hm, ?_, hindexed.start, fun height index ↦ ?_⟩
  · rw [hwm, List.drop_left]
  · rw [txindexLookup_eq_found, hwm, List.take_left]
    exact and_congr_right fun _ ↦ hindexed.row_eq_some

end

namespace Scene

/-- The configuration with the transaction index. -/
def indexing : StoreConfig := { config with txindex := true }

/-- A transaction. -/
def payment : Hash32 := .ofNat 32 (2 ^ 200)

/-- A block that lists the transaction second, and a rival that does not. -/
def paying : BlockToCommit := { block 0 1 [] with txids := some [.ofNat 32 1, payment] }
def silent : BlockToCommit := { block 1 1 [] with txids := some [.ofNat 32 1] }

/-- A store with the block. -/
def paid : Committer :=
  letI := crypto
  ((Call.extend [genesis, paying]).run (.fresh indexing)).state

/-- The store after the reorg to the rival. -/
def reverted : Committer :=
  letI := crypto
  ((Call.reorg ⟨0, [1], [silent]⟩).run paid).state

theorem history_reverted : letI := crypto
    History indexing (Call.Lists payment) reverted [genesis, silent] [genesis, paying, silent] := by
  let _ := crypto
  have hextend : (Call.extend [genesis, paying]).Lists payment [] (.fresh indexing) :=
    ⟨trivial, fun _ h ↦ (by cases h), fun _ h ↦ (by cases h), ownKey_of_all (by decide +kernel),
      by decide +kernel⟩
  have hreorg : (Call.reorg ⟨0, [1], [silent]⟩).Lists payment [genesis, paying] paid :=
    ⟨trivial, fun _ h ↦ (by cases h), fun _ _ ↦ List.cons_ne_nil _ _,
      ownKey_of_all (by decide +kernel), by decide +kernel⟩
  have hpaid : History indexing (Call.Lists payment) paid
      ((Call.extend [genesis, paying]).chain [] (.fresh indexing))
      ([] ++ (Call.extend [genesis, paying]).logged [] (.fresh indexing)) := .call .fresh hextend
  have hchain : (Call.extend [genesis, paying]).chain [] (.fresh indexing) = [genesis, paying] := by
    decide +kernel
  have hlog : [] ++ (Call.extend [genesis, paying]).logged [] (.fresh indexing) =
      [genesis, paying] := by decide +kernel
  rw [hchain, hlog] at hpaid
  have hreverted : History indexing (Call.Lists payment) reverted
      ((Call.reorg ⟨0, [1], [silent]⟩).chain [genesis, paying] paid)
      ([genesis, paying] ++ (Call.reorg ⟨0, [1], [silent]⟩).logged [genesis, paying] paid) :=
    .call hpaid hreorg
  have hchain' : (Call.reorg ⟨0, [1], [silent]⟩).chain [genesis, paying] paid =
      [genesis, silent] := by decide +kernel
  have hlog' : [genesis, paying] ++ (Call.reorg ⟨0, [1], [silent]⟩).logged [genesis, paying] paid =
      [genesis, paying, silent] := by decide +kernel
  rw [hchain', hlog'] at hreverted
  exact hreverted

end Scene

/-- After the reorg of the sample the transaction that was rolled back is still found. -/
theorem txindexLookup_reverted : letI := Scene.crypto
    ¬∀ (cfg : StoreConfig) (txid : Hash32) (c : Committer) (bs log : List BlockToCommit),
      cfg.txindex = true → History cfg (Call.Lists txid) c bs log → c.poisoned = false →
        ∀ m, c.disk.db.tables.info = some m → ∀ height index,
          txindexLookup c.disk.db.tables m txid = .found height index ↔
            (∃ start, m.txindexFrom = some start ∧ start ≤ height) ∧
              (height, index) ∈ places txid (bs.take m.hdrWatermark) := by
  let _ := Scene.crypto
  intro hclaim
  obtain ⟨m, hm⟩ : ∃ m, Scene.reverted.disk.db.tables.info = some m :=
    Option.isSome_iff_exists.mp (by decide +kernel)
  have hfound : Scene.reverted.disk.db.tables.info.map (fun m ↦
      txindexLookup Scene.reverted.disk.db.tables m Scene.payment) = some (.found 1 1) := by
    decide +kernel
  rw [hm] at hfound
  have hplace := ((hclaim _ _ _ _ _ rfl Scene.history_reverted (by decide +kernel) m hm 1 1).mp
    (Option.some.inj hfound)).2
  have hnone : places Scene.payment [Scene.genesis, Scene.silent] = [] := by decide +kernel
  have hmem := (places_sublist (List.take_sublist _ _)).subset hplace
  rw [hnone] at hmem
  cases hmem

/-- What the reader finds after that reorg is the place in the block rolled back. -/
theorem txindexLookup_places_reverted : letI := Scene.crypto
    ∃ m log₀, Scene.reverted.disk.db.tables.info = some m ∧
      [Scene.genesis, Scene.paying, Scene.silent] =
        log₀ ++ [Scene.genesis, Scene.silent].drop m.hdrWatermark ∧
      m.txindexFrom = indexedFrom log₀ ∧
      (txindexLookup Scene.reverted.disk.db.tables m Scene.payment = .found 1 1 ↔
        (∃ start, m.txindexFrom = some start ∧ start ≤ 1) ∧
          ((1, 1) ∈ places Scene.payment ([Scene.genesis, Scene.silent].take m.hdrWatermark) ∨
            places Scene.payment ([Scene.genesis, Scene.silent].take m.hdrWatermark) = [] ∧
              (places Scene.payment log₀).getLast? = some (1, 1))) := by
  let _ := Scene.crypto
  have htx : Scene.indexing.txindex = true := rfl
  obtain ⟨m, log₀, hm, hlog, hstart, hfound⟩ :=
    txindexLookup_places htx Scene.history_reverted (by decide +kernel)
  exact ⟨m, log₀, hm, hlog, hstart, hfound 1 1⟩

end Plaine.Storage

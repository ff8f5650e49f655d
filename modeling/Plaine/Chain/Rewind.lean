import Plaine.Chain.Accepted
import Plaine.Chain.Mock
import Plaine.Lib.Table

/-!
# What a rewind shows

`rewind_to_fork` leaves an overlay that should show the accounts after the fork block.  The
undo path does.  The deep path loads the rows of a snapshot into an overlay which falls
through to the store for every other account, and the store is at the tip: an account with no
row is taken for what it is there.  `rewindToFork_view_iff` says exactly when this does no
harm.
-/

namespace Plaine.Chain

open Plaine.Lib Plaine.Lib.Ledger Plaine.Consensus

section

variable [Crypto]

/-- The block at a height of an accepted chain posts its entries to the book before it. -/
theorem AcceptedChain.posts_at {params : ChainParams} {bs : List Block} {k : Nat}
    {before after : Address → Account} (hk : 0 < k) (hlt : k < bs.length)
    (hb : AcceptedChain params (bs.take k) before) (ha : AcceptedChain params (bs.take (k + 1)) after) :
    ∃ r raw c locked, bs[k]? = some (r, raw) ∧ r.height = k ∧
      checkBody r.header raw params .ourStore = .ok c ∧ Posts locked before c.entries after := by
  have htake : bs.take (k + 1) = bs.take k ++ [bs[k]] := (List.take_append_getElem hlt).symm
  have hlen : (bs.take k).length = k := List.length_take_of_le hlt.le
  generalize hbs : bs.take (k + 1) = bs' at ha
  rw [hbs] at htake
  cases ha with
  | genesis =>
    have := congrArg List.length htake
    simp only [List.length_append, List.length_singleton] at this
    omega
  | @extend bs₀ book r last raw overlay o l l' v hacc _ hheight _ _ hview hv =>
    obtain ⟨rfl, heq⟩ := List.append_inj' htake rfl
    cases hacc.book_unique hb
    obtain ⟨c, hc, -, hp⟩ := validateBlockBody_posts hv
    rw [hview] at hp
    rw [hlen] at hheight
    refine ⟨r, raw, c, _, ?_, hheight, checkBody_ourStore hc, hp⟩
    rw [List.getElem?_eq_getElem hlt, ← List.singleton_inj.mp heq]

variable {σ : Type} [Store σ]

/-- What a store is relied on for: whatever it returns for a height of its chain belongs to
that height, and its account table is that of the tip. -/
structure Holds (params : ChainParams) (s : σ) (bs : List Block) : Prop where
  header : ∀ {h r}, Store.headerAt s h = some r → bs[h]?.map Prod.fst = some r
  body : ∀ {h raw}, Store.bodyAt s h = some raw → bodyOf bs h = some raw
  account : ∀ {book}, AcceptedChain params bs book → Store.account s = book
  undo : ∀ {h u}, h + 1 < bs.length → Store.undoAt s (h + 1) = some u →
    ∀ {before after}, AcceptedChain params (bs.take (h + 1)) before →
      AcceptedChain params (bs.take (h + 2)) after → Saves before after (u.map Overlay.undoEntry)
  checkpoint : ∀ {h c}, Store.checkpointAtOrBelow s h = some c → c ≤ h
  snapshot : ∀ {h rows}, h < bs.length → Store.stateSnapshot s h = some rows →
    ∀ {book}, AcceptedChain params (bs.take (h + 1)) book →
      (rows.map Prod.fst).Nodup ∧ (∀ row ∈ rows, row.2 = book row.1) ∧
        ∀ a ∉ rows.map Prod.fst, book a = default

variable {params : ChainParams} {bs : List Block} {s : σ}

/-! ## By undo records -/

/-- The undo rows above a fork are a stack of journals from the fork to the tip. -/
theorem Holds.savesAll (hs : Holds params s bs) {book forkBook : Address → Account} {fork n : Nat}
    (hlen : fork + n < bs.length)
    (hundo : ∀ h ∈ heightsAbove fork (fork + n), (Store.undoAt s h).isSome)
    (hfork : AcceptedChain params (bs.take (fork + 1)) forkBook)
    (htip : AcceptedChain params (bs.take (fork + n + 1)) book) :
    SavesAll forkBook book ((heightsAbove fork (fork + n)).map fun h ↦
      ((Store.undoAt s h).getD []).map Overlay.undoEntry) := by
  induction n generalizing book with
  | zero =>
    cases hfork.book_unique htip
    simpa [heightsAbove] using .nil _
  | succ n ih =>
    have hsplit : heightsAbove fork (fork + (n + 1)) =
        heightsAbove fork (fork + n) ++ [fork + n + 1] := by
      simp only [heightsAbove, Nat.add_sub_cancel_left, List.range'_concat]
      congr 2
      omega
    rw [hsplit] at hundo ⊢
    obtain ⟨mid, hmid⟩ := htip.take (k := fork + n + 1) (by omega)
      (by rw [List.length_take]; omega)
    rw [List.take_take, Nat.min_eq_left (by omega)] at hmid
    have hbelow := ih (by omega) (fun h hh ↦ hundo h (List.mem_append_left _ hh)) hmid
    obtain ⟨u, hu⟩ := Option.isSome_iff_exists.mp (hundo (fork + n + 1) (by simp))
    rw [List.map_append, List.map_singleton, hu]
    exact .snoc hbelow (hs.undo (by omega) hu hmid htip)

/-- The undo path takes the tip's accounts back to the fork's. -/
theorem Holds.view_undoRewind (hs : Holds params s bs) {book forkBook : Address → Account}
    {o : Overlay} {fork : Nat} (hacc : AcceptedChain params bs book) (hlt : fork < bs.length)
    (hfork : AcceptedChain params (bs.take (fork + 1)) forkBook) (ho : o.view = book)
    (hundo : haveAllUndo s (bs.length - 1) fork) :
    (undoRewind s o (bs.length - 1) fork).view = forkBook := by
  have htip : bs.length - 1 = fork + (bs.length - 1 - fork) := by omega
  have hfull : bs.take (fork + (bs.length - 1 - fork) + 1) = bs :=
    List.take_of_length_le (by omega)
  rw [haveAllUndo, htip, List.all_eq_true] at hundo
  have hall := hs.savesAll (by omega) hundo hfork (by rwa [hfull])
  have hfold : ∀ (hs : List Nat) (o : Overlay),
      (hs.foldl (fun o h ↦ o.applyUndo ((Store.undoAt s h).getD [])) o).view =
        (hs.map fun h ↦ ((Store.undoAt s h).getD []).map Overlay.undoEntry).foldl
          (fun v l ↦ overwrite l v) o.view := by
    intro hs
    induction hs with
    | nil => exact fun _ ↦ rfl
    | cons h hs ih =>
      intro o
      rw [List.foldl_cons, ih, Overlay.view_applyUndo, List.map_cons, List.foldl_cons]
  rw [undoRewind, htip, hfold, ho, List.map_reverse]
  exact hall.overwrite

/-! ## By a snapshot -/

/-- A replayed block posts the entries it posted when it was first accepted. -/
theorem Holds.replayBlock_abreast (hs : Holds params s bs) {fork k : Nat} {work : Nat → Work}
    {acc acc' : Overlay × List CommitBlock} {before after : Address → Account} (hk : 0 < k)
    (hlt : k < bs.length) (hb : AcceptedChain params (bs.take k) before)
    (ha : AcceptedChain params (bs.take (k + 1)) after)
    (h : replayBlock s fork params work acc k = .ok acc') :
    Abreast before acc.1.view after acc'.1.view := by
  simp only [replayBlock, Except.bind_eq_ok, Except.ofOption_eq_ok, Except.mapError_eq_ok,
    Prod.exists] at h
  obtain ⟨raw, hraw, r, hr, v, o, l, hv, h⟩ := h
  cases h
  obtain ⟨r', raw', c, locked, hat, -, hc, hp⟩ := AcceptedChain.posts_at hk hlt hb ha
  have hr' := hs.header hr
  have hraw' := hs.body hraw
  rw [bodyOf, hat] at hraw'
  rw [hat] at hr'
  cases hr'
  cases hraw'
  obtain ⟨c', hc', -, hp'⟩ := validateBlockBody_posts hv
  cases hc.symm.trans hc'
  exact hp.abreast hp'

/-- The replay changes every account as the chain did. -/
theorem Holds.replay_abreast (hs : Holds params s bs) {fork n base : Nat} {work : Nat → Work}
    {acc acc' : Overlay × List CommitBlock} {before after : Address → Account}
    (hlt : base + n < bs.length) (hb : AcceptedChain params (bs.take (base + 1)) before)
    (ha : AcceptedChain params (bs.take (base + n + 1)) after)
    (h : (List.range' (base + 1) n).foldlM (replayBlock s fork params work) acc = .ok acc') :
    Abreast before acc.1.view after acc'.1.view := by
  induction n generalizing after acc' with
  | zero =>
    cases h
    cases hb.book_unique ha
    exact .refl _ _
  | succ n ih =>
    rw [List.range'_concat, List.foldlM_append_eq_ok] at h
    obtain ⟨m, hm, h⟩ := h
    obtain ⟨acc'', hlast, hnil⟩ := List.foldlM_cons_eq_ok.mp h
    cases hnil
    obtain ⟨mid, hmid⟩ := ha.take (k := base + n + 1) (by omega)
      (by rw [List.length_take]; omega)
    rw [List.take_take, Nat.min_eq_left (by omega)] at hmid
    have hbelow := ih (by omega) hmid hm
    have hidx : base + 1 + 1 * n = base + n + 1 := by omega
    rw [hidx] at hlast
    exact hbelow.trans (hs.replayBlock_abreast (by omega) (by omega) hmid ha hlast)

/-- What a seeded overlay shows of an account: its row, or the tip's account. -/
theorem Holds.view_seed_eq_iff (hs : Holds params s bs) {base : Nat}
    {rows : List (Address × Account)} {book : Address → Account} (hlt : base < bs.length)
    (hrows : Store.stateSnapshot s base = some rows)
    (hbase : AcceptedChain params (bs.take (base + 1)) book) (a : Address) :
    ((Overlay.new (Store.account s)).seed rows).view a = book a ↔
      (a ∉ rows.map Prod.fst → Store.account s a = default) := by
  obtain ⟨hnodup, hrow, habsent⟩ := hs.snapshot hlt hrows hbase
  rw [Overlay.view_seed]
  by_cases ha : a ∈ rows.map Prod.fst
  · obtain ⟨row, hmem, rfl⟩ := List.mem_map.mp ha
    simp [overwrite_of_mem hnodup hmem, hrow row hmem, ha]
  · rw [overwrite_of_notMem ha, habsent a ha]
    simp [Overlay.new, ha]

/-- The condition under which a snapshot will do: it has a row for every account of the
tip. -/
def SnapshotCovers (s : σ) (fork : Nat) : Prop :=
  ∀ base rows, Store.checkpointAtOrBelow s fork = some base →
    Store.stateSnapshot s base = some rows →
    ∀ a ∉ rows.map Prod.fst, Store.account s a = default

/-- A rewind shows the accounts of the fork exactly when the store has every undo row above
it, or the snapshot it loads has a row for every account of the tip. -/
theorem rewindToFork_view_iff (params : ChainParams) (s : σ) (bs : List Block)
    (book forkBook : Address → Account) (fork : Nat) (work : Nat → Work) (base : Base)
    (o : Overlay) (l : CoinbaseLedger) (replayed : List CommitBlock)
    (hacc : AcceptedChain params bs book) (hs : Holds params s bs) (hlt : fork < bs.length)
    (hfork : AcceptedChain params (bs.take (fork + 1)) forkBook)
    (h : rewindToFork s (.new (Store.account s)) (bs.length - 1) fork params work =
      .ok (base, o, l, replayed)) :
    (∀ a, (o.get a).1 = forkBook a) ↔
      haveAllUndo s (bs.length - 1) fork = true ∨ SnapshotCovers s fork := by
  unfold rewindToFork at h
  by_cases hundo : haveAllUndo s (bs.length - 1) fork = true
  · simp only [hundo, if_true, Except.bind_eq_ok] at h
    obtain ⟨l', -, h⟩ := h
    cases h
    have hview := hs.view_undoRewind hacc hlt hfork
      (o := .new (Store.account s)) (hs.account hacc) hundo
    simp [hundo, hview]
  · simp only [hundo, Bool.false_eq_true, if_false, Except.bind_eq_ok, Prod.exists] at h
    obtain ⟨rewindTo, o', replayed', hdeep, l', -, h⟩ := h
    cases h
    simp only [deepRewind, Except.bind_eq_ok, Except.ofOption_eq_ok, Prod.exists] at hdeep
    obtain ⟨c, hc, _, -, rows, hrows, o', replayed', hreplay, h⟩ := hdeep
    cases h
    have hle := hs.checkpoint hc
    obtain ⟨baseBook, hbase⟩ := hfork.take (k := rewindTo + 1) (by omega)
      (by rw [List.length_take]; omega)
    rw [List.take_take, Nat.min_eq_left (by omega)] at hbase
    have hsum : rewindTo + (fork - rewindTo) = fork := by omega
    have habreast := hs.replay_abreast (by omega) hbase (by rwa [hsum]) hreplay
    have hcovers : SnapshotCovers s fork ↔
        ∀ a, a ∉ rows.map Prod.fst → Store.account s a = default := by
      constructor
      · exact fun hcov ↦ hcov _ _ hc hrows
      · intro hcov c' rows' hc' hrows'
        cases hc.symm.trans hc'
        cases hrows.symm.trans hrows'
        exact hcov
    rw [hcovers]
    simp only [hundo, false_or, Overlay.get_fst, Bool.false_eq_true]
    exact forall_congr' fun a ↦ (habreast.eq_iff a).trans
      (hs.view_seed_eq_iff (by omega) hrows hbase a)

/-! ## The store in memory -/

namespace MemStore

/-- The in-memory store is at the tip of a chain: its canonical headers are the chain's, and
it has nothing for a height above. -/
structure Keeps (params : ChainParams) (s : MemStore) (bs : List Block) : Prop where
  canonical : s.canonical = bs.map Prod.fst
  undo_lt : ∀ {h u}, s.undo.lookup h = some u → h < bs.length
  snapshots_lt : ∀ {h rows}, s.snapshots.lookup h = some rows → h < bs.length
  holds : Holds params s bs

omit [Crypto] in
/-- The account table after the deltas of a commit. -/
theorem account_writeDeltas (deltas : List StateDelta) (m : AList fun _ : Address ↦ Account) :
    (fun a ↦ ((writeDeltas m deltas).lookup a).getD default) =
      overwrite (deltas.map fun d ↦ (d.addr, d.acct)) fun a ↦ (m.lookup a).getD default := by
  unfold writeDeltas
  induction deltas generalizing m with
  | nil => rfl
  | cons d deltas ih =>
    rw [List.foldl_cons, ih, List.map_cons, overwrite_cons]
    congr 1
    funext a
    by_cases ha : a = d.addr
    · subst ha
      by_cases habs : d.acct.isAbsent
      · simpa [habs, AList.lookup_erase] using (Account.isAbsent_iff.mp habs).symm
      · simp [habs]
    · by_cases habs : d.acct.isAbsent
      · simp [habs, AList.lookup_erase_ne ha, Function.update_of_ne ha]
      · simp [habs, AList.lookup_insert_ne ha, Function.update_of_ne ha]

variable {params : ChainParams} {bs : List Block} {s : MemStore}

theorem keeps_withGenesis {g : Block} (hg : g.1.height = 0) (hpays : PaysNothing g.2)
    (h : withGenesis g.1 g.2 params = some s) : Keeps params s [g] := by
  simp only [withGenesis, Option.bind_eq_bind, Option.bind_eq_some_iff] at h
  obtain ⟨target, -, h⟩ := h
  cases h
  have hacc : AcceptedChain params [g] fun _ ↦ default := .genesis hg hpays
  refine ⟨rfl, by simp, by simp, ⟨?_, ?_, ?_, ?_, ?_, ?_⟩⟩
  · intro h r hr
    simpa [Store.headerAt, List.getElem?_singleton] using hr
  · intro h raw hraw
    cases h with
    | zero =>
      have hraw : (AList.insert g.1.hash g.2 (∅ : AList fun _ : Hash32 ↦ Bytes)).lookup g.1.hash =
        some raw := hraw
      rwa [AList.lookup_insert] at hraw
    | succ h => simp [Store.bodyAt] at hraw
  · intro book hbook
    rw [hacc.book_unique hbook |>.symm]
    rfl
  · intro h u _ hu
    simp [Store.undoAt] at hu
  · intro h c hc
    simp [Store.checkpointAtOrBelow, checkpointAtOrBelow] at hc
  · intro h rows _ hrows
    simp [Store.stateSnapshot] at hrows

/-- Dropping undo records breaks nothing. -/
theorem Keeps.pruneUndo (hs : Keeps params s bs) : Keeps params s.pruneUndo bs where
  canonical := hs.canonical
  undo_lt hu := hs.undo_lt (AList.lookup_of_foldl_erase hu)
  snapshots_lt := hs.snapshots_lt
  holds := {
    header := hs.holds.header
    body := hs.holds.body
    account := hs.holds.account
    undo := fun hlt hu ↦ hs.holds.undo hlt (AList.lookup_of_foldl_erase hu)
    checkpoint := hs.holds.checkpoint
    snapshot := hs.holds.snapshot }

theorem Keeps.setUndoWindow (hs : Keeps params s bs) (n : Nat) :
    Keeps params (s.setUndoWindow n) bs :=
  pruneUndo (s := { s with undoWindow := n })
    ⟨hs.canonical, hs.undo_lt, hs.snapshots_lt, ⟨hs.holds.header, hs.holds.body,
      hs.holds.account, hs.holds.undo, hs.holds.checkpoint, hs.holds.snapshot⟩⟩

/-- A snapshot of the tip has the tip's accounts. -/
theorem Keeps.snapshotNow (hs : Keeps params s bs) {book : Address → Account}
    (hacc : AcceptedChain params bs book) : Keeps params (s.snapshotNow (bs.length - 1)) bs where
  canonical := hs.canonical
  undo_lt := hs.undo_lt
  snapshots_lt := by
    intro h rows hrows
    by_cases hh : h = bs.length - 1
    · have := hacc.length_pos
      omega
    · rw [MemStore.snapshotNow, AList.lookup_insert_ne hh] at hrows
      exact hs.snapshots_lt hrows
  holds := {
    header := hs.holds.header
    body := hs.holds.body
    account := hs.holds.account
    undo := hs.holds.undo
    checkpoint := by
      intro h c hc
      have hmem := List.max?_mem hc
      simpa using (List.mem_filter.mp hmem).2
    snapshot := by
      intro h rows hlt hrows book' hbook'
      by_cases hh : h = bs.length - 1
      · subst hh
        rw [List.take_of_length_le (by omega)] at hbook'
        have haccount := hs.holds.account hbook'
        simp only [Store.stateSnapshot, MemStore.snapshotNow, AList.lookup_insert] at hrows
        cases hrows
        have hkeys : s.rows.map Prod.fst = s.accounts.keys := by
          simp [MemStore.rows, AList.keys, List.keys, Function.comp_def]
        have hget : ∀ a, ((s.accounts.lookup a).getD default) = book' a :=
          fun a ↦ congrFun haccount a
        refine ⟨by rw [hkeys]; exact s.accounts.keys_nodup, ?_, ?_⟩
        · intro row hrow
          obtain ⟨e, he, rfl⟩ := List.mem_map.mp hrow
          rw [← hget, (AList.mem_lookup_iff (s := s.accounts)).mpr he]
          rfl
        · intro a ha
          rw [hkeys] at ha
          rw [← hget, AList.lookup_eq_none.mpr ha]
          rfl
      · simp only [Store.stateSnapshot, MemStore.snapshotNow, AList.lookup_insert_ne hh] at hrows
        exact hs.holds.snapshot hlt hrows hbook' }

/-- Committing an accepted block on the tip. -/
theorem Keeps.applyCommit (hs : Keeps params s bs) {book : Address → Account} {r : HeaderRec}
    {raw : Bytes} {overlay o : Overlay} {l l' : CoinbaseLedger} {v : ValidatedBlock}
    {trust : Trust} (hacc : AcceptedChain params bs book) (hview : overlay.view = book)
    (hnext : AcceptedChain params (bs ++ [(r, raw)]) o.view) (hheight : r.height = bs.length)
    (hfresh : ∀ b ∈ bs, b.1.hash ≠ r.hash)
    (hv : validateBlockBody overlay l r.header raw params trust = .ok (v, o, l')) (work : Work) :
    Keeps params (s.applyCommit (commitBlockOf r r.height raw v work)) (bs ++ [(r, raw)]) := by
  have hlen : r.height = s.canonical.length := by rw [hs.canonical, List.length_map, hheight]
  have hpush : Keeps params { s with
      accounts := writeDeltas s.accounts v.deltas
      undo := s.undo.insert r.height v.undo
      bodies := s.bodies.insert r.hash raw
      side := s.side.erase r.hash
      canonical := s.canonical ++ [r]
      chainwork := s.chainwork ++ [work] } (bs ++ [(r, raw)]) := by
    have haccount : (fun a ↦ ((writeDeltas s.accounts v.deltas).lookup a).getD default) =
        o.view := by
      rw [account_writeDeltas, ← validateBlockBody_deltas hv, hview]
      exact congrArg _ (hs.holds.account hacc)
    refine ⟨by simp [hs.canonical], ?_, ?_, ⟨?_, ?_, ?_, ?_, ?_, ?_⟩⟩
    · intro h u hu
      rw [List.length_append, List.length_singleton]
      by_cases hh : h = r.height
      · omega
      · rw [AList.lookup_insert_ne hh] at hu
        have := hs.undo_lt hu
        omega
    · intro h rows hrows
      rw [List.length_append, List.length_singleton]
      have := hs.snapshots_lt hrows
      omega
    · intro h r' hr'
      have hmap : (bs ++ [(r, raw)]).map Prod.fst = s.canonical ++ [r] := by simp [hs.canonical]
      rw [← List.getElem?_map, hmap]
      exact hr'
    · intro h raw' hraw'
      simp only [Store.bodyAt, hs.canonical] at hraw'
      rcases Nat.lt_or_ge h bs.length with hh | hh
      · rw [bodyOf_append_left hh]
        rw [List.getElem?_append_left (by simpa using hh)] at hraw'
        refine hs.holds.body ?_
        simp only [Store.bodyAt, hs.canonical]
        rw [List.getElem?_map, List.getElem?_eq_getElem hh] at hraw' ⊢
        simp only [Option.map_some, Option.bind_some] at hraw' ⊢
        rwa [AList.lookup_insert_ne (hfresh _ (List.getElem_mem hh))] at hraw'
      · rcases Nat.eq_or_lt_of_le hh with rfl | hh
        · simpa [bodyOf] using hraw'
        · rw [List.getElem?_eq_none (by simp; omega)] at hraw'
          cases hraw'
    · intro book' hbook'
      rw [← hnext.book_unique hbook']
      exact haccount
    · intro h u hlt hu before after hbefore hafter
      rw [List.length_append, List.length_singleton] at hlt
      by_cases hh : h + 1 = bs.length
      · have hfull : (bs ++ [(r, raw)]).take (h + 1) = bs := by
          rw [hh, List.take_left]
        rw [hfull] at hbefore
        rw [List.take_of_length_le (by simp; omega)] at hafter
        have hu : (s.undo.insert r.height v.undo).lookup (h + 1) = some u := hu
        rw [hh, ← hheight, AList.lookup_insert] at hu
        cases hu
        rw [← hacc.book_unique hbefore, ← hnext.book_unique hafter, ← hview]
        exact validateBlockBody_undo hv
      · have hu : (s.undo.insert r.height v.undo).lookup (h + 1) = some u := hu
        rw [AList.lookup_insert_ne (by omega)] at hu
        rw [List.take_append_of_le_length (by omega)] at hbefore hafter
        exact hs.holds.undo (by omega) hu hbefore hafter
    · exact hs.holds.checkpoint
    · intro h rows hlt hrows book' hbook'
      have hh := hs.snapshots_lt hrows
      rw [List.take_append_of_le_length (by omega)] at hbook'
      exact hs.holds.snapshot hh hrows hbook'
  have htip : (bs ++ [(r, raw)]).length - 1 = r.height := by simp [hheight]
  have hsnapshot := hpush.snapshotNow hnext
  rw [htip] at hsnapshot
  have htop : (commitBlockOf r r.height raw v work).height = s.canonical.length := hlen
  unfold MemStore.applyCommit
  simp only [if_pos htop]
  simp only [commitBlockOf, HeaderRec.fromRaw_raw]
  refine pruneUndo ?_
  split
  · exact hsnapshot
  · exact hpush

end MemStore

end

/-! ### A chain of two blocks -/

namespace Sample

/-- The coinbase of genesis, which pays nothing. -/
def genesisCoinbase : CoinbaseTx := { coinbase with height := 0, reward := 0, fees := 0 }

def genesisHeader : Header :=
  { header with
    height := 0
    txRoot := .ofNat 32 0xfb77dfbf2d04937545879e6bf44acf6550689417eb23ef5b3fe4d4b938a27ec1
    time := 1000000 }

def genesisBody : Bytes :=
  (BlockBody.encode [genesisCoinbase.encode.toOption.getD []]).toOption.getD []

def genesis : @HeaderRec crypto := @HeaderRec.fromRaw crypto genesisHeader.encode

/-- The header of the first block on that genesis. -/
def next : @HeaderRec crypto :=
  @HeaderRec.fromRaw crypto { firstHeader with prevHash := @headerHash crypto genesisHeader.encode }.encode

/-- The two blocks. -/
def chain : List (@Block crypto) := [(genesis, genesisBody), (next, firstBody)]

/-- What the first block is validated to. -/
def validated : Except Reject (ValidatedBlock × Overlay × CoinbaseLedger) :=
  letI := crypto
  do
    let l ← ledgerFrom (bodyOf (chain.take 1)) 0
    validateBlockBody (.new fun _ ↦ default) l next.header firstBody params .untrusted

/-- The store of a node that took a snapshot at genesis, keeps the undo records of `window`
blocks and has connected the first block. -/
def store (window : Nat) : Option (@MemStore crypto) :=
  letI := crypto
  do
    let s ← MemStore.withGenesis genesis genesisBody params
    let (v, _, _) ← validated.toOption
    let work ← s.chainwork.head?
    return ((s.snapshotNow 0).setUndoWindow window).applyCommit
      (commitBlockOf next next.height firstBody v (work + work))

/-- What a rewind of that store to genesis shows of the miner of the first block. -/
def rewound (window : Nat) : Option Account :=
  letI := crypto
  do
    let s ← store window
    let (_, o, _, _) ← (rewindToFork s (.new (Store.account s)) 1 0 params fun _ ↦ 0).toOption
    return (o.get coinbase.toAddr).1

theorem genesisBody_paysNothing : PaysNothing genesisBody := by
  have h : coinbaseOf genesisBody = some genesisCoinbase := by decide +kernel
  intro cb hcb
  rw [h] at hcb
  cases hcb
  exact ⟨rfl, rfl⟩

theorem next_ne_genesis : letI := crypto; genesis.hash ≠ next.hash := by decide +kernel

theorem next_height : letI := crypto; next.height = 1 := by decide +kernel

theorem next_prevHash : letI := crypto; next.prevHash = genesis.hash := by decide +kernel

/-- The two blocks are an accepted chain, and the store keeps it. -/
theorem store_keeps {window : Nat} {s : @MemStore crypto} (h : store window = some s) :
    letI := crypto
    ∃ book, AcceptedChain params chain book ∧ MemStore.Keeps params s chain := by
  let _ := crypto
  simp only [store, Option.bind_eq_bind, Option.bind_eq_some_iff] at h
  obtain ⟨s₀, hs₀, ⟨v, o, l'⟩, hv, work, -, h⟩ := h
  cases h
  have hv : validated = .ok (v, o, l') := by
    cases hval : validated with
    | error e => rw [hval] at hv; cases hv
    | ok r => rw [hval] at hv; exact congrArg _ (Option.some.inj hv)
  obtain ⟨l, hl, hv⟩ := Except.bind_eq_ok.mp hv
  have hgenesis : AcceptedChain params [(genesis, genesisBody)] fun _ ↦ default :=
    .genesis rfl genesisBody_paysNothing
  have hnext := AcceptedChain.extend hgenesis rfl next_height next_prevHash hl (Overlay.view_new _) hv
  refine ⟨o.view, hnext, ?_⟩
  have hkeeps := MemStore.keeps_withGenesis (g := (genesis, genesisBody)) rfl
    genesisBody_paysNothing hs₀
  exact ((hkeeps.snapshotNow hgenesis).setUndoWindow window).applyCommit hgenesis
    (Overlay.view_new _) hnext next_height (by simpa using next_ne_genesis) hv _

/-- The rewind of the store succeeds, and shows the miner with the account it reads off. -/
theorem rewound_eq {window : Nat} {acct : Account} (h : rewound window = some acct) :
    letI := crypto
    ∃ s base o l replayed, store window = some s ∧
      rewindToFork s (.new (Store.account s)) 1 0 params (fun _ ↦ 0) =
        .ok (base, o, l, replayed) ∧ (o.get coinbase.toAddr).1 = acct := by
  let _ := crypto
  simp only [rewound, Option.bind_eq_bind, Option.bind_eq_some_iff] at h
  obtain ⟨s, hs, ⟨base, o, l, replayed⟩, hr, h⟩ := h
  refine ⟨s, base, o, l, replayed, hs, ?_, Option.some.inj h⟩
  cases hrew : rewindToFork s (.new (Store.account s)) 1 0 params fun _ ↦ 0 with
  | error e => rw [hrew] at hr; cases hr
  | ok r => rw [hrew] at hr; exact congrArg _ (Option.some.inj hr)

/-- With no undo records left, the miner still has the reward of the block rewound. -/
theorem rewound_none : rewound 0 = some ⟨200000, 0⟩ := by decide +kernel

theorem rewound_all : rewound 256 = some default := by decide +kernel

end Sample

/-- The snapshot path does not give the fork's accounts: the miner of the first block, rewound
to genesis, keeps its reward. -/
theorem rewindToFork_view_tip :
    letI := Sample.crypto
    ¬∀ (params : ChainParams) (s : MemStore) (bs : List Block) (book forkBook : Address → Account)
      (fork : Nat) (work : Nat → Work) (base : Base) (o : Overlay) (l : CoinbaseLedger)
      (replayed : List CommitBlock), AcceptedChain params bs book → Holds params s bs →
      fork < bs.length → AcceptedChain params (bs.take (fork + 1)) forkBook →
      rewindToFork s (.new (Store.account s)) (bs.length - 1) fork params work =
        .ok (base, o, l, replayed) →
      ∀ a, (o.get a).1 = forkBook a := by
  let _ := Sample.crypto
  intro h
  obtain ⟨s, base, o, l, replayed, hs, hrew, hget⟩ := Sample.rewound_eq Sample.rewound_none
  obtain ⟨book, hacc, hkeeps⟩ := Sample.store_keeps hs
  have hgenesis : AcceptedChain Sample.params (Sample.chain.take 1) fun _ ↦ default :=
    .genesis rfl Sample.genesisBody_paysNothing
  have hminer := h _ s _ _ _ 0 _ _ _ _ _ hacc hkeeps.holds (by decide) hgenesis hrew
    Sample.coinbase.toAddr
  rw [hget] at hminer
  cases hminer

/-- The law where the undo records are held. -/
theorem rewindToFork_view_sample :
    letI := Sample.crypto
    ∃ s base o l replayed, Sample.store 256 = some s ∧
      rewindToFork s (.new (Store.account s)) 1 0 Sample.params (fun _ ↦ 0) =
        .ok (base, o, l, replayed) ∧
      ((∀ a, (o.get a).1 = default) ↔ haveAllUndo s 1 0 = true ∨ SnapshotCovers s 0) := by
  let _ := Sample.crypto
  obtain ⟨s, base, o, l, replayed, hs, hrew, -⟩ := Sample.rewound_eq Sample.rewound_all
  obtain ⟨book, hacc, hkeeps⟩ := Sample.store_keeps hs
  have hgenesis : AcceptedChain Sample.params (Sample.chain.take 1) fun _ ↦ default :=
    .genesis rfl Sample.genesisBody_paysNothing
  exact ⟨s, base, o, l, replayed, hs, hrew, rewindToFork_view_iff _ s _ _ _ 0 _ _ _ _ _ hacc
    hkeeps.holds (by decide) hgenesis hrew⟩

end Plaine.Chain

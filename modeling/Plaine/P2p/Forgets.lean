import Plaine.P2p.Holds

/-!
# What an engine forgets

A step of the engine keeps no header that was told of, if the reports of the chain leave their
notices.
-/

namespace Plaine.P2p

open Plaine.Lib Plaine.Consensus

/-! ## What forgets -/

namespace SyncEngine

/-- An engine that has nothing more than another. -/
structure Shrinks (e e' : SyncEngine) : Prop where
  known : ∀ x h, e'.known.lookup x = some h → e.known.lookup x = some h
  tree : ∀ x h, e'.tree.lookup x = some h → e.tree.lookup x = some h
  indexed : e.staging.Indexed → e'.staging.Indexed
  records : e'.staging.records ⊆ e.staging.records

variable {e e' e'' : SyncEngine} {x : Hash32} {h : HeaderRec}

/-- What is staged is under its hash. -/
theorem mem_index_iff (hindexed : e.staging.Indexed) :
    x ∈ e.staging.index ↔ ∃ r ∈ e.staging.records, r.hash = x :=
  AList.Listed.mem_iff hindexed

theorem Shrinks.refl (e : SyncEngine) : Shrinks e e where
  known _ _ := id
  tree _ _ := id
  indexed := id
  records := List.Subset.refl _

theorem Shrinks.trans (h₁ : Shrinks e e') (h₂ : Shrinks e' e'') : Shrinks e e'' where
  known x h hx := h₁.known x h (h₂.known x h hx)
  tree x h hx := h₁.tree x h (h₂.tree x h hx)
  indexed hindexed := h₂.indexed (h₁.indexed hindexed)
  records _ hr := h₁.records (h₂.records hr)

theorem Shrinks.has (hs : Shrinks e e') (h' : e'.Has x h) : e.Has x h :=
  h'.imp (hs.known x h) (hs.tree x h)

theorem shrinks_staging (s : Staging) (hindexed : e.staging.Indexed → s.Indexed)
    (hrecords : s.records ⊆ e.staging.records) : Shrinks e { e with staging := s } where
  known _ _ := id
  tree _ _ := id
  indexed := hindexed
  records := hrecords

theorem shrinks_insertReject (e : SyncEngine) (x : Hash32) : Shrinks e (e.insertReject x) where
  known _ _ := id
  tree _ _ := id
  indexed := id
  records := List.Subset.refl _

theorem shrinks_committed (e : SyncEngine) (committed : Option CommittedHeader) :
    Shrinks e { e with committed } where
  known _ _ := id
  tree _ _ := id
  indexed := id
  records := List.Subset.refl _

theorem shrinks_noteCommitted (e : SyncEngine) (hash : Hash32) (height : Nat) (from_ : PeerId)
    (now : Nat) : Shrinks e (e.noteCommitted hash height from_ now) := by
  unfold noteCommitted
  split
  case isTrue => exact .refl e
  case isFalse => exact shrinks_committed e _

theorem shrinks_truncateTree (e : SyncEngine) (height : Nat) : Shrinks e (e.truncateTree height) where
  known _ _ := id
  tree _ _ hx := (Fifo.lookup_eraseWhere hx).2
  indexed := id
  records := List.Subset.refl _

theorem shrinks_forgetKnownFrom (e : SyncEngine) (height : Nat) :
    Shrinks e (e.forgetKnownFrom height) where
  known _ _ hx := (Fifo.lookup_eraseWhere hx).2
  tree _ _ := id
  indexed := id
  records := List.Subset.refl _

theorem shrinks_forgetStaleKnown (e : SyncEngine) (tipHeight : Nat) :
    Shrinks e (e.forgetStaleKnown tipHeight) := by
  unfold forgetStaleKnown
  dsimp only
  split
  case isTrue => exact .refl e
  case isFalse =>
    exact
      { known := fun _ _ hx ↦ (Fifo.lookup_eraseWhere hx).2
        tree := fun _ _ ↦ id
        indexed := id
        records := List.Subset.refl _ }

theorem mem_records_truncateStaging {height : Nat} :
    h ∈ (e.truncateStaging height).staging.records ↔ h ∈ e.staging.records ∧ h.height < height := by
  unfold truncateStaging Staging.truncateFrom Staging.records
  rw [List.mem_map, List.mem_map]
  simp only [List.mem_filter, decide_eq_true_eq]
  constructor
  · rintro ⟨s, ⟨hs, hlt⟩, rfl⟩
    exact ⟨⟨s, hs, rfl⟩, hlt⟩
  · rintro ⟨⟨s, hs, rfl⟩, hlt⟩
    exact ⟨s, ⟨hs, hlt⟩, rfl⟩

theorem shrinks_truncateStaging (e : SyncEngine) (height : Nat) :
    Shrinks e (e.truncateStaging height) :=
  shrinks_staging _ (fun hindexed ↦ hindexed.truncateFrom height) fun _ hr ↦
    (mem_records_truncateStaging.mp hr).1

theorem shrinks_noteHeld (e : SyncEngine) (held : Option Held) : Shrinks e (e.noteHeld held) := by
  cases held with
  | none => exact .refl e
  | some g =>
    exact
      { known := fun _ _ hx ↦ (Fifo.lookup_erase hx).2
        tree := fun _ _ hx ↦ (Fifo.lookup_erase hx).2
        indexed := id
        records := List.Subset.refl _ }

theorem shrinks_repairBreak (e : SyncEngine) (height : Nat) : Shrinks e (e.repairBreak height) :=
  (((shrinks_forgetKnownFrom e height).trans (shrinks_truncateStaging _ height)).trans
    (shrinks_truncateTree _ height)).trans (shrinks_committed _ none)

theorem shrinks_auditCommit (e : SyncEngine) (a : Around) : Shrinks e (e.auditCommit a) := by
  unfold auditCommit
  cases e.committed with
  | none => exact .refl e
  | some c =>
    dsimp only
    split
    case isTrue => exact .refl e
    case isFalse =>
      split
      case isTrue => exact shrinks_committed e none
      case isFalse =>
        exact ((shrinks_forgetKnownFrom e _).trans (shrinks_truncateTree _ _)).trans
          (shrinks_committed _ none)

/-- A notice of a header leaves nothing under its hash. -/
theorem has_noteHeld {c : Cells} (h' : (e.noteHeld c.held).Has x h) : e.Has x h ∧ ¬c.Names x := by
  refine ⟨(shrinks_noteHeld e c.held).has h', ?_⟩
  rintro ⟨g, hg, rfl⟩
  rw [Option.mem_def] at hg
  rw [hg] at h'
  rcases h' with hknown | htree
  · exact (Fifo.lookup_erase hknown).1 rfl
  · exact (Fifo.lookup_erase htree).1 rfl

/-- A repair leaves nothing from its height on. -/
theorem has_repairBreak {height : Nat} (h' : (e.repairBreak height).Has x h) : h.height < height := by
  have hlt (hle : decide (height ≤ h.height) = false) : h.height < height := by
    rwa [decide_eq_false_iff_not, not_le] at hle
  rcases h' with hknown | htree
  · exact hlt (Fifo.lookup_eraseWhere hknown).1
  · exact hlt (Fifo.lookup_eraseWhere htree).1

end SyncEngine

/-! ## Nothing is kept that should not be -/

open SyncEngine

/-- A staged header is away and not known, the tree has it as it is staged, and what the engine
keeps it may keep. -/
structure Forgets (e : SyncEngine) (c : Cells) (log : List HeaderNote) : Prop where
  indexed : e.staging.Indexed
  away : ∀ r ∈ e.staging.records, fate r.hash log = .away
  unknown : ∀ r ∈ e.staging.records, e.known.lookup r.hash = none
  same : ∀ r ∈ e.staging.records, ∀ h, e.tree.lookup r.hash = some h → h = r
  kept : ∀ x h, e.Keeps x h → (fate x log).Allows c x h

theorem mem_records_push {s s' : Staging} {h r : HeaderRec} {peer : PeerId}
    (hpush : s.push h peer = (s', true)) (hr : r ∈ s'.records) : r = h ∨ r ∈ s.records := by
  unfold Staging.push at hpush
  split at hpush
  case isTrue =>
    cases hpush
    unfold Staging.records at hr
    rw [List.map_append, List.mem_append] at hr
    exact hr.symm.imp_left List.mem_singleton.mp
  case isFalse => cases hpush

theorem mem_index_push {s s' : Staging} {h : HeaderRec} {peer : PeerId}
    (hpush : s.push h peer = (s', true)) : h.hash ∈ s'.index := by
  unfold Staging.push at hpush
  split at hpush
  case isTrue =>
    cases hpush
    rw [← AList.lookup_isSome, AList.lookup_insert]
    rfl
  case isFalse => cases hpush

namespace Forgets

variable {e e' : SyncEngine} {c c' : Cells} {log : List HeaderNote} {x : Hash32} {h : HeaderRec}
variable {height : Nat}

theorem new (tipHeight : Nat) (tip : Hash32) (seed : UInt64) :
    Forgets (.new tipHeight tip seed) .new [] where
  indexed := .new tipHeight tip seed
  away r hr := by cases hr
  unknown r hr := by cases hr
  same r hr := by cases hr
  kept x h hkeeps := trivial

/-- What is told is not kept. -/
theorem not_has (hs : Forgets e c log) (hx : fate x log = .told) :
    ¬e.Deduplicates x ∧ x ∉ e.staging.index := by
  have hindex : x ∉ e.staging.index := by
    intro hmem
    obtain ⟨r, hr, rfl⟩ := (mem_index_iff hs.indexed).mp hmem
    rw [hs.away r hr] at hx
    cases hx
  refine ⟨?_, hindex⟩
  rw [deduplicates_iff]
  rintro ⟨h, hhas⟩
  have hallows := hs.kept x h ⟨hhas, hindex⟩
  rw [hx] at hallows
  exact hallows

/-- What the engine has is staged or allowed. -/
theorem allows (hs : Forgets e c log) (hhas : e.Has x h) : (fate x log).Allows c x h := by
  by_cases hx : x ∈ e.staging.index
  · obtain ⟨r, hr, rfl⟩ := (mem_index_iff hs.indexed).mp hx
    rw [hs.away r hr]
    exact trivial
  · exact hs.kept x h ⟨hhas, hx⟩

theorem shrinks (hs : Forgets e c log) (he : Shrinks e e') : Forgets e' c log where
  indexed := he.indexed hs.indexed
  away r hr := hs.away r (he.records hr)
  unknown r hr := by
    rw [Option.eq_none_iff_forall_ne_some]
    intro h hknown
    have hold := he.known _ h hknown
    rw [hs.unknown r (he.records hr)] at hold
    cases hold
  same r hr h htree := hs.same r (he.records hr) h (he.tree _ h htree)
  kept x h hkeeps := hs.allows (he.has hkeeps.1)

/-- The engine hears nothing but that a call was made. -/
theorem called (hs : Forgets e c log) (hc : c.refusal = none) : Forgets e c (log ++ [.called]) where
  indexed := hs.indexed
  away r hr := by
    rw [fate_append, hs.away r hr]
    rfl
  unknown := hs.unknown
  same := hs.same
  kept x h hkeeps := by
    rw [fate_append]
    exact (hs.kept x h hkeeps).called hc

/-- A repair forgets what is told of. -/
theorem broken (hs : Forgets e c log) (hheld : c'.held = c.held)
    (hheight : ∀ n, c.Breaks n → height ≤ n) :
    Forgets (e.repairBreak height) c' (log ++ [.called, .refusedAt height]) where
  indexed := (hs.shrinks (shrinks_repairBreak e height)).indexed
  away r hr := by
    rw [fate_append, (hs.shrinks (shrinks_repairBreak e height)).away r hr]
    rfl
  unknown := (hs.shrinks (shrinks_repairBreak e height)).unknown
  same := (hs.shrinks (shrinks_repairBreak e height)).same
  kept x h hkeeps := by
    have hlow := not_le.mpr (has_repairBreak hkeeps.1)
    have hallows := hs.allows ((shrinks_repairBreak e height).has hkeeps.1)
    rw [fate_append]
    generalize fate x log = f at hallows
    cases f with
    | away => exact trivial
    | told => exact hallows
    | out h' =>
      obtain rfl : h' = h := hallows
      change ((Fate.out h').broken height).Allows c' x h'
      rw [Fate.broken, if_neg hlow]
      exact rfl
    | parked h' =>
      obtain ⟨rfl, g, hg, hname⟩ := hallows
      change ((Fate.parked h').broken height).Allows c' x h'
      rw [Fate.broken, if_neg hlow]
      exact ⟨rfl, g, hheld ▸ hg, hname⟩
    | refused h' =>
      obtain ⟨rfl, hbreaks⟩ := hallows
      exact absurd (hheight _ hbreaks) hlow

/-- The engine drops a header that is invalid. -/
theorem invalid (hs : Forgets e c log) (hc : c.refusal = none) (he : Shrinks e e')
    (hgone : ∀ g, ¬e'.Has h.hash g) (hunstaged : ∀ r ∈ e'.staging.records, r.hash ≠ h.hash) :
    Forgets e' c (log ++ [.called, .invalid h]) where
  indexed := (hs.shrinks he).indexed
  away r hr := by
    rw [fate_append, (hs.shrinks he).away r hr]
    exact if_neg (hunstaged r hr).symm
  unknown := (hs.shrinks he).unknown
  same := (hs.shrinks he).same
  kept x g hkeeps := by
    have hne : h.hash ≠ x := by
      rintro rfl
      exact hgone g hkeeps.1
    rw [fate_append]
    have hcalled := ((hs.shrinks he).kept x g hkeeps).called hc
    change (((fate x log).next x .called).next x (.invalid h)).Allows c x g
    rw [Fate.next, if_neg hne]
    exact hcalled

/-- A header that is new may be staged. -/
theorem staged (hs : Forgets e c log) {peer : PeerId} {s : Staging}
    (hpush : e.staging.push h peer = (s, true)) (hindex : h.hash ∉ e.staging.index)
    (hknown : h.hash ∉ e.known.rows) :
    Forgets ({ e with staging := s }.insertTree h) c (log ++ [.staged h]) := by
  have hindexed := hs.indexed.push hindex peer
  rw [hpush] at hindexed
  have hne (r : HeaderRec) (hr : r ∈ e.staging.records) : h.hash ≠ r.hash := fun heq ↦
    hindex ((mem_index_iff hs.indexed).mpr ⟨r, hr, heq.symm⟩)
  exact
    { indexed := hindexed
      away r hr := by
        rw [fate_append]
        rcases mem_records_push hpush hr with rfl | hold
        · exact if_pos rfl
        · exact (if_neg (hne r hold)).trans (hs.away r hold)
      unknown r hr := by
        rcases mem_records_push hpush hr with rfl | hold
        · exact AList.lookup_eq_none.mpr hknown
        · exact hs.unknown r hold
      same r hr g htree := by
        rcases Fifo.lookup_insert htree with ⟨heq, rfl⟩ | ⟨hdiff, htree⟩
        · rcases mem_records_push hpush hr with rfl | hold
          · rfl
          · exact absurd heq.symm (hne r hold)
        · rcases mem_records_push hpush hr with rfl | hold
          · exact absurd rfl hdiff
          · exact hs.same r hold g htree
      kept x g hkeeps := by
        have hx : h.hash ≠ x := by
          rintro rfl
          exact hkeeps.2 (mem_index_push hpush)
        have hhas : e.Has x g := by
          rcases hkeeps.1 with hknown | htree
          · exact .inl hknown
          · rcases Fifo.lookup_insert htree with ⟨heq, -⟩ | ⟨-, htree⟩
            · exact absurd heq.symm hx
            · exact .inr htree
        rw [fate_append]
        change ((fate x log).next x (.staged h)).Allows c x g
        rw [Fate.next, if_neg hx]
        exact hs.allows hhas }

/-- A header is handed over.  The engine forgets what the answer names, and keeps the header. -/
theorem handed (hs : Forgets e c log) (hc : c.refusal = none) {rs : List Report}
    (htells : c.TellsAll e.Keeps h rs)
    (hindexed : e'.staging.Indexed)
    (hrecords : ∀ r ∈ e'.staging.records, r ∈ e.staging.records ∧ r.hash ≠ h.hash)
    (hknown : ∀ x g, e'.known.lookup x = some g → x = h.hash ∧ g = h ∨ x ≠ h.hash ∧
      (e.noteHeld (rs.foldl Cells.report c).held).known.lookup x = some g)
    (htree : ∀ x g, e'.tree.lookup x = some g → x = h.hash ∧ g = h ∨ x ≠ h.hash ∧
      (e.noteHeld (rs.foldl Cells.report c).held).tree.lookup x = some g) :
    Forgets e' { rs.foldl Cells.report c with held := none }
      (log ++ .called :: .handed h :: (rs.map .report ++ [.answered])) := by
  have hshrinks := shrinks_noteHeld e (rs.foldl Cells.report c).held
  have hfate (x : Hash32) : fate x (log ++ .called :: .handed h :: (rs.map .report ++ [.answered])) =
      ((rs.map .report).foldl (Fate.next x)
        (((fate x log).next x .called).next x (.handed h))).next x .answered := by
    rw [fate_append, List.foldl_cons, List.foldl_cons, List.foldl_append]
    rfl
  have hother {x : Hash32} (hx : x ≠ h.hash) (f : Fate) : f.next x (.handed h) = f :=
    if_neg hx.symm
  exact
    { indexed := hindexed
      away := by
        intro r hr
        obtain ⟨hold, hne⟩ := hrecords r hr
        rw [hfate, hs.away r hold, hother hne]
        exact congrArg (Fate.next r.hash · .answered) Fate.reports_away
      unknown := by
        intro r hr
        obtain ⟨hold, hne⟩ := hrecords r hr
        rw [Option.eq_none_iff_forall_ne_some]
        intro g hg
        rcases hknown _ g hg with ⟨heq, -⟩ | ⟨-, hg⟩
        · exact hne heq
        · have hg := hshrinks.known _ g hg
          rw [hs.unknown r hold] at hg
          cases hg
      same := by
        intro r hr g hg
        obtain ⟨hold, hne⟩ := hrecords r hr
        rcases htree _ g hg with ⟨heq, -⟩ | ⟨-, hg⟩
        · exact absurd heq hne
        · exact hs.same r hold g (hshrinks.tree _ g hg)
      kept := by
        intro x g hkeeps
        have hhas : x = h.hash ∧ g = h ∨
            x ≠ h.hash ∧ (e.noteHeld (rs.foldl Cells.report c).held).Has x g := by
          rcases hkeeps.1 with hg | hg
          · exact (hknown x g hg).imp_right fun hold ↦ ⟨hold.1, .inl hold.2⟩
          · exact (htree x g hg).imp_right fun hold ↦ ⟨hold.1, .inr hold.2⟩
        rw [hfate]
        rcases hhas with ⟨rfl, rfl⟩ | ⟨hx, hhas⟩
        · have hout : ((((fate g.hash log).next g.hash .called).next g.hash (.handed g))).Out c g :=
            .inl (if_pos rfl)
          exact (hout.reports htells).answered.allows
        · obtain ⟨hhas, hnames⟩ := has_noteHeld hhas
          rw [hother hx]
          by_cases hstaged : x ∈ e.staging.index
          · obtain ⟨r, hr, rfl⟩ := (mem_index_iff hs.indexed).mp hstaged
            rw [hs.away r hr, show Fate.next r.hash .away .called = .away from rfl,
              Fate.reports_away]
            exact trivial
          · have hkept : e.Keeps x g := ⟨hhas, hstaged⟩
            exact (((hs.kept x g hkept).called hc).reports hkept htells).answered hnames }

/-- Checks of the work say nothing of a fate. -/
theorem checked (hs : Forgets e c log) (calls : List (RawHeader × Bool)) :
    Forgets e c (log ++ calls.map fun call ↦ .checked call.1 call.2) := by
  have hfate (x : Hash32) :
      fate x (log ++ calls.map fun call ↦ .checked call.1 call.2) = fate x log := by
    rw [fate_append]
    generalize fate x log = f
    induction calls with
    | nil => rfl
    | cons call calls ih => exact ih
  exact
    { indexed := hs.indexed
      away := fun r hr ↦ (hfate r.hash).trans (hs.away r hr)
      unknown := hs.unknown
      same := hs.same
      kept := fun x h hkeeps ↦ (hfate x).symm ▸ hs.kept x h hkeeps }

end Forgets

/-! ## Steps -/

/-- What the sink makes of a header. -/
theorem Cells.submit_cases (c : Cells) (h : HeaderRec) (a : Around) :
    (∃ b, c.refusal = some b ∧ c.submit h a =
      (.error (.refusedAt b.height b.why), { c with refusal := none },
        [.called, .refusedAt b.height])) ∨
    (∃ e, c.refusal = none ∧ c.submit h a = (.error e, c, stopNotes h e)) ∨
    c.refusal = none ∧ c.submit h a =
      (.ok (a.during.foldl report c).held, { a.during.foldl report c with held := none },
        .called :: .handed h :: (a.during.map .report ++ [.answered])) := by
  unfold submit
  cases hrefusal : c.refusal with
  | some b => exact .inl ⟨b, rfl, rfl⟩
  | none =>
    cases a.stop with
    | some e => exact .inr (.inl ⟨e, rfl, rfl⟩)
    | none => exact .inr (.inr ⟨rfl, rfl⟩)

namespace Forgets

variable {e : SyncEngine} {c : Cells} {log : List HeaderNote} {h : HeaderRec} {a : Around}
variable {peer : PeerId}

/-- A break in the cell is heard. -/
theorem refused (hs : Forgets e c log) {b : Break} (hb : c.refusal = some b) :
    Forgets (e.repairBreak b.height) { c with refusal := none }
      (log ++ [.called, .refusedAt b.height]) := by
  refine hs.broken rfl ?_
  rintro n ⟨b', hb', hle⟩
  rw [hb] at hb'
  obtain rfl := Option.some.inj hb'
  exact hle

/-- A break that is answered with nothing in the cell is heard. -/
theorem stopped (hs : Forgets e c log) (hc : c.refusal = none) (height : Nat) :
    Forgets (e.repairBreak height) c (log ++ [.called, .refusedAt height]) := by
  refine hs.broken rfl ?_
  rintro n ⟨b, hb, -⟩
  rw [hc] at hb
  cases hb

theorem admitAnnounced (hs : Forgets e c log) (hknown : h.hash ∉ e.known.rows)
    (hindex : h.hash ∉ e.staging.index) (htells : c.TellsAll e.Keeps h a.during) :
    Forgets (e.admitAnnounced c peer h a).1 (e.admitAnnounced c peer h a).2.1
      (log ++ (e.admitAnnounced c peer h a).2.2.1) := by
  have hsame : Forgets e c (log ++ []) := by rwa [List.append_nil]
  unfold SyncEngine.admitAnnounced
  split
  case isTrue => exact hsame
  case isFalse htree =>
    split
    case isTrue => exact hsame
    case isFalse =>
      dsimp only
      have hshrinks : Shrinks e { e with
          staging := { e.staging with powCalls := e.staging.powCalls + 1 } } :=
        shrinks_staging _ id (List.Subset.refl _)
      have htells₁ : c.TellsAll (SyncEngine.Keeps { e with
          staging := { e.staging with powCalls := e.staging.powCalls + 1 } }) h a.during := htells
      generalize ({ e with
        staging := { e.staging with powCalls := e.staging.powCalls + 1 } } : SyncEngine) = e₁
        at hshrinks htells₁ ⊢
      have hcounted := hs.shrinks hshrinks
      split
      case isTrue =>
        exact (hcounted.shrinks (shrinks_insertReject _ h.hash)).checked [(h.raw, false)]
      case isFalse =>
        have hchecked := hcounted.checked [(h.raw, true)]
        have hunseen (g : HeaderRec) : ¬e₁.Has h.hash g := by
          intro hhas
          rcases hshrinks.has hhas with hhas | hhas
          · exact hknown (Fifo.mem_rows_iff.mpr ⟨g, hhas⟩)
          · exact htree (Fifo.mem_rows_iff.mpr ⟨g, hhas⟩)
        have hunstaged (r : HeaderRec) (hr : r ∈ e₁.staging.records) : r.hash ≠ h.hash := by
          intro heq
          exact hindex ((mem_index_iff hs.indexed).mpr ⟨r, hshrinks.records hr, heq⟩)
        rcases c.submit_cases h a with ⟨b, hb, hsubmit⟩ | ⟨err, hc, hsubmit⟩ | ⟨hc, hsubmit⟩
        · rw [hsubmit]
          dsimp only
          rw [List.append_cons]
          exact hchecked.refused hb
        · rw [hsubmit]
          cases err with
          | full =>
            dsimp only
            rw [List.append_cons]
            exact hchecked.called hc
          | fatal why =>
            dsimp only
            rw [List.append_cons]
            exact hchecked.called hc
          | invalid why =>
            dsimp only
            rw [List.append_cons]
            exact hchecked.invalid hc (.refl _) hunseen hunstaged
          | refusedAt height why =>
            dsimp only
            rw [List.append_cons]
            exact hchecked.stopped hc height
        · rw [hsubmit]
          dsimp only
          rw [List.append_cons]
          refine Forgets.shrinks ?_ (shrinks_noteCommitted _ h.hash h.height peer a.now)
          refine hchecked.handed hc htells₁ ((shrinks_noteHeld _ _).indexed hchecked.indexed) ?_ ?_ ?_
          · exact fun r hr ↦ ⟨(shrinks_noteHeld _ _).records hr,
              hunstaged r ((shrinks_noteHeld _ _).records hr)⟩
          · intro x g hg
            refine .inr ⟨?_, hg⟩
            rintro rfl
            exact hunseen g (.inl ((shrinks_noteHeld _ _).known _ g hg))
          · intro x g hg
            exact Fifo.lookup_insert hg

/-- A header that was let through goes to the sink. -/
theorem commit (hs : Forgets e c log) {x : Staged} (hhead : e.staging.queue.head? = some x)
    (hx : x.record = h) (htells : c.TellsAll e.Keeps h a.during) :
    Forgets (e.commit c h peer a).1 (e.commit c h peer a).2.1
      (log ++ (e.commit c h peer a).2.2.1) := by
  obtain ⟨rest, hqueue⟩ := List.head?_eq_some_iff.mp hhead
  have hmem : h ∈ e.staging.records := by
    subst hx
    exact List.mem_map_of_mem (hqueue ▸ List.mem_cons_self)
  have hown (y : HeaderRec) (hy : y ∈ e.staging.records) (heq : y.hash = h.hash) : y = h :=
    List.inj_on_of_nodup_map hs.indexed.nodup hy hmem heq
  unfold SyncEngine.commit
  rcases c.submit_cases h a with ⟨b, hb, hsubmit⟩ | ⟨err, hc, hsubmit⟩ | ⟨hc, hsubmit⟩
  · rw [hsubmit]
    exact hs.refused hb
  · rw [hsubmit]
    cases err with
    | full => exact hs.called hc
    | fatal why => exact hs.called hc
    | refusedAt height why => exact hs.stopped hc height
    | invalid why =>
      refine hs.invalid hc
        ((shrinks_truncateStaging e h.height).trans (shrinks_truncateTree _ h.height)) ?_ ?_
      · rintro g (hg | hg)
        · have hold : e.known.lookup h.hash = some g := hg
          rw [hs.unknown h hmem] at hold
          cases hold
        · obtain ⟨hlow, hold⟩ := Fifo.lookup_eraseWhere hg
          obtain rfl := hs.same h hmem g hold
          rw [decide_eq_false_iff_not] at hlow
          exact hlow le_rfl
      · intro r hr heq
        obtain ⟨hold, hlt⟩ := mem_records_truncateStaging.mp hr
        obtain rfl := hown r hold heq
        exact lt_irrefl _ hlt
  · rw [hsubmit]
    dsimp only
    refine Forgets.shrinks ?_ (shrinks_noteCommitted _ h.hash h.height peer a.now)
    refine hs.handed hc htells
      (Staging.Indexed.commitFront ((shrinks_noteHeld _ _).indexed hs.indexed)) ?_ ?_ ?_
    · intro r hr
      have htail : r ∈ rest.map (·.record) := by
        have hrecords : r ∈ e.staging.commitFront.1.queue.map (·.record) := by
          cases hheld : (a.during.foldl Cells.report c).held <;> rw [hheld] at hr <;> exact hr
        rwa [Staging.commitFront_queue, hqueue, List.tail_cons] at hrecords
      have hnodup := hs.indexed.nodup
      unfold Staging.records at hnodup ⊢
      rw [hqueue, List.map_cons, List.map_cons, List.nodup_cons, hx] at hnodup
      rw [hqueue, List.map_cons]
      refine ⟨List.mem_cons_of_mem _ htail, ?_⟩
      intro heq
      exact hnodup.1 (heq ▸ List.mem_map_of_mem htail)
    · intro y g hg
      exact Fifo.lookup_insert hg
    · intro y g hg
      rcases eq_or_ne y h.hash with rfl | hne
      · have hold : e.tree.lookup h.hash = some g := (shrinks_noteHeld _ _).tree _ g hg
        exact .inl ⟨rfl, hs.same h hmem g hold⟩
      · exact .inr ⟨hne, hg⟩

end Forgets

/-- What a header that `verify_step` let through leaves alone. -/
structure LetThrough (s s' : Staging) (h : HeaderRec) : Prop where
  index : s'.index = s.index
  records : s'.records = s.records
  head : ∃ x, s'.queue.head? = some x ∧ x.record = h

theorem letThrough_front {s s' : Staging} {x : Staged} (hindex : s'.index = s.index)
    (hqueue : s'.queue = s.queue) (hhead : s.queue.head? = some x) : LetThrough s s' x.record where
  index := hindex
  records := congrArg (List.map _) hqueue
  head := ⟨x, hqueue ▸ hhead, rfl⟩

theorem LetThrough.mapFront {s s' : Staging} {h : HeaderRec} (hl : LetThrough s s' h)
    {f : Staged → Staged} (hf : ∀ x, (f x).record = x.record) : LetThrough s (s'.mapFront f) h where
  index := hl.index
  records := (Staging.mapFront_records s' hf).trans hl.records
  head := by
    obtain ⟨x, hhead, hx⟩ := hl.head
    refine ⟨f x, ?_, (hf x).trans hx⟩
    rw [Staging.mapFront_queue, List.head?_modifyHead, hhead]
    rfl

theorem LetThrough.markFrontVerified {s s' : Staging} {h : HeaderRec} (hl : LetThrough s s' h) :
    LetThrough s s'.markFrontVerified h := hl.mapFront fun _ ↦ rfl

theorem LetThrough.fastForward {s s' : Staging} {h : HeaderRec} (hl : LetThrough s s' h) :
    LetThrough s s'.fastForward h := hl.markFrontVerified.mapFront fun _ ↦ rfl

/-- What a verification leaves of the staging. -/
structure Leaves (s : Staging) (t : Staging.Step) : Prop where
  indexed : t.1.Indexed
  records : t.1.records ⊆ s.records
  through : ∀ h from_, t.2.1 = .verified h from_ ∨ t.2.1 = .fastForwarded h from_ →
    LetThrough s t.1 h

theorem leaves_through {s : Staging} {t : Staging.Step} {h : HeaderRec} {from_ : PeerId}
    (hindexed : t.1.Indexed) (houtcome : t.2.1 = .verified h from_ ∨ t.2.1 = .fastForwarded h from_)
    (hl : LetThrough s t.1 h) : Leaves s t where
  indexed := hindexed
  records := by
    rw [hl.records]
    exact List.Subset.refl _
  through h' from' h'outcome := by
    rcases houtcome with houtcome | houtcome <;> rw [houtcome] at h'outcome <;>
      rcases h'outcome with heq | heq <;> cases heq <;> exact hl

/-- What is let through is the front, and the rest stays as it is.  Else the staging has nothing
new. -/
theorem verifyStep_leaves {s : Staging} (hindexed : s.Indexed) (pow : RawHeader → Bool)
    (anchor : Option Anchor) (verifyAll : Bool) : Leaves s (s.verifyStep pow anchor verifyAll) := by
  have hverifies := s.verifies pow anchor verifyAll
  generalize s.verifyStep pow anchor verifyAll = t at hverifies
  have hindexed' := hindexed.verifyStep hverifies
  have hpopped {s' : Staging} (hqueue : s'.queue = s.queue) : s'.popFront.1.records ⊆ s.records := by
    unfold Staging.records
    rw [Staging.popFront_queue, hqueue]
    exact List.map_subset _ (List.tail_subset _)
  cases hverifies with
  | idle hhead =>
    refine ⟨hindexed', List.Subset.refl _, ?_⟩
    rintro h from_ (houtcome | houtcome) <;> cases houtcome
  | mismatch =>
    refine ⟨hindexed', List.nil_subset _, ?_⟩
    rintro h from_ (houtcome | houtcome) <;> cases houtcome
  | badSample | bad =>
    refine ⟨hindexed', hpopped rfl, ?_⟩
    rintro h from_ (houtcome | houtcome) <;> cases houtcome
  | again hhead hx => exact leaves_through hindexed' (.inl rfl) (letThrough_front rfl rfl hhead)
  | anchored hhead | full hhead =>
    refine leaves_through hindexed' (.inl rfl) (LetThrough.markFrontVerified ?_)
    exact letThrough_front rfl rfl hhead
  | passedBy hhead | sampled hhead =>
    refine leaves_through hindexed' (.inr rfl) (LetThrough.fastForward ?_)
    exact letThrough_front rfl rfl hhead

/-- `check_context` sets the target of a header. -/
theorem checkContext_eq_ok {rule : BitsRule} {parent h r : HeaderRec} {p : ContextParams}
    (hok : checkContext rule parent h p = .ok r) : ∃ target, r = { h with target } := by
  unfold checkContext at hok
  obtain ⟨-, -, hok⟩ := Except.bind_eq_ok.mp hok
  obtain ⟨-, -, hok⟩ := Except.bind_eq_ok.mp hok
  obtain ⟨-, -, hok⟩ := Except.bind_eq_ok.mp hok
  cases htarget : rule.expand h.bits with
  | none =>
    rw [htarget] at hok
    cases hok
  | some target =>
    rw [htarget] at hok
    obtain ⟨-, -, hok⟩ := Except.bind_eq_ok.mp hok
    obtain ⟨-, -, hok⟩ := Except.bind_eq_ok.mp hok
    obtain ⟨-, -, hok⟩ := Except.bind_eq_ok.mp hok
    cases hok
    exact ⟨target, rfl⟩

/-- Reports are asked about the hash of a header and its height. -/
theorem Cells.TellsAll.of_eq {keeps : Hash32 → HeaderRec → Prop} {h h' : HeaderRec} {c : Cells}
    {rs : List Report} (htells : c.TellsAll keeps h rs) (hhash : h'.hash = h.hash)
    (hheight : h'.height = h.height) : c.TellsAll keeps h' rs := by
  induction rs generalizing c with
  | nil => trivial
  | cons r rs ih =>
    refine ⟨⟨htells.1.1, ?_, ?_⟩, ih htells.2⟩
    · rw [hhash]
      exact htells.1.2.parked
    · rw [hhash, hheight]
      exact htells.1.2.refused

/-- A header that gets through is neither known nor staged, and only its target is new. -/
inductive Vets (e : SyncEngine) (r : HeaderRec) : Gated → Prop
  | skipped : Vets e r .skipped
  | ended {e' : SyncEngine} (h : Shrinks e e') : Vets e r (.ended e')
  | passed (target : Hash32) (hknown : r.hash ∉ e.known.rows) (hindex : r.hash ∉ e.staging.index) :
    Vets e r (.passed { r with target })

theorem vets (e : SyncEngine) (r : HeaderRec) (a : Around) : Vets e r (e.vet r a) := by
  unfold SyncEngine.vet
  split
  case isTrue => exact .skipped
  case isFalse =>
    split
    case isTrue => exact .skipped
    case isFalse hnew =>
      split
      case isTrue => exact .skipped
      case isFalse =>
        rw [not_or, not_or] at hnew
        split
        case h_1 => exact .ended (.refl e)
        case h_2 parent _ =>
          split
          case h_1 r' hok =>
            obtain ⟨target, rfl⟩ := checkContext_eq_ok hok
            exact .passed target hnew.1 hnew.2.1
          case h_2 rej _ =>
            split
            case isTrue => exact .ended (shrinks_insertReject e r.hash)
            case isFalse => exact .ended (.refl e)

namespace Forgets

variable {e : SyncEngine} {c : Cells} {log : List HeaderNote} {r : HeaderRec} {a : Around}
variable {peer : PeerId} {isSync : Bool}

theorem verifyTurn (hs : Forgets e c log)
    (htells : ∀ x ∈ e.staging.queue.head?, c.TellsAll e.Keeps x.record a.during) :
    Forgets (e.verifyTurn c a).1 (e.verifyTurn c a).2.1 (log ++ (e.verifyTurn c a).2.2.1) := by
  have hsame : Forgets e c (log ++ []) := by rwa [List.append_nil]
  unfold SyncEngine.verifyTurn
  split
  case isTrue => exact hsame
  case isFalse =>
    split
    case isTrue => exact hsame
    case isFalse =>
      split
      case isTrue => exact hsame
      case isFalse =>
        have hleaves := verifyStep_leaves hs.indexed a.pow a.anchor a.verifyAllPow
        generalize e.staging.verifyStep a.pow a.anchor a.verifyAllPow = t at hleaves
        obtain ⟨s, outcome, calls⟩ := t
        obtain ⟨hindexed, hrecords, hthrough⟩ := hleaves
        have hshrinks : Shrinks e { e with staging := s } :=
          shrinks_staging s (fun _ ↦ hindexed) hrecords
        have hchecked := (hs.shrinks hshrinks).checked calls
        have hgoes (h : HeaderRec) (from_ : PeerId) (hl : LetThrough e.staging s h) :
            Forgets (SyncEngine.commit { e with staging := s } c h from_ a).1
              (SyncEngine.commit { e with staging := s } c h from_ a).2.1
              (log ++ ((calls.map fun call ↦ HeaderNote.checked call.1 call.2) ++
                (SyncEngine.commit { e with staging := s } c h from_ a).2.2.1)) := by
          obtain ⟨x, hhead, hx⟩ := hl.head
          obtain ⟨rest, hqueue⟩ := List.head?_eq_some_iff.mp hhead
          have hkeeps : SyncEngine.Keeps { e with staging := s } = e.Keeps := by
            unfold SyncEngine.Keeps
            rw [hl.index]
            rfl
          have hfront : ∃ y ∈ e.staging.queue.head?, y.record = h := by
            have hmap := congrArg List.head? hl.records
            unfold Staging.records at hmap
            rw [hqueue, List.map_cons, List.head?_cons, hx, List.head?_map] at hmap
            obtain ⟨y, hy, heq⟩ := Option.map_eq_some_iff.mp hmap.symm
            exact ⟨y, hy, heq⟩
          obtain ⟨y, hy, rfl⟩ := hfront
          rw [← List.append_assoc]
          exact hchecked.commit hhead hx (hkeeps.symm ▸ htells y hy)
        cases outcome with
        | idle => exact hchecked
        | verified h from_ => exact hgoes h from_ (hthrough h from_ (.inl rfl))
        | fastForwarded h from_ => exact hgoes h from_ (hthrough h from_ (.inr rfl))
        | badPow h from_ =>
          exact ((((hchecked.shrinks (shrinks_insertReject _ h.hash)).shrinks
            (shrinks_truncateStaging _ h.height)).shrinks (shrinks_truncateTree _ h.height)).shrinks
              (shrinks_forgetKnownFrom _ h.height))
        | anchorMismatch height got from_ =>
          exact ((hchecked.shrinks (shrinks_insertReject _ got)).shrinks
            (shrinks_truncateStaging _ height)).shrinks (shrinks_forgetKnownFrom _ height)

theorem deliver (hs : Forgets e c log)
    (htells : isSync = false → c.TellsAll e.Keeps r a.during) :
    Forgets (e.deliver c peer isSync r a).1 (e.deliver c peer isSync r a).2.1
      (log ++ (e.deliver c peer isSync r a).2.2.1) := by
  have hsame : Forgets e c (log ++ []) := by rwa [List.append_nil]
  unfold SyncEngine.deliver
  have hvets := vets e r a
  generalize e.vet r a = gated at hvets
  cases hvets with
  | skipped => exact hsame
  | ended hshrinks => exact hsame.shrinks hshrinks
  | passed target hknown hindex =>
    cases isSync with
    | false => exact hs.admitAnnounced hknown hindex ((htells rfl).of_eq rfl rfl)
    | true =>
      dsimp only
      rw [if_neg (not_not.mpr rfl)]
      cases hpush : e.staging.push { r with target } peer with
      | mk s pushed =>
        cases pushed with
        | false => exact hsame
        | true => exact hs.staged hpush hindex hknown

end Forgets

end Plaine.P2p

import Plaine.Consensus.Blake3
import Plaine.P2p.Forgets

/-!
# Another delivery

In a run in which the reports of the chain leave their notices, a header that was held or refused
and told of is not known, and goes the whole way again when it is delivered.  The chain that holds a
header before the call that hands it over has answered breaks this, and so do two headers that are
held between two calls.
-/

namespace Plaine.P2p

open Plaine.Lib Plaine.Consensus

variable {e : SyncEngine} {w : SyncRun} {ops : List SyncOp} {r r' : HeaderRec} {a : Around}

/-! ## Runs that leave their notices -/

/-- The reports of a step leave their notices. -/
def SyncRun.Tells (w : SyncRun) : SyncOp → Prop
  | .deliver _ isSync r a => isSync = false → w.cells.TellsAll w.engine.Keeps r a.during
  | .verify a =>
    ∀ x ∈ w.engine.staging.queue.head?, w.cells.TellsAll w.engine.Keeps x.record a.during
  | .report r => w.cells.Tells w.engine.Keeps r
  | .audit _ | .forgetStale _ => True

/-- A report keeps what is allowed. -/
theorem Forgets.report {c : Cells} {log : List HeaderNote} {r : Report} (hs : Forgets e c log)
    (htells : c.Tells e.Keeps r) : Forgets e (c.report r) (log ++ [.report r]) where
  indexed := hs.indexed
  away h hr := by
    rw [fate_append, hs.away h hr]
    rfl
  unknown := hs.unknown
  same := hs.same
  kept x h hkeeps := by
    rw [fate_append]
    exact (hs.kept x h hkeeps).report hkeeps htells

theorem Forgets.step (hs : Forgets w.engine w.cells w.log) (op : SyncOp) (htells : w.Tells op) :
    Forgets (w.step op).engine (w.step op).cells (w.step op).log := by
  cases op with
  | deliver peer isSync r a => exact hs.deliver htells
  | verify a => exact hs.verifyTurn htells
  | audit a => exact hs.shrinks (SyncEngine.shrinks_auditCommit w.engine a)
  | forgetStale tipHeight => exact hs.shrinks (SyncEngine.shrinks_forgetStaleKnown w.engine tipHeight)
  | report r => exact Forgets.report hs htells

theorem Forgets.run (hs : Forgets w.engine w.cells w.log)
    (hruns : Runs SyncRun.step SyncRun.Tells w ops) :
    Forgets (w.run ops).engine (w.run ops).cells (w.run ops).log :=
  hruns.keeps (P := fun w ↦ Forgets w.engine w.cells w.log) hs fun _ op hs htells ↦
    hs.step op htells

/-! ## Delivery -/

/-- The gates let `r` through as `r'`, but for what the engine may know of it. -/
structure SyncEngine.Opens (e : SyncEngine) (a : Around) (r r' : HeaderRec) : Prop where
  reject : r.hash ∉ e.reject.rows
  header : a.header r.hash = none
  quarantined : a.quarantined r.hash = false
  context : ∃ parent, e.lookup a r.prevHash = some parent ∧
    checkContext a.bits parent r (e.contextParams a parent r) = .ok r'

/-- Whoever delivers the header, it is staged to be verified, or verified at once. -/
def SyncEngine.Takes (e : SyncEngine) (c : Cells) (r r' : HeaderRec) (a : Around) : Prop :=
  ∀ peer,
    (e.staging.canStage → (e.deliver c peer true r a).1.staging.queue =
      e.staging.queue ++ [{ record := r', from_ := peer, verified := false, fastForwarded := false }]) ∧
    (a.affordable = true → .checked r.raw (a.pow r.raw) ∈ (e.deliver c peer false r a).2.2.1)

/-- A header that is not known goes through where the gates are open. -/
theorem SyncEngine.Opens.vet (ho : e.Opens a r r') (hknown : r.hash ∉ e.known.rows)
    (hindex : r.hash ∉ e.staging.index) : e.vet r a = .passed r' := by
  obtain ⟨parent, hparent, hcontext⟩ := ho.context
  have hnew : ¬(r.hash ∈ e.known.rows ∨ r.hash ∈ e.staging.index ∨
      (a.header r.hash).isSome = true) := by
    rw [ho.header]
    rintro (h | h | h)
    · exact hknown h
    · exact hindex h
    · cases h
  have hquarantined : ¬a.quarantined r.hash = true := by
    rw [ho.quarantined]
    exact Bool.false_ne_true
  unfold SyncEngine.vet
  rw [if_neg ho.reject, if_neg hnew, if_neg hquarantined, hparent]
  dsimp only
  rw [hcontext]

theorem SyncEngine.Opens.takes (ho : e.Opens a r r') (hknown : ¬e.Deduplicates r.hash)
    (hindex : r.hash ∉ e.staging.index) (c : Cells) : e.Takes c r r' a := by
  obtain ⟨hknown, htree⟩ := not_or.mp hknown
  have hvet := ho.vet hknown hindex
  have heq : r'.hash = r.hash ∧ r'.raw = r.raw := by
    obtain ⟨parent, -, hcontext⟩ := ho.context
    obtain ⟨target, rfl⟩ := checkContext_eq_ok hcontext
    exact ⟨rfl, rfl⟩
  intro peer
  constructor
  · intro hroom
    unfold SyncEngine.deliver
    rw [hvet]
    dsimp only
    rw [if_neg (not_not.mpr rfl)]
    unfold Staging.push
    rw [if_pos hroom]
    rfl
  · intro haffordable
    unfold SyncEngine.deliver
    rw [hvet]
    dsimp only
    rw [if_pos Bool.false_ne_true]
    unfold SyncEngine.admitAnnounced
    rw [heq.1, if_neg htree, if_neg (not_not.mpr haffordable)]
    dsimp only
    rw [heq.2]
    cases a.pow r.raw with
    | false => exact List.mem_singleton_self _
    | true =>
      rw [if_neg (not_not.mpr rfl)]
      rcases c.submit_cases r' a with ⟨b, -, hsubmit⟩ | ⟨err, -, hsubmit⟩ | ⟨-, hsubmit⟩
      · rw [hsubmit]
        exact List.mem_cons_self
      · rw [hsubmit]
        cases err <;> exact List.mem_cons_self
      · rw [hsubmit]
        exact List.mem_cons_self

/-! ## Held headers come back -/

/-- In every state of a run whose reports leave their notices, a header that was held or refused and
told of is neither known nor in the tree nor staged, and another delivery of it is staged and
verified again. -/
theorem held_come_back (tipHeight : Nat) (tip : Hash32) (seed : UInt64) (ops : List SyncOp)
    (hruns : Runs SyncRun.step SyncRun.Tells (.new tipHeight tip seed) ops)
    (before : List SyncOp) (hbefore : before <+: ops) (x : Hash32)
    (hx : fate x ((SyncRun.new tipHeight tip seed).run before).log = .told) :
    let w := (SyncRun.new tipHeight tip seed).run before
    (¬w.engine.Deduplicates x ∧ x ∉ w.engine.staging.index) ∧
      ∀ r r' a, r.hash = x → w.engine.Opens a r r' → w.engine.Takes w.cells r r' a := by
  have hforgets : Forgets _ _ _ := Forgets.run (Forgets.new tipHeight tip seed)
    (hruns.of_prefix hbefore)
  have hgone := hforgets.not_has hx
  refine ⟨hgone, ?_⟩
  rintro r r' a rfl hopens
  exact hopens.takes hgone.1 hgone.2 _

namespace Sample

/-- The hash function of the network. -/
@[reducible]
def crypto : Crypto := .ofSignatures []

/-- A header on `prev`. -/
def header (height : Nat) (prev : Hash32) : HeaderRec :=
  letI := crypto
  let raw := Header.encode
    { version := 1
      height := UInt64.ofNat height
      prevHash := prev
      txRoot := Arr.zero 32
      extRoot := Arr.zero 32
      time := UInt64.ofNat (60 * height)
      bits := 1
      authorNoteLen := 0
      nonce := 0 }
  { height
    hash := headerHash raw
    prevHash := prev
    time := 60 * height
    bits := 1
    target := Arr.zero 32
    raw }

/-- The tip of the chain, and three headers on it. -/
def tip : HeaderRec := header 0 (Arr.zero 32)

def first : HeaderRec := header 1 tip.hash

def second : HeaderRec := header 2 first.hash

def third : HeaderRec := header 3 second.hash

/-- All gates are open, and reports come in with a call. -/
def around (during : List Report) : Around where
  now := 0
  nowUnix := 1000
  tipHeight := 0
  header h := if h = tip.hash then some tip else none
  anchor := none
  verifyAllPow := false
  bits := { expectedBits := fun _ ↦ none, expand := fun _ ↦ some (Arr.zero 32) }
  quarantined _ := false
  pow _ := true
  affordable := true
  capacity := { blocks := 1, bytes := 1000 }
  stop := none
  during

/-- The chain holds a header and says so. -/
def holds (h : HeaderRec) : Report where
  parked := [h.hash]
  refused := []
  firstHeld := some { hash := h.hash, height := h.height }
  firstRejection := none

/-- A peer's headers are staged and handed over, and the sink holds the first one before it is
called again with the second. -/
def heldAndTold : List SyncOp :=
  [.deliver 7 true first (around []), .deliver 7 true second (around []), .verify (around []),
    .report (holds first), .verify (around [])]

/-- The sink holds the first one before it has answered. -/
def heldInTheCall : List SyncOp :=
  [.deliver 7 true first (around []), .verify (around [holds first])]

/-- The sink holds two between two calls. -/
def heldTogether : List SyncOp :=
  [.deliver 7 true first (around []), .deliver 7 true second (around []),
    .deliver 7 true third (around []), .verify (around []), .verify (around []),
    .report (holds first), .report (holds second), .verify (around [])]

/-- A start at the tip. -/
def start : SyncRun := .new 0 tip.hash 0

theorem names_holds (h : HeaderRec) : (Cells.new.report (holds h)).Names h.hash := ⟨_, rfl, rfl⟩

/-- The notice of the first one is left. -/
theorem heldAndTold_tells : Runs SyncRun.step SyncRun.Tells (.new 0 tip.hash 0) heldAndTold := by
  have hcalled (w : SyncRun) : w.Tells (.verify (around [])) := fun _ _ ↦ trivial
  refine runs_cons.mpr ⟨fun h ↦ (by cases h), runs_cons.mpr ⟨fun h ↦ (by cases h),
    runs_cons.mpr ⟨hcalled _, runs_cons.mpr ⟨?_, runs_cons.mpr ⟨hcalled _, runs_nil⟩⟩⟩⟩⟩
  have hcells : ((((SyncRun.new 0 tip.hash 0).step (.deliver 7 true first (around []))).step
      (.deliver 7 true second (around []))).step (.verify (around []))).cells = .new := by
    decide +kernel
  constructor
  · rw [hcells]
    rintro x h - (hx | hx)
    · rw [List.mem_singleton.mp hx]
      exact names_holds first
    · obtain ⟨g, hg, -⟩ := hx
      cases hg
  · rintro x h - hx
    cases hx

end Sample

theorem held_come_back_sample :
    let w := (SyncRun.new 0 Sample.tip.hash 0).run Sample.heldAndTold
    (¬w.engine.Deduplicates Sample.first.hash ∧ Sample.first.hash ∉ w.engine.staging.index) ∧
      w.engine.Takes w.cells Sample.first Sample.first (Sample.around []) := by
  obtain ⟨hgone, hcomes⟩ := held_come_back 0 Sample.tip.hash 0 Sample.heldAndTold
    Sample.heldAndTold_tells _ List.prefix_rfl Sample.first.hash (by decide +kernel)
  refine ⟨hgone, hcomes Sample.first Sample.first (Sample.around []) rfl ?_⟩
  exact
    { reject := by decide +kernel
      header := by decide +kernel
      quarantined := rfl
      context := ⟨Sample.tip, by decide +kernel, by decide +kernel⟩ }

/-- A header that is held before the call with it has answered stays known, and so does the second
of two that are held between two calls. -/
theorem held_stay_known :
    (fate Sample.first.hash (Sample.start.run Sample.heldInTheCall).log = .told ∧
      (Sample.start.run Sample.heldInTheCall).engine.Deduplicates Sample.first.hash) ∧
    fate Sample.second.hash (Sample.start.run Sample.heldTogether).log = .told ∧
      (Sample.start.run Sample.heldTogether).engine.Deduplicates Sample.second.hash := by
  decide +kernel

end Plaine.P2p

import Plaine.Lib.Runs
import Plaine.P2p.Engine

/-!
# Held headers

A header that the chain holds or refuses is to be forgotten by the engine, so that another delivery
of it is staged and verified again.  The engine hears of it through the cells, with a later call.
It does forget the header if each report leaves a notice of what it holds or refuses, and the chain
does not hold a header within the call that hands it over.
-/

namespace Plaine.P2p

open Plaine.Lib Plaine.Consensus

/-! ## What became of a header -/

/-- What became of the headers of one hash, by what was seen. -/
inductive Fate where
  /-- It never went to the sink, or it came again since. -/
  | away
  | out (h : HeaderRec)
  /-- The sink holds it. -/
  | parked (h : HeaderRec)
  | refused (h : HeaderRec)
  /-- The sink held or refused it, and answered a call since. -/
  | told
deriving DecidableEq

namespace Fate

/-- What a report says of the hash `x`. -/
def reported (x : Hash32) (r : Report) : Fate → Fate
  | .out h => if x ∈ r.refused then .refused h else if x ∈ r.parked then .parked h else .out h
  | .parked h => if x ∈ r.refused then .refused h else .parked h
  | f => f

/-- A call hears of what was refused. -/
def called : Fate → Fate
  | .refused _ => .told
  | f => f

/-- An answer hears of what is held. -/
def answered : Fate → Fate
  | .parked _ => .told
  | f => f

/-- A break is for all that went out from its height on. -/
def broken (height : Nat) : Fate → Fate
  | .out h => if height ≤ h.height then .told else .out h
  | .parked h => if height ≤ h.height then .told else .parked h
  | .refused h => if height ≤ h.height then .told else .refused h
  | f => f

/-- What a note says of the hash `x`. -/
def next (x : Hash32) (f : Fate) : HeaderNote → Fate
  | .staged h => if h.hash = x then .away else f
  | .handed h => if h.hash = x then .out h else f
  | .invalid h => if h.hash = x then .told else f
  | .report r => f.reported x r
  | .called => f.called
  | .answered => f.answered
  | .refusedAt height => f.broken height
  | .checked _ _ => f

end Fate

/-- What became of the headers of the hash `x`. -/
def fate (x : Hash32) (log : List HeaderNote) : Fate := log.foldl (Fate.next x) .away

theorem fate_append (x : Hash32) (log notes : List HeaderNote) :
    fate x (log ++ notes) = notes.foldl (Fate.next x) (fate x log) := List.foldl_append

/-! ## Runs -/

/-- What happens to an engine: a header is delivered, a header is verified, the two checks of a tick
that forget headers, and a report of the chain. -/
inductive SyncOp where
  | deliver (peer : PeerId) (isSync : Bool) (r : HeaderRec) (a : Around)
  | verify (a : Around)
  | audit (a : Around)
  | forgetStale (tipHeight : Nat)
  | report (r : Report)

/-- An engine with the cells of its sink, and all that was seen. -/
structure SyncRun where
  engine : SyncEngine
  cells : Cells
  log : List HeaderNote

namespace SyncRun

/-- The start. -/
def new (tipHeight : Nat) (tip : Hash32) (seed : UInt64) : SyncRun :=
  { engine := .new tipHeight tip seed, cells := .new, log := [] }

/-- A step. -/
def step (w : SyncRun) : SyncOp → SyncRun
  | .deliver peer isSync r a =>
    let (engine, cells, notes, _) := w.engine.deliver w.cells peer isSync r a
    { engine, cells, log := w.log ++ notes }
  | .verify a =>
    let (engine, cells, notes, _) := w.engine.verifyTurn w.cells a
    { engine, cells, log := w.log ++ notes }
  | .audit a => { w with engine := w.engine.auditCommit a }
  | .forgetStale tipHeight => { w with engine := w.engine.forgetStaleKnown tipHeight }
  | .report r => { w with cells := w.cells.report r, log := w.log ++ [.report r] }

/-- A run. -/
def run (w : SyncRun) (ops : List SyncOp) : SyncRun := ops.foldl step w

theorem run_cons (w : SyncRun) (op : SyncOp) (ops : List SyncOp) :
    w.run (op :: ops) = (w.step op).run ops := rfl

/-- A batch of headers is a run of deliveries. -/
theorem exists_deliverAll (peer : PeerId) (isSync : Bool) (w : SyncRun) (rs : List HeaderRec)
    (around : Nat → Around) : ∃ ops, w.run ops =
      { engine := (SyncEngine.deliverAll peer isSync w.engine w.cells rs around).1
        cells := (SyncEngine.deliverAll peer isSync w.engine w.cells rs around).2.1
        log := w.log ++ (SyncEngine.deliverAll peer isSync w.engine w.cells rs around).2.2 } := by
  induction rs generalizing w around with
  | nil => exact ⟨[], by simp [run, SyncEngine.deliverAll]⟩
  | cons r rs ih =>
    have hstep : w.step (.deliver peer isSync r (around 0)) =
        { engine := (w.engine.deliver w.cells peer isSync r (around 0)).1
          cells := (w.engine.deliver w.cells peer isSync r (around 0)).2.1
          log := w.log ++ (w.engine.deliver w.cells peer isSync r (around 0)).2.2.1 } := rfl
    unfold SyncEngine.deliverAll
    generalize w.engine.deliver w.cells peer isSync r (around 0) = t at hstep
    obtain ⟨e, c, notes, _ | _⟩ := t
    · exact ⟨[.deliver peer isSync r (around 0)], hstep⟩
    · obtain ⟨ops, hops⟩ := ih (w.step (.deliver peer isSync r (around 0))) fun i ↦ around (i + 1)
      refine ⟨.deliver peer isSync r (around 0) :: ops, ?_⟩
      rw [run_cons, hops, hstep]
      simp only [List.append_assoc]

/-- A call with headers is a run. -/
theorem exists_onHeaders [Crypto] (w : SyncRun) (peer : PeerId)
    (isSync solicited frameAdmitted : Bool) (raw : List RawHeader) (around : Nat → Around) :
    ∃ ops, w.run ops =
      { engine := (w.engine.onHeaders w.cells peer isSync solicited frameAdmitted raw around).1
        cells := (w.engine.onHeaders w.cells peer isSync solicited frameAdmitted raw around).2.1
        log := w.log ++
          (w.engine.onHeaders w.cells peer isSync solicited frameAdmitted raw around).2.2 } := by
  have hnil : ∃ ops, w.run ops = { engine := w.engine, cells := w.cells, log := w.log ++ [] } :=
    ⟨[], by simp [run]⟩
  unfold SyncEngine.onHeaders
  split
  case isTrue => exact hnil
  case isFalse =>
    split
    case isTrue => exact hnil
    case isFalse =>
      dsimp only
      split
      case h_1 => exact hnil
      case h_2 rs _ => exact exists_deliverAll peer isSync w rs around

/-- A pass over the staged headers is a run of turns. -/
theorem exists_verifyPass (w : SyncRun) (around : Nat → Around) : ∃ ops, w.run ops =
      { engine := (w.engine.verifyPass w.cells around).1
        cells := (w.engine.verifyPass w.cells around).2.1
        log := w.log ++ (w.engine.verifyPass w.cells around).2.2 } := by
  unfold SyncEngine.verifyPass
  generalize w.engine.staging.queue.length + 1 = n
  induction n generalizing w around with
  | zero => exact ⟨[], by simp [run, SyncEngine.verifyLoop]⟩
  | succ n ih =>
    have hstep : w.step (.verify (around 0)) =
        { engine := (w.engine.verifyTurn w.cells (around 0)).1
          cells := (w.engine.verifyTurn w.cells (around 0)).2.1
          log := w.log ++ (w.engine.verifyTurn w.cells (around 0)).2.2.1 } := rfl
    unfold SyncEngine.verifyLoop
    generalize w.engine.verifyTurn w.cells (around 0) = t at hstep
    obtain ⟨e, c, notes, _ | _⟩ := t
    · exact ⟨[.verify (around 0)], hstep⟩
    · obtain ⟨ops, hops⟩ := ih (w.step (.verify (around 0))) fun i ↦ around (i + 1)
      refine ⟨.verify (around 0) :: ops, ?_⟩
      rw [run_cons, hops, hstep]
      simp only [List.append_assoc]

end SyncRun

/-! ## Notices -/

namespace Cells

variable (c : Cells)

/-- The notice of a held header is about the hash `x`. -/
def Names (x : Hash32) : Prop := ∃ h ∈ c.held, h.hash = x

/-- There is a break at `height` or below. -/
def Breaks (height : Nat) : Prop := ∃ b ∈ c.refusal, b.height ≤ height

/-- After the report there is a notice for each header that the engine keeps and the chain holds,
by this report or by one that was not heard yet, and for each that it refuses. -/
structure Tells (keeps : Hash32 → HeaderRec → Prop) (r : Report) : Prop where
  parked : ∀ x h, keeps x h → x ∈ r.parked ∨ c.Names x → (c.report r).Names x
  refused : ∀ x h, keeps x h → x ∈ r.refused → (c.report r).Breaks h.height

/-- A report in the call that hands `h` over does not hold it, and there is a notice if it refuses
it. -/
structure Spares (h : HeaderRec) (r : Report) : Prop where
  parked : h.hash ∉ r.parked
  refused : h.hash ∈ r.refused → (c.report r).Breaks h.height

/-- So do the reports, one after the other, that come in while the sink takes `h`. -/
def TellsAll (keeps : Hash32 → HeaderRec → Prop) (h : HeaderRec) : Cells → List Report → Prop
  | _, [] => True
  | c, r :: rs => (c.Tells keeps r ∧ c.Spares h r) ∧ TellsAll keeps h (c.report r) rs

variable {c} {height : Nat}

theorem refusal_hold (c : Cells) (h : Held) : (c.hold h).refusal = c.refusal := by
  unfold hold
  split
  · split <;> rfl
  · rfl

theorem Breaks.refuse (h : c.Breaks height) (b : Break) : (c.refuse b).Breaks height := by
  obtain ⟨old, hold, hle⟩ := h
  unfold Cells.refuse
  rw [Option.mem_def] at hold
  rw [hold]
  dsimp only
  split
  case isTrue => exact ⟨old, hold, hle⟩
  case isFalse hlt => exact ⟨b, rfl, (not_le.mp hlt).le.trans hle⟩

/-- A break stays until it is heard. -/
theorem Breaks.report (h : c.Breaks height) (r : Report) : (c.report r).Breaks height := by
  have hheld : (r.firstHeld.elim c c.hold).Breaks height := by
    cases r.firstHeld with
    | none => exact h
    | some held =>
      obtain ⟨b, hb, hle⟩ := h
      exact ⟨b, (refusal_hold c held).trans hb, hle⟩
  unfold Cells.report
  dsimp only
  cases r.firstRejection with
  | none => exact hheld
  | some b => exact hheld.refuse b

end Cells

/-! ## What is kept -/

namespace SyncEngine

/-- The engine has a header under the hash `x`. -/
def Has (e : SyncEngine) (x : Hash32) (h : HeaderRec) : Prop :=
  e.known.lookup x = some h ∨ e.tree.lookup x = some h

/-- It has it, and not to verify it. -/
def Keeps (e : SyncEngine) (x : Hash32) (h : HeaderRec) : Prop := e.Has x h ∧ x ∉ e.staging.index

theorem deduplicates_iff {e : SyncEngine} {x : Hash32} : e.Deduplicates x ↔ ∃ h, e.Has x h := by
  unfold Deduplicates
  rw [Fifo.mem_rows_iff, Fifo.mem_rows_iff, ← exists_or]
  exact Iff.rfl

end SyncEngine

namespace Fate

/-- What the engine may keep under the hash `x`. -/
def Allows (c : Cells) (x : Hash32) (h : HeaderRec) : Fate → Prop
  | .away => True
  | .out h' => h' = h
  | .parked h' => h' = h ∧ c.Names x
  | .refused h' => h' = h ∧ c.Breaks h.height
  | .told => False

/-- The header `h` is out, or refused with a notice. -/
def Out (c : Cells) (h : HeaderRec) (f : Fate) : Prop :=
  f = .out h ∨ f = .refused h ∧ c.Breaks h.height

variable {c : Cells} {x : Hash32} {h : HeaderRec} {f : Fate} {r : Report} {rs : List Report}
variable {keeps : Hash32 → HeaderRec → Prop}

theorem Out.allows (hf : f.Out c h) : f.Allows c x h := by
  rcases hf with rfl | ⟨rfl, hbreaks⟩
  · exact rfl
  · exact ⟨rfl, hbreaks⟩

/-- A report keeps what is allowed, if it leaves its notices. -/
theorem Allows.report (hf : f.Allows c x h) (hkeeps : keeps x h) (htells : c.Tells keeps r) :
    (f.next x (.report r)).Allows (c.report r) x h := by
  cases f with
  | away => exact trivial
  | told => exact hf
  | out h' =>
    dsimp only [next, reported]
    split
    case isTrue hrefused => exact ⟨hf, htells.refused x h hkeeps hrefused⟩
    case isFalse =>
      split
      case isTrue hparked => exact ⟨hf, htells.parked x h hkeeps (.inl hparked)⟩
      case isFalse => exact hf
  | parked h' =>
    dsimp only [next, reported]
    split
    case isTrue hrefused => exact ⟨hf.1, htells.refused x h hkeeps hrefused⟩
    case isFalse => exact ⟨hf.1, htells.parked x h hkeeps (.inr hf.2)⟩
  | refused h' => exact ⟨hf.1, hf.2.report r⟩

theorem Out.report (hf : f.Out c h) (hspares : c.Spares h r) :
    (f.next h.hash (.report r)).Out (c.report r) h := by
  rcases hf with rfl | ⟨rfl, hbreaks⟩
  · dsimp only [next, reported]
    rw [if_neg hspares.parked]
    split
    case isTrue hrefused => exact .inr ⟨rfl, hspares.refused hrefused⟩
    case isFalse => exact .inl rfl
  · exact .inr ⟨rfl, hbreaks.report r⟩

/-- What reports within a call make of a fate. -/
theorem Allows.reports {g : HeaderRec} (hf : f.Allows c x h) (hkeeps : keeps x h)
    (htells : c.TellsAll keeps g rs) :
    ((rs.map .report).foldl (next x) f).Allows (rs.foldl Cells.report c) x h := by
  induction rs generalizing c f with
  | nil => exact hf
  | cons r rs ih => exact ih (hf.report hkeeps htells.1.1) htells.2

theorem Out.reports (hf : f.Out c h) (htells : c.TellsAll keeps h rs) :
    ((rs.map .report).foldl (next h.hash) f).Out (rs.foldl Cells.report c) h := by
  induction rs generalizing c f with
  | nil => exact hf
  | cons r rs ih => exact ih (hf.report htells.1.2) htells.2

/-- What the sink is called with nothing pending leaves of a fate. -/
theorem Allows.called (hf : f.Allows c x h) (hc : c.refusal = none) :
    (f.next x .called).Allows c x h := by
  cases f with
  | refused h' =>
    obtain ⟨b, hb, -⟩ := hf.2
    rw [hc] at hb
    cases hb
  | away | out _ | parked _ | told => exact hf

/-- What an answer leaves of a fate, if it is not about the header. -/
theorem Allows.answered (hf : f.Allows c x h) (hx : ¬c.Names x) :
    (f.next x .answered).Allows { c with held := none } x h := by
  cases f with
  | parked h' => exact absurd hf.2 hx
  | away | out _ | refused _ | told => exact hf

theorem Out.answered (hf : f.Out c h) : (f.next x .answered).Out { c with held := none } h := by
  rcases hf with rfl | ⟨rfl, hbreaks⟩
  · exact .inl rfl
  · exact .inr ⟨rfl, hbreaks⟩

theorem reports_away : (rs.map .report).foldl (next x) .away = .away := by
  induction rs with
  | nil => rfl
  | cons r rs ih => exact ih

end Fate

end Plaine.P2p

import Plaine.Node.Notes

/-!
# The ring of unsealed blocks

Whatever the calls of the sink come to, the hash table of the ring finds what a look through the
ring from its end finds: the newest entry with the hash.
-/

namespace Plaine.Node

open Plaine.Lib Plaine.Consensus Plaine.Storage

namespace Unsealed

variable {r : Unsealed}

/-- The newest entry with a hash, as one would look for it. -/
def newest (entries : List Entry) (x : Hash32) : Option Entry := entries.reverse.find? (·.hash = x)

/-- The entry with a hash, as the table has it. -/
def atHash (r : Unsealed) (x : Hash32) : Option Entry := (r.byHash.lookup x).bind (r.entries[·]?)

/-- A ring whose table has the newest entry for each hash, and whose size is that of its bodies. -/
structure Exact (r : Unsealed) : Prop where
  lt_length : ∀ x i, r.byHash.lookup x = some i → i < r.entries.length
  atHash_eq : ∀ x, r.atHash x = newest r.entries x
  bytes_eq : r.bytes = (r.entries.map (·.body.length)).sum

theorem exact_empty : Exact empty := ⟨nofun, fun _ ↦ rfl, rfl⟩

theorem Exact.push (h : r.Exact) (e : Entry) : (r.push e).Exact where
  lt_length x i hi := by
    show i < (r.entries ++ [e]).length
    rw [List.length_append]
    by_cases hx : x = e.hash
    · subst hx
      obtain rfl := Option.some.inj ((AList.lookup_insert _).symm.trans hi)
      exact Nat.lt_succ_self _
    · exact Nat.lt_succ_of_lt (h.lt_length x i ((AList.lookup_insert_ne hx).symm.trans hi))
  atHash_eq x := by
    show ((r.byHash.insert e.hash r.entries.length).lookup x).bind ((r.entries ++ [e])[·]?) =
      newest (r.entries ++ [e]) x
    rw [newest, List.reverse_concat]
    by_cases hx : x = e.hash
    · subst hx
      rw [AList.lookup_insert, List.find?_cons_of_pos (by simp)]
      exact List.getElem?_concat_length
    · rw [AList.lookup_insert_ne hx, List.find?_cons_of_neg (by simpa using Ne.symm hx)]
      refine Eq.trans ?_ (h.atHash_eq x)
      rw [Unsealed.atHash]
      cases hi : r.byHash.lookup x with
      | none => rfl
      | some i => exact List.getElem?_append_left (h.lt_length x i hi)
  bytes_eq := by
    show r.bytes + e.body.length = ((r.entries ++ [e]).map _).sum
    rw [h.bytes_eq, List.map_append, List.sum_append]
    rfl

/-- A ring is built from its entries as they would have come. -/
theorem reindex_concat (entries : List Entry) (e : Entry) :
    reindex (entries ++ [e]) = (reindex entries).push e := by
  unfold reindex push
  rw [List.zipIdx_append, List.foldl_append, List.map_append, List.sum_append, Nat.zero_add]
  rfl

theorem exact_reindex (entries : List Entry) : (reindex entries).Exact := by
  induction entries using List.reverseRecOn with
  | nil => exact exact_empty
  | append_singleton entries e ih => exact reindex_concat entries e ▸ ih.push e

theorem Exact.prune (h : r.Exact) (watermark : Nat) : (r.prune watermark).Exact := by
  unfold Unsealed.prune
  split
  · exact h
  · exact exact_reindex _

end Unsealed

namespace CommitSink

open Prog

/-- A part of the sink that keeps the ring exact. -/
def KeepsRing (s s' : CommitSink) : Prop := s.ring.Exact → s'.ring.Exact

instance : IsPreorder CommitSink KeepsRing where
  refl _ := id
  trans _ _ _ h h' := h' ∘ h

/-- The ring stays exact whatever a program comes to. -/
abbrev RingKept {α : Type} (p : SinkOp α) : Prop :=
  Within (·.committer.disk) KeepsRing (fun _ _ ↦ True) p

theorem ringKept_storage {α : Type} (op : Op α) : RingKept (storage op) := by
  refine fun s ↦ ⟨fun d _ ↦ ⟨{ s with committer := { s.committer with disk := d } }, id, rfl⟩, ?_⟩
  dsimp only [storage]
  split
  · exact id
  · exact ⟨id, trivial⟩

theorem ringKept_onRing {f : Unsealed → Unsealed} (hf : ∀ r, r.Exact → (f r).Exact) :
    RingKept (onRing f) := .alter fun s ↦ hf s.ring

theorem ringKept_onNotes (f : List Note → List Note) : RingKept (onNotes f) := .alter fun _ ↦ id

theorem ringKept_afterWrite : RingKept afterWrite :=
  .bind .peek fun s ↦ ringKept_onRing fun _ h ↦ h.prune s.hdrWatermark

variable [Crypto]

theorem ringKept_reorgDone (fork : Nat) (apply : List Chain.CommitBlock) : RingKept (reorgDone fork apply) :=
  .bind .peek fun _ ↦ .bind (ringKept_onNotes _) fun _ ↦ .bind (ringKept_onNotes _) fun _ ↦ .pure _

theorem ringKept_commitBlock (b : Chain.CommitBlock) : RingKept (commitBlock b) := by
  refine .bind (.bind .peek fun s ↦ .ite (ringKept_storage _) (.pure _)) fun _ ↦ ?_
  refine .bind (ringKept_onRing fun r h ↦ h.push (toEntry b)) fun _ ↦ ?_
  refine .bind (ringKept_storage _) fun _ ↦ .bind .peek fun s ↦ ?_
  exact .bind (ringKept_onNotes _) fun _ ↦ .bind ringKept_afterWrite fun _ ↦ .pure _

/-- The two reorgs: the ring is emptied between two calls of the committer. -/
theorem ringKept_reorg (op : Op Unit) (fork : Nat) (apply : List Chain.CommitBlock) :
    RingKept (do
      storage Committer.flush
      onRing fun _ ↦ .empty
      storage op
      reorgDone fork apply) :=
  .bind (ringKept_storage _) fun _ ↦ .bind (ringKept_onRing fun _ _ ↦ Unsealed.exact_empty) fun _ ↦
    .bind (ringKept_storage _) fun _ ↦ ringKept_reorgDone fork apply

end CommitSink

open CommitSink

variable [Crypto]

theorem SinkCall.ringKept_run (call : SinkCall) : RingKept call.run := by
  cases call with
  | commitBlock b => exact .bind (ringKept_commitBlock b) fun _ ↦ .pure _
  | commitReorg p =>
    exact .bind (ringKept_reorg (Committer.reorg ⟨reorgFork p, p.rollback, p.apply.map toPlan⟩)
      (reorgFork p) p.apply) fun _ ↦ .pure _
  | commitDeepReorg p =>
    exact .bind (ringKept_reorg
      (Committer.deepReorg ⟨deepReorgFork p, p.rewindTo, [], p.apply.map toPlan⟩)
      (deepReorgFork p) p.apply) fun _ ↦ .pure _
  | flush => exact .bind (ringKept_storage _) fun _ ↦ ringKept_afterWrite

/-- The ring a call leaves, also one that fails. -/
theorem SinkCall.exact_ring (call : SinkCall) {s : CommitSink} (h : s.ring.Exact) :
    (call.run s).state.ring.Exact := by
  have hkept := (call.ringKept_run s).2
  split at hkept
  · exact hkept h
  · exact hkept.1 h

/-- Calls one after another, whatever they come to. -/
def CommitSink.calls (s : CommitSink) (calls : List SinkCall) : CommitSink :=
  calls.foldl (fun s call ↦ (call.run s).state) s

/-- After any calls, also ones that failed, what the table of the ring finds for a hash is the newest
entry with it, and the ring is as large as its bodies are. -/
theorem ring_finds_newest (c : Committer) (calls : List SinkCall) :
    let r := ((CommitSink.new c).calls calls).ring
    (∀ x, r.atHash x = Unsealed.newest r.entries x) ∧ r.bytes = (r.entries.map (·.body.length)).sum := by
  suffices hexact : ((CommitSink.new c).calls calls).ring.Exact from ⟨hexact.atHash_eq, hexact.bytes_eq⟩
  exact List.foldlRecOn (motive := fun s : CommitSink ↦ s.ring.Exact) calls _ Unsealed.exact_empty
    fun s hs call _ ↦ call.exact_ring hs

end Plaine.Node

import Plaine.Chain.Enforced

/-!
# Checkpoints in the order they come

Two runs that end on one chain with the same checkpoints submitted.  They end with one anchor,
the highest; but a checkpoint is enforced only if it was submitted at a moment when the chain
held its block, so what they enforce is the same only if the same of them came in time.
-/

namespace Plaine.Chain

open Plaine.Lib Plaine.Consensus

section

variable [Crypto]

/-- The operations hand the manager the checkpoint, from the network or at boot, and it
counts. -/
def Brings (params : ChainParams) (ops : List Op) (cp : SignedCheckpoint) : Prop :=
  params.Signs cp ∧ (.submitCheckpoint cp ∈ ops ∨ .loadAnchor cp ∈ ops)

/-! ## The anchor -/

/-- The anchor of a set of checkpoints: the highest of them. -/
structure Highest (S : SignedCheckpoint → Prop) (anchor : Option Anchor) : Prop where
  mem : ∀ a, anchor = some a → ∃ cp, S cp ∧ a = ⟨cp.height, cp.hash⟩
  le : ∀ cp, S cp → ∃ a, anchor = some a ∧ cp.height ≤ a.height

namespace Highest

variable {S S' : SignedCheckpoint → Prop} {anchor anchor' : Option Anchor}

omit [Crypto] in
theorem congr (h : Highest S anchor) (hS : ∀ cp, S cp ↔ S' cp) : Highest S' anchor where
  mem a ha := (h.mem a ha).imp fun cp hcp ↦ hcp.imp_left (hS cp).mp
  le cp hcp := h.le cp ((hS cp).mpr hcp)

omit [Crypto] in
/-- Checkpoints that differ in height have one anchor. -/
theorem unique (h : Highest S anchor) (h' : Highest S anchor')
    (hdistinct : ∀ cp cp', S cp → S cp' → cp.height = cp'.height → cp.hash = cp'.hash) :
    anchor = anchor' := by
  have hle : ∀ {o o' : Option Anchor} {a : Anchor}, Highest S o → Highest S o' → o = some a →
      ∃ a', o' = some a' ∧ a.height ≤ a'.height := by
    intro o o' a ho ho' ha
    obtain ⟨cp, hcp, rfl⟩ := ho.mem a ha
    exact ho'.le cp hcp
  cases ha : anchor with
  | none =>
    cases ha' : anchor' with
    | none => rfl
    | some a' =>
      obtain ⟨a, hsome, -⟩ := hle h' h ha'
      rw [ha] at hsome
      cases hsome
  | some a =>
    obtain ⟨a', ha', hge⟩ := hle h h' ha
    obtain ⟨b, hb, hle'⟩ := hle h' h ha'
    obtain rfl : a = b := Option.some.inj (ha.symm.trans hb)
    obtain ⟨cp, hcp, rfl⟩ := h.mem _ ha
    obtain ⟨cp', hcp', rfl⟩ := h'.mem _ ha'
    have hheight : cp.height = cp'.height := Nat.le_antisymm hge hle'
    rw [ha', hheight, hdistinct cp cp' hcp hcp' hheight]

/-- One more checkpoint that counts. -/
theorem installAnchor {params : ChainParams} {c : Checkpoints} {cp : SignedCheckpoint}
    (h : Highest S c.anchor) (hcp : params.Signs cp) :
    Highest (fun q ↦ S q ∨ q = cp) (c.installAnchor cp).2.anchor := by
  have hhash : cp.hash ≠ zeroHash := by
    intro hz
    have hv := hcp.1
    simp [verifyCheckpoint, hz] at hv
  rw [Checkpoints.anchor_installAnchor]
  split
  · rename_i hsup
    simp only [anchorSupersedes, decide_eq_true_iff] at hsup
    refine ⟨fun a ha ↦ ⟨cp, .inr rfl, (Option.some.inj ha).symm⟩, fun q hq ↦ ⟨_, rfl, ?_⟩⟩
    rcases hq with hq | rfl
    · obtain ⟨a, ha, hle⟩ := h.le q hq
      have hlt := hsup.2.2
      rw [ha] at hlt
      exact hle.trans (of_decide_eq_true hlt).le
    · exact le_rfl
  · rename_i hsup
    refine ⟨fun a ha ↦ (h.mem a ha).imp fun q hq ↦ hq.imp_left .inl, fun q hq ↦ ?_⟩
    rcases hq with hq | rfl
    · exact h.le q hq
    · by_contra hno
      refine hsup ?_
      simp only [anchorSupersedes, decide_eq_true_iff]
      refine ⟨hcp.2, hhash, ?_⟩
      cases ha : c.anchor with
      | none => rfl
      | some a => exact decide_eq_true (Nat.lt_of_not_le fun hle ↦ hno ⟨a, ha, hle⟩)

end Highest

/-! ## Runs of operations -/

variable {σ : Type} [Store σ] [Sink σ] [PowVerifier]

/-- A checkpoint for the block was submitted when the canonical chain held it. -/
def Timely (params : ChainParams) (w₀ : World σ) (ops : List Op) (x : Nat × Hash32) : Prop :=
  ∃ before cp after w, ops = before ++ .submitCheckpoint cp :: after ∧
    before.foldlM Op.exec w₀ = some w ∧ params.Signs cp ∧ x = (cp.height, cp.hash) ∧
    w.chain.Holds cp

variable {params : ChainParams} {w₀ w w' : World σ} {ops : List Op} {op : Op} {x : Nat × Hash32}

theorem timely_nil : ¬Timely params w₀ [] x := by
  rintro ⟨before, cp, after, w, heq, -⟩
  cases before <;> cases heq

theorem timely_concat (hrun : ops.foldlM Op.exec w₀ = some w) :
    Timely params w₀ (ops ++ [op]) x ↔ Timely params w₀ ops x ∨
      ∃ cp, op = .submitCheckpoint cp ∧ params.Signs cp ∧ x = (cp.height, cp.hash) ∧
        w.chain.Holds cp := by
  constructor
  · rintro ⟨before, cp, after, w₁, heq, hw₁, hsigns, hx, hholds⟩
    rcases List.eq_nil_or_concat after with rfl | ⟨after, last, rfl⟩
    · obtain ⟨rfl, hop⟩ := List.append_inj' heq rfl
      cases hop
      cases hrun.symm.trans hw₁
      exact .inr ⟨cp, rfl, hsigns, hx, hholds⟩
    · rw [List.concat_eq_append, ← List.cons_append, ← List.append_assoc] at heq
      obtain ⟨rfl, -⟩ := List.append_inj' heq rfl
      exact .inl ⟨before, cp, after, w₁, rfl, hw₁, hsigns, hx, hholds⟩
  · rintro (⟨before, cp, after, w₁, rfl, hw₁, hsigns, hx, hholds⟩ | ⟨cp, rfl, hsigns, hx, hholds⟩)
    · exact ⟨before, cp, after ++ [op], w₁, by simp, hw₁, hsigns, hx, hholds⟩
    · exact ⟨ops, cp, [], w, rfl, hrun, hsigns, hx, hholds⟩

omit [Sink σ] [Store σ] [PowVerifier] [Crypto] in
theorem forall_mem_concat {P : Op → Prop} : (∀ o ∈ ops ++ [op], P o) ↔ (∀ o ∈ ops, P o) ∧ P op := by
  simp [or_imp, forall_and]

omit [Sink σ] [Store σ] [PowVerifier] in
theorem brings_concat {cp : SignedCheckpoint} : Brings params (ops ++ [op]) cp ↔
    Brings params ops cp ∨
      (params.Signs cp ∧ (op = .submitCheckpoint cp ∨ op = .loadAnchor cp)) := by
  simp only [Brings, List.mem_append, List.mem_singleton]
  constructor
  · rintro ⟨hsigns, (h | h) | (h | h)⟩
    · exact .inl ⟨hsigns, .inl h⟩
    · exact .inr ⟨hsigns, .inl h.symm⟩
    · exact .inl ⟨hsigns, .inr h⟩
    · exact .inr ⟨hsigns, .inr h.symm⟩
  · rintro (⟨hsigns, h | h⟩ | ⟨hsigns, rfl | rfl⟩)
    · exact ⟨hsigns, .inl (.inl h)⟩
    · exact ⟨hsigns, .inr (.inl h)⟩
    · exact ⟨hsigns, .inl (.inr rfl)⟩
    · exact ⟨hsigns, .inr (.inr rfl)⟩

omit [Sink σ] [Store σ] [PowVerifier] in
theorem Timely.submitted [Store σ] [Sink σ] [PowVerifier] (h : Timely params w₀ ops x) :
    ∃ cp, params.Signs cp ∧ .submitCheckpoint cp ∈ ops ∧ x = (cp.height, cp.hash) := by
  obtain ⟨before, cp, after, w, rfl, -, hsigns, hx, -⟩ := h
  exact ⟨cp, hsigns, by simp, hx⟩

omit [Sink σ] [Store σ] [PowVerifier] in
/-- The anchor stays the highest of the checkpoints brought. -/
theorem Highest.after {c : Checkpoints} {holds : SignedCheckpoint → Prop} [DecidablePred holds]
    (h : Highest (Brings params ops) c.anchor) :
    Highest (Brings params (ops ++ [op])) (c.after params holds op).anchor := by
  -- An operation that brings no checkpoint leaves the anchor alone.
  have hkeep : (∀ q, params.Signs q → op ≠ .submitCheckpoint q ∧ op ≠ .loadAnchor q) →
      Highest (Brings params (ops ++ [op])) c.anchor := by
    refine fun hop ↦ h.congr fun q ↦ ?_
    rw [brings_concat]
    refine (or_iff_left ?_).symm
    rintro ⟨hq, heq | heq⟩
    · exact (hop q hq).1 heq
    · exact (hop q hq).2 heq
  have hnew : ∀ {cp}, params.Signs cp → op = .submitCheckpoint cp ∨ op = .loadAnchor cp →
      ∀ q, (Brings params ops q ∨ q = cp) ↔ Brings params (ops ++ [op]) q := by
    intro cp hsigns hop q
    rw [brings_concat]
    refine or_congr Iff.rfl ⟨fun hq ↦ hq ▸ ⟨hsigns, hop⟩, ?_⟩
    rcases hop with rfl | rfl
    all_goals
      rintro ⟨-, hq | hq⟩ <;> cases hq
      rfl
  cases op with
  | submitCheckpoint cp =>
    simp only [Checkpoints.after]
    split
    case isTrue hsigns =>
      refine (Highest.installAnchor (S := Brings params ops) ?_ hsigns).congr (hnew hsigns (.inl rfl))
      split
      · rwa [Checkpoints.anchor_enforce]
      · exact h
    case isFalse hsigns =>
      refine hkeep fun q hq ↦ ⟨?_, ?_⟩ <;> rintro ⟨⟩
      exact hsigns hq
  | loadAnchor cp =>
    simp only [Checkpoints.after]
    split
    case isTrue hsigns => exact (h.installAnchor hsigns).congr (hnew hsigns (.inr rfl))
    case isFalse hsigns =>
      refine hkeep fun q hq ↦ ⟨?_, ?_⟩ <;> rintro ⟨⟩
      exact hsigns hq
  | _ => refine hkeep fun q _ ↦ ⟨?_, ?_⟩ <;> rintro ⟨⟩

variable [HeaderStore σ] {H : Headers} {s : σ} {m : Manager}

/-- What a run of operations makes of the checkpoints: the highest is the anchor, and those
that came in time are enforced. -/
theorem cps_of_run (hlimit : params.powLimit = H.powLimit) (hs : Boots H.free s)
    (hm : Manager.new s params = .ok m) (hraws : ∀ op ∈ ops, ∀ raw ∈ op.raws, raw ∈ H.raws)
    (hdistinct : ∀ cp cp', Brings params ops cp → Brings params ops cp' →
      cp.height = cp'.height → cp.hash = cp'.hash)
    (hrun : ops.foldlM Op.exec ⟨m, s⟩ = some w) :
    Reachable H.free params (fun _ _ ↦ True) w ∧
      Highest (Brings params ops) w.chain.cps.anchor ∧
      ∀ x, x ∈ w.chain.cps.enforced ↔ Timely params ⟨m, s⟩ ops x := by
  induction ops using List.reverseRecOn generalizing w with
  | nil =>
    cases hrun
    obtain ⟨-, -, hcps, -⟩ := hs.sound hlimit hm
    rw [hcps]
    refine ⟨.boot hs hm, ⟨?_, fun cp hcp ↦ by simp [Brings] at hcp⟩,
      fun x ↦ ⟨?_, fun h ↦ absurd h timely_nil⟩⟩
    · rintro _ ⟨⟩
    · rintro ⟨⟩
  | append_singleton ops op ih =>
    rw [List.foldlM_append] at hrun
    obtain ⟨w₁, hfirst, he⟩ := Option.bind_eq_some_iff.mp hrun
    have he : op.exec w₁ = some w := by simpa using he
    rw [forall_mem_concat] at hraws
    have hold : ∀ {cp}, Brings params ops cp → Brings params (ops ++ [op]) cp := fun h ↦
      brings_concat.mpr (.inl h)
    obtain ⟨hreach, hanchor, henforced⟩ := ih hraws.1
      (fun cp cp' h h' ↦ hdistinct cp cp' (hold h) (hold h')) hfirst
    obtain ⟨-, hcps, -⟩ := hreach.exec_cps hlimit hraws.2 he
    refine ⟨hreach.step hraws.2 trivial he, hcps ▸ hanchor.after, fun x ↦ ?_⟩
    rw [timely_concat hfirst, hcps, Checkpoints.mem_after, ← henforced]
    constructor
    · rintro (hx | ⟨cp, rfl, hsigns, hholds, hx, -⟩)
      · exact .inl hx
      · exact .inr ⟨cp, rfl, hsigns, hx, hholds⟩
    · rintro (hx | ⟨cp, rfl, hsigns, rfl, hholds⟩)
      · exact .inl hx
      -- An enforced checkpoint of this height is this one.
      by_cases hheld : ∃ y ∈ w₁.chain.cps.enforced, y.1 = cp.height
      · obtain ⟨y, hy, hheight⟩ := hheld
        obtain ⟨q, hq, hmem, rfl⟩ := ((henforced y).mp hy).submitted
        have hheight : q.height = cp.height := hheight
        have hnew : Brings params (ops ++ [.submitCheckpoint cp]) cp :=
          brings_concat.mpr (.inr ⟨hsigns, .inl rfl⟩)
        rw [← hheight, ← hdistinct q cp (hold ⟨hq, .inl hmem⟩) hnew hheight]
        exact .inl hy
      · exact .inr ⟨cp, rfl, hsigns, hholds, rfl, fun y hy hheight ↦ hheld ⟨y, hy, hheight⟩⟩

end

namespace Scene

/-- The checkpoint comes first, and then the first block is adopted. -/
def earlyOps : List Op :=
  [.submitCheckpoint checkpoint, deliver [first], .submitBlock firstHash body, .advance 1000200]

theorem raws_earlyOps : ∀ op ∈ earlyOps, ∀ raw ∈ op.raws, raw ∈ raws := by
  simp [earlyOps, deliver, Op.raws, raws]

theorem run_earlyOps : letI := crypto
    (run params earlyOps).map (fun w ↦ (w.chain.chainHashes, w.chain.cps.enforced)) =
      some ([genesisHash, firstHash], []) := by decide +kernel

end Scene

end Plaine.Chain

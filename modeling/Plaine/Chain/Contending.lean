import Plaine.Chain.Charge
import Plaine.Chain.Enforced

/-!
# What the interpreter is run on

A source's staged headers are promoted when the heaviest of them contends with the tip.  The loop
then goes down all of them, in the order they were staged: it runs the interpreter also on those
whose branch does not contend, as long as it gets to them.
-/

namespace Plaine.Chain

open Plaine.Lib Plaine.Consensus

section

variable [Crypto]

/-! ## Staged branches -/

/-- A staged header and its staged ancestors, the nearest first. -/
def stagedLine (staged : List Staged) : Nat → Staged → List Staged
  | 0, s => [s]
  | fuel + 1, s =>
    s :: match staged.find? (·.hdr.hash = s.hdr.prevHash) with
      | none => []
      | some p => stagedLine staged fuel p

/-- The staged branch that ends with a header. -/
def stagedBranch (staged : List Staged) (head : Staged) : List Staged :=
  stagedLine staged staged.length head

/-- The gate on claimed work lets a staged header through. -/
def IngestCtx.contends (ctx : IngestCtx) (s : Staged) : Bool :=
  (s6ClaimedWork s.cumWork s.hdr.hash s.hdr.height (ctx.tip.height - s.branchBaseHeight)
    ctx.tip).toBool

/-- A staged header is on a branch of which some header contends with the tip. -/
def IngestCtx.OnContending (ctx : IngestCtx) (staged : List Staged) (s : Staged) : Prop :=
  ∃ head ∈ staged, s ∈ stagedBranch staged head ∧ ∃ u ∈ stagedBranch staged head, ctx.contends u

instance (ctx : IngestCtx) (staged : List Staged) (s : Staged) :
    Decidable (ctx.OnContending staged s) :=
  inferInstanceAs (Decidable (∃ head ∈ staged, s ∈ stagedBranch staged head ∧
    ∃ u ∈ stagedBranch staged head, ctx.contends u = true))

/-! ## How far a promotion goes -/

variable [PowVerifier]

/-- The intake after a number of calls paid for, if they can be. -/
def Ingest.payCalls (ing : Ingest) (id : SourceId) (cost : Nat) : Nat → Option Ingest
  | 0 => some ing
  | n + 1 => (ing.spendClassBudget id cost).bind fun ing ↦ ing.payCalls id cost n

/-- The loop of a promotion gets to a position of the staged headers: the heaviest of them
contends and the source has its quota, there is room beside the chain and budget for a call on
each header up to there, and the proofs of work before it are good. -/
structure Batch.Reaches (b : Batch) (ctx : IngestCtx) (id : SourceId) (i : Nat) : Prop where
  terminal : ∃ t, terminalOf (b.ing.stagedOf id) = some t ∧ ctx.contends t
  quota : ctx.solicitation.chargesChildQuota = true →
    (b.ing.source id).powFailures < ctx.params.childPowFailuresPerSource
  room : i < ctx.sideCapacity
  budget : ctx.solicitation.chargesBudget = true →
    (b.ing.payCalls id PowVerifier.costMicros (i + 1)).isSome
  verified : ∀ s ∈ (b.ing.stagedOf id).take i, PowVerifier.verify s.hdr.raw = true

variable {D : Realm} {ctx : IngestCtx} {id : SourceId}

theorem consumed_le_promoteLoop (staged : List Staged) (p : Promotion) :
    p.consumed ≤ (promoteLoop ctx id staged p).consumed := by
  induction staged generalizing p with
  | nil => exact le_rfl
  | cons s staged ih =>
    rw [promoteLoop]
    split
    · exact le_rfl
    dsimp only
    split
    · exact le_rfl
    split
    · split
      all_goals
        refine le_trans ?_ (ih _)
        exact Nat.le_succ p.consumed
    · exact Nat.le_succ _

variable (ctx id) in
/-- How far the loop of a promotion goes. -/
theorem lt_consumed_iff (staged : List Staged) {p : Promotion} (hwf : p.index.Wf D)
    (hstaging : Staging D p.index staged) {i : Nat} (hi : i < staged.length) :
    p.consumed + i < (promoteLoop ctx id staged p).consumed ↔
      p.connected + i < ctx.sideCapacity ∧
      (ctx.solicitation.chargesBudget = true →
        (p.ing.payCalls id PowVerifier.costMicros (i + 1)).isSome) ∧
      ∀ s ∈ staged.take i, PowVerifier.verify s.hdr.raw = true := by
  induction staged generalizing p i with
  | nil => exact absurd hi (Nat.not_lt_zero i)
  | cons s staged ih =>
    rw [promoteLoop]
    by_cases hroom : ctx.sideCapacity ≤ p.connected
    · rw [if_pos hroom]
      refine iff_of_false (by omega) fun h ↦ ?_
      have := h.1
      omega
    rw [if_neg hroom]
    dsimp only
    cases hpaid : (if ctx.solicitation.chargesBudget then
        p.ing.spendClassBudget id PowVerifier.costMicros else some p.ing) with
    | none =>
      refine iff_of_false (Nat.not_lt.mpr (Nat.le_add_right _ _)) ?_
      rintro ⟨-, hbudget, -⟩
      split at hpaid
      case isTrue hcharges =>
        have hsome := hbudget hcharges
        rw [Ingest.payCalls, hpaid] at hsome
        cases hsome
      case isFalse => cases hpaid
    | some ing =>
      -- The call on the first header is paid for, so the rest is paid for from there.
      have hrest : ∀ n, (ctx.solicitation.chargesBudget = true →
          (p.ing.payCalls id PowVerifier.costMicros (n + 1)).isSome) ↔
          (ctx.solicitation.chargesBudget = true →
            (ing.payCalls id PowVerifier.costMicros n).isSome) := by
        intro n
        refine imp_congr_right fun hcharges ↦ ?_
        rw [if_pos hcharges] at hpaid
        rw [Ingest.payCalls, hpaid, Option.bind_some]
      dsimp only
      split
      case isFalse hbad =>
        cases i with
        | zero =>
          refine iff_of_true (Nat.lt_succ_self _) ⟨Nat.lt_of_not_le hroom, ?_, ?_⟩
          · rw [hrest]
            exact fun _ ↦ rfl
          · intro t ht
            cases ht
        | succ i =>
          refine iff_of_false ?_ fun h ↦ hbad (h.2.2 s List.mem_cons_self)
          show ¬p.consumed + (i + 1) < p.consumed + 1
          omega
      case isTrue hgood =>
        obtain ⟨parent, hparent⟩ := Option.isSome_iff_exists.mp hstaging.head
        rw [hparent]
        have hwf' := hwf.promote hstaging hparent
        have hself := p.index.indexOf_insert_self s.hdr parent s.cumWork true
        have hg := p.index.grows_insert s.hdr parent s.cumWork true
        have htail : Staging D (p.index.insert s.hdr parent s.cumWork true).2 staged :=
          hstaging.tail (by rw [HeaderIndex.contains, hself]; rfl) fun _ ↦ hwf.contains_mono hwf' hg
        cases i with
        | zero =>
          refine iff_of_true ?_ ⟨Nat.lt_of_not_le hroom, ?_, ?_⟩
          · dsimp only
            refine Nat.lt_of_lt_of_le ?_ (consumed_le_promoteLoop staged _)
            exact Nat.lt_succ_self p.consumed
          · rw [hrest]
            exact fun _ ↦ rfl
          · intro t ht
            cases ht
        | succ i =>
          have hnext := ih (p := { p with
            ing
            index := (p.index.insert s.hdr parent s.cumWork true).2
            connectedOut := p.connectedOut ++ [s.hdr]
            connected := p.connected + 1
            consumed := p.consumed + 1 }) hwf' htail (Nat.lt_of_succ_lt_succ hi)
          dsimp only at hnext ⊢
          have hshift : ∀ n : Nat, n + (i + 1) = n + 1 + i := fun n ↦ by omega
          rw [hrest, List.take_succ_cons, List.forall_mem_cons, hshift, hshift, hnext]
          exact ⟨fun h ↦ ⟨h.1, h.2.1, hgood, h.2.2⟩, fun h ↦ ⟨h.1, h.2.1, h.2.2.2⟩⟩

/-- The headers a promotion runs the interpreter on are those its loop gets to. -/
theorem mem_interpreted_iff {b : Batch} (hsound : b.ing.Sound D b.index) {i : Nat} {s : Staged}
    (hs : (b.ing.stagedOf id)[i]? = some s) :
    i < (b.interpreted ctx id).length ↔ b.Reaches ctx id i := by
  have hi := (List.getElem?_eq_some_iff.mp hs).1
  have hidle : ¬b.Reaches ctx id i → ∀ q : Promotion, q.consumed = 0 →
      (i < ((b.ing.stagedOf id).take q.consumed).length ↔ b.Reaches ctx id i) := by
    intro hnot q hq
    rw [hq, List.take_zero]
    exact iff_of_false (Nat.not_lt_zero i) hnot
  unfold Batch.interpreted Chain.promote
  dsimp only
  cases hterminal : terminalOf (b.ing.stagedOf id) with
  | none =>
    refine hidle ?_ _ rfl
    rintro ⟨⟨t, ht, -⟩, -⟩
    rw [hterminal] at ht
    cases ht
  | some t =>
    dsimp only
    cases hwork : s6ClaimedWork t.cumWork t.hdr.hash t.hdr.height
        (ctx.tip.height - t.branchBaseHeight) ctx.tip with
    | error e =>
      refine hidle ?_ _ rfl
      rintro ⟨⟨t', ht, hcontends⟩, -⟩
      obtain rfl : t = t' := Option.some.inj (hterminal.symm.trans ht)
      rw [IngestCtx.contends, hwork] at hcontends
      cases hcontends
    | ok u =>
      have hcontends : ctx.contends t = true := by
        rw [IngestCtx.contends, hwork]
        rfl
      dsimp only
      split
      case isTrue hquota =>
        refine hidle (fun h ↦ ?_) _ rfl
        have := h.quota hquota.1
        omega
      case isFalse hquota =>
        have hiff := lt_consumed_iff ctx id (b.ing.stagedOf id)
          (p := ⟨b.ing, b.index, b.connectedOut, 0, 0, false, b.out.firstRejection⟩) hsound.wf
          (hsound.staging id) hi
        simp only [Nat.zero_add] at hiff
        rw [List.length_take, lt_min_iff, and_iff_left hi]
        refine Iff.trans hiff ⟨?_, fun h ↦ ⟨h.room, h.budget, h.verified⟩⟩
        rintro ⟨hroom, hbudget, hverified⟩
        refine ⟨⟨t, hterminal, hcontends⟩, fun hcharges ↦ ?_, hroom, hbudget, hverified⟩
        by_contra hfull
        exact hquota ⟨hcharges, Nat.le_of_not_lt hfull⟩

/-- Every header a promotion runs the interpreter on is on a contending branch, if and only if
every one its loop gets to is. -/
theorem interpreted_onContending_iff {b : Batch} (hsound : b.ing.Sound D b.index) :
    (∀ s ∈ b.interpreted ctx id, ctx.OnContending (b.ing.stagedOf id) s) ↔
      ∀ i s, (b.ing.stagedOf id)[i]? = some s → b.Reaches ctx id i →
        ctx.OnContending (b.ing.stagedOf id) s := by
  have hmem : ∀ {i s}, (b.ing.stagedOf id)[i]? = some s →
      ((b.interpreted ctx id)[i]? = some s ↔ b.Reaches ctx id i) := by
    intro i s hs
    rw [← mem_interpreted_iff hsound hs]
    constructor
    · exact fun h ↦ (List.getElem?_eq_some_iff.mp h).1
    · intro hlt
      have htake := List.getElem?_take_of_lt (l := b.ing.stagedOf id) (hlt.trans_le
        (List.length_take_le _ _))
      exact htake.trans hs
  constructor
  · intro h i s hs hreach
    exact h s (List.mem_of_getElem? ((hmem hs).mpr hreach))
  · intro h s hs
    obtain ⟨i, hi⟩ := List.mem_iff_getElem?.mp hs
    have hstaged : (b.ing.stagedOf id)[i]? = some s := by
      unfold Batch.interpreted at hi
      rw [List.getElem?_take] at hi
      split at hi
      · exact hi
      · cases hi
    exact h i s hstaged ((hmem hstaged).mp hi)

/-! ## Promotions of a reachable intake -/

section

variable {σ : Type} [Store σ] {store : σ} {raws : List RawHeader}

/-- The promotions within a batch start from sound accumulators. -/
theorem promotionsWithin_sound {Own : HeaderIndex → Staged → Prop} {index : HeaderIndex}
    {staged : List Staged} (hrule : StagingRule D ctx Own)
    (hlimit : ctx.params.powLimit = D.powLimit) (hwf : index.Wf D)
    (hraws : ∀ raw ∈ raws, raw ∈ D.raws)
    (hown : ∀ t ∈ staged, ∀ raw ∈ raws, t.hdr.hash = (Header.ofRaw raw).prevHash → Own index t)
    {b b' : Batch} (h : b.Sound D Own id index staged)
    (hb : b' ∈ promotionsWithin store ctx id raws b) : b'.ing.Sound D b'.index := by
  induction raws generalizing b with
  | nil => cases hb
  | cons raw raws ih =>
    rw [List.forall_mem_cons] at hraws
    have hrest : ∀ t ∈ staged, ∀ raw ∈ raws, t.hdr.hash = (Header.ofRaw raw).prevHash → Own index t :=
      fun t ht r hr ↦ hown t ht r (List.mem_cons_of_mem _ hr)
    rw [promotionsWithin] at hb
    dsimp only at hb
    split at hb
    · split at hb
      · cases hb
      · exact ih hraws.2 hrest (b := b.duplicate id (headerHash raw))
          ⟨h.sound, h.grows, h.canonical, h.own, h.connected⟩ hb
    · rcases List.mem_append.mp hb with hb | hb
      · split at hb
        · rw [List.mem_singleton.mp hb]
          exact h.sound
        · cases hb
      · exact ih hraws.2 hrest (h.stage hrule hlimit hraws.1 hwf
          fun t ht ↦ hown t ht raw List.mem_cons_self) hb

/-- The promotions of a batch start from sound accumulators. -/
theorem promotions_sound {Own : HeaderIndex → Staged → Prop} {index : HeaderIndex} {ing : Ingest}
    (hrule : StagingRule D ctx Own) (hlimit : ctx.params.powLimit = D.powLimit)
    (h : ing.Sound D index) (hraws : ∀ raw ∈ raws, raw ∈ D.raws)
    (hown : ∀ t ∈ ing.stagedOf id, ∀ raw ∈ raws, t.hdr.hash = (Header.ofRaw raw).prevHash →
      Own index t) {b : Batch} (hb : b ∈ promotions store ing index ctx id raws) :
    b.ing.Sound D b.index := by
  unfold promotions at hb
  dsimp only at hb
  split at hb
  case h_1 => cases hb
  case h_2 mid htouch =>
    have hstart := h.batchStart Own htouch
    rcases List.mem_append.mp hb with hb | hb
    · exact promotionsWithin_sound hrule hlimit h.wf hraws hown hstart hb
    · rw [List.mem_singleton.mp hb]
      exact (submitLoop_sound store hrule hlimit h.wf hraws hown hstart).sound

end

variable {σ : Type} [Store σ] [Sink σ]

/-- The context `ingest_headers` makes of a manager. -/
def World.ingestCtx (w : World σ) (now monoMs : Nat) (solicitation : Solicitation) : IngestCtx where
  checkpoints := w.chain.cps.enforced
  anchor := w.chain.cps.anchor
  params := w.chain.params
  now
  monoMs
  tip := w.chain.tip
  genesisTime := w.chain.genesisTime
  solicitation
  tipEpoch := w.chain.tipEpoch
  sideCapacity := w.chain.params.maxSideHeaders - w.chain.sideRaws.keys.length

/-- The promotions of `ingest_headers`. -/
def World.promotions (w : World σ) (now monoMs : Nat) (source : SourceId) (raws : List RawHeader)
    (solicitation : Solicitation) : List Batch :=
  match w.chain.halted with
  | some _ => []
  | none =>
    if maxHeadersPerMsg < raws.length then []
    else Chain.promotions w.store w.chain.ingest w.chain.index (w.ingestCtx now monoMs solicitation)
      source raws

variable [HeaderStore σ] {H : Headers} {params : ChainParams} {w : World σ}

end

/-! ## A sibling that is verified along -/

namespace Scene

/-- Another block on genesis, of a hash higher than the first one's. -/
def stray : RawHeader := (blockOn genesisHash 1000080).encode

/-- The first block is adopted. -/
def adoptOps : List Op := [deliver [first], .submitBlock firstHash body, .advance 1000200]

theorem raws_adoptOps : ∀ op ∈ adoptOps, ∀ raw ∈ op.raws, raw ∈ raws := by
  simp [adoptOps, deliver, Op.raws, raws]

theorem run_adoptOps : letI := crypto
    letI := pow
    (run params adoptOps).map (fun w ↦ (w.promotions 1000200 1000 2 [stray, second] .unsolicited).map
      fun b ↦ decide (∀ s ∈ b.interpreted (w.ingestCtx 1000200 1000 .unsolicited) 2,
        (w.ingestCtx 1000200 1000 .unsolicited).OnContending (b.ing.stagedOf 2) s)) =
      some [false] := by decide +kernel

end Scene

end Plaine.Chain

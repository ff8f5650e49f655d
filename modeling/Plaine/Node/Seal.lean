import Plaine.Chain.MockRun
import Plaine.Stratum.Served

/-!
# Sealing a block

The body of a template in `wire/jobs.rs` and `seal` of `validator.rs`.  A thread of the verifier that
finds a block asks the validator, which may be at it later, or not at all before the deadline; the
chain may have moved by then, so the validator looks at the tip again.
-/

namespace Plaine.Node

open Plaine.Lib Plaine.Consensus Plaine.Stratum Plaine.Stratum.JobSlots
open Plaine.Chain (HeaderRec SourceId World Store Sink PowVerifier)

/-- `LOCAL_SOURCE`. -/
def localSource : SourceId := 2 ^ 32 - 1

/-- `SealVerdict`. -/
inductive SealVerdict where
  | accepted
  | obsolete
  | rejected
deriving DecidableEq

/-- What a template answers to a verdict. -/
def SealVerdict.outcome : SealVerdict → SealOutcome
  | .accepted => .accepted
  | .obsolete => .obsolete
  | .rejected => .rejected

/-- `TemplatePlan`. -/
structure TemplatePlan where
  pre : Arr 124
  height : Nat
  networkTarget : Target
  body : Bytes
  parent : Hash32

namespace TemplatePlan

/-- `Templates::build`. -/
def template (plan : TemplatePlan) : Template := ⟨plan.pre, plan.height, plan.networkTarget, true⟩

end TemplatePlan

/-- `extract_nonce`. -/
def extractNonce (header : RawHeader) : UInt64 := UInt64.ofNat (leAt 8 124 header.bytes)

/-- The nonce of a header that was put together. -/
theorem extractNonce_assembleHeader (pre : Arr 124) (nonce : UInt64) :
    extractNonce (assembleHeader pre nonce) = nonce := by
  have hle := leAt_append 8 nonce.toNat pre.bytes [] pre.length_eq nonce.toNat_lt
  rw [List.append_nil] at hle
  rw [extractNonce, assembleHeader, hle, UInt64.ofNat_toNat]

/-- A share seals a block only if it may, and if its template does. -/
theorem sealed_of_verifyOneIsolated {digest : Arr 132 → Nat} {panics : Bool}
    {outcome : SealOutcome} {work : ShareWork}
    (h : verifyOneIsolated digest panics outcome work = .accepted (some .accepted)) :
    work.eligibleForBlock = true ∧ outcome = .accepted := by
  unfold verifyOneIsolated verifyOne at h
  split at h
  case isTrue => cases h
  case isFalse =>
    split at h
    case isTrue => cases h
    case isFalse =>
      split at h
      case isTrue hmay =>
        injection h with h
        injection h with h
        exact ⟨hmay.1, h⟩
      case isFalse =>
        injection h with h
        cases h

section

variable [Crypto] [PowVerifier] {χ : Type} [Store χ] [Sink χ]

/-- The validator's `seal`; `none` is a panic. -/
def sealBlock (w : World χ) (now monoMs : Nat) (header : RawHeader) (body : Bytes) :
    Option (SealVerdict × World χ) :=
  let r := HeaderRec.fromRaw header
  if r.prevHash ≠ w.chain.tip.hash then some (.obsolete, w)
  else
    match w.ingestHeaders now monoMs localSource [header] .solicitedIbd with
    | (.error _, w) => some (.rejected, w)
    | (.ok _, w) =>
      match w.submitBlock r.hash body with
      | (.error _, w) => some (.rejected, w)
      | (.ok _, w) =>
        match w.advance now with
        | none => none
        | some (.ok (.advanced _ _ _), w) => some (.accepted, w)
        | some (_, w) => some (.rejected, w)

/-- `NodeBody::seal`, at the tip that is published.  The world is that in which the validator is at
the command, at its clocks, if the command was taken and is answered in time. -/
def TemplatePlan.seal (plan : TemplatePlan) (published : Hash32) (nonce : UInt64)
    (handled : Option (World χ × Nat × Nat)) : SealOutcome :=
  if published ≠ plan.parent then .obsolete
  else
    match handled with
    | none => .obsolete
    | some (w, now, monoMs) =>
      match sealBlock w now monoMs (assembleHeader plan.pre nonce) plan.body with
      | none => .obsolete
      | some (verdict, _) => verdict.outcome

/-- What the validator accepts is on its tip. -/
theorem prevHash_of_sealBlock {w w' : World χ} {now monoMs : Nat} {header : RawHeader}
    {body : Bytes} (h : sealBlock w now monoMs header body = some (.accepted, w')) :
    (Header.ofRaw header).prevHash = w.chain.tip.hash := by
  unfold sealBlock at h
  dsimp only at h
  split at h
  case isTrue => cases h
  case isFalse htip => exact of_not_not htip

/-- What a template seals is on the tip that the validator has then. -/
theorem TemplatePlan.prevHash_of_seal {plan : TemplatePlan} {published : Hash32} {nonce : UInt64}
    {handled : Option (World χ × Nat × Nat)}
    (h : plan.seal published nonce handled = .accepted) :
    published = plan.parent ∧ ∃ w now monoMs, handled = some (w, now, monoMs) ∧
      (Header.ofRaw (assembleHeader plan.pre nonce)).prevHash = w.chain.tip.hash := by
  unfold TemplatePlan.seal at h
  split at h
  case isTrue => cases h
  case isFalse hparent =>
    refine ⟨of_not_not hparent, ?_⟩
    split at h
    case h_1 => cases h
    case h_2 w now monoMs =>
      split at h
      case h_1 => cases h
      case h_2 verdict w' hseal =>
        cases verdict with
        | accepted => exact ⟨w, now, monoMs, rfl, prevHash_of_sealBlock hseal⟩
        | obsolete => cases h
        | rejected => cases h

/-- A lookup tells where in the history of pushes a number is, and comes to the job of that number.
In any run of a session with the verifier, a share that a thread has at hand is sealed into a block
only on the tip that the validator has at that moment, and only for a job that was live when the
share came: one of the last pushed, with no clean push and no new tip of another generation since. -/
theorem job_lookup {σ β ν : Type} [SliceSource σ] [TokenBucket β] [Vardiff ν]
    (ops : List SlotOp) (hlt : (history ops).length < 2 ^ 32) (jobId : UInt32) (nowMs : Nat)
    (digest : Arr 132 → Nat) (cap id : Nat) (ip : IpAddr) (startMs : Nat) (sh : Shared σ β)
    (queue running : List ShareWork) (events : List (Nat × Event σ β)) :
    ((∃ i, (ops.foldl perform new).lookup jobId nowMs = .live i) ↔
      ∃ x ∈ Issued.live (history ops), x.job.jobId = jobId) ∧
    ((ops.foldl perform new).lookup jobId nowMs = .staleCredited ↔
      Issued.Credited (history ops) jobId nowMs) ∧
    ((ops.foldl perform new).lookup jobId nowMs = .stale ↔
      (∃ x ∈ history ops, x.job.jobId = jobId) ∧
        (¬∃ x ∈ Issued.live (history ops), x.job.jobId = jobId) ∧
        ¬Issued.Credited (history ops) jobId nowMs) ∧
    ((ops.foldl perform new).lookup jobId nowMs = .unknown ↔
      ¬∃ x ∈ history ops, x.job.jobId = jobId) ∧
    (∀ r, ((ops.foldl perform new).lookup jobId nowMs).jobRef = some r →
      ∃ x ∈ history ops, x.job.jobId = jobId ∧
        ((ops.foldl perform new).get r).map Job.bare = some x.job) ∧
    ∃ l, ((Pipeline.new id ip startMs sh queue running : Pipeline σ β ν).run digest cap
        events).session.Serves l ∧
      ∀ work ∈ ((Pipeline.new id ip startMs sh queue running : Pipeline σ β ν).run digest cap
          events).running,
        work.conn = ((Pipeline.new id ip startMs sh queue running : Pipeline σ β ν).run digest cap
          events).session.id →
        ∀ plan : TemplatePlan, work.template = plan.template →
        ∀ (panics : Bool) (published : Hash32) (handled : Option (World χ × Nat × Nat)),
          verifyOneIsolated digest panics
              (plan.seal published (extractNonce work.header) handled) work =
            .accepted (some .accepted) →
          (∃ w now monoMs, handled = some (w, now, monoMs) ∧
            (Header.ofRaw work.header).prevHash = w.chain.tip.hash) ∧
          ∃ later x earlier, later ++ x :: earlier <:+ l ∧ x.2.job.template = work.template ∧
            Newest later x := by
  obtain ⟨hlive, hcredited, hstale, hunknown⟩ := (tells_run ops).lookup_spec hlt jobId nowMs
  refine ⟨hlive, hcredited, hstale, hunknown, fun r hr ↦ (tells_run ops).get_lookup hr, ?_⟩
  obtain ⟨l, hserved⟩ := @Pipeline.served_run _ _ _ digest _ _ _ _ _
    (Pipeline.served_new (ν := ν) id ip startMs sh queue running) cap events
  have hflows := @Pipeline.flows_run _ _ _ _ digest _ _ _
    (Pipeline.flows_new (ν := ν) id ip startMs sh queue running) cap events
  refine ⟨_, hserved.serves, fun work hwork hconn plan hplan panics published handled hsealed ↦ ?_⟩
  obtain ⟨m, hm, rfl⟩ := hflows.exists_made hwork hconn
  obtain ⟨hheader, -, -, htemplate⟩ := (hflows.jobs m hm).2
  obtain ⟨heligible, hseal⟩ := sealed_of_verifyOneIsolated hsealed
  obtain ⟨later, x, earlier, hl, hx, hnewest⟩ := hserved.made m hm heligible
  obtain ⟨-, w, now, monoMs, rfl, hprev⟩ := TemplatePlan.prevHash_of_seal hseal
  refine ⟨⟨w, now, monoMs, rfl, ?_⟩, later, x, earlier, hl, ?_, hnewest⟩
  · -- The template puts the same header together again.
    have hpre : plan.pre = m.job.template.pre := congrArg Template.pre (hplan.symm.trans htemplate)
    rw [hheader, extractNonce_assembleHeader, hpre] at hprev
    rw [hheader]
    exact hprev
  · rw [htemplate, hx]
    rfl

end

/-- A job and a clean one after it: the first is credited until five seconds have passed. -/
theorem job_lookup_credited :
    ([SlotOp.push ⟨Arr.ofNat 124 5, 7, ⟨2 ^ 200⟩, true⟩ ⟨2 ^ 240⟩ 16 true 10,
        .push ⟨Arr.ofNat 124 6, 8, ⟨2 ^ 200⟩, true⟩ ⟨2 ^ 240⟩ 16 true 20].foldl perform new).lookup 0
      5020 = .staleCredited := by
  let _ := Chain.Scene.crypto
  let _ := Chain.Scene.pow
  have hspec := @job_lookup _ _ Chain.MemStore _ _ Unit Unit Unit Pipeline.oneSlice
    Pipeline.unlimited Pipeline.fixed [.push ⟨Arr.ofNat 124 5, 7, ⟨2 ^ 200⟩, true⟩ ⟨2 ^ 240⟩ 16 true 10,
      .push ⟨Arr.ofNat 124 6, 8, ⟨2 ^ 200⟩, true⟩ ⟨2 ^ 240⟩ 16 true 20] (by decide) 0 5020
    (fun _ ↦ 0) 8 1 (.v4 (Arr.ofNat 4 1)) 0 Pipeline.oneTemplate [] [] []
  exact hspec.2.1.mpr ⟨⟨_, rfl, rfl⟩, by decide⟩

end Plaine.Node

import Plaine.Lib.Bucket
import Plaine.P2p.Budgets

/-!
# How the budgets refill

A touch moves the reference time of a bucket, and credits whole tokens for the time since: what is
beyond them is lost.  So what a bucket pays out is bounded by its rate, but what it gains depends on
how the time is divided, and touches that come before a token is due stop it.
-/

namespace Plaine.P2p

open Plaine.Lib Plaine.Consensus

/-! ## Calls -/

/-- A call of a bucket. -/
inductive BucketOp where
  | take (n now : Nat)
  | admits (n now : Nat)
  | level (now : Nat)
  | commit (n : Nat)
deriving DecidableEq

/-- The time at which a call touches the bucket. -/
def BucketOp.time? : BucketOp → Option Nat
  | take _ now | admits _ now | level now => some now
  | commit _ => none

namespace TokenBucket

/-- One call: the bucket after it, and the tokens it takes out. -/
def exec (b : TokenBucket) : BucketOp → Option (TokenBucket × Nat)
  | .take n now => (b.take n now).map fun (b, ok) ↦ (b, if ok then n else 0)
  | .admits n now => (b.admits n now).map fun (b, _) ↦ (b, 0)
  | .level now => (b.levelAt now).map fun (b, _) ↦ (b, 0)
  | .commit n => some (b.commit n, min n b.level)

/-- Calls one after the other: the bucket after them, and the tokens they take out. -/
def run : TokenBucket → List BucketOp → Option (TokenBucket × Nat)
  | b, [] => some (b, 0)
  | b, op :: ops => (b.exec op).bind fun (b, n) ↦ (b.run ops).map fun (b, m) ↦ (b, n + m)

/-- What a call finds, before it takes anything out. -/
def touch (b : TokenBucket) (op : BucketOp) : Option TokenBucket := op.time?.elim (some b) b.refill

/-- The level stays below the capacity. -/
def unfilled : TokenBucket → List BucketOp → Bool
  | _, [] => true
  | b, op :: ops =>
    (b.touch op).all (fun b ↦ b.level < b.capacity) && (b.exec op).all fun r ↦ r.1.unfilled ops

/-- The times between touches.  A clock that goes back is not followed. -/
def gaps (last : Nat) : List Nat → List Nat
  | [] => []
  | now :: ts => (now - last) :: gaps (max last now) ts

/-- The times between the touches of calls. -/
def gapsOf (b : TokenBucket) (ops : List BucketOp) : List Nat :=
  gaps b.last (ops.filterMap BucketOp.time?)

/-- What is beyond whole tokens in a number of milliseconds, in thousandths. -/
def part (perSec ms : Nat) : Nat := perSec * ms - gain perSec ms * 1000

/-- What touches lose. -/
def lost (perSec : Nat) (gaps : List Nat) : Nat := (gaps.map (part perSec)).sum

variable {b b' b₁ b₂ : TokenBucket} {op : BucketOp} {ops ops' : List BucketOp} {now n m : Nat}

theorem gain_mul_le (perSec ms : Nat) : gain perSec ms * 1000 ≤ perSec * ms :=
  (Nat.div_mul_le_self (min (perSec * ms) u64Max) 1000).trans (Nat.min_le_left _ u64Max)

theorem gain_add_part (perSec ms : Nat) : gain perSec ms * 1000 + part perSec ms = perSec * ms := by
  rw [part, Nat.add_sub_cancel' (gain_mul_le perSec ms)]

/-- Nothing is gained exactly before a token is due. -/
theorem gain_eq_zero_iff {perSec ms : Nat} : gain perSec ms = 0 ↔ perSec * ms < 1000 := by
  have hmax : ¬u64Max < 1000 := (show 1000 ≤ u64Max by decide).not_gt
  rw [gain, Nat.div_eq_zero_iff_lt (by decide), min_lt_iff, or_iff_left hmax]

/-- Tokens and what is lost make up the time. -/
theorem sum_gain_add_lost (perSec : Nat) (gs : List Nat) :
    (gs.map (gain perSec)).sum * 1000 + lost perSec gs = perSec * gs.sum := by
  induction gs with
  | nil => rw [lost, List.map_nil, List.map_nil, List.sum_nil, Nat.zero_mul, Nat.mul_zero,
      Nat.add_zero]
  | cons ms gs ih =>
    rw [lost] at ih
    rw [lost, List.map_cons, List.sum_cons, List.map_cons, List.sum_cons, List.sum_cons,
      Nat.mul_add, ← ih, ← gain_add_part perSec ms, Nat.add_mul]
    exact Nat.add_add_add_comm _ _ _ _

/-! ## One call -/

/-- A refill: the clock goes on, and the level by what is gained at most, and by just that below
the capacity. -/
theorem refill_spec (h : b.refill now = some b') :
    b'.capacity = b.capacity ∧ b'.perSec = b.perSec ∧ b'.last = max b.last now ∧
      b'.level ≤ b.level + gain b.perSec (now - b.last) ∧
      (b'.level < b'.capacity → b'.level = b.level + gain b.perSec (now - b.last)) := by
  unfold refill at h
  split at h
  case isTrue hzero =>
    cases h
    have hgain : gain b.perSec (now - b.last) = 0 := by rw [hzero, gain, Nat.mul_zero]; rfl
    rw [hgain]
    exact ⟨rfl, rfl, (max_eq_left (Nat.le_of_sub_eq_zero hzero)).symm, le_rfl, fun _ ↦ rfl⟩
  case isFalse hpos =>
    obtain ⟨level, hadd, rfl⟩ := Option.map_eq_some_iff.mp h
    obtain ⟨-, rfl⟩ := checkedAdd_eq_some.mp hadd
    refine ⟨rfl, rfl, (max_eq_right (le_of_not_ge fun hle ↦ ?_)).symm, min_le_left _ _,
      fun hlt ↦ ?_⟩
    · exact hpos (Nat.sub_eq_zero_of_le hle)
    · exact min_eq_left (le_of_not_ge fun hle ↦ hlt.ne (min_eq_right hle))

/-- A call takes out of what it finds. -/
theorem exec_spec (h : b.exec op = some (b', n)) :
    ∃ b₁, b.touch op = some b₁ ∧ b'.level + n = b₁.level ∧ b'.last = b₁.last ∧
      b'.perSec = b₁.perSec ∧ b'.capacity = b₁.capacity := by
  cases op with
  | take k now =>
    obtain ⟨r, hr, heq⟩ := Option.map_eq_some_iff.mp h
    obtain ⟨b₁, hrefill, rfl⟩ := Option.map_eq_some_iff.mp hr
    refine ⟨b₁, hrefill, ?_⟩
    by_cases hle : k ≤ b₁.level
    · rw [if_pos hle] at heq
      cases heq
      exact ⟨Nat.sub_add_cancel hle, rfl, rfl, rfl⟩
    · rw [if_neg hle] at heq
      cases heq
      exact ⟨rfl, rfl, rfl, rfl⟩
  | admits k now =>
    obtain ⟨r, hr, heq⟩ := Option.map_eq_some_iff.mp h
    obtain ⟨b₁, hrefill, rfl⟩ := Option.map_eq_some_iff.mp hr
    cases heq
    exact ⟨_, hrefill, rfl, rfl, rfl, rfl⟩
  | level now =>
    obtain ⟨r, hr, heq⟩ := Option.map_eq_some_iff.mp h
    obtain ⟨b₁, hrefill, rfl⟩ := Option.map_eq_some_iff.mp hr
    cases heq
    exact ⟨_, hrefill, rfl, rfl, rfl, rfl⟩
  | commit k =>
    cases h
    refine ⟨b, rfl, ?_, rfl, rfl, rfl⟩
    rw [min_comm]
    exact Nat.sub_add_min_cancel b.level k

/-- The gap before a call. -/
def gapOf (b : TokenBucket) (op : BucketOp) : List Nat := (op.time?.map (· - b.last)).toList

/-- What a call finds. -/
theorem touch_spec (h : b.touch op = some b₁) :
    b₁.capacity = b.capacity ∧ b₁.perSec = b.perSec ∧
      b₁.last = op.time?.elim b.last (max b.last) ∧ b₁.last = b.last + (b.gapOf op).sum ∧
      b₁.level ≤ b.level + ((b.gapOf op).map (gain b.perSec)).sum ∧
      (b₁.level < b₁.capacity →
        b₁.level = b.level + ((b.gapOf op).map (gain b.perSec)).sum) := by
  unfold touch at h
  unfold gapOf
  cases htime : op.time? with
  | none =>
    rw [htime] at h
    cases h
    exact ⟨rfl, rfl, rfl, rfl, le_rfl, fun _ ↦ rfl⟩
  | some now =>
    rw [htime] at h
    obtain ⟨hcap, hper, hlast, hle, heq⟩ := refill_spec h
    refine ⟨hcap, hper, hlast, ?_, hle, heq⟩
    rw [hlast]
    change max b.last now = b.last + (now - b.last)
    omega

theorem gapsOf_cons (hlast : b'.last = op.time?.elim b.last (max b.last)) :
    b.gapsOf (op :: ops) = b.gapOf op ++ b'.gapsOf ops := by
  unfold gapsOf gapOf
  rw [hlast]
  cases op <;> rfl

/-! ## Runs -/

/-- What a run does to a bucket. -/
theorem run_spec (h : b.run ops = some (b', n)) :
    b'.last = b.last + (b.gapsOf ops).sum ∧
      b'.level + n ≤ b.level + ((b.gapsOf ops).map (gain b.perSec)).sum ∧
      (b.unfilled ops = true →
        b'.level + n = b.level + ((b.gapsOf ops).map (gain b.perSec)).sum) := by
  induction ops generalizing b n with
  | nil =>
    cases h
    exact ⟨rfl, le_rfl, fun _ ↦ rfl⟩
  | cons op ops ih =>
    obtain ⟨⟨b₂, k⟩, hexec, hrun⟩ := Option.bind_eq_some_iff.mp h
    obtain ⟨⟨b₃, m⟩, hrest, heq⟩ := Option.map_eq_some_iff.mp hrun
    cases heq
    obtain ⟨b₁, htouch, hlevel, hlast, hper, -⟩ := exec_spec hexec
    obtain ⟨-, hper₁, htime, hgap, hle, heq⟩ := touch_spec htouch
    obtain ⟨hlast', hle', heq'⟩ := ih hrest
    rw [hper.trans hper₁] at hle' heq'
    rw [hlast, hgap] at hlast'
    rw [gapsOf_cons (hlast.trans htime), List.sum_append, List.map_append, List.sum_append]
    refine ⟨hlast'.trans (Nat.add_assoc _ _ _), ?_, fun hunfilled ↦ ?_⟩
    · omega
    · rw [unfilled, htouch, hexec, Option.all_some, Option.all_some, Bool.and_eq_true,
        decide_eq_true_eq] at hunfilled
      have hfound := heq hunfilled.1
      have hrest := heq' hunfilled.2
      omega

/-- A bucket that is emptied and polled twenty times in a second has nothing, where it has what its
rate is worth when it is left alone for the second. -/
def StarvedByPolls (b : TokenBucket) : Prop :=
  (b.run (.take b.capacity 0 :: (List.range 20).map fun k ↦ .take 1 (50 * (k + 1)))).map
      (fun r ↦ (r.1.level, r.2)) = some (0, b.capacity) ∧
    (b.run [.take b.capacity 0, .level 1000]).map (fun r ↦ (r.1.level, r.2)) =
      some (b.perSec, b.capacity) ∧
    1 < b.perSec

instance (b : TokenBucket) : Decidable b.StarvedByPolls := inferInstanceAs (Decidable (_ ∧ _))

/-- A run leads from one bucket to the other. -/
def Reaches (b b' : TokenBucket) : Prop := ∃ ops n, b.run ops = some (b', n)

theorem Reaches.refl (b : TokenBucket) : b.Reaches b := ⟨[], 0, rfl⟩

theorem Reaches.of_exec (op : BucketOp) (h : b.exec op = some (b', n)) : b.Reaches b' := by
  refine ⟨[op], n + 0, ?_⟩
  rw [run, h]
  rfl

theorem Reaches.trans (h : b.Reaches b') (h' : b'.Reaches b₁) : b.Reaches b₁ := by
  obtain ⟨ops, n, hrun⟩ := h
  obtain ⟨ops', m, hrun'⟩ := h'
  refine ⟨ops ++ ops', n + m, ?_⟩
  induction ops generalizing b n with
  | nil =>
    cases hrun
    rwa [List.nil_append, Nat.zero_add]
  | cons op ops ih =>
    obtain ⟨⟨b₂, k⟩, hexec, hrest⟩ := Option.bind_eq_some_iff.mp hrun
    obtain ⟨⟨b₃, l⟩, hops, heq⟩ := Option.map_eq_some_iff.mp hrest
    cases heq
    rw [List.cons_append, run, hexec, Option.bind_some]
    dsimp only
    rw [ih l hops, Nat.add_assoc]
    rfl

theorem Reaches.take {ok : Bool} (h : b.take n now = some (b', ok)) : b.Reaches b' :=
  .of_exec (.take n now) (Option.map_eq_some_iff.mpr ⟨_, h, rfl⟩)

theorem Reaches.admits {ok : Bool} (h : b.admits n now = some (b', ok)) : b.Reaches b' :=
  .of_exec (.admits n now) (Option.map_eq_some_iff.mpr ⟨_, h, rfl⟩)

theorem Reaches.levelAt (h : b.levelAt now = some (b', n)) : b.Reaches b' :=
  .of_exec (.level now) (Option.map_eq_some_iff.mpr ⟨_, h, rfl⟩)

theorem Reaches.commit (b : TokenBucket) (n : Nat) : b.Reaches (b.commit n) :=
  .of_exec (.commit n) rfl

end TokenBucket

/-- A call of the budgets. -/
inductive BudgetCall where
  | probeAdmits (now : Nat)
  | probeCommit
  | probeLevel (now : Nat)
  | admitPowAnnounced (ms now : Nat)
  | admitIngest (bytes : Nat) (isSyncPeer : Bool) (now : Nat)
  | admitFrame (bytes : Nat) (isSyncPeer : Bool) (now : Nat)
  | admitRead (bytes now : Nat)
  | admitPow (ms now : Nat)
  | powAffordable (ms now : Nat)

namespace Budgets

/-- The budgets after a call. -/
def exec (b : Budgets) : BudgetCall → Option Budgets
  | .probeAdmits now => (b.probeAdmits now).map (·.1)
  | .probeCommit => some b.probeCommit
  | .probeLevel now => (b.probeLevel now).map (·.1)
  | .admitPowAnnounced ms now => (b.admitPowAnnounced ms now).map (·.1)
  | .admitIngest bytes isSyncPeer now => (b.admitIngest bytes isSyncPeer now).map (·.1)
  | .admitFrame bytes isSyncPeer now => (b.admitFrame bytes isSyncPeer now).map (·.1)
  | .admitRead bytes now => (b.admitRead bytes now).map (·.1)
  | .admitPow ms now => (b.admitPow ms now).map (·.1)
  | .powAffordable ms now => (b.powAffordable ms now).map (·.1)

variable {b b' : Budgets}

/-- Each pool is touched by runs alone. -/
structure Reaches (b b' : Budgets) : Prop where
  readGlobal : b.readGlobal.Reaches b'.readGlobal
  ingestGlobal : b.ingestGlobal.Reaches b'.ingestGlobal
  syncReserve : b.syncReserve.Reaches b'.syncReserve
  powPool : b.powPool.Reaches b'.powPool
  probePool : b.probePool.Reaches b'.probePool

theorem Reaches.refl (b : Budgets) : b.Reaches b := ⟨.refl _, .refl _, .refl _, .refl _, .refl _⟩

theorem Reaches.trans {b'' : Budgets} (h : b.Reaches b') (h' : b'.Reaches b'') : b.Reaches b'' :=
  ⟨h.readGlobal.trans h'.readGlobal, h.ingestGlobal.trans h'.ingestGlobal,
    h.syncReserve.trans h'.syncReserve, h.powPool.trans h'.powPool, h.probePool.trans h'.probePool⟩

theorem Reaches.probe {t : TokenBucket} (h : b.probePool.Reaches t) :
    b.Reaches { b with probePool := t } := { Reaches.refl b with probePool := h }

theorem Reaches.pow {t : TokenBucket} (h : b.powPool.Reaches t) :
    b.Reaches { b with powPool := t } := { Reaches.refl b with powPool := h }

theorem Reaches.sync {t : TokenBucket} (h : b.syncReserve.Reaches t) :
    b.Reaches { b with syncReserve := t } := { Reaches.refl b with syncReserve := h }

theorem Reaches.ingest {t : TokenBucket} (h : b.ingestGlobal.Reaches t) :
    b.Reaches { b with ingestGlobal := t } := { Reaches.refl b with ingestGlobal := h }

theorem Reaches.read {t : TokenBucket} (h : b.readGlobal.Reaches t) :
    b.Reaches { b with readGlobal := t } := { Reaches.refl b with readGlobal := h }

theorem reaches_tryReserve {isSyncPeer ok : Bool}
    {try_ : TokenBucket → Option (TokenBucket × Bool)}
    (htry : ∀ t ok, try_ b.syncReserve = some (t, ok) → b.syncReserve.Reaches t)
    (h : b.tryReserve isSyncPeer try_ = some (b', ok)) : b.Reaches b' := by
  unfold tryReserve at h
  split at h
  case isTrue =>
    obtain ⟨⟨t, _⟩, hsome, heq⟩ := Option.map_eq_some_iff.mp h
    cases heq
    exact .sync (htry t _ hsome)
  case isFalse =>
    cases h
    exact .refl b

theorem reaches_exec {call : BudgetCall} (h : b.exec call = some b') : b.Reaches b' := by
  cases call with
  | probeAdmits now =>
    obtain ⟨r, hr, rfl⟩ := Option.map_eq_some_iff.mp h
    obtain ⟨⟨t, ok⟩, ht, rfl⟩ := Option.map_eq_some_iff.mp hr
    exact .probe (.admits ht)
  | probeCommit =>
    cases h
    exact .probe (.commit _ 1)
  | probeLevel now =>
    obtain ⟨r, hr, rfl⟩ := Option.map_eq_some_iff.mp h
    obtain ⟨⟨t, n⟩, ht, rfl⟩ := Option.map_eq_some_iff.mp hr
    exact .probe (.levelAt ht)
  | admitRead bytes now =>
    obtain ⟨r, hr, rfl⟩ := Option.map_eq_some_iff.mp h
    obtain ⟨⟨t, ok⟩, ht, rfl⟩ := Option.map_eq_some_iff.mp hr
    exact .read (.take ht)
  | admitPow ms now =>
    obtain ⟨r, hr, rfl⟩ := Option.map_eq_some_iff.mp h
    obtain ⟨⟨t, ok⟩, ht, rfl⟩ := Option.map_eq_some_iff.mp hr
    exact .pow (.take ht)
  | powAffordable ms now =>
    obtain ⟨r, hr, rfl⟩ := Option.map_eq_some_iff.mp h
    obtain ⟨⟨t, ok⟩, ht, rfl⟩ := Option.map_eq_some_iff.mp hr
    exact .pow (.admits ht)
  | admitPowAnnounced ms now =>
    obtain ⟨r, hr, rfl⟩ := Option.map_eq_some_iff.mp h
    obtain ⟨⟨t, level⟩, ht, hrest⟩ := Option.bind_eq_some_iff.mp hr
    dsimp only at hrest
    split at hrest
    case isTrue =>
      cases hrest
      exact .pow (.levelAt ht)
    case isFalse =>
      obtain ⟨⟨t', ok⟩, ht', heq⟩ := Option.bind_eq_some_iff.mp hrest
      cases heq
      exact .pow (.trans (.levelAt ht) (.take ht'))
  | admitIngest bytes isSyncPeer now =>
    obtain ⟨r, hr, rfl⟩ := Option.map_eq_some_iff.mp h
    obtain ⟨⟨b₁, ok⟩, hsync, hrest⟩ := Option.bind_eq_some_iff.mp hr
    have h₁ := reaches_tryReserve (fun t ok ht ↦ .take ht) hsync
    dsimp only at hrest
    split at hrest
    case isTrue =>
      cases hrest
      exact h₁
    case isFalse =>
      obtain ⟨⟨t, ok'⟩, ht, heq⟩ := Option.bind_eq_some_iff.mp hrest
      cases heq
      exact h₁.trans (.ingest (.take ht))
  | admitFrame bytes isSyncPeer now =>
    obtain ⟨r, hr, rfl⟩ := Option.map_eq_some_iff.mp h
    obtain ⟨⟨b₁, ok⟩, hsync, hrest⟩ := Option.bind_eq_some_iff.mp hr
    have h₁ := reaches_tryReserve (fun t ok ht ↦ .admits ht) hsync
    dsimp only at hrest
    split at hrest
    case isTrue =>
      cases hrest
      exact h₁.trans (.sync (.commit _ _))
    case isFalse =>
      obtain ⟨⟨t, ok'⟩, ht, hrest⟩ := Option.bind_eq_some_iff.mp hrest
      have h₂ := h₁.trans (.read (.admits ht))
      dsimp only at hrest
      split at hrest
      case isTrue =>
        cases hrest
        exact h₂
      case isFalse =>
        obtain ⟨⟨t', ok''⟩, ht', hrest⟩ := Option.bind_eq_some_iff.mp hrest
        have h₃ := h₂.trans (.ingest (.admits ht'))
        dsimp only at hrest
        split at hrest
        case isTrue =>
          cases hrest
          exact h₃
        case isFalse =>
          cases hrest
          exact (h₃.trans (.ingest (.commit _ _))).trans (.read (.commit _ _))

end Budgets

/-- A peer's budget is touched by runs alone. -/
theorem PeerPowBudget.reaches_take {p p' : PeerPowBudget} {ms now : Nat} {ok : Bool}
    (h : p.take ms now = some (p', ok)) : p.bucket.Reaches p'.bucket := by
  obtain ⟨⟨t, ok⟩, ht, heq⟩ := Option.map_eq_some_iff.mp h
  cases heq
  exact .take ht

/-- The accept limit is touched by runs alone. -/
theorem ConnLimits.reaches_admitInbound {c c' : ConnLimits} {ip : Ip} {now : Nat}
    {res : Except Refusal Unit} (h : c.admitInbound ip now = some (c', res)) :
    c.accept.Reaches c'.accept := by
  unfold ConnLimits.admitInbound at h
  dsimp only at h
  split at h
  case isTrue =>
    cases h
    exact .refl _
  split at h
  case isTrue =>
    cases h
    exact .refl _
  generalize (if 60000 ≤ now - ((c.reconnects.lookup ip).getD (0, now)).2 then (0, now)
    else (c.reconnects.lookup ip).getD (0, now)) = e at h
  split at h
  case isTrue =>
    cases h
    exact .refl _
  case isFalse =>
    obtain ⟨⟨t, ok⟩, ht, heq⟩ := Option.map_eq_some_iff.mp h
    dsimp only at heq
    split at heq
    case isTrue =>
      cases heq
      exact .take ht
    case isFalse =>
      cases heq
      exact .take ht

end Plaine.P2p

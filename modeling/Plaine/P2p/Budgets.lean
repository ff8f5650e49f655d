import Plaine.Consensus.Constants
import Plaine.Lib.Checked
import Plaine.P2p.AddrMan

/-!
# Budgets

`gate/g4_budget.rs`, and the accept limit of `net/limits.rs`: buckets of whole tokens that a touch
refills for the time since the last.  A sum that leaves the range of integers panics, which is `none`
here.
-/

namespace Plaine.P2p

open Plaine.Lib Plaine.Consensus

/-! ## Constants -/

/-- `INV_PROBE_GLOBAL_PER_SEC`. -/
def invProbeGlobalPerSec : Nat := 16

/-- `INV_PROBE_GLOBAL_BURST`. -/
def invProbeGlobalBurst : Nat := 64

/-- `INBOUND_PER_IP`. -/
def inboundPerIpMax : Nat := 4

/-- `INBOUND_PER_GROUP`. -/
def inboundPerGroupMax : Nat := 16

/-- `ACCEPT_RATE_PER_SEC`. -/
def acceptRatePerSec : Nat := 8

/-- `ACCEPT_BURST`. -/
def acceptBurst : Nat := 32

/-- `RECONNECT_PER_IP_PER_MIN`. -/
def reconnectPerIpPerMin : Nat := 6

/-- `POW_BUDGET_MS_PER_WINDOW`. -/
def powBudgetMsPerWindow : Nat := 100

/-- `POW_BUDGET_WINDOW_MS`. -/
def powBudgetWindowMs : Nat := 10000

/-- `POW_BUDGET_BURST_MS`. -/
def powBudgetBurstMs : Nat := 300

/-- `POW_POOL_MS_PER_SEC`, two workers with a haircut of 15 %. -/
def powPoolMsPerSec : Nat := 2 * 1000 * (100 - 15) / 100

/-- `POW_ANNOUNCE_RESERVE_MS`, 200 headers of 3 ms. -/
def powAnnounceReserveMs : Nat := 2000 / 10 * 3000 / 1000

/-- `INGEST_GLOBAL_BYTES_PER_SEC`. -/
def ingestGlobalBytesPerSec : Nat := 16 * 1024 * 1024

/-- `READ_GLOBAL_BYTES_PER_SEC`. -/
def readGlobalBytesPerSec : Nat := 32 * 1024 * 1024

/-- `SYNC_PEER_RESERVE_BYTES_PER_SEC`. -/
def syncPeerReserveBytesPerSec : Nat := 2 * 1024 * 1024

/-! ## Token buckets -/

/-- `TokenBucket`. -/
structure TokenBucket where
  level : Nat
  capacity : Nat
  perSec : Nat
  last : Nat
deriving DecidableEq

namespace TokenBucket

/-- `TokenBucket::new`. -/
def new (capacity perSec now : Nat) : TokenBucket where
  level := capacity
  capacity := capacity
  perSec := perSec
  last := now

/-- `TokenBucket::with_burst`. -/
def withBurst (capacity initial perSec now : Nat) : TokenBucket where
  level := initial
  capacity := capacity
  perSec := perSec
  last := now

/-- The tokens in `refill` for a number of milliseconds. -/
def gain (perSec ms : Nat) : Nat := min (perSec * ms) u64Max / 1000

/-- `TokenBucket::refill`. -/
def refill (b : TokenBucket) (now : Nat) : Option TokenBucket :=
  if now - b.last = 0 then some b
  else
    (checkedAdd u64Max b.level (gain b.perSec (now - b.last))).map fun level ↦
      { b with last := now, level := min level b.capacity }

/-- `TokenBucket::take`. -/
def take (b : TokenBucket) (n now : Nat) : Option (TokenBucket × Bool) :=
  (b.refill now).map fun b ↦
    if n ≤ b.level then ({ b with level := b.level - n }, true) else (b, false)

/-- `TokenBucket::admits`. -/
def admits (b : TokenBucket) (n now : Nat) : Option (TokenBucket × Bool) :=
  (b.refill now).map fun b ↦ (b, n ≤ b.level)

/-- `TokenBucket::commit`. -/
def commit (b : TokenBucket) (n : Nat) : TokenBucket := { b with level := b.level - n }

/-- `TokenBucket::level`. -/
def levelAt (b : TokenBucket) (now : Nat) : Option (TokenBucket × Nat) :=
  (b.refill now).map fun b ↦ (b, b.level)

end TokenBucket

/-! ## The budgets of the node -/

/-- `Budgets`. -/
structure Budgets where
  readGlobal : TokenBucket
  ingestGlobal : TokenBucket
  syncReserve : TokenBucket
  powPool : TokenBucket
  probePool : TokenBucket
deriving DecidableEq

namespace Budgets

/-- `Budgets::new`. -/
def new (now : Nat) : Budgets where
  readGlobal := .withBurst readGlobalBytesPerSec
    (readGlobalBytesPerSec + syncPeerReserveBytesPerSec) readGlobalBytesPerSec now
  ingestGlobal := .new (ingestGlobalBytesPerSec - syncPeerReserveBytesPerSec)
    (ingestGlobalBytesPerSec - syncPeerReserveBytesPerSec) now
  syncReserve := .new syncPeerReserveBytesPerSec syncPeerReserveBytesPerSec now
  powPool := .new powPoolMsPerSec powPoolMsPerSec now
  probePool := .new invProbeGlobalBurst invProbeGlobalPerSec now

/-- `Budgets::probe_admits`. -/
def probeAdmits (b : Budgets) (now : Nat) : Option (Budgets × Bool) :=
  (b.probePool.admits 1 now).map fun (probePool, ok) ↦ ({ b with probePool }, ok)

/-- `Budgets::probe_commit`. -/
def probeCommit (b : Budgets) : Budgets := { b with probePool := b.probePool.commit 1 }

/-- `Budgets::probe_level`. -/
def probeLevel (b : Budgets) (now : Nat) : Option (Budgets × Nat) :=
  (b.probePool.levelAt now).map fun (probePool, level) ↦ ({ b with probePool }, level)

/-- `Budgets::admit_pow_announced`. -/
def admitPowAnnounced (b : Budgets) (ms now : Nat) : Option (Budgets × Bool) := do
  let (powPool, level) ← b.powPool.levelAt now
  if level < saturatingAdd u64Max powAnnounceReserveMs ms then return ({ b with powPool }, false)
  let (powPool, ok) ← powPool.take ms now
  return ({ b with powPool }, ok)

/-- The first condition of `admit_ingest` and `admit_frame`: a sync peer is tried on the reserve. -/
def tryReserve (b : Budgets) (isSyncPeer : Bool) (try_ : TokenBucket → Option (TokenBucket × Bool)) :
    Option (Budgets × Bool) :=
  if isSyncPeer then
    (try_ b.syncReserve).map fun (syncReserve, ok) ↦ ({ b with syncReserve }, ok)
  else some (b, false)

/-- `Budgets::admit_ingest`. -/
def admitIngest (b : Budgets) (bytes : Nat) (isSyncPeer : Bool) (now : Nat) :
    Option (Budgets × Bool) := do
  let (b, ok) ← b.tryReserve isSyncPeer (·.take bytes now)
  if ok then return (b, true)
  let (ingestGlobal, ok) ← b.ingestGlobal.take bytes now
  return ({ b with ingestGlobal }, ok)

/-- `Budgets::admit_frame`. -/
def admitFrame (b : Budgets) (bytes : Nat) (isSyncPeer : Bool) (now : Nat) :
    Option (Budgets × Bool) := do
  let (b, ok) ← b.tryReserve isSyncPeer (·.admits bytes now)
  if ok then return ({ b with syncReserve := b.syncReserve.commit bytes }, true)
  let (readGlobal, ok) ← b.readGlobal.admits bytes now
  let b := { b with readGlobal }
  if !ok then return (b, false)
  let (ingestGlobal, ok) ← b.ingestGlobal.admits bytes now
  let b := { b with ingestGlobal }
  if !ok then return (b, false)
  return ({ b with
    ingestGlobal := b.ingestGlobal.commit bytes
    readGlobal := b.readGlobal.commit bytes }, true)

/-- `Budgets::admit_read`. -/
def admitRead (b : Budgets) (bytes now : Nat) : Option (Budgets × Bool) :=
  (b.readGlobal.take bytes now).map fun (readGlobal, ok) ↦ ({ b with readGlobal }, ok)

/-- `Budgets::admit_pow`. -/
def admitPow (b : Budgets) (ms now : Nat) : Option (Budgets × Bool) :=
  (b.powPool.take ms now).map fun (powPool, ok) ↦ ({ b with powPool }, ok)

/-- `Budgets::pow_affordable`. -/
def powAffordable (b : Budgets) (ms now : Nat) : Option (Budgets × Bool) :=
  (b.powPool.admits ms now).map fun (powPool, ok) ↦ ({ b with powPool }, ok)

end Budgets

/-- `PeerPowBudget`. -/
structure PeerPowBudget where
  bucket : TokenBucket
deriving DecidableEq

namespace PeerPowBudget

/-- `PeerPowBudget::new`. -/
def new (now : Nat) : PeerPowBudget :=
  ⟨.new powBudgetBurstMs (powBudgetMsPerWindow * 1000 / powBudgetWindowMs) now⟩

/-- `PeerPowBudget::take`. -/
def take (p : PeerPowBudget) (ms now : Nat) : Option (PeerPowBudget × Bool) :=
  (p.bucket.take ms now).map fun (bucket, ok) ↦ (⟨bucket⟩, ok)

end PeerPowBudget

/-! ## The accept limit -/

/-- The values of `Refusal` in `admit_inbound`. -/
inductive Refusal where
  | perIp
  | perGroup
  | reconnect
  | rate
deriving DecidableEq

/-- `ConnLimits`, for connections that come in. -/
structure ConnLimits where
  accept : TokenBucket
  inboundPerIp : AList fun _ : Ip ↦ Nat
  inboundPerGroup : AList fun _ : Group ↦ Nat
  reconnects : AList fun _ : Ip ↦ Nat × Nat

namespace ConnLimits

/-- `ConnLimits::new`. -/
def new (now : Nat) : ConnLimits where
  accept := .new acceptBurst acceptRatePerSec now
  inboundPerIp := ∅
  inboundPerGroup := ∅
  reconnects := ∅

/-- `ConnLimits::admit_inbound`. -/
def admitInbound (c : ConnLimits) (ip : Ip) (now : Nat) :
    Option (ConnLimits × Except Refusal Unit) :=
  let group := groupOf ip
  let fromIp := (c.inboundPerIp.lookup ip).getD 0
  let fromGroup := (c.inboundPerGroup.lookup group).getD 0
  if inboundPerIpMax ≤ fromIp then some (c, .error .perIp)
  else if inboundPerGroupMax ≤ fromGroup then some (c, .error .perGroup)
  else
    let e := (c.reconnects.lookup ip).getD (0, now)
    let e := if 60000 ≤ now - e.2 then (0, now) else e
    let c := { c with reconnects := c.reconnects.insert ip e }
    if reconnectPerIpPerMin ≤ e.1 then some (c, .error .reconnect)
    else
      (c.accept.take 1 now).map fun (accept, ok) ↦
        if ok then
          ({ accept
             reconnects := c.reconnects.insert ip (e.1 + 1, e.2)
             inboundPerIp := c.inboundPerIp.insert ip (fromIp + 1)
             inboundPerGroup := c.inboundPerGroup.insert group (fromGroup + 1) }, .ok ())
        else ({ c with accept }, .error .rate)

end ConnLimits

end Plaine.P2p

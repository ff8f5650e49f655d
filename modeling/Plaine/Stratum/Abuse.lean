import Plaine.Lib.Checked
import Plaine.Lib.Bytes
import Plaine.Consensus.Constants
import Plaine.Stratum.Lru

/-!
# Scores, bans and starting difficulties

The rest of `stratum/src/abuse.rs`.  The table of addresses is bounded: a row with a connection, a
ban or a throttle in force stays, and when every row does the caller gets a scratch record.

A token bucket counts in floating point; what it grants is left open, as a class.
-/

namespace Plaine.Stratum

open Plaine.Lib Plaine.Consensus

/-- `TokenBucket::take`. -/
class TokenBucket (β : Type) where
  take : β → Nat → Bool × β

/-- `IpAddr`. -/
inductive IpAddr where
  | v4 (octets : Arr 4)
  | v6 (octets : Arr 16)
deriving DecidableEq

/-- `u32::MAX`. -/
def u32Max : Nat := 2 ^ 32 - 1

/-- `Severity`. -/
inductive Severity where
  | soft
  | hard
deriving DecidableEq

/-- `Caps`, what of them `admit` asks for. -/
structure Caps where
  maxConnections : Nat
  maxPerIp : Nat
  newConnsPerIpPerMin : Nat
deriving DecidableEq

/-- `BanPolicy`. -/
structure BanPolicy where
  enabled : Bool
  threshold : Nat
  softCap : Nat
  decaySecs : Nat
  baseSecs : Nat
  ladderFactor : Nat
  maxSecs : Nat
  tableEntries : Nat
  throttleMs : Nat
deriving DecidableEq

/-- `BanPolicy::DEFAULT`. -/
instance : Inhabited BanPolicy where
  default :=
    { enabled := true
      threshold := 100
      softCap := 25
      decaySecs := 6
      baseSecs := 600
      ladderFactor := 4
      maxSecs := 86400
      tableEntries := 65536
      throttleMs := 60000 }

/-- `IpRecord`. -/
structure IpRecord where
  seen : Bool
  hard : Nat
  soft : Nat
  lastDecayMs : Nat
  bannedUntilMs : Nat
  banCount : Nat
  conns : Nat
  newConns : Nat
  newConnWindowMs : Nat
  throttledUntilMs : Nat
deriving DecidableEq

instance : Inhabited IpRecord := ⟨⟨false, 0, 0, 0, 0, 0, 0, 0, 0, 0⟩⟩

namespace IpRecord

variable (r : IpRecord)

/-- `IpRecord::effective`. -/
def effective (softCap : Nat) : Nat := (r.hard + min r.soft softCap) % 2 ^ 32

/-- A record that may go when the table is full. -/
def evictable (nowMs : Nat) : Bool :=
  r.conns = 0 ∧ r.bannedUntilMs ≤ nowMs ∧ r.throttledUntilMs ≤ nowMs

/-- The first contact starts the clocks. -/
def meet (nowMs : Nat) : IpRecord :=
  if r.seen then r else { r with seen := true, lastDecayMs := nowMs, newConnWindowMs := nowMs }

/-- The decay of a score, of `soft` before `hard`. -/
def decay (decaySecs nowMs : Nat) : IpRecord :=
  let points := ((nowMs - r.lastDecayMs) / 1000 / max decaySecs 1) % 2 ^ 32
  if 0 < points then
    let fromSoft := min points r.soft
    { r with
      soft := r.soft - fromSoft
      hard := r.hard - (points - fromSoft)
      lastDecayMs := r.lastDecayMs + points * max decaySecs 1 * 1000 }
  else r

end IpRecord

/-- `BanTable`. -/
structure BanTable where
  ips : Lru IpAddr IpRecord
  bansIssued : Nat
  saturated : Nat
  scratch : IpRecord
  pol : BanPolicy

/-- `Admit`. -/
inductive Admit where
  | ok
  | banned
  | perIpLimit
  | perIpRate
  | serverFull
  | acceptRate
  | throttled
deriving DecidableEq

namespace BanTable

/-- `BanTable::with_policy`. -/
def withPolicy (pol : BanPolicy) : BanTable := ⟨.new (max pol.tableEntries 1), 0, 0, default, pol⟩

variable (t : BanTable)

/-- The record a `&mut IpRecord` stands for: a row, or the scratch record. -/
def record : Option Nat → IpRecord
  | some i => (t.ips.value i).getD default
  | none => t.scratch

/-- Write to a record. -/
def setRecord (slot : Option Nat) (r : IpRecord) : BanTable :=
  match slot with
  | some i => { t with ips := t.ips.setValue i r }
  | none => { t with scratch := r }

/-- `BanTable::decayed`. -/
def decayed (ip : IpAddr) (nowMs : Nat) : Option Nat × BanTable :=
  match t.ips.entryOrDefaultProtected ip (·.evictable nowMs) with
  | (none, ips) =>
    (none, { t with
      ips
      saturated := t.saturated + 1
      scratch := { (default : IpRecord) with
        seen := true, lastDecayMs := nowMs, newConnWindowMs := nowMs } })
  | (some i, ips) =>
    let t := { t with ips }
    (some i, t.setRecord (some i) (((t.record (some i)).meet nowMs).decay t.pol.decaySecs nowMs))

/-- `BanTable::score`. -/
def score (ip : IpAddr) (nowMs : Nat) : Nat × BanTable :=
  if ¬t.pol.enabled then (0, t)
  else
    let (slot, t) := t.decayed ip nowMs
    ((t.record slot).effective t.pol.softCap, t)

/-- `BanTable::is_banned`. -/
def isBanned (ip : IpAddr) (nowMs : Nat) : Bool × BanTable :=
  if ¬t.pol.enabled then (false, t)
  else
    let (slot, t) := t.decayed ip nowMs
    (nowMs < (t.record slot).bannedUntilMs, t)

/-- The loop of `penalise`: each repeat offence multiplies the length, up to the cap. -/
def ladder (factor maxSecs : Nat) : Nat → Nat → Nat
  | 0, secs => secs
  | n + 1, secs =>
    if maxSecs ≤ min (secs * factor) u64Max then min (secs * factor) u64Max
    else ladder factor maxSecs n (min (secs * factor) u64Max)

/-- How many seconds the next ban of a record lasts. -/
def banSecs (pol : BanPolicy) (r : IpRecord) : Nat :=
  min (ladder (max pol.ladderFactor 1) pol.maxSecs r.banCount pol.baseSecs) pol.maxSecs

/-- A record with points added. -/
def addPoints (r : IpRecord) (points : Nat) : Severity → IpRecord
  | .soft => { r with soft := saturatingAdd u32Max r.soft points }
  | .hard => { r with hard := saturatingAdd u32Max r.hard points }

/-- `BanTable::penalise`. -/
def penalise (ip : IpAddr) (points : Nat) (severity : Severity) (nowMs : Nat) :
    Option Nat × BanTable :=
  if ¬t.pol.enabled ∨ t.pol.threshold = 0 then (none, t)
  else
    let (slot, t) := t.decayed ip nowMs
    let r := addPoints (t.record slot) points severity
    if r.effective t.pol.softCap < t.pol.threshold ∨ nowMs < r.bannedUntilMs then
      (none, t.setRecord slot r)
    else
      let secs := banSecs t.pol r
      (some (secs * 1000), { t.setRecord slot { r with
        banCount := saturatingAdd u32Max r.banCount 1
        bannedUntilMs := nowMs + secs * 1000
        hard := 0
        soft := 0 } with bansIssued := t.bansIssued + 1 })

/-- `BanTable::throttle`. -/
def throttle (ip : IpAddr) (nowMs : Nat) : BanTable :=
  if ¬t.pol.enabled ∨ t.pol.throttleMs = 0 then t
  else
    let (slot, t) := t.decayed ip nowMs
    t.setRecord slot { t.record slot with throttledUntilMs := nowMs + t.pol.throttleMs }

/-- A record with an attempt to connect counted. -/
def attempt (r : IpRecord) (nowMs : Nat) : IpRecord :=
  let r := if 60000 ≤ nowMs - r.newConnWindowMs then
    { r with newConnWindowMs := nowMs, newConns := 0 } else r
  { r with newConns := saturatingAdd u32Max r.newConns 1 }

/-- Why a record is refused a connection, if it is. -/
def refusal (r : IpRecord) (nowMs : Nat) (caps : Caps) : Option Admit :=
  let perIp := caps.maxPerIp % 2 ^ 32
  if nowMs < r.bannedUntilMs then some .banned
  else if nowMs < r.throttledUntilMs then some .throttled
  else if perIp ≠ 0 ∧ perIp ≤ r.conns then some .perIpLimit
  else if caps.newConnsPerIpPerMin ≠ 0 ∧ caps.newConnsPerIpPerMin < r.newConns then some .perIpRate
  else none

/-- `BanTable::admit`. -/
def admitConn {β : Type} [TokenBucket β] (ip : IpAddr) (nowMs : Nat) (caps : Caps) (totalConns : Nat)
    (acceptBucket : β) : Admit × BanTable × β :=
  if caps.maxConnections ≠ 0 ∧ caps.maxConnections ≤ totalConns then (.serverFull, t, acceptBucket)
  else
    let (slot, t) := t.decayed ip nowMs
    let r := attempt (t.record slot) nowMs
    match refusal r nowMs caps with
    | some a => (a, t.setRecord slot r, acceptBucket)
    | none =>
      match TokenBucket.take acceptBucket nowMs with
      | (false, acceptBucket) => (.acceptRate, t.setRecord slot r, acceptBucket)
      | (true, acceptBucket) =>
        (.ok, t.setRecord slot { r with conns := r.conns + 1 }, acceptBucket)

/-- `BanTable::attempts_this_minute`. -/
def attemptsThisMinute (ip : IpAddr) (nowMs : Nat) : Nat × BanTable :=
  let (slot, t) := t.decayed ip nowMs
  ((t.record slot).newConns, t)

/-- `BanTable::conns`. -/
def conns (ip : IpAddr) (nowMs : Nat) : Nat × BanTable :=
  let (slot, t) := t.decayed ip nowMs
  ((t.record slot).conns, t)

/-- `BanTable::release`. -/
def release (ip : IpAddr) (nowMs : Nat) : BanTable :=
  let (slot, t) := t.decayed ip nowMs
  t.setRecord slot { t.record slot with conns := (t.record slot).conns - 1 }

end BanTable

/-! ## Starting difficulties -/

/-- `DiffPolicy`. -/
structure DiffPolicy where
  startDiff : Nat
  minDiff : Nat
  cacheEntries : Nat
  cacheTtlMs : Nat
  stormEnabled : Bool
  stormPerMin : Nat
  stormWindowMs : Nat
deriving DecidableEq

/-- `AddrState`. -/
structure AddrState where
  lastDifficulty : Nat
  updatedMs : Nat
  loginsThisMin : Nat
  loginWindowMs : Nat
  stormSinceMs : Nat
  pinnedFloor : Option Nat
deriving DecidableEq

instance : Inhabited AddrState := ⟨⟨0, 0, 0, 0, 0, none⟩⟩

/-- `DiffCache`. -/
structure DiffCache where
  map : Lru Address AddrState
  pol : DiffPolicy

namespace DiffCache

/-- `DiffCache::with_policy`. -/
def withPolicy (pol : DiffPolicy) : DiffCache := ⟨.new (max pol.cacheEntries 1), pol⟩

variable (d : DiffCache)

/-- The state of a row. -/
def state (slot : Option Nat) : AddrState := (slot.bind d.map.value).getD default

/-- Write to a row. -/
def setState (slot : Option Nat) (s : AddrState) : DiffCache :=
  match slot with
  | some i => { d with map := d.map.setValue i s }
  | none => d

/-- `DiffCache::start_for`. -/
def startFor (addr : Address) (nowMs : Nat) : (Nat × Option Nat) × DiffCache :=
  match d.map.getMut addr with
  | (none, map) => ((d.pol.startDiff, none), { d with map })
  | (some i, map) =>
    let d := { d with map }
    let s := d.state (some i)
    if nowMs - s.updatedMs ≤ d.pol.cacheTtlMs ∧ 0 < s.lastDifficulty then
      ((s.lastDifficulty, s.pinnedFloor), d)
    else ((d.pol.startDiff, s.pinnedFloor), d)

/-- `DiffCache::record`. -/
def record (addr : Address) (difficulty nowMs : Nat) : DiffCache :=
  let (slot, map) := d.map.entryOrDefault addr
  let d := { d with map }
  d.setState slot { d.state slot with lastDifficulty := difficulty, updatedMs := nowMs }

/-- The count of logins in `note_login`, and the floor pinned in a storm. -/
def countLogin (pol : DiffPolicy) (s : AddrState) (lastStable nowMs : Nat) : AddrState :=
  let s := if 60000 ≤ nowMs - s.loginWindowMs then
    { s with
      stormSinceMs := if s.loginsThisMin ≤ pol.stormPerMin then 0 else s.stormSinceMs
      loginWindowMs := nowMs
      loginsThisMin := 0 } else s
  let s := { s with loginsThisMin := s.loginsThisMin + 1 }
  if pol.stormPerMin < s.loginsThisMin then
    if s.stormSinceMs = 0 then { s with stormSinceMs := nowMs }
    else if pol.stormWindowMs ≤ nowMs - s.stormSinceMs then
      { s with pinnedFloor := some (max lastStable pol.minDiff) }
    else s
  else s

/-- `DiffCache::note_login`. -/
def noteLogin (addr : Address) (lastStable nowMs : Nat) : Option Nat × DiffCache :=
  if ¬d.pol.stormEnabled then
    let (slot, map) := d.map.getMut addr
    let d := { d with map }
    (slot.bind fun i ↦ (d.state (some i)).pinnedFloor, d)
  else
    let (slot, map) := d.map.entryOrDefault addr
    let d := { d with map }
    let s := countLogin d.pol (d.state slot) lastStable nowMs
    (s.pinnedFloor, d.setState slot s)

end DiffCache

end Plaine.Stratum

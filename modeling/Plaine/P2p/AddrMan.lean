import Plaine.Lib.Bytes
import Plaine.Lib.Dense
import Plaine.P2p.Rng
import Mathlib.Data.List.MinMax
import Mathlib.Data.Prod.Lex

/-!
# The address book

`addr/routable.rs`, which addresses the book takes and `group_of`, the network group of an address, and
`addr/addrman.rs`: addresses that were heard of (`New`) and addresses that were reached (`Tried`), in
a dense list with an index, counts of the two tables, and a count of the new addresses for every
group that told of them.  The index and the counts are those of the list after any calls.
-/

namespace Plaine.P2p

open Plaine.Lib

/-! ## Addresses -/

/-- An IPv6 address, or an IPv4 address mapped into one. -/
abbrev Ip : Type := Arr 16

/-- A network group. -/
abbrev Group : Type := Arr 4

/-- The byte at `i`. -/
def byte {n : Nat} (a : Arr n) (i : Nat) : UInt8 := a.bytes.getD i 0

/-- An address is an IPv4 address behind the prefix `::ffff`. -/
def v4Mapped (ip : Ip) : Bool :=
  (ip.bytes.take 10).all (· == 0) && byte ip 10 == 0xff && byte ip 11 == 0xff

/-- `v4_of`. -/
def v4Of (ip : Ip) : Option (Arr 4) :=
  if v4Mapped ip then some (Arr.ofSlice 4 12 ip.bytes) else none

/-- `routable_v4`. -/
def routableV4 (o : Arr 4) : Bool :=
  !(byte o 0 == 0
    || byte o 0 == 127
    || byte o 0 == 10
    || (byte o 0 == 172 && (byte o 1 &&& 0xf0) == 16)
    || (byte o 0 == 192 && byte o 1 == 168)
    || (byte o 0 == 169 && byte o 1 == 254)
    || (byte o 0 &&& 0xf0) == 224
    || o.bytes == [255, 255, 255, 255]
    || (byte o 0 == 192 && byte o 1 == 0 && byte o 2 == 2)
    || (byte o 0 == 198 && byte o 1 == 51 && byte o 2 == 100)
    || (byte o 0 == 203 && byte o 1 == 0 && byte o 2 == 113)
    || (byte o 0 == 100 && (byte o 1 &&& 0xc0) == 64)
    || (byte o 0 == 192 && byte o 1 == 0 && byte o 2 == 0)
    || (byte o 0 == 192 && byte o 1 == 88 && byte o 2 == 99)
    || (byte o 0 == 198 && (byte o 1 &&& 0xfe) == 18)
    || byte o 0 ≥ 240)

/-- A big-endian pair of bytes in `routable_v6`. -/
def beWord (ip : Ip) (i : Nat) : UInt16 :=
  UInt16.ofNat ((byte ip (2 * i)).toNat * 256 + (byte ip (2 * i + 1)).toNat)

/-- `routable_v6`. -/
def routableV6 (ip : Ip) : Bool :=
  !(ip.bytes.all (· == 0)
    || ((ip.bytes.take 15).all (· == 0) && byte ip 15 == 1)
    || byte ip 0 == 0xff
    || (beWord ip 0 &&& 0xfe00) == 0xfc00
    || (beWord ip 0 &&& 0xffc0) == 0xfe80
    || (beWord ip 0 == 0x2001 && beWord ip 1 == 0x0db8)
    || (beWord ip 0 == 0x2001 && beWord ip 1 == 0x0002 && beWord ip 2 == 0)
    || (beWord ip 0 == 0x2001 && (beWord ip 1 &&& 0xfff0) == 0x0010)
    || (beWord ip 0 == 0x0064 && beWord ip 1 == 0xff9b))

/-- `is_routable`. -/
def isRoutable (ip : Ip) : Bool :=
  match v4Of ip with
  | some o => routableV4 o
  | none => routableV6 ip

/-- `admissible`. -/
def admissible (ip : Ip) (port : UInt16) (allowLocal : Bool) : Bool :=
  if port = 0 then false
  else if allowLocal then
    match v4Of ip with
    | some o => o.bytes != [0, 0, 0, 0]
    | none => !ip.bytes.all (· == 0)
  else isRoutable ip

/-- `group_of`. -/
def groupOf (ip : Ip) : Group :=
  if v4Mapped ip then ⟨[byte ip 12, byte ip 13, 0, 0], rfl⟩
  else ⟨[byte ip 0, byte ip 1, byte ip 2, byte ip 3], rfl⟩

/-! ## Constants -/

/-- `ADDR_NEW_MAX`. -/
def addrNewMax : Nat := 4096

/-- `ADDR_TRIED_MAX`. -/
def addrTriedMax : Nat := 1024

/-- `ADDR_PER_SOURCE_GROUP_MAX`. -/
def addrPerSourceGroupMax : Nat := addrNewMax / 16

/-- `ADDR_MAX_AGE_SECS`. -/
def addrMaxAgeSecs : Nat := 7 * 86400

/-- `DEMOTE_AFTER_FAILURES`. -/
def demoteAfterFailures : Nat := 8

/-- `DEMOTE_AFTER_PROTOCOL_DEATHS`. -/
def demoteAfterProtocolDeaths : Nat := 3

/-- `FOREIGN_NETWORK_MS`. -/
def foreignNetworkMs : Nat := 24 * 3600000

/-! ## The book -/

/-- `Mono`: a reading of the monotonic clock. -/
abbrev Mono : Type := Nat

/-- `Mono::plus_ms`. -/
def Mono.plusMs (t : Mono) (ms : Nat) : Mono := min (t + ms) (2 ^ 64 - 1)

/-- `u32::saturating_add(1)`. -/
def satSucc (n : Nat) : Nat := min (n + 1) (2 ^ 32 - 1)

/-- `Table`. -/
inductive Table where
  | new
  | tried
deriving DecidableEq

/-- `AddrEntry`. -/
structure AddrEntry where
  ip : Ip
  port : UInt16
  services : UInt32
  lastSeen : UInt64
  table : Table
  failures : Nat
  protocolDeaths : Nat
  fromSeed : Bool
  sourceGroup : Group
  foreignUntil : Option Mono
  lastAttempt : Option Mono
deriving DecidableEq

namespace AddrEntry

/-- `AddrEntry::new`. -/
def new (ip : Ip) (port : UInt16) (fromSeed : Bool) : AddrEntry where
  ip := ip
  port := port
  services := 0
  lastSeen := 0
  table := .new
  failures := 0
  protocolDeaths := 0
  fromSeed := fromSeed
  sourceGroup := Arr.zero 4
  foreignUntil := none
  lastAttempt := none

/-- What the index knows an address by. -/
def key (e : AddrEntry) : Ip × UInt16 := (e.ip, e.port)

/-- A new address that the group told of. -/
def NewFrom (g : Group) (e : AddrEntry) : Prop := e.table = .new ∧ e.sourceGroup = g

instance (g : Group) : DecidablePred (NewFrom g) := fun e ↦
  inferInstanceAs (Decidable (e.table = .new ∧ e.sourceGroup = g))

end AddrEntry

/-- `PeerRec`. -/
structure PeerRec where
  ip : Ip
  port : UInt16
  services : UInt32
  lastSeen : UInt64
  table : Table
  sourceGroup : Group
deriving DecidableEq

/-- `RestoreStats`. -/
structure RestoreStats where
  loaded : Nat
  filtered : Nat
  overQuota : Nat
  tooOld : Nat
  duplicate : Nat
  full : Nat
deriving DecidableEq

/-- `Ingest`. -/
inductive Ingest where
  | added
  | refreshed
  | filtered
  | overQuota
  | tableFull
  | tooOld
deriving DecidableEq

/-- `AddrMan`. -/
structure AddrMan where
  entries : List AddrEntry
  index : AList fun _ : Ip × UInt16 ↦ Nat
  newBySource : AList fun _ : Group ↦ Nat
  nNew : Nat
  nTried : Nat

namespace AddrMan

/-- `AddrMan::new`. -/
def new : AddrMan := { entries := [], index := ∅, newBySource := ∅, nNew := 0, nTried := 0 }

/-- `AddrMan::note_added`. -/
def noteAdded (m : AddrMan) (i : Nat) (e : AddrEntry) : AddrMan :=
  let m := { m with index := m.index.insert e.key i }
  match e.table with
  | .new => { m with nNew := m.nNew + 1, newBySource := bump m.newBySource e.sourceGroup }
  | .tried => { m with nTried := m.nTried + 1 }

/-- `AddrMan::note_removed`. -/
def noteRemoved (m : AddrMan) (e : AddrEntry) : AddrMan :=
  let m := { m with index := m.index.erase e.key }
  match e.table with
  | .new => { m with nNew := m.nNew - 1, newBySource := unbump m.newBySource e.sourceGroup }
  | .tried => { m with nTried := m.nTried - 1 }

/-- An assignment to fields of `self.entries[i]`. -/
def update (m : AddrMan) (i : Nat) (f : AddrEntry → AddrEntry) : AddrMan :=
  { m with entries := m.entries.modify i f }

/-- `AddrMan::set_table`. -/
def setTable (m : AddrMan) (i : Nat) (t : Table) : AddrMan :=
  match m.entries[i]? with
  | none => m
  | some e =>
    if e.table = t then m
    else
      match t with
      | .tried => { m with
          nNew := m.nNew - 1
          newBySource := unbump m.newBySource e.sourceGroup
          nTried := m.nTried + 1 }.update i fun e ↦ { e with table := t }
      | .new => { m with
          nTried := m.nTried - 1
          nNew := m.nNew + 1
          newBySource := bump m.newBySource e.sourceGroup }.update i fun e ↦ { e with table := t }

/-- `AddrMan::remove_at`. -/
def removeAt (m : AddrMan) (i : Nat) : AddrMan :=
  match m.entries[i]? with
  | none => m
  | some e =>
    let m := { m with entries := m.entries.swapRemove i }.noteRemoved e
    match m.entries[i]? with
    | some moved => { m with index := m.index.insert moved.key i }
    | none => m

/-- `AddrMan::push`. -/
def push (m : AddrMan) (e : AddrEntry) : AddrMan :=
  { m with entries := m.entries ++ [e] }.noteAdded m.entries.length e

/-- `AddrMan::count_new_from`. -/
def countNewFrom (m : AddrMan) (g : Group) : Nat := (m.newBySource.lookup g).getD 0

/-- The key `evict_one_new` compares. -/
def evictKey (m : AddrMan) (byAddrGroup : AList fun _ : Group ↦ Nat) (e : AddrEntry) :
    Bool ×ₗ (Nat ×ₗ Nat) :=
  toLex (e.sourceGroup != Arr.zero 4,
    toLex (m.countNewFrom e.sourceGroup, (byAddrGroup.lookup (groupOf e.ip)).getD 0))

/-- `AddrMan::evict_one_new`: the first of the new entries with the greatest key goes. -/
def evictOneNew (m : AddrMan) : AddrMan :=
  let fresh := m.entries.filter (·.table = .new)
  let byAddrGroup := fresh.foldl (fun t e ↦ bump t (groupOf e.ip)) ∅
  match (m.entries.zipIdx.filter (·.1.table = .new)).argmax (m.evictKey byAddrGroup ·.1) with
  | some (_, i) => m.removeAt i
  | none => m

/-- `AddrMan::add`. -/
def add (m : AddrMan) (ip : Ip) (port : UInt16) (fromSeed : Bool) (lastSeen : UInt64) :
    AddrMan × Bool :=
  match m.index.lookup (ip, port) with
  | some i =>
    (m.update i fun e ↦
      { e with lastSeen := max e.lastSeen lastSeen, fromSeed := e.fromSeed || fromSeed }, false)
  | none =>
    let m := if m.nNew ≥ addrNewMax then m.evictOneNew else m
    (m.push { AddrEntry.new ip port fromSeed with lastSeen := lastSeen }, true)

/-- `AddrMan::add_from_peer`. -/
def addFromPeer (m : AddrMan) (ip : Ip) (port : UInt16) (services : UInt32) (claimedSeen : UInt64)
    (sourceGroup : Group) (nowUnix : UInt64) (allowLocal : Bool) : AddrMan × Ingest :=
  let lastSeen := min claimedSeen nowUnix
  if ¬admissible ip port allowLocal then (m, .filtered)
  else if nowUnix.toNat - lastSeen.toNat > addrMaxAgeSecs then (m, .tooOld)
  else
    match m.index.lookup (ip, port) with
    | some i =>
      (m.update i fun e ↦ { e with
        lastSeen := max e.lastSeen lastSeen
        services := if e.services = 0 then services else e.services }, .refreshed)
    | none =>
      if m.countNewFrom sourceGroup ≥ addrPerSourceGroupMax then (m, .overQuota)
      else if m.nNew ≥ addrNewMax then (m, .tableFull)
      else (m.push { AddrEntry.new ip port false with lastSeen, services, sourceGroup }, .added)

/-- The shuffle of `restore`: `n` swaps are left, the next of them at `n`. -/
def shuffle {α : Type} : Nat → List α → Rng → List α × Rng
  | 0, order, rng => (order, rng)
  | n + 1, order, rng =>
    let (j, rng) := rng.below (n + 2)
    let swapped := match order[n + 1]?, order[j]? with
      | some a, some b => (order.set (n + 1) b).set j a
      | _, _ => order
    shuffle n swapped rng

/-- One round of `restore`. -/
def restoreOne (nowUnix : UInt64) (allowLocal : Bool) (s : AddrMan × RestoreStats) (r : PeerRec) :
    AddrMan × RestoreStats :=
  let (m, st) := s
  let lastSeen := min r.lastSeen nowUnix
  if ¬admissible r.ip r.port allowLocal then (m, { st with filtered := st.filtered + 1 })
  else if nowUnix.toNat - lastSeen.toNat > addrMaxAgeSecs then
    (m, { st with tooOld := st.tooOld + 1 })
  else if (m.index.lookup (r.ip, r.port)).isSome then
    (m, { st with duplicate := st.duplicate + 1 })
  else if r.table = .tried ∧ m.nTried ≥ addrTriedMax then (m, { st with full := st.full + 1 })
  else if r.table = .new ∧ m.countNewFrom r.sourceGroup ≥ addrPerSourceGroupMax then
    (m, { st with overQuota := st.overQuota + 1 })
  else if r.table = .new ∧ m.nNew ≥ addrNewMax then (m, { st with full := st.full + 1 })
  else
    (m.push { AddrEntry.new r.ip r.port false with
      lastSeen := lastSeen, services := r.services, table := r.table, sourceGroup := r.sourceGroup },
     { st with loaded := st.loaded + 1 })

/-- `AddrMan::restore`. -/
def restore (m : AddrMan) (recs : List PeerRec) (nowUnix : UInt64) (allowLocal : Bool) (rng : Rng) :
    AddrMan × RestoreStats × Rng :=
  let (order, rng) := shuffle (recs.length - 1) recs rng
  let (m, st) := order.foldl (restoreOne nowUnix allowLocal)
    (m, { loaded := 0, filtered := 0, overQuota := 0, tooOld := 0, duplicate := 0, full := 0 })
  (m, st, rng)

/-- An entry that `reap_expired` takes. -/
def expired (nowUnix : UInt64) (e : AddrEntry) : Bool :=
  e.table = .new && !e.fromSeed && nowUnix.toNat - e.lastSeen.toNat > addrMaxAgeSecs

/-- The loop of `reap_expired`, with `n` entries left from `i` on. -/
def reapFrom (nowUnix : UInt64) : Nat → Nat → AddrMan → Nat → AddrMan × Nat
  | 0, _, m, gone => (m, gone)
  | n + 1, i, m, gone =>
    match m.entries[i]? with
    | none => (m, gone)
    | some e =>
      if expired nowUnix e then reapFrom nowUnix n i (m.removeAt i) (gone + 1)
      else reapFrom nowUnix n (i + 1) m gone

/-- `AddrMan::reap_expired`. -/
def reapExpired (m : AddrMan) (nowUnix : UInt64) : AddrMan × Nat :=
  reapFrom nowUnix m.entries.length 0 m 0

/-- The entry that `enforce_tried_cap` demotes: the first of those attempted least recently. -/
def oldestTried (m : AddrMan) : Option Nat :=
  ((m.entries.zipIdx.filter (·.1.table = .tried)).argmin (·.1.lastAttempt.getD 0)).map (·.2)

/-- An entry goes back to the new ones, and `f` is assigned to it. -/
def demote (m : AddrMan) (i : Nat) (f : AddrEntry → AddrEntry) : AddrMan :=
  (m.setTable i .new).update i f

/-- The first half of `on_handshake_ok`: the entry is a tried one. -/
def promote (m : AddrMan) (i : Nat) (services : UInt32) : AddrMan :=
  (m.setTable i .tried).update i fun e ↦ { e with failures := 0, services }

/-- `AddrMan::enforce_tried_cap`.  Every round takes one off the tried entries, so that as many are
needed as there are too many. -/
def enforceTriedCap (m : AddrMan) : AddrMan :=
  loop (m.nTried - addrTriedMax) m
where
  /-- The rounds that are left. -/
  loop : Nat → AddrMan → AddrMan
    | 0, m => m
    | n + 1, m =>
      if m.nTried > addrTriedMax then
        match m.oldestTried with
        | some i => loop n (m.demote i fun e ↦ { e with failures := 0 })
        | none => m
      else m

/-- `AddrMan::on_handshake_ok`. -/
def onHandshakeOk (m : AddrMan) (ip : Ip) (port : UInt16) (services : UInt32) : AddrMan :=
  match m.index.lookup (ip, port) with
  | none => m
  | some i => (m.promote i services).enforceTriedCap

/-- The failure that `on_failure` notes. -/
def failed (protocol : Bool) (e : AddrEntry) : AddrEntry :=
  { e with
    failures := satSucc e.failures
    protocolDeaths := if protocol then satSucc e.protocolDeaths else e.protocolDeaths }

/-- An entry that `on_failure` demotes. -/
def demotes (e : AddrEntry) : Bool :=
  e.table = .tried &&
    (e.failures ≥ demoteAfterFailures || e.protocolDeaths ≥ demoteAfterProtocolDeaths)

/-- `AddrMan::on_failure`. -/
def onFailure (m : AddrMan) (ip : Ip) (port : UInt16) (protocol : Bool) : AddrMan × Bool :=
  match m.index.lookup (ip, port) with
  | none => (m, false)
  | some i =>
    let m := m.update i (failed protocol)
    match m.entries[i]? with
    | none => (m, false)
    | some e =>
      if demotes e then
        (m.demote i fun e ↦ { e with failures := 0, protocolDeaths := 0 }, true)
      else (m, false)

/-- `AddrMan::mark_foreign`. -/
def markForeign (m : AddrMan) (ip : Ip) (port : UInt16) (now : Mono) : AddrMan :=
  match m.index.lookup (ip, port) with
  | none => m
  | some i => m.update i fun e ↦ { e with foreignUntil := some (now.plusMs foreignNetworkMs) }

/-- `AddrMan::note_attempt`. -/
def noteAttempt (m : AddrMan) (ip : Ip) (port : UInt16) (now : Mono) : AddrMan :=
  match m.index.lookup (ip, port) with
  | none => m
  | some i => m.update i fun e ↦ { e with lastAttempt := some now }

/-- `AddrMan::counters_consistent`. -/
def countersConsistent (m : AddrMan) : Bool :=
  let nNew := m.entries.countP (·.table = .new)
  let nTried := m.entries.countP (·.table = .tried)
  let bySrc := (m.entries.filter (·.table = .new)).foldl (fun t e ↦ bump t e.sourceGroup) ∅
  if nNew ≠ m.nNew ∨ nTried ≠ m.nTried then false
  else if m.index.keys.length ≠ m.entries.length then false
  else if ¬m.entries.zipIdx.all (fun x ↦ m.index.lookup x.1.key = some x.2) then false
  else
    -- equality of maps: the same number of rows, and every row of one in the other
    bySrc.keys.length = m.newBySource.keys.length &&
      bySrc.keys.all fun g ↦ m.newBySource.lookup g = bySrc.lookup g

end AddrMan

/-! ## Operations -/

/-- A call to a public operation of the book. -/
inductive AddrOp where
  | add (ip : Ip) (port : UInt16) (fromSeed : Bool) (lastSeen : UInt64)
  | addFromPeer (ip : Ip) (port : UInt16) (services : UInt32) (claimedSeen : UInt64)
    (sourceGroup : Group) (nowUnix : UInt64) (allowLocal : Bool)
  | restore (recs : List PeerRec) (nowUnix : UInt64) (allowLocal : Bool) (rng : Rng)
  | reapExpired (nowUnix : UInt64)
  | onHandshakeOk (ip : Ip) (port : UInt16) (services : UInt32)
  | onFailure (ip : Ip) (port : UInt16) (protocol : Bool)
  | noteAttempt (ip : Ip) (port : UInt16) (now : Mono)
  | markForeign (ip : Ip) (port : UInt16) (now : Mono)
  | clear

namespace AddrMan

/-- The book after a call. -/
def apply (m : AddrMan) : AddrOp → AddrMan
  | .add ip port fromSeed lastSeen => (m.add ip port fromSeed lastSeen).1
  | .addFromPeer ip port services claimedSeen sourceGroup nowUnix allowLocal =>
    (m.addFromPeer ip port services claimedSeen sourceGroup nowUnix allowLocal).1
  | .restore recs nowUnix allowLocal rng => (m.restore recs nowUnix allowLocal rng).1
  | .reapExpired nowUnix => (m.reapExpired nowUnix).1
  | .onHandshakeOk ip port services => m.onHandshakeOk ip port services
  | .onFailure ip port protocol => (m.onFailure ip port protocol).1
  | .noteAttempt ip port now => m.noteAttempt ip port now
  | .markForeign ip port now => m.markForeign ip port now
  | .clear => new

/-- The book after calls. -/
def run (m : AddrMan) (ops : List AddrOp) : AddrMan := ops.foldl apply m

@[simp] theorem update_entries (m : AddrMan) (i : Nat) (f : AddrEntry → AddrEntry) :
    (m.update i f).entries = m.entries.modify i f := rfl

@[simp] theorem update_index (m : AddrMan) (i : Nat) (f : AddrEntry → AddrEntry) :
    (m.update i f).index = m.index := rfl

@[simp] theorem update_newBySource (m : AddrMan) (i : Nat) (f : AddrEntry → AddrEntry) :
    (m.update i f).newBySource = m.newBySource := rfl

@[simp] theorem update_nNew (m : AddrMan) (i : Nat) (f : AddrEntry → AddrEntry) :
    (m.update i f).nNew = m.nNew := rfl

@[simp] theorem update_nTried (m : AddrMan) (i : Nat) (f : AddrEntry → AddrEntry) :
    (m.update i f).nTried = m.nTried := rfl

@[simp] theorem noteRemoved_entries (m : AddrMan) (e : AddrEntry) :
    (m.noteRemoved e).entries = m.entries := by
  unfold noteRemoved
  cases e.table <;> rfl

@[simp] theorem noteRemoved_index (m : AddrMan) (e : AddrEntry) :
    (m.noteRemoved e).index = m.index.erase e.key := by
  unfold noteRemoved
  cases e.table <;> rfl

/-! ## The index and the counts -/

/-- The index has the positions of the entries, and the counts count them. -/
structure Consistent (m : AddrMan) : Prop where
  index : Indexes AddrEntry.key m.entries m.index
  nNew : m.nNew = m.entries.countP (·.table = .new)
  nTried : m.nTried = m.entries.countP (·.table = .tried)
  sources : Tallies (fun g ↦ m.entries.countP (AddrEntry.NewFrom g ·)) m.newBySource

namespace Consistent

variable {m : AddrMan} {i : Nat} {e : AddrEntry} {f : AddrEntry → AddrEntry}

theorem empty : Consistent new where
  index := .empty
  nNew := rfl
  nTried := rfl
  sources := .empty

/-- Fields are assigned that nothing is indexed or counted by. -/
theorem update (h : Consistent m) (hkey : ∀ e, (f e).key = e.key)
    (htable : ∀ e, (f e).table = e.table) (hgroup : ∀ e, (f e).sourceGroup = e.sourceGroup) :
    Consistent (m.update i f) where
  index := h.index.modify hkey
  nNew := h.nNew.trans (List.countP_modify_of_eq _ fun e ↦ by rw [htable]).symm
  nTried := h.nTried.trans (List.countP_modify_of_eq _ fun e ↦ by rw [htable]).symm
  sources := h.sources.congr fun g ↦ List.countP_modify_of_eq _ fun e ↦ decide_eq_decide.mpr
    (by rw [AddrEntry.NewFrom, AddrEntry.NewFrom, htable, hgroup])

theorem push (h : Consistent m) (hnew : m.index.lookup e.key = none) : Consistent (m.push e) := by
  have hindex := h.index.push hnew
  have hcount : ∀ p : AddrEntry → Bool,
      (m.entries ++ [e]).countP p = m.entries.countP p + if p e then 1 else 0 := fun p ↦ by
    rw [List.countP_append, List.countP_singleton]
  unfold AddrMan.push noteAdded
  cases htable : e.table with
  | new =>
    refine ⟨hindex, ?_, ?_, h.sources.bump fun g ↦ ?_⟩
    · simp [hcount, htable, h.nNew]
    · simp [hcount, htable, h.nTried]
    · simp [hcount, AddrEntry.NewFrom, htable, eq_comm]
  | tried =>
    refine ⟨hindex, ?_, ?_, h.sources.congr fun g ↦ ?_⟩
    · simp [hcount, htable, h.nNew]
    · simp [hcount, htable, h.nTried]
    · simp [hcount, AddrEntry.NewFrom, htable]

/-- Whether or not an entry takes the place of the one removed, the rest of the book is as after
`note_removed`. -/
theorem removeAt_eq (he : m.entries[i]? = some e) : m.removeAt i =
    { ({ m with entries := m.entries.swapRemove i }.noteRemoved e) with
      index := reindex AddrEntry.key m.entries m.index e.key i } := by
  unfold AddrMan.removeAt
  rw [he]
  dsimp only
  rw [noteRemoved_entries, noteRemoved_index, reindex]
  cases (m.entries.swapRemove i)[i]? with
  | none =>
    unfold noteRemoved
    cases e.table <;> rfl
  | some moved => rfl

theorem removeAt (h : Consistent m) (i : Nat) : Consistent (m.removeAt i) := by
  cases he : m.entries[i]? with
  | none =>
    rw [AddrMan.removeAt, he]
    exact h
  | some e =>
    have hindex := h.index.swapRemove he
    have hcount := fun p ↦ List.countP_swapRemove p he
    have hnew := hcount (·.table = .new)
    have htried := hcount (·.table = .tried)
    rw [removeAt_eq he]
    unfold noteRemoved
    cases htable : e.table with
    | new =>
      refine ⟨hindex, ?_, ?_, h.sources.unbump fun g ↦ ?_⟩
      · simpa [htable, h.nNew] using Nat.sub_eq_of_eq_add hnew
      · simpa [htable, h.nTried] using htried
      · simpa [AddrEntry.NewFrom, htable, eq_comm] using hcount (AddrEntry.NewFrom g ·)
    | tried =>
      refine ⟨hindex, ?_, ?_, h.sources.congr fun g ↦ ?_⟩
      · simpa [htable, h.nNew] using hnew
      · simpa [htable, h.nTried] using Nat.sub_eq_of_eq_add htried
      · simpa [AddrEntry.NewFrom, htable] using (hcount (AddrEntry.NewFrom g ·)).symm

theorem setTable (h : Consistent m) (i : Nat) (t : Table) : Consistent (m.setTable i t) := by
  unfold AddrMan.setTable
  cases he : m.entries[i]? with
  | none => exact h
  | some e =>
    have hindex : ∀ t, Indexes AddrEntry.key (m.entries.modify i fun e ↦ { e with table := t })
        m.index := fun t ↦ h.index.modify fun _ ↦ rfl
    have hcount : ∀ t p, (m.entries.modify i fun e ↦ { e with table := t }).countP p +
        (if p e then 1 else 0) = m.entries.countP p + if p { e with table := t } then 1 else 0 :=
      fun t p ↦ List.countP_modify p he
    dsimp only
    split
    case isTrue => exact h
    case isFalse hne =>
    cases t with
    | new =>
      have htable : e.table = .tried := by
        cases ht : e.table with
        | new => exact absurd ht hne
        | tried => rfl
      have hnew := hcount .new (·.table = .new)
      have htried := hcount .new (·.table = .tried)
      refine ⟨hindex _, ?_, ?_, h.sources.bump fun g ↦ ?_⟩
      · simpa [htable, h.nNew] using hnew.symm
      · simpa [htable, h.nTried] using Nat.sub_eq_of_eq_add htried.symm
      · simpa [AddrEntry.NewFrom, htable, eq_comm] using hcount .new (AddrEntry.NewFrom g ·)
    | tried =>
      have htable : e.table = .new := by
        cases ht : e.table with
        | new => rfl
        | tried => exact absurd ht hne
      have hnew := hcount .tried (·.table = .new)
      have htried := hcount .tried (·.table = .tried)
      refine ⟨hindex _, ?_, ?_, h.sources.unbump fun g ↦ ?_⟩
      · simpa [htable, h.nNew] using Nat.sub_eq_of_eq_add hnew.symm
      · simpa [htable, h.nTried] using htried.symm
      · simpa [AddrEntry.NewFrom, htable, eq_comm] using (hcount .tried (AddrEntry.NewFrom g ·)).symm

/-- An address that is not in the book is at no position of it. -/
theorem lookup_removeAt (h : Consistent m) {k : Ip × UInt16} (hk : m.index.lookup k = none) :
    (m.removeAt i).index.lookup k = none := by
  rw [(h.removeAt i).index.lookup_eq_none]
  intro e he
  refine h.index.lookup_eq_none.mp hk e ?_
  cases hi : m.entries[i]? with
  | none => rwa [AddrMan.removeAt, hi] at he
  | some a =>
    rw [removeAt_eq hi] at he
    exact (List.perm_swapRemove hi).mem_iff.mpr (List.mem_cons_of_mem _ (by simpa using he))

end Consistent

variable {m m' : AddrMan} {i : Nat} {e : AddrEntry} {f : AddrEntry → AddrEntry} {load : Prop}

/-- An assignment to fields that nothing is indexed or counted by. -/
structure Touches (f : AddrEntry → AddrEntry) : Prop where
  key (e : AddrEntry) : (f e).key = e.key
  table (e : AddrEntry) : (f e).table = e.table
  sourceGroup (e : AddrEntry) : (f e).sourceGroup = e.sourceGroup

/-- A group may have one more of the new addresses. -/
def Spare (m : AddrMan) (g : Group) : Prop :=
  g = Arr.zero 4 ∨ m.countNewFrom g < addrPerSourceGroupMax

/-- What the calls do to the book that demote no entry; tried ones are pushed by a `load` only. -/
inductive Move (load : Prop) (m : AddrMan) : AddrMan → Prop where
  | touch (i : Nat) (f : AddrEntry → AddrEntry) (hf : Touches f) : Move load m (m.update i f)
  | remove (i : Nat) : Move load m (m.removeAt i)
  | promote (i : Nat) (services : UInt32) (hroom : (m.promote i services).nTried ≤ addrTriedMax) :
    Move load m (m.promote i services)
  | pushNew (e : AddrEntry) (habsent : m.index.lookup e.key = none) (htable : e.table = .new)
    (hroom : m.nNew < addrNewMax) (hspare : m.Spare e.sourceGroup) : Move load m (m.push e)
  | pushTried (e : AddrEntry) (hload : load) (habsent : m.index.lookup e.key = none)
    (htable : e.table = .tried) (hroom : m.nTried < addrTriedMax) : Move load m (m.push e)
  | replace (i : Nat) (old e : AddrEntry) (hold : m.entries[i]? = some old)
    (hnew : old.table = .new) (habsent : m.index.lookup e.key = none) (htable : e.table = .new)
    (hgroup : e.sourceGroup = Arr.zero 4) (hfull : addrNewMax ≤ m.nNew) :
    Move load m ((m.removeAt i).push e)

/-- Any number of moves. -/
abbrev Moves (load : Prop) : AddrMan → AddrMan → Prop := Relation.ReflTransGen (Move load)

theorem Consistent.touch (h : Consistent m) (hf : Touches f) : Consistent (m.update i f) :=
  h.update hf.key hf.table hf.sourceGroup

theorem Consistent.promote (h : Consistent m) (i : Nat) (services : UInt32) :
    Consistent (m.promote i services) :=
  (h.setTable i .tried).touch ⟨fun _ ↦ rfl, fun _ ↦ rfl, fun _ ↦ rfl⟩

theorem Consistent.demote (h : Consistent m) (hf : Touches f) : Consistent (m.demote i f) :=
  (h.setTable i .new).touch hf

theorem Consistent.move (h : Consistent m) (hm : Move load m m') : Consistent m' := by
  cases hm with
  | touch i f hf => exact h.touch hf
  | remove i => exact h.removeAt i
  | promote i services => exact h.promote i services
  | pushNew e habsent => exact h.push habsent
  | pushTried e _ habsent => exact h.push habsent
  | replace i old e _ _ habsent => exact (h.removeAt i).push (h.lookup_removeAt habsent)

theorem Consistent.moves (h : Consistent m) (hm : Moves load m m') : Consistent m' := by
  induction hm with
  | refl => exact h
  | tail _ hm ih => exact ih.move hm

/-! ## What the calls do -/

/-- With new entries there, one of them is evicted. -/
theorem evictOneNew_eq (h : Consistent m) (hpos : 0 < m.nNew) :
    ∃ i old, m.entries[i]? = some old ∧ old.table = .new ∧ m.evictOneNew = m.removeAt i := by
  unfold evictOneNew
  dsimp only
  split
  case h_1 x i hmax =>
    obtain ⟨hmem, htable⟩ := List.mem_filter.mp (List.argmax_mem hmax)
    exact ⟨i, x, List.mk_mem_zipIdx_iff_getElem?.mp hmem, by simpa using htable, rfl⟩
  case h_2 hmax =>
    rw [List.argmax_eq_none, List.filter_eq_nil_iff] at hmax
    rw [h.nNew, List.countP_pos_iff] at hpos
    obtain ⟨e, he, htable⟩ := hpos
    obtain ⟨i, hi⟩ := List.getElem?_of_mem he
    exact absurd htable (hmax (e, i) (List.mk_mem_zipIdx_iff_getElem?.mpr hi))

theorem moves_add (h : Consistent m) (ip : Ip) (port : UInt16) (fromSeed : Bool)
    (lastSeen : UInt64) : Moves load m (m.add ip port fromSeed lastSeen).1 := by
  unfold add
  split
  case h_1 i _ => exact .single (.touch i _ ⟨fun _ ↦ rfl, fun _ ↦ rfl, fun _ ↦ rfl⟩)
  case h_2 habsent =>
    dsimp only
    split
    case isTrue hfull =>
      obtain ⟨i, old, hold, hnew, hevict⟩ := evictOneNew_eq h (Nat.lt_of_lt_of_le (by decide) hfull)
      rw [hevict]
      exact .single (.replace i old _ hold hnew habsent rfl rfl hfull)
    case isFalse hroom =>
      exact .single (.pushNew _ habsent rfl (Nat.lt_of_not_le hroom) (.inl rfl))

theorem moves_addFromPeer (ip : Ip) (port : UInt16) (services : UInt32) (claimedSeen : UInt64)
    (sourceGroup : Group) (nowUnix : UInt64) (allowLocal : Bool) :
    Moves load m (m.addFromPeer ip port services claimedSeen sourceGroup nowUnix allowLocal).1 := by
  unfold addFromPeer
  dsimp only
  split
  · exact .refl
  split
  · exact .refl
  split
  case h_1 i _ => exact .single (.touch i _ ⟨fun _ ↦ rfl, fun _ ↦ rfl, fun _ ↦ rfl⟩)
  case h_2 habsent =>
    split
    case isTrue => exact .refl
    case isFalse hspare =>
    split
    case isTrue => exact .refl
    case isFalse hroom =>
    refine .single ?_
    dsimp only
    exact .pushNew _ habsent rfl (Nat.lt_of_not_le hroom) (.inr (Nat.lt_of_not_le hspare))

theorem moves_restoreOne (nowUnix : UInt64) (allowLocal : Bool) (s : AddrMan × RestoreStats)
    (r : PeerRec) : Moves True s.1 (restoreOne nowUnix allowLocal s r).1 := by
  unfold restoreOne
  dsimp only
  split
  · exact .refl
  split
  · exact .refl
  split
  · exact .refl
  case isFalse habsent =>
  rw [Bool.not_eq_true, Option.isSome_eq_false_iff, Option.isNone_iff_eq_none] at habsent
  split
  · exact .refl
  case isFalse htried =>
  split
  · exact .refl
  case isFalse hspare =>
  split
  · exact .refl
  case isFalse hroom =>
  refine .single ?_
  dsimp only
  cases htable : r.table with
  | new =>
    exact .pushNew _ habsent rfl (Nat.lt_of_not_le fun h ↦ hroom ⟨htable, h⟩)
      (.inr (Nat.lt_of_not_le fun h ↦ hspare ⟨htable, h⟩))
  | tried => exact .pushTried _ trivial habsent rfl (Nat.lt_of_not_le fun h ↦ htried ⟨htable, h⟩)

theorem moves_restore (recs : List PeerRec) (nowUnix : UInt64) (allowLocal : Bool) (rng : Rng) :
    Moves True m (m.restore recs nowUnix allowLocal rng).1 := by
  unfold restore
  dsimp only
  generalize (shuffle (recs.length - 1) recs rng).1 = order
  generalize RestoreStats.mk 0 0 0 0 0 0 = st
  induction order generalizing m st with
  | nil => exact .refl
  | cons r order ih =>
    rw [List.foldl_cons]
    exact (moves_restoreOne nowUnix allowLocal (m, st) r).trans (ih _)

theorem moves_reapExpired (nowUnix : UInt64) : Moves load m (m.reapExpired nowUnix).1 := by
  have hloop : ∀ n i m gone, Moves load m (reapFrom nowUnix n i m gone).1 := by
    intro n
    induction n with
    | zero => exact fun _ _ _ ↦ .refl
    | succ n ih =>
      intro i m gone
      unfold reapFrom
      split
      · exact .refl
      split
      · exact .head (.remove i) (ih _ _ _)
      · exact ih _ _ _
  exact hloop _ _ _ _


end AddrMan

end Plaine.P2p

import Plaine.Chain.Types
import Mathlib.Data.List.AList
import Mathlib.Data.List.Sort

/-!
# The mempool

`mempool.rs`.  Transactions are kept by id, and the ids of a sender's transactions by nonce.
A transaction is executable when its nonce continues the run from the account's next; the
others wait for the gap to fill.

What is only reported to the observer is left out.  A tie that the source leaves to the order of
a hash table does not change the outcome, except for the source that `Ingress::admit` evicts; the
first one is taken here.
-/

namespace Plaine.Chain

open Plaine.Lib Plaine.Consensus

/-- `PoolTx`. -/
structure PoolTx where
  txid : Hash32
  sender : Address
  nonce : Nat
  fee : Nat
  amount : Nat
  bytes : Bytes
  arrived : Nat
  sigVerified : Bool
  executable : Bool
deriving DecidableEq

/-- `PoolTx::fee_per_byte`. -/
def PoolTx.feePerByte (t : PoolTx) : Nat := t.fee / max t.bytes.length 1

/-- What the transaction takes from its sender. -/
def PoolTx.outlay (t : PoolTx) : Nat := saturatingAdd u128Max t.amount t.fee

/-- `BTreeMap<u64, Hash32>`: the ids of a sender's transactions, by ascending nonce. -/
abbrev Slots := List (Nat × Hash32)

namespace Slots

def get (m : Slots) (nonce : Nat) : Option Hash32 := (m.find? (·.1 = nonce)).map (·.2)

def remove (m : Slots) (nonce : Nat) : Slots := m.filter (·.1 ≠ nonce)

def insert (m : Slots) (nonce : Nat) (id : Hash32) : Slots :=
  (m.remove nonce).orderedInsert (fun a b ↦ a.1 ≤ b.1) (nonce, id)

end Slots

/-- `Mempool`. -/
structure Mempool where
  params : MempoolParams
  txs : AList fun _ : Hash32 ↦ PoolTx
  bySender : AList fun _ : Address ↦ Slots
  nextNonce : AList fun _ : Address ↦ Nat
  arrival : List Hash32
  totalBytes : Nat

/-- `Prepared`. -/
structure Prepared where
  raw : Bytes
  tx : Tx
  txid : Hash32
  sender : Address
  nonce : Nat
  fee : Nat
  amount : Nat
  next : Nat
  replaces : Option Hash32
deriving DecidableEq

/-- The pool entry of a prepared transaction. -/
def Prepared.poolTx (q : Prepared) (now : Nat) : PoolTx :=
  ⟨q.txid, q.sender, q.nonce, q.fee, q.amount, q.raw, now, true, false⟩

/-- `Admitted`. -/
structure Admitted where
  txid : Hash32
  executable : Bool
  promoted : List Hash32
  removed : List Hash32
deriving DecidableEq

/-- `AuthorRule`. -/
inductive AuthorRule where
  | enforce (key : Arr 32)
  | alreadyHeld
deriving DecidableEq

namespace Mempool

/-- `Mempool::new`. -/
def new (params : MempoolParams) : Mempool := ⟨params, ∅, ∅, ∅, [], 0⟩

variable (p : Mempool)

/-- The pooled transactions. -/
def values : List PoolTx := p.txs.entries.map (·.2)

/-- The slots of a sender, none if it has none. -/
def slotsOf (sender : Address) : Slots := (p.bySender.lookup sender).getD []

/-- `Mempool::sender_txs`. -/
def senderTxs (sender : Address) : List PoolTx :=
  (p.slotsOf sender).filterMap fun s ↦ p.txs.lookup s.2

/-- `Mempool::sender_len`. -/
def senderLen (sender : Address) : Nat := (p.slotsOf sender).length

/-- `Mempool::pending_outlay`. -/
def pendingOutlay (sender : Address) : Nat :=
  ((p.senderTxs sender).map PoolTx.outlay).foldl (saturatingAdd u128Max) 0

/-! ## The tables -/

/-- `Mempool::insert`. -/
def insert (t : PoolTx) : Mempool :=
  { p with
    totalBytes := p.totalBytes + t.bytes.length
    arrival := p.arrival ++ [t.txid]
    bySender := p.bySender.insert t.sender ((p.slotsOf t.sender).insert t.nonce t.txid)
    txs := p.txs.insert t.txid t }

/-- The table of slots with a transaction's taken out. -/
def freeSlot (t : PoolTx) : Mempool :=
  match p.bySender.lookup t.sender with
  | none => p
  | some m =>
    if m.remove t.nonce = [] then
      { p with
        bySender := p.bySender.erase t.sender
        nextNonce := p.nextNonce.erase t.sender }
    else { p with bySender := p.bySender.insert t.sender (m.remove t.nonce) }

/-- `Mempool::remove`. -/
def remove (id : Hash32) : Option PoolTx × Mempool :=
  match p.txs.lookup id with
  | none => (none, p)
  | some t =>
    let q := { p with
      txs := p.txs.erase id
      totalBytes := p.totalBytes - t.bytes.length }.freeSlot t
    (some t, { q with arrival := q.arrival.filter (· ≠ id) })

/-- Remove transactions one after the other. -/
def removeAll (ids : List Hash32) : Mempool := ids.foldl (fun p id ↦ (p.remove id).2) p

/-- `Mempool::drop_below_nonce`. -/
def dropBelowNonce (sender : Address) (next : Nat) : Mempool :=
  p.removeAll (((p.slotsOf sender).filter (·.1 < next)).map (·.2))

/-- The loop of `resplit`: which of the slots are executable from `want` on, and the ids
that become so. -/
def resplitLoop : Slots → Nat → (AList fun _ : Hash32 ↦ PoolTx) →
    List Hash32 × AList fun _ : Hash32 ↦ PoolTx
  | [], _, txs => ([], txs)
  | (n, id) :: m, want, txs =>
    let exec : Bool := n = want
    match txs.lookup id with
    -- `expect` in the source: the two tables agree.
    | none => resplitLoop m (if exec then want + 1 else want) txs
    | some t =>
      let (promoted, txs) := resplitLoop m (if exec then want + 1 else want)
        (txs.insert id { t with executable := exec })
      (if exec ∧ ¬t.executable then id :: promoted else promoted, txs)

/-- `Mempool::resplit`. -/
def resplit (sender : Address) (next : Nat) : List Hash32 × Mempool :=
  let (promoted, txs) := resplitLoop (p.slotsOf sender) next p.txs
  (promoted, { p with txs })

/-- Bring a sender up to its account's next nonce. -/
def settle (sender : Address) (next : Nat) : Mempool :=
  (({ p with nextNonce := p.nextNonce.insert sender next }.dropBelowNonce sender next).resplit
    sender next).2

/-- The transactions `sweep_expired` drops. -/
def expired (now : Nat) : List PoolTx := p.values.filter fun t ↦ p.params.ttlSecs < now - t.arrived

/-- `Mempool::sweep_expired`. -/
def sweepExpired (now : Nat) : Mempool :=
  let dead := p.expired now
  let q := p.removeAll (dead.map (·.txid))
  (dead.map (·.sender)).dedup.foldl
    (fun q s ↦ (q.resplit s ((q.nextNonce.lookup s).getD 0)).2) q

/-- `Mempool::eviction_candidate`: a queued transaction before an executable one, and of a
sender the tail, never the head. -/
def evictionCandidate : Option Hash32 :=
  let worst (cmp : PoolTx → PoolTx → Bool) (l : List PoolTx) : Option PoolTx :=
    l.foldl (fun best t ↦ match best with
      | none => some t
      | some b => if cmp t b then some t else some b) none
  let queued := worst (fun a b ↦ a.feePerByte < b.feePerByte ∨ (a.feePerByte = b.feePerByte ∧
    (b.arrived < a.arrived ∨ (a.arrived = b.arrived ∧ b.txid < a.txid))))
    (p.values.filter (!·.executable))
  match queued with
  | some t => some t.txid
  | none => do
    let head ← worst (fun a b ↦ a.feePerByte < b.feePerByte ∨
      (a.feePerByte = b.feePerByte ∧ a.sender < b.sender)) (p.values.filter (·.executable))
    ((p.slotsOf head.sender).getLast?).map (·.2)

section

variable [Crypto]

/-! ## Admission -/

/-- Sender key, nonce, fee, amount and id of a transaction that can be relayed. -/
def partsOf : Tx → Except Reject (Arr 32 × Nat × Nat × Nat × Hash32)
  | .transfer t => .ok (t.fromPub, t.nonce.toNat, t.fee.toNat, t.amount.toNat, t.txid)
  | .announcement a => do
    let txid ← a.txid.mapError fun _ ↦ .txDecode
    return (a.fromPub, a.nonce.toNat, a.fee.toNat, 0, txid)
  | .coinbase _ => .error (.txTypeNotRelayable txTypeCoinbase)

/-- The check of the author's key, made on announcements from the network. -/
def checkAuthor (author : AuthorRule) : Tx → Except Reject Unit
  | .announcement a =>
    match author with
    | .enforce key => Except.require (a.fromPub = key) (.tx 0 .notAuthorKey)
    | .alreadyHeld => .ok ()
  | _ => .ok ()

/-- The replacement rule of `check`: a quarter more than the fee displaced, at least one more. -/
def checkReplacement (fee : Nat) (old : PoolTx) : Except Reject Unit := do
  let need ← Except.ofOption .arithmeticOverflow
    (checkedAdd u128Max old.fee (max (old.fee / 4) 1))
  Except.require (need ≤ fee) (.replacementUnderpriced need fee)

/-- `Mempool::check`.  `lookup` returns an account and what of it is spendable. -/
def check (raw : Bytes) (author : AuthorRule) (lookup : Address → Account × Nat) :
    Except Reject Prepared := do
  Except.require (raw.length ≤ maxTxBytes) (.txTooLarge raw.length)
  let typeByte ← Except.ofOption .txDecode raw.head?
  Except.require (typeByte ≠ txTypeCoinbase) (.txTypeNotRelayable typeByte)
  let tx ← (decodeTx raw).mapError fun _ ↦ .txDecode
  let (senderPub, nonce, fee, amount, txid) ← partsOf tx
  let sender := addressPayload senderPub
  checkAuthor author tx
  Except.require (feeFloorMile ≤ fee) (.belowRelayFloor fee feeFloorMile)
  Except.require (p.params.relayFeeFloor ≤ fee) (.belowRelayFloor fee p.params.relayFeeFloor)
  Except.require ((p.txs.lookup txid).isNone) .txKnown
  let (acct, spendable) := lookup sender
  let next := acct.nonce
  Except.require (next ≤ nonce) (.txStale next nonce)
  Except.require (nonce ≤ saturatingAdd u64Max next p.params.maxNonceGap)
    (.nonceGapTooLarge next nonce)
  let replaces := (p.slotsOf sender).get nonce
  let old := replaces.bind fun id ↦ p.txs.lookup id
  old.elim (.ok ()) (checkReplacement fee)
  let outlay ← Except.ofOption .arithmeticOverflow (checkedAdd u128Max amount fee)
  let pending := p.pendingOutlay sender - (old.map PoolTx.outlay).getD 0
  let total ← Except.ofOption .arithmeticOverflow (checkedAdd u128Max pending outlay)
  Except.require (total ≤ spendable) (.insufficientBalance 0 total spendable)
  let held := p.senderLen sender - if replaces.isSome then 1 else 0
  Except.require (held < p.params.effectivePerSender) (.senderCap p.params.effectivePerSender)
  return { raw, tx, txid, sender, nonce, fee, amount, next, replaces }

/-- `SigProof::verify`. -/
def verifySig (network : Network) (authorPubkey : Arr 32) : Tx → Except Reject Unit
  | .transfer t => (verifyTransferSignature network t).mapError fun _ ↦ .badTransferSignature 0
  | .announcement a => (checkAnnouncementStateless network a authorPubkey).mapError
      fun err ↦ .tx 0 err
  | .coinbase _ => .error (.txTypeNotRelayable txTypeCoinbase)

end

/-- The eviction loop of `commit`: make room for `len` bytes paying `fpb` a byte, and the ids
evicted for it; `none` when the newcomer is refused. -/
def makeRoom (fpb len : Nat) : Nat → Mempool → List Hash32 → Mempool × Option (List Hash32)
  | 0, p, _ => (p, none)
  | fuel + 1, p, removed =>
    if p.params.maxTxs ≤ p.txs.keys.length ∨ p.params.maxBytes < p.totalBytes + len then
      match p.evictionCandidate.bind fun v ↦ p.txs.lookup v with
      | none => (p, none)
      | some victim =>
        if fpb < victim.feePerByte then (p, none)
        else makeRoom fpb len fuel (p.remove victim.txid).2 (removed ++ [victim.txid])
    else (p, some removed)

/-- `Mempool::commit`.  A transaction displaced for nothing is put back. -/
def commit (q : Prepared) (now : Nat) : Except Reject Admitted × Mempool :=
  let p := p.sweepExpired now
  let (displaced, p) := match q.replaces with
    | some old => p.remove old
    | none => (none, p)
  let fpb := q.fee / max q.raw.length 1
  match makeRoom fpb q.raw.length (p.txs.keys.length + 1) p [] with
  | (p, none) =>
    match displaced with
    | some old => (.error .poolFull, ((p.insert old).resplit q.sender q.next).2)
    | none => (.error .poolFull, p)
  | (p, some evicted) =>
    let p := { p with nextNonce := p.nextNonce.insert q.sender q.next }.insert (q.poolTx now)
    let (promoted, p) := p.resplit q.sender q.next
    (.ok {
      txid := q.txid
      executable := ((p.txs.lookup q.txid).map (·.executable)).getD false
      promoted := promoted.filter (· ≠ q.txid)
      removed := q.replaces.toList ++ evicted }, p)

section

variable [Crypto]

/-- `Mempool::submit`, of a transaction whose signature a block's validation has proved. -/
def submit (raw : Bytes) (acct : Account) (spendable now : Nat) :
    Except Reject Admitted × Mempool :=
  match p.check raw .alreadyHeld fun _ ↦ (acct, spendable) with
  | .error e => (.error e, p)
  | .ok q => p.commit q now

/-- `Mempool::submit_verified`. -/
def submitVerified (network : Network) (raw : Bytes) (lookup : Address → Account × Nat)
    (now : Nat) (authorPubkey : Arr 32) : Except Reject Admitted × Mempool :=
  match p.check raw (.enforce authorPubkey) lookup with
  | .error e => (.error e, p)
  | .ok q =>
    match verifySig network authorPubkey q.tx with
    | .error e => (.error e, p)
    | .ok () => p.commit q now

end

/-! ## Following the chain -/

/-- `Mempool::on_block_connected`. -/
def onBlockConnected (spent : List (Address × Nat)) (account : Address → Account) : Mempool :=
  let p := spent.foldl (fun p sn ↦
    match (p.slotsOf sn.1).get sn.2 with
    | some id => (p.remove id).2
    | none => p) p
  (spent.map (·.1)).dedup.foldl (fun p s ↦ p.settle s (account s).nonce) p

/-- `Mempool::resplit_all`. -/
def resplitAll (account : Address → Account) : Mempool :=
  p.bySender.keys.foldl (fun p s ↦ p.settle s (account s).nonce) p

section

variable [Crypto]

/-- The address a transaction is sent from, for any but a coinbase. -/
def senderOf : Tx → Option Address
  | .transfer t => some (addressPayload t.fromPub)
  | .announcement a => some (addressPayload a.fromPub)
  | .coinbase _ => none

/-- One round of `on_reorg_reinject`; `taken` counts what was admitted. -/
def reinject (lookup : Address → Account × Nat) (now : Nat) (acc : Nat × Mempool) (raw : Bytes) :
    Nat × Mempool :=
  if acc.2.params.reorgReinjectCap ≤ acc.1 then acc
  else
    match decodeTx raw with
    | .error _ => acc
    | .ok tx =>
      match senderOf tx with
      | none => acc
      | some sender =>
        let (acct, spendable) := lookup sender
        match acc.2.submit raw acct spendable now with
        | (.ok _, p) => (acc.1 + 1, p)
        | (.error _, p) => (acc.1, p)

/-- `Mempool::on_reorg_reinject`: the newest disconnected blocks first. -/
def onReorgReinject (disconnected : List (Nat × List Bytes)) (now : Nat)
    (lookup : Address → Account × Nat) : Mempool :=
  let ordered := disconnected.insertionSort fun a b ↦ b.1 ≤ a.1
  ((ordered.flatMap (·.2)).foldl (reinject lookup now) (0, p)).2

end

/-! ## Templates -/

/-- The executable transactions of a sender, by nonce. -/
def chainOf (sender : Address) : List PoolTx :=
  (p.values.filter fun t ↦ t.executable ∧ t.sender = sender).insertionSort
    fun a b ↦ a.nonce ≤ b.nonce

/-- The chains of `template`, the best paying head first. -/
def chains : List (List PoolTx) :=
  let fpb (c : List PoolTx) : Nat := (c.head?.map PoolTx.feePerByte).getD 0
  ((((p.values.filter (·.executable)).map (·.sender)).dedup.insertionSort
    fun a b ↦ ¬b < a).map p.chainOf).insertionSort fun a b ↦ fpb b ≤ fpb a

/-- The loop of `template`: take transactions until one does not fit. -/
def takeFitting (maxTxs maxBytes : Nat) : Nat → Nat → List PoolTx → List PoolTx
  | _, _, [] => []
  | count, bytes, t :: l =>
    if maxTxs ≤ count ∨ maxBytes < bytes + t.bytes.length then []
    else t :: takeFitting maxTxs maxBytes (count + 1) (bytes + t.bytes.length) l

/-- `Mempool::template`, the transactions. -/
def selected (maxTxs maxBytes : Nat) : List PoolTx :=
  takeFitting maxTxs maxBytes 0 0 p.chains.flatten

/-- `Mempool::template`. -/
def template (maxTxs maxBytes : Nat) : List Bytes := (p.selected maxTxs maxBytes).map (·.bytes)

end Mempool

/-! ## Ingress -/

/-- `IngressSource`. -/
structure IngressSource where
  own : Nat
  ownLastMs : Nat
  reserve : Nat
  reserveLastMs : Nat
  primed : Bool
deriving DecidableEq

/-- `IngressSource::refill`. -/
def IngressSource.refill (s : IngressSource) (params : ChainParams) (monoMs : Nat) :
    IngressSource :=
  let mp := params.mempool
  if ¬s.primed then
    ⟨mp.ingressSourceBurstMilli, monoMs, mp.ingressReserveBurstMilli, monoMs, true⟩
  else
    let gain := saturatingMul (monoMs - s.ownLastMs) mp.ingressSourceRateMilli / 1000
    let s := if 0 < gain then
      { s with
        own := min (saturatingAdd u64Max s.own gain) mp.ingressSourceBurstMilli
        ownLastMs := monoMs }
      else s
    let gain := saturatingMul (monoMs - s.reserveLastMs)
      (mp.ingressReserveRateMilli params.maxPeers) / 1000
    if 0 < gain then
      { s with
        reserve := min (saturatingAdd u64Max s.reserve gain) mp.ingressReserveBurstMilli
        reserveLastMs := monoMs }
    else s

/-- `Ingress`. -/
structure Ingress where
  sources : AList fun _ : SourceId ↦ IngressSource
  shared : Nat
  sharedLastMs : Nat
  primed : Bool

namespace Ingress

/-- `Ingress::new`. -/
def new : Ingress := ⟨∅, 0, 0, false⟩

/-- The state of a source, the default one if there is none. -/
def source (g : Ingress) (id : SourceId) : IngressSource :=
  (g.sources.lookup id).getD ⟨0, 0, 0, 0, false⟩

/-- `Ingress::forget`. -/
def forget (g : Ingress) (id : SourceId) : Ingress := { g with sources := g.sources.erase id }

/-- The refill of the shared pool in `admit`. -/
def refillShared (g : Ingress) (params : ChainParams) (monoMs : Nat) : Ingress :=
  let mp := params.mempool
  if ¬g.primed then
    { g with primed := true, shared := mp.ingressSharedBurstMilli, sharedLastMs := monoMs }
  else
    let gain := saturatingMul (monoMs - g.sharedLastMs) mp.ingressSharedRateMilli / 1000
    if 0 < gain then
      { g with
        shared := min (saturatingAdd u64Max g.shared gain) mp.ingressSharedBurstMilli
        sharedLastMs := monoMs }
    else g

/-- The eviction scan of `admit` refills every source it looks at. -/
def refillAll (g : Ingress) (params : ChainParams) (monoMs : Nat) : Ingress :=
  let sources := g.sources.keys.foldl
    (fun m id ↦ m.insert id ((g.source id).refill params monoMs)) g.sources
  { g with sources }

/-- A source `admit` may evict: one whose budgets are full. -/
def victim (g : Ingress) (params : ChainParams) : Option SourceId :=
  g.sources.keys.find? fun id ↦
    params.mempool.ingressSourceBurstMilli ≤ (g.source id).own ∧
      params.mempool.ingressReserveBurstMilli ≤ (g.source id).reserve

/-- The charge of `admit`: the shared pool first, then the source's reserve. -/
def charge (g : Ingress) (id : SourceId) (params : ChainParams) (monoMs : Nat) :
    Except Reject Unit × Ingress :=
  let s := (g.source id).refill params monoMs
  let put (g : Ingress) (s : IngressSource) : Ingress :=
    { g with sources := g.sources.insert id s }
  if s.own < txCostMilli then (.error (.budgetExhausted id), put g s)
  else if txCostMilli ≤ g.shared then
    (.ok (), put { g with shared := g.shared - txCostMilli } { s with own := s.own - txCostMilli })
  else if txCostMilli ≤ s.reserve then
    (.ok (), put g { s with reserve := s.reserve - txCostMilli, own := s.own - txCostMilli })
  else (.error (.budgetExhausted id), put g s)

/-- `Ingress::admit`. -/
def admitSource (g : Ingress) (id : SourceId) (params : ChainParams) (monoMs : Nat) :
    Except Reject Unit × Ingress :=
  let g := g.refillShared params monoMs
  if (g.sources.lookup id).isNone ∧ params.maxSources ≤ g.sources.keys.length then
    let g := g.refillAll params monoMs
    match g.victim params with
    | some v => (g.forget v).charge id params monoMs
    | none => (.error (.tooManySources id params.maxSources), g)
  else g.charge id params monoMs

end Ingress

end Plaine.Chain

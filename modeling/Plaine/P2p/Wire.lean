import Plaine.Consensus.Constants
import Plaine.Lib.Reader

/-!
# Peer messages

The commands and messages of `wire`, with their payloads.  Whatever is decoded is a message within
the caps of the protocol, and the payload is its encoding.
-/

namespace Plaine.P2p

open Plaine.Lib Plaine.Consensus

/-! ## Constants -/

/-- `MAX_P2P_MSG_BYTES`. -/
def maxP2pMsgBytes : Nat := 8388608

/-- `UA_MAX`. -/
def uaMax : Nat := 64

/-- `ADDR_MSG_MAX`. -/
def addrMsgMax : Nat := 512

/-- `ADDR_REC_BYTES`. -/
def addrRecBytes : Nat := 30

/-- `INV_MAX`. -/
def invMax : Nat := 4096

/-- `INV_ITEM_BYTES`. -/
def invItemBytes : Nat := 33

/-- `LOCATOR_MAX`. -/
def locatorMax : Nat := 64

/-- `CHECKPOINT_SIGS_MAX`. -/
def checkpointSigsMax : Nat := 15

/-! ## Commands -/

/-- `Cmd`. -/
inductive Cmd where
  | hello
  | helloAck
  | ping
  | pong
  | getAddr
  | addr
  | inv
  | getData
  | notFound
  | getHeaders
  | headers
  | block
  | tx
  | mempool
  | feeFilter
  | checkpoint
  | getCheckpoint
deriving DecidableEq

namespace Cmd

/-- `Cmd::code`. -/
def code : Cmd → UInt8
  | hello => 0x01
  | helloAck => 0x02
  | ping => 0x03
  | pong => 0x04
  | getAddr => 0x05
  | addr => 0x06
  | inv => 0x10
  | getData => 0x11
  | notFound => 0x12
  | getHeaders => 0x13
  | headers => 0x14
  | block => 0x15
  | tx => 0x16
  | mempool => 0x17
  | feeFilter => 0x18
  | checkpoint => 0x1A
  | getCheckpoint => 0x1B

/-- `Cmd::from_code`. -/
def fromCode (c : UInt8) : Option Cmd :=
  if c = 0x01 then some hello
  else if c = 0x02 then some helloAck
  else if c = 0x03 then some ping
  else if c = 0x04 then some pong
  else if c = 0x05 then some getAddr
  else if c = 0x06 then some addr
  else if c = 0x10 then some inv
  else if c = 0x11 then some getData
  else if c = 0x12 then some notFound
  else if c = 0x13 then some getHeaders
  else if c = 0x14 then some headers
  else if c = 0x15 then some block
  else if c = 0x16 then some tx
  else if c = 0x17 then some mempool
  else if c = 0x18 then some feeFilter
  else if c = 0x1A then some checkpoint
  else if c = 0x1B then some getCheckpoint
  else none

@[simp] theorem fromCode_code (cmd : Cmd) : fromCode cmd.code = some cmd := by
  cases cmd <;> rfl

/-- `Cmd::payload_cap`. -/
def payloadCap : Cmd → Nat
  | hello => 103 + uaMax
  | helloAck => 0
  | ping => 8
  | pong => 8
  | getAddr => 0
  | addr => 4 + addrMsgMax * addrRecBytes
  | inv | getData | notFound => 4 + invMax * invItemBytes
  | getHeaders => 4 + locatorMax * 32 + 32
  | headers => 4 + maxHeadersPerMsg * headerBytes
  | block => maxBlockBytes
  | tx => maxTxBytes
  | mempool => 16
  | feeFilter => 16
  | checkpoint => 8 + 32 + 1 + checkpointSigsMax * 65
  | getCheckpoint => 0

theorem payloadCap_le (cmd : Cmd) : cmd.payloadCap ≤ maxP2pMsgBytes := by
  cases cmd <;> decide

end Cmd

/-- `WireError`. -/
inductive WireError where
  | badMagic
  | unknownCommand (code : UInt8)
  | nonZeroFlags (flags : UInt8)
  | oversize (cmd : Cmd) (length cap : Nat)
  | oversizeAbsolute (length : Nat)
  | truncated (want got : Nat)
  | malformed (why : String)
  | tooManyItems (got cap : Nat)
deriving DecidableEq

/-! ## Messages -/

/-- `Hello`. -/
structure Hello where
  protoVer : UInt16
  minProto : UInt16
  chainId : Arr 4
  services : UInt32
  nonce : UInt64
  time : UInt64
  height : UInt64
  tipHash : Hash32
  cumWork : Arr 32
  listenPort : UInt16
  userAgent : Bytes
deriving DecidableEq

/-- `InvKind`. -/
inductive InvKind where
  | tx
  | block
deriving DecidableEq

namespace InvKind

/-- `InvKind::code`. -/
def code : InvKind → UInt8
  | tx => 1
  | block => 2

/-- `InvKind::from_code`. -/
def fromCode (c : UInt8) : Option InvKind :=
  if c = 1 then some tx else if c = 2 then some block else none

theorem fromCode_eq_some {c : UInt8} {kind : InvKind} : fromCode c = some kind ↔ c = kind.code := by
  constructor
  · intro h
    unfold fromCode at h
    split at h
    case isTrue hc =>
      cases h
      exact hc
    split at h
    case isTrue hc =>
      cases h
      exact hc
    case isFalse => cases h
  · rintro rfl
    cases kind <;> rfl

end InvKind

/-- `InvItem`. -/
structure InvItem where
  kind : InvKind
  hash : Hash32
deriving DecidableEq

/-- `AddrRec`. -/
structure AddrRec where
  time : UInt64
  services : UInt32
  ip : Arr 16
  port : UInt16
deriving DecidableEq

/-- `CheckpointMsg`. -/
structure CheckpointMsg where
  height : UInt64
  hash : Hash32
  sigs : List (UInt8 × Arr 64)
deriving DecidableEq

/-- `Msg`. -/
inductive Msg where
  | hello (h : Hello)
  | helloAck
  | ping (n : UInt64)
  | pong (n : UInt64)
  | getAddr
  | addr (v : List AddrRec)
  | inv (v : List InvItem)
  | getData (v : List InvItem)
  | notFound (v : List InvItem)
  | getHeaders (locator : List Hash32) (stop : Hash32)
  | headers (v : List RawHeader)
  | block (b : Bytes)
  | tx (b : Bytes)
  | mempool
  | feeFilter (f : U128)
  | checkpoint (c : CheckpointMsg)
  | getCheckpoint
deriving DecidableEq

/-- `Msg::cmd`. -/
def Msg.cmd : Msg → Cmd
  | hello _ => .hello
  | helloAck => .helloAck
  | ping _ => .ping
  | pong _ => .pong
  | getAddr => .getAddr
  | addr _ => .addr
  | inv _ => .inv
  | getData _ => .getData
  | notFound _ => .notFound
  | getHeaders _ _ => .getHeaders
  | headers _ => .headers
  | block _ => .block
  | tx _ => .tx
  | mempool => .mempool
  | feeFilter _ => .feeFilter
  | checkpoint _ => .checkpoint
  | getCheckpoint => .getCheckpoint

/-! ## Encoding -/

/-- A HELLO in `encode`. -/
def Hello.bytes (h : Hello) : Bytes :=
  leBytes 2 h.protoVer.toNat ++ (leBytes 2 h.minProto.toNat ++ (h.chainId.bytes ++
    (leBytes 4 h.services.toNat ++ (leBytes 8 h.nonce.toNat ++ (leBytes 8 h.time.toNat ++
      (leBytes 8 h.height.toNat ++ (h.tipHash.bytes ++ (h.cumWork.bytes ++
        (leBytes 2 h.listenPort.toNat ++
          (UInt8.ofNat (h.userAgent.take uaMax).length :: h.userAgent.take uaMax))))))))))

/-- An address in `encode`. -/
def AddrRec.bytes (a : AddrRec) : Bytes :=
  leBytes 8 a.time.toNat ++ (leBytes 4 a.services.toNat ++ (a.ip.bytes ++ leBytes 2 a.port.toNat))

/-- An inventory item in `encode`. -/
def InvItem.bytes (it : InvItem) : Bytes := it.kind.code :: it.hash.bytes

/-- A signature in `encode`. -/
def sigBytes (s : UInt8 × Arr 64) : Bytes := s.1 :: s.2.bytes

/-- A CHECKPOINT in `encode`. -/
def CheckpointMsg.bytes (c : CheckpointMsg) : Bytes :=
  leBytes 8 c.height.toNat ++ (c.hash.bytes ++ (UInt8.ofNat c.sigs.length :: c.sigs.flatMap sigBytes))

/-- `encode`. -/
def encode : Msg → Bytes
  | .hello h => h.bytes
  | .helloAck | .getAddr | .mempool | .getCheckpoint => []
  | .ping n | .pong n => leBytes 8 n.toNat
  | .addr v => leBytes 4 v.length ++ v.flatMap AddrRec.bytes
  | .inv v | .getData v | .notFound v => leBytes 4 v.length ++ v.flatMap InvItem.bytes
  | .getHeaders locator stop => leBytes 4 locator.length ++ (locator.flatMap Arr.bytes ++ stop.bytes)
  | .headers v => leBytes 4 v.length ++ v.flatMap Arr.bytes
  | .block b | .tx b => b
  | .feeFilter f => leBytes 16 f.toNat
  | .checkpoint c => c.bytes

/-! ## Decoding -/

open Reader

/-- `Cur::count`. -/
def count (cap : Nat) : Reader WireError Nat := do
  let n ← u32 .truncated
  require (n.toNat ≤ cap) (.tooManyItems n.toNat cap)
  return n.toNat

/-- A HELLO in `decode`. -/
def readHello : Reader WireError Hello := do
  let protoVer ← u16 .truncated
  let minProto ← u16 .truncated
  let chainId ← arr .truncated 4
  let services ← u32 .truncated
  let nonce ← u64 .truncated
  let time ← u64 .truncated
  let height ← u64 .truncated
  let tipHash ← arr .truncated 32
  let cumWork ← arr .truncated 32
  let listenPort ← u16 .truncated
  let uaLen ← u8 .truncated
  require (uaLen.toNat ≤ uaMax) (.tooManyItems uaLen.toNat uaMax)
  let userAgent ← take .truncated uaLen.toNat
  return { protoVer, minProto, chainId, services, nonce, time, height, tipHash, cumWork, listenPort,
           userAgent }

/-- An address in `decode`. -/
def readAddrRec : Reader WireError AddrRec := do
  let time ← u64 .truncated
  let services ← u32 .truncated
  let ip ← arr .truncated 16
  let port ← u16 .truncated
  return { time, services, ip, port }

/-- An inventory item in `decode`. -/
def readInvItem : Reader WireError InvItem := do
  let k ← u8 .truncated
  let kind ← ofOption (.malformed "unknown inv type byte") (InvKind.fromCode k)
  let hash ← arr .truncated 32
  return { kind, hash }

/-- A signature in `decode`. -/
def readSig : Reader WireError (UInt8 × Arr 64) := do
  let id ← u8 .truncated
  let sig ← arr .truncated 64
  return (id, sig)

/-- A counted list in `decode`: the records have `size` bytes each, and `more` bytes follow. -/
def readList {α : Type} (cap size more : Nat) (p : Reader WireError α) : Reader WireError (List α) := do
  let n ← count cap
  need .truncated (n * size + more)
  times p n

/-- A CHECKPOINT in `decode`. -/
def readCheckpoint : Reader WireError CheckpointMsg := do
  let height ← u64 .truncated
  let hash ← arr .truncated 32
  let n ← u8 .truncated
  require (n.toNat ≤ checkpointSigsMax) (.tooManyItems n.toNat checkpointSigsMax)
  need .truncated (n.toNat * 65)
  let sigs ← times readSig n.toNat
  return { height, hash, sigs }

/-- The rest of a payload. -/
def readRest : Reader WireError Bytes := fun b ↦ .ok (b, [])

/-- The match of `decode`, up to the check for trailing bytes. -/
def readMsg : Cmd → Reader WireError Msg
  | .hello => .hello <$> readHello
  | .helloAck => pure .helloAck
  | .getAddr => pure .getAddr
  | .getCheckpoint => pure .getCheckpoint
  | .mempool => pure .mempool
  | .ping => .ping <$> u64 .truncated
  | .pong => .pong <$> u64 .truncated
  | .addr => .addr <$> readList addrMsgMax addrRecBytes 0 readAddrRec
  | .inv => .inv <$> readList invMax invItemBytes 0 readInvItem
  | .getData => .getData <$> readList invMax invItemBytes 0 readInvItem
  | .notFound => .notFound <$> readList invMax invItemBytes 0 readInvItem
  | .getHeaders => do
    let locator ← readList locatorMax 32 32 (arr .truncated 32)
    let stop ← arr .truncated 32
    return .getHeaders locator stop
  | .headers => .headers <$> readList maxHeadersPerMsg headerBytes 0 (arr .truncated 132)
  | .block => do
    need .truncated (headerBytes + 4)
    return .block (← readRest)
  | .tx => do
    need .truncated 1
    return .tx (← readRest)
  | .feeFilter => .feeFilter <$> u128 .truncated
  | .checkpoint => .checkpoint <$> readCheckpoint

/-- `decode`.  A block or a transaction takes the whole payload, so that nothing trails. -/
def decode (cmd : Cmd) (payload : Bytes) : Except WireError Msg := do
  Except.require (payload.length ≤ cmd.payloadCap)
    (.oversize cmd (payload.length % 2 ^ 32) cmd.payloadCap)
  let (m, _) ← (do
    let m ← readMsg cmd
    finish (.malformed "trailing bytes after payload")
    return m : Reader WireError Msg) payload
  return m

/-! ## What is decoded -/

/-- A message within the caps of the protocol. -/
def Msg.WithinCaps : Msg → Prop
  | .hello h => h.userAgent.length ≤ uaMax
  | .addr v => v.length ≤ addrMsgMax
  | .inv v | .getData v | .notFound v => v.length ≤ invMax
  | .getHeaders locator _ => locator.length ≤ locatorMax
  | .headers v => v.length ≤ maxHeadersPerMsg
  | .block b => b.length ≤ maxBlockBytes
  | .tx b => b.length ≤ maxTxBytes
  | .checkpoint c => c.sigs.length ≤ checkpointSigsMax
  | .helloAck | .ping _ | .pong _ | .getAddr | .mempool | .feeFilter _ | .getCheckpoint => True

/-- A block has its header and the count of its transactions, and a transaction has a byte. -/
def Msg.Whole : Msg → Prop
  | .block b => headerBytes + 4 ≤ b.length
  | .tx b => b ≠ []
  | _ => True

variable {b rest : Bytes} {n cap size more : Nat}

@[simp] theorem count_eq_ok :
    count cap b = .ok (n, rest) ↔ n ≤ cap ∧ n < 2 ^ 32 ∧ b = leBytes 4 n ++ rest := by
  unfold count
  simp only [bind_eq_ok, u32_eq_ok, require_eq_ok, pure_eq_ok]
  constructor
  · rintro ⟨m, _, rfl, -, _, ⟨hle, rfl⟩, rfl, rfl⟩
    exact ⟨hle, m.toNat_lt, rfl⟩
  · rintro ⟨hle, hlt, rfl⟩
    have hn : (UInt32.ofNat n).toNat = n := UInt32.toNat_ofNat_of_lt' hlt
    refine ⟨.ofNat n, rest, by rw [hn], (), rest, ⟨by rwa [hn], rfl⟩, hn, rfl⟩

/-- A short length is its byte. -/
theorem toNat_ofNat_length {α : Type} {l : List α} (h : l.length ≤ uaMax) :
    (UInt8.ofNat l.length).toNat = l.length :=
  UInt8.toNat_ofNat_of_lt' (h.trans_lt (by decide))

theorem readHello_eq_ok {h : Hello} :
    readHello b = .ok (h, rest) ↔ h.userAgent.length ≤ uaMax ∧ b = h.bytes ++ rest := by
  unfold readHello
  simp only [bind_eq_ok, u16_eq_ok, arr_eq_ok, u32_eq_ok, u64_eq_ok, u8_eq_ok, require_eq_ok,
    take_eq_ok, pure_eq_ok]
  constructor
  · rintro ⟨_, _, rfl, _, _, rfl, _, _, rfl, _, _, rfl, _, _, rfl, _, _, rfl, _, _, rfl, _, _, rfl,
      _, _, rfl, _, _, rfl, len, _, rfl, -, _, ⟨hle, rfl⟩, ua, _, ⟨hlen, rfl⟩, rfl, rfl⟩
    rw [← hlen] at hle
    refine ⟨hle, ?_⟩
    have hbyte : UInt8.ofNat ua.length = len := by rw [hlen, UInt8.ofNat_toNat]
    simp only [Hello.bytes, List.take_of_length_le hle, hbyte, List.append_assoc, List.cons_append]
  · rintro ⟨hle, rfl⟩
    have hlen := toNat_ofNat_length hle
    simp only [Hello.bytes, List.take_of_length_le hle, List.append_assoc, List.cons_append]
    refine ⟨_, _, rfl, _, _, rfl, _, _, rfl, _, _, rfl, _, _, rfl, _, _, rfl, _, _, rfl, _, _, rfl,
      _, _, rfl, _, _, rfl, _, _, rfl, (), _, ⟨?_, rfl⟩, _, _, ⟨?_, rfl⟩, rfl, rfl⟩
    · rwa [hlen]
    · rw [hlen]

theorem readAddrRec_eq_ok {a : AddrRec} :
    readAddrRec b = .ok (a, rest) ↔ True ∧ b = a.bytes ++ rest := by
  unfold readAddrRec
  simp only [bind_eq_ok, u64_eq_ok, u32_eq_ok, arr_eq_ok, u16_eq_ok, pure_eq_ok]
  constructor
  · rintro ⟨_, _, rfl, _, _, rfl, _, _, rfl, _, _, rfl, rfl, rfl⟩
    exact ⟨trivial, by simp only [AddrRec.bytes, List.append_assoc]⟩
  · rintro ⟨-, rfl⟩
    simp only [AddrRec.bytes, List.append_assoc]
    exact ⟨_, _, rfl, _, _, rfl, _, _, rfl, _, _, rfl, rfl, rfl⟩

theorem readInvItem_eq_ok {it : InvItem} :
    readInvItem b = .ok (it, rest) ↔ True ∧ b = it.bytes ++ rest := by
  unfold readInvItem
  simp only [bind_eq_ok, u8_eq_ok, ofOption_eq_ok, InvKind.fromCode_eq_some, arr_eq_ok, pure_eq_ok]
  constructor
  · rintro ⟨_, _, rfl, _, _, ⟨rfl, rfl⟩, _, _, rfl, rfl, rfl⟩
    exact ⟨trivial, rfl⟩
  · rintro ⟨-, rfl⟩
    exact ⟨_, _, rfl, _, _, ⟨rfl, rfl⟩, _, _, rfl, rfl, rfl⟩

theorem readSig_eq_ok {s : UInt8 × Arr 64} :
    readSig b = .ok (s, rest) ↔ True ∧ b = sigBytes s ++ rest := by
  unfold readSig
  simp only [bind_eq_ok, u8_eq_ok, arr_eq_ok, pure_eq_ok]
  constructor
  · rintro ⟨_, _, rfl, _, _, rfl, rfl, rfl⟩
    exact ⟨trivial, rfl⟩
  · rintro ⟨-, rfl⟩
    exact ⟨_, _, rfl, _, _, rfl, rfl, rfl⟩

/-- A list is read with its count, where enough bytes follow. -/
theorem readList_eq_ok {α : Type} {p : Reader WireError α} {enc : α → Bytes} {l : List α}
    (hp : ∀ b a mid, p b = .ok (a, mid) ↔ True ∧ b = enc a ++ mid)
    (henc : ∀ a, (enc a).length = size) (hcap : cap < 2 ^ 32) :
    readList cap size more p b = .ok (l, rest) ↔
      l.length ≤ cap ∧ more ≤ rest.length ∧ b = leBytes 4 l.length ++ (l.flatMap enc ++ rest) := by
  unfold readList
  simp only [bind_eq_ok, count_eq_ok, need_eq_ok, times_eq_ok hp]
  constructor
  · rintro ⟨_, _, ⟨hle, -, rfl⟩, -, _, ⟨hneed, rfl⟩, rfl, -, rfl⟩
    rw [List.length_append, length_flatMap henc] at hneed
    exact ⟨hle, Nat.le_of_add_le_add_left hneed, rfl⟩
  · rintro ⟨hle, hmore, rfl⟩
    refine ⟨l.length, _, ⟨hle, hle.trans_lt hcap, rfl⟩, (), _, ⟨?_, rfl⟩, rfl, fun _ _ ↦ trivial, rfl⟩
    rw [List.length_append, length_flatMap henc]
    exact Nat.add_le_add_left hmore _

theorem length_addrRec (a : AddrRec) : a.bytes.length = addrRecBytes := by
  simp [AddrRec.bytes, a.ip.length_eq, addrRecBytes]

theorem length_invItem (it : InvItem) : it.bytes.length = invItemBytes := by
  simp [InvItem.bytes, it.hash.length_eq, invItemBytes]

theorem length_sigBytes (s : UInt8 × Arr 64) : (sigBytes s).length = 65 := by
  simp [sigBytes, s.2.length_eq]

theorem readCheckpoint_eq_ok {c : CheckpointMsg} :
    readCheckpoint b = .ok (c, rest) ↔ c.sigs.length ≤ checkpointSigsMax ∧ b = c.bytes ++ rest := by
  unfold readCheckpoint
  simp only [bind_eq_ok, u64_eq_ok, arr_eq_ok, u8_eq_ok, require_eq_ok, need_eq_ok,
    times_eq_ok fun _ _ _ ↦ readSig_eq_ok, pure_eq_ok]
  constructor
  · rintro ⟨_, _, rfl, _, _, rfl, n, _, rfl, -, _, ⟨hle, rfl⟩, -, _, ⟨-, rfl⟩, sigs, _,
      ⟨hlen, -, rfl⟩, rfl, rfl⟩
    rw [← hlen] at hle
    have hbyte : UInt8.ofNat sigs.length = n := by rw [hlen, UInt8.ofNat_toNat]
    refine ⟨hle, ?_⟩
    simp only [CheckpointMsg.bytes, hbyte, List.append_assoc, List.cons_append]
  · rintro ⟨hle, rfl⟩
    have hlen := toNat_ofNat_length (hle.trans (by decide))
    simp only [CheckpointMsg.bytes, List.append_assoc, List.cons_append]
    refine ⟨_, _, rfl, _, _, rfl, _, _, rfl, (), _, ⟨?_, rfl⟩, (), _, ⟨?_, rfl⟩, _, _,
      ⟨?_, fun _ _ ↦ trivial, rfl⟩, rfl, rfl⟩
    · rwa [hlen]
    · rw [hlen, List.length_append, length_flatMap length_sigBytes]
      exact Nat.le_add_right _ _
    · rw [hlen]

/-- An encoding fits its command. -/
theorem length_encode_le {m : Msg} (h : m.WithinCaps) : (encode m).length ≤ m.cmd.payloadCap := by
  have hlist : ∀ {α : Type} {enc : α → Bytes} {size cap more : Nat} {l : List α} {tail : Bytes},
      (∀ a, (enc a).length = size) → l.length ≤ cap → tail.length = more →
      (leBytes 4 l.length ++ (l.flatMap enc ++ tail)).length ≤ 4 + cap * size + more := by
    intro α enc size cap more l tail henc hle hmore
    rw [List.length_append, length_leBytes, List.length_append, length_flatMap henc, hmore,
      Nat.add_assoc]
    exact Nat.add_le_add_left (Nat.add_le_add_right (Nat.mul_le_mul_right _ hle) _) _
  have hlist₀ : ∀ {α : Type} {enc : α → Bytes} {size cap : Nat} {l : List α},
      (∀ a, (enc a).length = size) → l.length ≤ cap →
      (leBytes 4 l.length ++ l.flatMap enc).length ≤ 4 + cap * size := by
    intro α enc size cap l henc hle
    have h : (leBytes 4 l.length ++ (l.flatMap enc ++ [])).length ≤ 4 + cap * size + 0 :=
      hlist henc hle rfl
    rwa [List.append_nil] at h
  cases m with
  | hello x =>
    have hle : x.userAgent.length ≤ uaMax := h
    show x.bytes.length ≤ 103 + uaMax
    simp only [Hello.bytes, List.take_of_length_le hle, List.length_append, length_leBytes,
      Arr.length_eq, List.length_cons]
    omega
  | addr v => exact hlist₀ length_addrRec h
  | inv v | getData v | notFound v => exact hlist₀ length_invItem h
  | getHeaders locator stop => exact hlist (fun x ↦ x.length_eq) h stop.length_eq
  | headers v => exact hlist₀ (fun x ↦ x.length_eq) h
  | block x | tx x => exact h
  | checkpoint c =>
    have hle : c.sigs.length ≤ checkpointSigsMax := h
    show c.bytes.length ≤ 8 + 32 + 1 + checkpointSigsMax * 65
    simp only [CheckpointMsg.bytes, List.length_append, length_leBytes, Arr.length_eq,
      List.length_cons, length_flatMap length_sigBytes]
    omega
  | ping x | pong x => exact (length_leBytes 8 _).le
  | feeFilter x => exact (length_leBytes 16 _).le
  | helloAck | getAddr | mempool | getCheckpoint => exact Nat.zero_le _

variable {cmd : Cmd} {m : Msg}

/-- A payload that is one value is read as the messages of its command are encoded. -/
theorem map_reader_eq_ok {α : Type} {f : α → Msg} {p : Reader WireError α} {P : α → Prop}
    {enc : α → Bytes} (hp : ∀ {a}, p b = .ok (a, []) ↔ P a ∧ b = enc a)
    (hcmd : ∀ m, m.cmd = cmd → ∃ a, f a = m)
    (hf : ∀ a, (f a).cmd = cmd ∧ (f a).Whole ∧ ((f a).WithinCaps ↔ P a) ∧ encode (f a) = enc a) :
    (f <$> p) b = .ok (m, []) ↔ m.cmd = cmd ∧ m.Whole ∧ m.WithinCaps ∧ b = encode m := by
  rw [map_eq_ok]
  constructor
  · rintro ⟨a, ha, rfl⟩
    obtain ⟨hP, rfl⟩ := hp.mp ha
    exact ⟨(hf a).1, (hf a).2.1, (hf a).2.2.1.mpr hP, (hf a).2.2.2.symm⟩
  · rintro ⟨hm, -, hcaps, rfl⟩
    obtain ⟨a, rfl⟩ := hcmd m hm
    exact ⟨a, hp.mpr ⟨(hf a).2.2.1.mp hcaps, (hf a).2.2.2⟩, rfl⟩

/-- A payload that is empty. -/
theorem pure_reader_eq_ok {x : Msg} (hcmd : ∀ m : Msg, m.cmd = cmd → x = m)
    (hx : x.cmd = cmd ∧ x.Whole ∧ x.WithinCaps ∧ encode x = []) :
    (pure x : Reader WireError Msg) b = .ok (m, []) ↔
      m.cmd = cmd ∧ m.Whole ∧ m.WithinCaps ∧ b = encode m := by
  rw [pure_eq_ok]
  constructor
  · rintro ⟨rfl, rfl⟩
    exact ⟨hx.1, hx.2.1, hx.2.2.1, hx.2.2.2.symm⟩
  · rintro ⟨hm, -, -, rfl⟩
    obtain rfl := hcmd m hm
    exact ⟨rfl, hx.2.2.2⟩

/-- What a payload is read as. -/
theorem readMsg_eq_ok (hlen : b.length ≤ cmd.payloadCap) : readMsg cmd b = .ok (m, []) ↔
    m.cmd = cmd ∧ m.Whole ∧ m.WithinCaps ∧ b = encode m := by
  have hlist : ∀ {α : Type} {p : Reader WireError α} {enc : α → Bytes} {size cap : Nat} {l : List α},
      (∀ b a mid, p b = .ok (a, mid) ↔ True ∧ b = enc a ++ mid) →
      (∀ a, (enc a).length = size) → cap < 2 ^ 32 →
      (readList cap size 0 p b = .ok (l, []) ↔
        l.length ≤ cap ∧ b = leBytes 4 l.length ++ l.flatMap enc) := by
    intro α p enc size cap l hp henc hcap
    rw [readList_eq_ok hp henc hcap, List.append_nil, and_iff_right (Nat.zero_le _)]
  have hinv : ∀ {l : List InvItem}, readList invMax invItemBytes 0 readInvItem b = .ok (l, []) ↔
      l.length ≤ invMax ∧ b = leBytes 4 l.length ++ l.flatMap InvItem.bytes :=
    hlist (fun _ _ _ ↦ readInvItem_eq_ok) length_invItem (by decide)
  have hhello : ∀ {h}, readHello b = .ok (h, []) ↔ h.userAgent.length ≤ uaMax ∧ b = h.bytes := by
    intro h
    rw [readHello_eq_ok, List.append_nil]
  have hword : ∀ {n}, (u64 .truncated : Reader WireError UInt64) b = .ok (n, []) ↔
      True ∧ b = leBytes 8 n.toNat := by
    intro n
    rw [u64_eq_ok, List.append_nil, true_and]
  have hnum : ∀ {n}, (u128 .truncated : Reader WireError U128) b = .ok (n, []) ↔
      True ∧ b = leBytes 16 n.toNat := by
    intro n
    rw [u128_eq_ok, List.append_nil, true_and]
  have hcheckpoint : ∀ {c}, readCheckpoint b = .ok (c, []) ↔
      c.sigs.length ≤ checkpointSigsMax ∧ b = c.bytes := by
    intro c
    rw [readCheckpoint_eq_ok, List.append_nil]
  have hheaders : ∀ {l}, readList maxHeadersPerMsg headerBytes 0 (arr .truncated 132) b =
      .ok (l, []) ↔ l.length ≤ maxHeadersPerMsg ∧ b = leBytes 4 l.length ++ l.flatMap Arr.bytes :=
    hlist (fun _ _ _ ↦ by rw [arr_eq_ok, true_and]) (fun x ↦ x.length_eq) (by decide)
  have haddr : ∀ {l}, readList addrMsgMax addrRecBytes 0 readAddrRec b = .ok (l, []) ↔
      l.length ≤ addrMsgMax ∧ b = leBytes 4 l.length ++ l.flatMap AddrRec.bytes :=
    hlist (fun _ _ _ ↦ readAddrRec_eq_ok) length_addrRec (by decide)
  cases cmd with
  | hello =>
    refine map_reader_eq_ok hhello (fun m hm ↦ ?_) fun _ ↦ ⟨rfl, trivial, Iff.rfl, rfl⟩
    cases m <;> cases hm
    exact ⟨_, rfl⟩
  | ping | pong =>
    refine map_reader_eq_ok hword (fun m hm ↦ ?_) fun _ ↦ ⟨rfl, trivial, Iff.rfl, rfl⟩
    cases m <;> cases hm
    exact ⟨_, rfl⟩
  | addr =>
    refine map_reader_eq_ok haddr (fun m hm ↦ ?_) fun _ ↦ ⟨rfl, trivial, Iff.rfl, rfl⟩
    cases m <;> cases hm
    exact ⟨_, rfl⟩
  | inv | getData | notFound =>
    refine map_reader_eq_ok hinv (fun m hm ↦ ?_) fun _ ↦ ⟨rfl, trivial, Iff.rfl, rfl⟩
    cases m <;> cases hm
    exact ⟨_, rfl⟩
  | headers =>
    refine map_reader_eq_ok hheaders (fun m hm ↦ ?_) fun _ ↦ ⟨rfl, trivial, Iff.rfl, rfl⟩
    cases m <;> cases hm
    exact ⟨_, rfl⟩
  | feeFilter =>
    refine map_reader_eq_ok hnum (fun m hm ↦ ?_) fun _ ↦ ⟨rfl, trivial, Iff.rfl, rfl⟩
    cases m <;> cases hm
    exact ⟨_, rfl⟩
  | checkpoint =>
    refine map_reader_eq_ok hcheckpoint (fun m hm ↦ ?_) fun _ ↦ ⟨rfl, trivial, Iff.rfl, rfl⟩
    cases m <;> cases hm
    exact ⟨_, rfl⟩
  | helloAck | getAddr | mempool | getCheckpoint =>
    refine pure_reader_eq_ok (fun m hm ↦ ?_) ⟨rfl, trivial, trivial, rfl⟩
    cases m <;> cases hm
    rfl
  | getHeaders =>
    have hlocator : ∀ l rest, readList locatorMax 32 32 (arr .truncated 32) b = .ok (l, rest) ↔
        l.length ≤ locatorMax ∧ 32 ≤ rest.length ∧
          b = leBytes 4 l.length ++ (l.flatMap Arr.bytes ++ rest) := fun _ _ ↦
      readList_eq_ok (fun _ _ _ ↦ by rw [arr_eq_ok, true_and]) (fun x ↦ x.length_eq) (by decide)
    simp only [readMsg, bind_eq_ok, hlocator, arr_eq_ok, pure_eq_ok]
    constructor
    · rintro ⟨locator, _, ⟨hle, -, rfl⟩, stop, _, rfl, rfl, rfl⟩
      exact ⟨rfl, trivial, hle, by rw [List.append_nil]; rfl⟩
    · rintro ⟨hm, -, hcaps, rfl⟩
      cases m <;> cases hm
      case getHeaders.refl locator stop =>
      refine ⟨locator, stop.bytes, ⟨hcaps, stop.length_eq.ge, rfl⟩, stop, [], ?_, rfl, rfl⟩
      rw [List.append_nil]
  | block =>
    simp only [readMsg, readRest, bind_eq_ok, need_eq_ok, pure_eq_ok, Except.ok.injEq, Prod.mk.injEq]
    constructor
    · rintro ⟨_, _, ⟨hneed, rfl⟩, _, _, ⟨rfl, rfl⟩, rfl, -⟩
      exact ⟨rfl, hneed, hlen, rfl⟩
    · rintro ⟨hm, hwhole, -, rfl⟩
      cases m <;> cases hm
      exact ⟨(), _, ⟨hwhole, rfl⟩, _, _, ⟨rfl, rfl⟩, rfl, rfl⟩
  | tx =>
    simp only [readMsg, readRest, bind_eq_ok, need_eq_ok, pure_eq_ok, Except.ok.injEq, Prod.mk.injEq]
    constructor
    · rintro ⟨_, _, ⟨hneed, rfl⟩, _, _, ⟨rfl, rfl⟩, rfl, -⟩
      exact ⟨rfl, List.length_pos_iff.mp hneed, hlen, rfl⟩
    · rintro ⟨hm, hwhole, -, rfl⟩
      cases m <;> cases hm
      exact ⟨(), _, ⟨List.length_pos_iff.mpr hwhole, rfl⟩, _, _, ⟨rfl, rfl⟩, rfl, rfl⟩

/-- A payload is decoded to the message of the command that it encodes, if there is one within the
caps. -/
theorem decode_eq_ok :
    decode cmd b = .ok m ↔ m.cmd = cmd ∧ m.Whole ∧ m.WithinCaps ∧ b = encode m := by
  have hread : decode cmd b = .ok m ↔
      b.length ≤ cmd.payloadCap ∧ readMsg cmd b = .ok (m, []) := by
    unfold decode
    simp only [Except.bind_eq_ok, Except.require_eq_ok, Prod.exists, bind_eq_ok, finish_eq_ok,
      pure_eq_ok]
    constructor
    · rintro ⟨_, hle, _, _, ⟨m', _, hread, _, _, ⟨rfl, rfl⟩, rfl, -⟩, hm⟩
      cases hm
      exact ⟨hle, hread⟩
    · rintro ⟨hle, hread⟩
      exact ⟨(), hle, m, [], ⟨m, [], hread, (), [], ⟨rfl, rfl⟩, rfl, rfl⟩, rfl⟩
  rw [hread]
  constructor
  · rintro ⟨hle, h⟩
    exact (readMsg_eq_ok hle).mp h
  · intro h
    have hle : b.length ≤ cmd.payloadCap := by
      obtain ⟨rfl, -, hcaps, rfl⟩ := h
      exact length_encode_le hcaps
    exact ⟨hle, (readMsg_eq_ok hle).mpr h⟩

end Plaine.P2p

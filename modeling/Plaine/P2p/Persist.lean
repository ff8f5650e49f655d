import Plaine.P2p.AddrCaps
import Plaine.Consensus.Blake3
import Plaine.Lib.Reader

/-!
# The peers file

`addr/persist.rs`: the address book as it is written to a file and read back.
-/

namespace Plaine.P2p

open Plaine.Lib Plaine.Consensus

/-- `PEERS_MAGIC`. -/
def peersMagic : Bytes := [0x50, 0x4C, 0x4E, 0x45, 0x50, 0x45, 0x45, 0x52]

/-- `PEERS_VERSION`. -/
def peersVersion : UInt16 := 1

/-- `PEERS_HEADER_BYTES`. -/
def peersHeaderBytes : Nat := 18

/-- `PEERS_REC_BYTES`. -/
def peersRecBytes : Nat := 35

/-- `PEERS_DIGEST_BYTES`. -/
def peersDigestBytes : Nat := 32

/-- `PEERS_FILE_MAX`. -/
def peersFileMax : Nat :=
  peersHeaderBytes + (addrNewMax + addrTriedMax) * peersRecBytes + peersDigestBytes

/-- `PeersError`. -/
inductive PeersError where
  | tooShort
  | tooLong
  | badMagic
  | badVersion (version : UInt16)
  | foreignChain (chain : Arr 4)
  | badLength
  | badDigest
  | badRecord
deriving DecidableEq

/-- The fields of an entry that are written. -/
def AddrEntry.peerRec (e : AddrEntry) : PeerRec where
  ip := e.ip
  port := e.port
  services := e.services
  lastSeen := e.lastSeen
  table := e.table
  sourceGroup := e.sourceGroup

namespace Table

/-- A table in the file. -/
def code : Table → UInt8
  | new => 0
  | tried => 1

/-- A table out of the file. -/
def fromCode (c : UInt8) : Option Table :=
  if c = 0 then some new else if c = 1 then some tried else none

@[simp] theorem fromCode_code (t : Table) : fromCode t.code = some t := by
  cases t <;> rfl

end Table

/-- An entry in `persist::encode`. -/
def AddrEntry.bytes (e : AddrEntry) : Bytes :=
  e.ip.bytes ++ (leBytes 2 e.port.toNat ++ (leBytes 4 e.services.toNat ++
    (leBytes 8 e.lastSeen.toNat ++ (e.table.code :: e.sourceGroup.bytes))))

/-- A record in `persist::decode`, at the offset `o`. -/
def readRec (buf : Bytes) (o : Nat) : Except PeersError PeerRec := do
  let table ← Except.ofOption .badRecord (Table.fromCode (buf.getD (o + 30) 0))
  return {
    ip := Arr.ofSlice 16 o buf
    port := UInt16.ofNat (leAt 2 (o + 16) buf)
    services := UInt32.ofNat (leAt 4 (o + 18) buf)
    lastSeen := UInt64.ofNat (leAt 8 (o + 22) buf)
    table
    sourceGroup := Arr.ofSlice 4 (o + 31) buf }

namespace Persist

variable [Crypto]

/-- `persist::encode`. -/
def encode (entries : List AddrEntry) (chainId : Arr 4) : Bytes :=
  let n := min entries.length (addrNewMax + addrTriedMax)
  let out := peersMagic ++ (leBytes 2 peersVersion.toNat ++ (chainId.bytes ++ (leBytes 4 n ++
    (entries.take n).flatMap AddrEntry.bytes)))
  out ++ (Crypto.blake3 out).bytes

/-- `persist::decode`. -/
def decode (buf : Bytes) (chainId : Arr 4) : Except PeersError (List PeerRec) := do
  Except.require (buf.length ≤ peersFileMax) .tooLong
  Except.require (peersHeaderBytes + peersDigestBytes ≤ buf.length) .tooShort
  Except.require (buf.take 8 = peersMagic) .badMagic
  let version := UInt16.ofNat (leAt 2 8 buf)
  Except.require (version = peersVersion) (.badVersion version)
  let fileChain := Arr.ofSlice 4 10 buf
  Except.require (fileChain = chainId) (.foreignChain fileChain)
  let count := leAt 4 14 buf
  Except.require (count ≤ addrNewMax + addrTriedMax) .tooLong
  let body := peersHeaderBytes + count * peersRecBytes
  Except.require (buf.length = body + peersDigestBytes) .badLength
  Except.require ((Crypto.blake3 (buf.take body)).bytes = buf.drop body) .badDigest
  (List.range count).mapM fun i ↦ readRec buf (peersHeaderBytes + i * peersRecBytes)

variable {entries : List AddrEntry} {chainId : Arr 4} {buf pre post : Bytes} {o : Nat}

/-! ## Round trip -/

omit [Crypto] in
theorem length_bytes (e : AddrEntry) : e.bytes.length = peersRecBytes := by
  simp [AddrEntry.bytes, e.ip.length_eq, e.sourceGroup.length_eq, peersRecBytes]

omit [Crypto] in
/-- A record is read back from where it was written. -/
theorem readRec_append (e : AddrEntry) (h : pre.length = o) :
    readRec (pre ++ (e.bytes ++ post)) o = .ok e.peerRec := by
  have hip := e.ip.length_eq
  let seen := leBytes 8 e.lastSeen.toNat
  have hbytes : pre ++ (e.bytes ++ post) = pre ++ (e.ip.bytes ++ (leBytes 2 e.port.toNat ++
      (leBytes 4 e.services.toNat ++ (seen ++ ([e.table.code] ++ (e.sourceGroup.bytes ++ post)))))) := by
    simp only [AddrEntry.bytes, seen, List.append_assoc, List.cons_append, List.nil_append]
  rw [hbytes]
  have hseen : seen.length = 8 := length_leBytes 8 _
  have hIp := Arr.ofSlice_append e.ip pre (leBytes 2 e.port.toNat ++ (leBytes 4 e.services.toNat ++
    (seen ++ ([e.table.code] ++ (e.sourceGroup.bytes ++ post))))) h
  have hPort := @leAt_append 2 e.port.toNat (pre ++ e.ip.bytes) (leBytes 4 e.services.toNat ++
    (seen ++ ([e.table.code] ++ (e.sourceGroup.bytes ++ post)))) (o + 16)
    (by simp [h, hip]) e.port.toNat_lt
  have hServices := @leAt_append 4 e.services.toNat (pre ++ e.ip.bytes ++ leBytes 2 e.port.toNat)
    (seen ++ ([e.table.code] ++ (e.sourceGroup.bytes ++ post))) (o + 18)
    (by simp [h, hip]) e.services.toNat_lt
  have hSeen := @leAt_append 8 e.lastSeen.toNat
    (pre ++ e.ip.bytes ++ leBytes 2 e.port.toNat ++ leBytes 4 e.services.toNat)
    ([e.table.code] ++ (e.sourceGroup.bytes ++ post)) (o + 22)
    (by simp [h, hip]) e.lastSeen.toNat_lt
  have hGroup := @Arr.ofSlice_append 4 e.sourceGroup
    (pre ++ e.ip.bytes ++ leBytes 2 e.port.toNat ++ leBytes 4 e.services.toNat ++ seen ++
      [e.table.code]) post (o + 31) (by simp [h, hip, hseen])
  have hCode : (pre ++ e.ip.bytes ++ leBytes 2 e.port.toNat ++ leBytes 4 e.services.toNat ++ seen ++
      ([e.table.code] ++ (e.sourceGroup.bytes ++ post))).getD (o + 30) 0 = e.table.code := by
    have hlen : (pre ++ e.ip.bytes ++ leBytes 2 e.port.toNat ++ leBytes 4 e.services.toNat ++
        seen).length = o + 30 := by simp [h, hip, hseen]
    rw [List.getD_eq_getElem?_getD, List.getElem?_append_right hlen.le, hlen, Nat.sub_self]
    rfl
  simp only [List.append_assoc] at hPort hServices hSeen hGroup hCode
  rw [readRec, hIp, hPort, hServices, hSeen, hGroup, hCode, Table.fromCode_code]
  simp only [UInt16.ofNat_toNat, UInt32.ofNat_toNat, UInt64.ofNat_toNat]
  rfl

omit [Crypto] in
theorem mapM_ok {ε α β : Type} {f : α → Except ε β} {g : α → β} {l : List α}
    (h : ∀ a ∈ l, f a = .ok (g a)) : l.mapM f = .ok (l.map g) := by
  induction l with
  | nil => rfl
  | cons a l ih =>
    obtain ⟨ha, hl⟩ := List.forall_mem_cons.mp h
    rw [List.mapM_cons, ha, ih hl]
    rfl

omit [Crypto] in
/-- The records are read back one after the other. -/
theorem mapM_readRec (l : List AddrEntry) (h : pre.length = o) :
    ((List.range l.length).mapM fun i ↦
      readRec (pre ++ (l.flatMap AddrEntry.bytes ++ post)) (o + i * peersRecBytes)) =
      .ok (l.map AddrEntry.peerRec) := by
  let d := (AddrEntry.new (Arr.zero 16) 0 false).peerRec
  have hread : ∀ i ∈ List.range l.length,
      readRec (pre ++ (l.flatMap AddrEntry.bytes ++ post)) (o + i * peersRecBytes) =
        .ok ((l.map AddrEntry.peerRec).getD i d) := by
    intro i hi
    have hi := List.mem_range.mp hi
    have hsplit : l.flatMap AddrEntry.bytes = (l.take i).flatMap AddrEntry.bytes ++
        (l[i].bytes ++ (l.drop (i + 1)).flatMap AddrEntry.bytes) := by
      rw [← List.flatMap_cons, ← List.flatMap_append, ← List.drop_eq_getElem_cons hi,
        List.take_append_drop]
    have hlen : (pre ++ (l.take i).flatMap AddrEntry.bytes).length = o + i * peersRecBytes := by
      rw [List.length_append, h, Reader.length_flatMap length_bytes, List.length_take_of_le hi.le]
    have hget := @readRec_append _ ((l.drop (i + 1)).flatMap AddrEntry.bytes ++ post) _ l[i] hlen
    simp only [List.append_assoc] at hget
    rw [hsplit]
    simp only [List.append_assoc]
    rw [hget, List.getD_eq_getElem?_getD, List.getElem?_map, List.getElem?_eq_getElem hi]
    rfl
  rw [mapM_ok hread]
  congr 1
  refine List.ext_getElem (by simp) fun i hi hi' ↦ ?_
  rw [List.getElem_map, List.getElem_range, List.getD_eq_getElem?_getD, List.getElem?_eq_getElem hi']
  rfl

/-- The header of the file. -/
def header (chainId : Arr 4) (n : Nat) : Bytes :=
  peersMagic ++ (leBytes 2 peersVersion.toNat ++ (chainId.bytes ++ leBytes 4 n))

omit [Crypto] in
theorem length_header (chainId : Arr 4) (n : Nat) :
    (header chainId n).length = peersHeaderBytes := by
  simp [header, peersMagic, chainId.length_eq, peersHeaderBytes]

/-- What the file holds before its digest. -/
def body (chainId : Arr 4) (l : List AddrEntry) : Bytes :=
  header chainId l.length ++ l.flatMap AddrEntry.bytes

omit [Crypto] in
theorem length_body (chainId : Arr 4) (l : List AddrEntry) :
    (body chainId l).length = peersHeaderBytes + l.length * peersRecBytes := by
  rw [body, List.length_append, length_header, Reader.length_flatMap length_bytes]

theorem encode_eq (entries : List AddrEntry) (chainId : Arr 4) :
    encode entries chainId = body chainId (entries.take (addrNewMax + addrTriedMax)) ++
      (Crypto.blake3 (body chainId (entries.take (addrNewMax + addrTriedMax)))).bytes := by
  have htake : entries.take (min entries.length (addrNewMax + addrTriedMax)) =
      entries.take (addrNewMax + addrTriedMax) := by
    rcases Nat.le_total entries.length (addrNewMax + addrTriedMax) with hle | hle
    · rw [Nat.min_eq_left hle, List.take_length, List.take_of_length_le hle]
    · rw [Nat.min_eq_right hle]
  simp only [encode, body, header, htake, List.length_take, List.append_assoc,
    Nat.min_comm (addrNewMax + addrTriedMax)]

/-- The file of as many entries as a book may have is read back. -/
theorem decode_body {l : List AddrEntry} (hle : l.length ≤ addrNewMax + addrTriedMax)
    (chainId : Arr 4) :
    decode (body chainId l ++ (Crypto.blake3 (body chainId l)).bytes) chainId =
      .ok (l.map AddrEntry.peerRec) := by
  have hdigest := (Crypto.blake3 (body chainId l)).length_eq
  have hbody := length_body chainId l
  have hlen : (body chainId l ++ (Crypto.blake3 (body chainId l)).bytes).length =
      peersHeaderBytes + l.length * peersRecBytes + peersDigestBytes := by
    rw [List.length_append, hbody, hdigest]
    rfl
  have hn : l.length < 256 ^ 4 := hle.trans_lt (by decide)
  have hcid := chainId.length_eq
  generalize hrest : l.flatMap AddrEntry.bytes ++ (Crypto.blake3 (body chainId l)).bytes = rest
  have hbuf : body chainId l ++ (Crypto.blake3 (body chainId l)).bytes = peersMagic ++
      (leBytes 2 peersVersion.toNat ++ (chainId.bytes ++ (leBytes 4 l.length ++ rest))) := by
    rw [← hrest]
    simp only [body, header, List.append_assoc]
  have hmagic : (body chainId l ++ (Crypto.blake3 (body chainId l)).bytes).take 8 = peersMagic := by
    rw [hbuf]
    exact List.take_left' rfl
  have hversion : leAt 2 8 (body chainId l ++ (Crypto.blake3 (body chainId l)).bytes) =
      peersVersion.toNat := by
    rw [hbuf]
    exact leAt_append 2 _ peersMagic _ rfl peersVersion.toNat_lt
  have hchain : Arr.ofSlice 4 10 (body chainId l ++ (Crypto.blake3 (body chainId l)).bytes) =
      chainId := by
    have h := @Arr.ofSlice_append 4 chainId (peersMagic ++ leBytes 2 peersVersion.toNat)
      (leBytes 4 l.length ++ rest) 10 rfl
    rw [hbuf]
    simpa only [List.append_assoc] using h
  have hcount : leAt 4 14 (body chainId l ++ (Crypto.blake3 (body chainId l)).bytes) = l.length := by
    have h := @leAt_append 4 l.length (peersMagic ++ leBytes 2 peersVersion.toNat ++ chainId.bytes)
      rest 14 (by simp [peersMagic, hcid]) hn
    rw [hbuf]
    simpa only [List.append_assoc] using h
  have hrecs := @mapM_readRec _ (Crypto.blake3 (body chainId l)).bytes _ l
    (length_header chainId l.length)
  rw [← List.append_assoc] at hrecs
  change (List.range l.length).mapM (fun i ↦ readRec (body chainId l ++ _) _) = _ at hrecs
  have htake := @List.take_left' _ _ (Crypto.blake3 (body chainId l)).bytes _ hbody
  have hdrop := @List.drop_left' _ _ (Crypto.blake3 (body chainId l)).bytes _ hbody
  have hmax : peersHeaderBytes + l.length * peersRecBytes + peersDigestBytes ≤ peersFileMax :=
    Nat.add_le_add_right (Nat.add_le_add_left (Nat.mul_le_mul_right _ hle) _) _
  have hmin : peersHeaderBytes + peersDigestBytes ≤
      peersHeaderBytes + l.length * peersRecBytes + peersDigestBytes :=
    Nat.add_le_add_right (Nat.le_add_right _ _) _
  simp only [decode, Except.bind_eq_ok, Except.require_eq_ok, hlen, hmagic, hversion, hchain, hcount,
    htake, hdrop]
  exact ⟨(), hmax, (), hmin, (), trivial, (), UInt16.ofNat_toNat, (), trivial, (), hle, (), trivial,
    (), trivial, hrecs⟩

theorem decode_encode (entries : List AddrEntry) (chainId : Arr 4) :
    decode (encode entries chainId) chainId =
      .ok ((entries.take (addrNewMax + addrTriedMax)).map AddrEntry.peerRec) := by
  rw [encode_eq]
  exact decode_body (List.length_take_le _ _) chainId

/-- Every entry is read back if there are no more than a book may have. -/
theorem decode_encode_iff (entries : List AddrEntry) (chainId : Arr 4) :
    decode (encode entries chainId) chainId = .ok (entries.map AddrEntry.peerRec) ↔
      entries.length ≤ addrNewMax + addrTriedMax := by
  rw [decode_encode, Except.ok.injEq]
  constructor
  · intro h
    have hlen := congrArg List.length h
    rw [List.length_map, List.length_map, List.length_take] at hlen
    exact hlen ▸ Nat.min_le_left _ _
  · intro hle
    rw [List.take_of_length_le hle]

/-- A file that is cut short is rejected. -/
theorem decode_prefix (entries : List AddrEntry) (chainId : Arr 4)
    (hpre : pre <+: encode entries chainId) (hne : pre ≠ encode entries chainId) :
    ∃ e, decode pre chainId = .error e := by
  cases hdec : decode pre chainId with
  | error e => exact ⟨e, rfl⟩
  | ok recs =>
    exfalso
    simp only [decode, Except.bind_eq_ok, Except.require_eq_ok] at hdec
    obtain ⟨_, -, _, hmin, _, -, _, -, _, -, _, -, _, hlen, -⟩ := hdec
    refine hne (hpre.eq_of_length ?_)
    -- the count is in the part that was kept
    obtain ⟨cut, hcut⟩ := hpre
    have hle : 18 ≤ pre.length := Nat.le_trans (by decide) hmin
    have hcount : leAt 4 14 pre = leAt 4 14 (encode entries chainId) := by
      rw [leAt, leAt, ← hcut, List.drop_append_of_le_length (Nat.le_trans (by decide) hle),
        List.take_append_of_le_length]
      rw [List.length_drop]
      exact Nat.le_sub_of_add_le hle
    have hfull := decode_encode entries chainId
    simp only [decode, Except.bind_eq_ok, Except.require_eq_ok] at hfull
    obtain ⟨_, -, _, -, _, -, _, -, _, -, _, -, _, hlen', -⟩ := hfull
    rw [hlen, hlen', hcount]

/-! ## The book on file -/

open AddrMan

/-- After any calls the index and the counts are those of the entries, and no file that is cut short
is read; the whole file is read back as all entries if there are no more than both tables may have,
as there are if no `restore` finds too many new ones. -/
theorem book_on_file (ops : List AddrOp) (chainId : Arr 4) :
    let m := AddrMan.new.run ops
    m.countersConsistent = true ∧
      (∀ k i, m.index.lookup k = some i ↔ m.entries[i]?.map AddrEntry.key = some k) ∧
      m.nNew = m.entries.countP (·.table = .new) ∧
      m.nTried = m.entries.countP (·.table = .tried) ∧
      (∀ g, m.newBySource.lookup g =
        if m.entries.countP (AddrEntry.NewFrom g ·) = 0 then none
        else some (m.entries.countP (AddrEntry.NewFrom g ·))) ∧
      m.nTried ≤ addrTriedMax ∧
      (∀ pre, pre <+: encode m.entries chainId → pre ≠ encode m.entries chainId →
        ∃ e, decode pre chainId = .error e) ∧
      (decode (encode m.entries chainId) chainId = .ok (m.entries.map AddrEntry.peerRec) ↔
        m.entries.length ≤ bookMax) ∧
      (RunInTime AddrMan.new ops → m.entries.length ≤ bookMax) := by
  intro m
  obtain ⟨h, hcap⟩ := run_kept ops .empty (Nat.zero_le _)
  exact ⟨h.countersConsistent, h.index, h.nNew, h.nTried, h.sources, hcap,
    fun _ ↦ decode_prefix m.entries chainId, decode_encode_iff m.entries chainId,
    length_run_le .empty (Nat.zero_le _) (Nat.zero_le _)⟩

omit [Crypto] in
/-- One address. -/
theorem book_on_file_tell : letI := Crypto.ofSignatures []
    (AddrMan.new.run [tell floodGroup 1]).entries.length ≤ bookMax :=
  let _ := Crypto.ofSignatures []
  (book_on_file [tell floodGroup 1] ⟨[1, 2, 3, 4], rfl⟩).2.2.2.2.2.2.2.2
    ⟨fun _ ↦ Nat.zero_le _, trivial⟩

/-! ## An overfull book -/

/-- The entry of an address that was heard of. -/
def heard (i : Nat) : AddrEntry := AddrEntry.new (host i) 1 false

/-- The entry of an address that was reached. -/
def met (i : Nat) : AddrEntry := { heard i with table := .tried }

variable {m : AddrMan} {i : Nat}

omit [Crypto] in
theorem entries_add (h : Consistent m) (habsent : ∀ e ∈ m.entries, e.key ≠ (host i, 1))
    (hroom : m.entries.countP (·.table = .new) < addrNewMax) :
    (m.run [.add (host i) 1 false 0]).entries = m.entries ++ [heard i] := by
  have hlookup := h.index.lookup_eq_none.mpr habsent
  rw [← h.nNew] at hroom
  show (m.add (host i) 1 false 0).1.entries = _
  rw [add, hlookup]
  dsimp only
  rw [if_neg hroom.not_ge, push_entries]
  rfl

omit [Crypto] in
theorem entries_meet (h : Consistent m) (habsent : ∀ e ∈ m.entries, e.key ≠ (host i, 1))
    (hroom : m.entries.countP (·.table = .new) < addrNewMax)
    (htried : m.entries.countP (·.table = .tried) < addrTriedMax) :
    (m.run [.add (host i) 1 false 0, .onHandshakeOk (host i) 1 0]).entries =
      m.entries ++ [met i] := by
  have hadd := entries_add h habsent hroom
  have hcap : m.nTried ≤ addrTriedMax := h.nTried ▸ htried.le
  have h' := (run_kept [.add (host i) 1 false 0] h hcap).1
  have hlast : (m.run [.add (host i) 1 false 0]).entries[m.entries.length]? = some (heard i) := by
    rw [hadd, List.getElem?_concat_length]
  have hlookup : (m.run [.add (host i) 1 false 0]).index.lookup (host i, 1) =
      some m.entries.length := h'.index.lookup_key hlast
  have hcount : (m.run [.add (host i) 1 false 0]).nTried + 1 ≤ addrTriedMax := by
    rw [h'.nTried, hadd, List.countP_append]
    exact htried
  show ((m.run [.add (host i) 1 false 0]).onHandshakeOk (host i) 1 0).entries = _
  rw [onHandshakeOk, hlookup]
  dsimp only
  rw [enforceTriedCap, Nat.sub_eq_zero_of_le ((promote_nTried_le _ _ _).trans hcount),
    enforceTriedCap.loop, promote_entries, hadd]
  have hlt : m.entries.length < (m.entries ++ [heard i]).length := by
    rw [List.length_append]
    exact Nat.lt_succ_self _
  rw [List.modify_eq_take_cons_drop hlt, List.take_left, List.getElem_concat_length rfl,
    List.drop_eq_nil_of_le (by rw [List.length_append]; exact Nat.le_refl _)]
  rfl

omit [Crypto] in
theorem entries_restore (h : Consistent m) (habsent : ∀ e ∈ m.entries, e.key ≠ (host i, 1))
    (htried : m.entries.countP (·.table = .tried) < addrTriedMax) :
    (m.run [.restore [(met i).peerRec] 0 false { s := 1 }]).entries = m.entries ++ [met i] := by
  have hlookup := h.index.lookup_eq_none.mpr habsent
  rw [← h.nTried] at htried
  show (m.restore [(met i).peerRec] 0 false { s := 1 }).1.entries = _
  show (restoreOne 0 false (m, _) (met i).peerRec).1.entries = _
  have hadm : admissible (met i).peerRec.ip (met i).peerRec.port false = true := admissible_host i
  have habs : m.index.lookup ((met i).peerRec.ip, (met i).peerRec.port) = none := hlookup
  have hage : ¬(0 : UInt64).toNat - (min (met i).peerRec.lastSeen 0).toNat > addrMaxAgeSecs := by
    rw [UInt64.toNat_zero, Nat.zero_sub]
    exact Nat.not_lt_zero _
  have hnew : ∀ P, ¬((met i).peerRec.table = .new ∧ P) := by
    rintro P ⟨⟨⟩, -⟩
  rw [restoreOne]
  dsimp only
  rw [if_neg (not_not_intro hadm), if_neg hage, habs, if_neg (by decide),
    if_neg fun hc ↦ htried.not_ge hc.2, if_neg (hnew _), if_neg (hnew _), push_entries]
  rfl

omit [Crypto] in
theorem countP_map_range' {p : AddrEntry → Bool} {ent : Nat → AddrEntry} (hp : ∀ i, p (ent i) = true)
    (start n : Nat) : ((List.range' start n).map ent).countP p = n := by
  rw [List.countP_eq_length.mpr, List.length_map, List.length_range']
  intro e he
  obtain ⟨i, -, rfl⟩ := List.mem_map.mp he
  exact hp i

omit [Crypto] in
theorem countP_map_range'_zero {p : AddrEntry → Bool} {ent : Nat → AddrEntry}
    (hp : ∀ i, p (ent i) = false) (start n : Nat) :
    ((List.range' start n).map ent).countP p = 0 := by
  rw [List.countP_eq_zero]
  intro e he
  obtain ⟨i, -, rfl⟩ := List.mem_map.mp he
  rw [hp i]
  exact Bool.false_ne_true

/-- A thousand addresses are reached, four thousand are heard of, the first one fails, and the record
of one that was reached comes out of a file. -/
def overfill : List AddrOp :=
  reachedOps ++ ((List.range' 0 1023).flatMap
      (fun i ↦ [.add (host i) 1 false 0, .onHandshakeOk (host i) 1 0]) ++
    ((List.range' 1023 4096).flatMap (fun i ↦ [.add (host i) 1 false 0]) ++
      ([.onFailure (host 65535) 1 true] ++
        [.restore [(met 65534).peerRec] 0 false { s := 1 }])))

omit [Crypto] in
/-- One entry more than both tables may have. -/
theorem entries_overfill : (AddrMan.new.run overfill).entries =
    told floodGroup 65535 :: ((List.range' 0 1023).map met ++ (List.range' 1023 4096).map heard) ++
      [met 65534] := by
  obtain ⟨h₀, hcap₀⟩ := run_kept reachedOps .empty (Nat.zero_le _)
  have hfresh : ∀ i, 0 ≤ i → i < 0 + 1023 → ∀ e ∈ (new.run reachedOps).entries, e.key ≠ (host i, 1) := by
    intro i _ hi e he heq
    rw [entries_reached, List.mem_singleton] at he
    subst he
    have hi' := host_inj (by decide) (hi.trans (by decide)) (Prod.ext_iff.mp heq).1
    exact absurd hi (hi' ▸ by decide)
  have hmet := entries_fill (fun i ↦ [.add (host i) 1 false 0, .onHandshakeOk (host i) 1 0]) met
    h₀ hcap₀ (fun _ ↦ rfl) (by decide) hfresh fun m' k hk h' hentries habsent ↦ by
      refine entries_meet h' habsent ?_ ?_
      · rw [hentries, entries_reached, List.countP_append, countP_map_range'_zero fun _ ↦ rfl]
        decide
      · rw [hentries, entries_reached, List.countP_append, countP_map_range' fun _ ↦ rfl]
        exact Nat.add_lt_add_left hk 1
  rw [entries_reached, List.singleton_append] at hmet
  obtain ⟨h₁, hcap₁⟩ := run_kept ((List.range' 0 1023).flatMap
    fun i ↦ [.add (host i) 1 false 0, .onHandshakeOk (host i) 1 0]) h₀ hcap₀
  rw [overfill, run_append, run_append, run_append, run_append]
  generalize ((new.run reachedOps).run ((List.range' 0 1023).flatMap
    fun i ↦ [.add (host i) 1 false 0, .onHandshakeOk (host i) 1 0])) = m₁ at hmet h₁ hcap₁ ⊢
  have hheard := entries_fill (fun i ↦ [.add (host i) 1 false 0]) heard
    h₁ hcap₁ (fun _ ↦ rfl) (by decide : 1023 + 4096 ≤ 65536) (fun i hi hlt e he heq ↦ by
      rw [hmet] at he
      rcases List.mem_cons.mp he with rfl | he
      · have hi' := host_inj (by decide) (hlt.trans (by decide)) (Prod.ext_iff.mp heq).1
        exact absurd hlt (hi' ▸ by decide)
      · obtain ⟨j, hj, rfl⟩ := List.mem_map.mp he
        have hj := (List.mem_range'_1.mp hj).2
        have hj' := host_inj (hj.trans (by decide)) (hlt.trans (by decide)) (Prod.ext_iff.mp heq).1
        omega) fun m' k hk h' hentries habsent ↦ by
      refine entries_add h' habsent ?_
      rw [hentries, hmet, List.countP_append, List.countP_cons, countP_map_range'_zero fun _ ↦ rfl,
        countP_map_range' fun _ ↦ rfl]
      simpa [reached, addrNewMax] using hk
  rw [hmet, List.cons_append] at hheard
  obtain ⟨h₂, hcap₂⟩ := run_kept ((List.range' 1023 4096).flatMap
    fun i ↦ [.add (host i) 1 false 0]) h₁ hcap₁
  generalize m₁.run ((List.range' 1023 4096).flatMap fun i ↦ [.add (host i) 1 false 0]) = m₂
    at hheard h₂ hcap₂ ⊢
  have hfailed := entries_third_failure h₂ hheard
  obtain ⟨h₃, -⟩ := run_kept [.onFailure (host 65535) 1 true] h₂ hcap₂
  rw [run_singleton m₂] at h₃ ⊢
  generalize m₂.apply (.onFailure (host 65535) 1 true) = m₃ at hfailed h₃ ⊢
  rw [← hfailed]
  refine entries_restore h₃ ?_ ?_
  · intro e he heq
    rw [hfailed] at he
    rcases List.mem_cons.mp he with rfl | he
    · exact absurd (host_inj (by decide) (by decide) (Prod.ext_iff.mp heq).1) (by decide)
    rcases List.mem_append.mp he with he | he
    · obtain ⟨j, hj, rfl⟩ := List.mem_map.mp he
      have hj := (List.mem_range'_1.mp hj).2
      have hj' := host_inj (hj.trans (by decide)) (by decide) (Prod.ext_iff.mp heq).1
      omega
    · obtain ⟨j, hj, rfl⟩ := List.mem_map.mp he
      have hj := (List.mem_range'_1.mp hj).2
      have hj' := host_inj (hj.trans (by decide)) (by decide) (Prod.ext_iff.mp heq).1
      omega
  · rw [hfailed, List.countP_cons, List.countP_append, countP_map_range' fun _ ↦ rfl,
      countP_map_range'_zero fun _ ↦ rfl]
    decide

omit [Crypto] in
/-- A book with too many entries is not all read back. -/
theorem decode_loses_entries : ¬ ∀ (_ : Crypto) (ops : List AddrOp) (chainId : Arr 4),
    decode (encode (AddrMan.new.run ops).entries chainId) chainId =
      .ok ((AddrMan.new.run ops).entries.map AddrEntry.peerRec) := by
  intro h
  let _ := Crypto.ofSignatures []
  have hle := (decode_encode_iff _ _).mp (h (Crypto.ofSignatures []) overfill ⟨[1, 2, 3, 4], rfl⟩)
  rw [entries_overfill] at hle
  simp only [List.length_append, List.length_cons, List.length_map, List.length_range',
    List.length_nil] at hle
  exact absurd hle (by decide)

end Persist

end Plaine.P2p

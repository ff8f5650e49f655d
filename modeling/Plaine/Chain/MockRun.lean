import Plaine.Chain.Mock
import Plaine.Chain.Rewind
import Plaine.Chain.Run

/-!
# Runs on the store in memory

The store in memory returns no header it was not given, and one that holds a genesis block is
a store to start from.
-/

namespace Plaine.Chain

open Plaine.Lib Plaine.Consensus

/-- `CountingPow` in the mode that fails the listed headers alone. -/
@[reducible]
def countingPow [Crypto] (reject : List Hash32) (cost : Nat) : PowVerifier where
  verify raw := headerHash raw ∉ reject
  costMicros := cost

section

variable [Crypto]

namespace MemStore

variable {s : MemStore} {r : HeaderRec}

/-- The headers of the store, of the chain or beside it. -/
def headers (s : MemStore) : Set HeaderRec :=
  { r | r ∈ s.canonical ∨ ∃ h, s.side.lookup h = some r }

@[simp] theorem headers_pruneUndo (s : MemStore) : s.pruneUndo.headers = s.headers := rfl

theorem headers_applyCommit {b : CommitBlock} (h : r ∈ (s.applyCommit b).headers) :
    r ∈ s.headers ∨ r = b.header := by
  have hpush : r ∈ (if b.height = s.canonical.length then s.canonical ++ [b.header]
      else s.canonical.set b.height b.header) → r ∈ s.headers ∨ r = b.header := by
    split
    · intro hr
      rcases List.mem_append.mp hr with hr | hr
      · exact .inl (.inl hr)
      · exact .inr (List.mem_singleton.mp hr)
    · exact fun hr ↦ (List.mem_or_eq_of_mem_set hr).imp_left .inl
  have hside : ∀ {k}, (s.side.erase b.hash).lookup k = some r → r ∈ s.headers := by
    intro k hk
    rcases eq_or_ne k b.hash with rfl | hne
    · rw [AList.lookup_erase] at hk
      cases hk
    · exact .inr ⟨k, by rwa [AList.lookup_erase_ne hne] at hk⟩
  unfold applyCommit at h
  dsimp only at h
  split at h
  all_goals
    rcases h with h | ⟨k, hk⟩
    · exact hpush h
    · exact .inl (hside hk)

theorem headers_foldl_applyCommit {bs : List CommitBlock}
    (h : r ∈ (bs.foldl applyCommit s).headers) :
    r ∈ s.headers ∨ r ∈ bs.map CommitBlock.header := by
  induction bs generalizing s with
  | nil => exact .inl h
  | cons b bs ih =>
    rw [List.map_cons, List.mem_cons]
    rcases ih h with h | h
    · exact (headers_applyCommit h).imp_right .inl
    · exact .inr (.inr h)

theorem headers_insert_side {q : HeaderRec} {k : Hash32}
    (h : r ∈ headers { s with side := s.side.insert k q }) : r ∈ s.headers ∨ r = q := by
  rcases h with h | ⟨j, hj⟩
  · exact .inl (.inl h)
  · rcases eq_or_ne j k with rfl | hne
    · rw [AList.lookup_insert] at hj
      exact .inr (Option.some.inj hj).symm
    · exact .inl (.inr ⟨j, by rwa [AList.lookup_insert_ne hne] at hj⟩)

theorem headers_popTip (h : r ∈ s.popTip.headers) : r ∈ s.headers := by
  unfold popTip at h
  rcases h with h | ⟨k, hk⟩
  · exact .inl (List.mem_of_mem_dropLast h)
  · dsimp only at hk
    split at hk
    · rename_i q hq
      rcases headers_insert_side (s := s) (.inr ⟨k, hk⟩) with h | rfl
      · exact h
      · exact .inl (List.mem_of_getLast? hq)
    · exact .inr ⟨k, hk⟩

theorem headers_rollbackAll {hs : List Nat} (h : r ∈ (rollbackAll hs s).2.headers) :
    r ∈ s.headers := by
  induction hs generalizing s with
  | nil => exact h
  | cons k hs ih =>
    unfold rollbackAll at h
    split at h
    · exact h
    · rename_i s' hs'
      simp only [rollbackOne, Except.bind_eq_ok] at hs'
      obtain ⟨recs, -, hs'⟩ := hs'
      cases hs'
      exact headers_popTip (s := { s with
        undo := s.undo.erase k
        accounts := writeUndo s.accounts recs }) (ih h)

theorem headers_popTo {rewindTo n : Nat} (h : r ∈ (popTo rewindTo n s).headers) :
    r ∈ s.headers := by
  induction n generalizing s with
  | zero => exact h
  | succ n ih =>
    unfold popTo at h
    split at h
    · exact headers_popTip (ih h)
    · exact h

instance : HeaderStore MemStore where
  held := headers
  headerAt h := .inl (List.mem_of_getElem? h)
  headerByHash h := by
    rcases Option.or_eq_some_iff.mp h with h | ⟨-, h⟩
    · exact .inl (List.mem_of_find?_eq_some h)
    · exact .inr ⟨_, h⟩
  sideHeadersFrom {s n k r} h := by
    have h := List.mem_of_mem_take h
    rw [List.mem_insertionSort, List.mem_filter, List.mem_map] at h
    obtain ⟨⟨e, he, rfl⟩, -⟩ := h
    exact .inr ⟨e.1, AList.mem_lookup_iff.mpr he⟩
  commitBlock h := headers_applyCommit h
  commitReorg {s p r} h := by
    dsimp only [Sink.commitReorg] at h
    split at h
    · rename_i e s' hs'
      exact .inl (headers_rollbackAll (show r ∈ (rollbackAll p.rollback s).2.headers by rw [hs']; exact h))
    · rename_i s' hs'
      refine (headers_foldl_applyCommit h).imp_left fun h ↦ ?_
      exact headers_rollbackAll (show r ∈ (rollbackAll p.rollback s).2.headers by rw [hs']; exact h)
  commitDeepReorg {s p r} h := by
    dsimp only [Sink.commitDeepReorg] at h
    split at h
    · exact .inl h
    · refine (headers_foldl_applyCommit h).imp_left fun h ↦ ?_
      have h : r ∈ (popTo p.rewindTo s.canonical.length { s with accounts := _ }).headers := h
      have hs := headers_popTo h
      exact hs
  storeSideHeader h := headers_insert_side h
  markInvalid h := h
  putAnchor h := h

/-- A store with a genesis block is one to start from. -/
theorem boots_withGenesis {D : Realm} {body : Bytes} {params : ChainParams}
    (hlimit : params.powLimit = D.powLimit)
    (h : withGenesis D.genesis body params = some s) : Boots D s := by
  simp only [withGenesis, Option.bind_eq_bind, Option.bind_eq_some_iff] at h
  obtain ⟨target, htarget, h⟩ := h
  cases h
  have hl : D.Linked [D.genesis] := by
    refine .genesis ?_
    rw [workOf, ← hlimit, htarget]
    rfl
  refine ⟨⟨_, hl, fun hr ↦ hr⟩, fun hr ↦ ⟨[], ?_⟩⟩
  rcases hr with hr | ⟨k, hk⟩
  · rw [List.mem_singleton.mp hr]
    exact hl
  · cases hk

end MemStore

end

/-- The headers of a list without collisions. -/
def Headers.ofList [Crypto] (raws : List RawHeader) (genesis : HeaderRec) (powLimit : Nat)
    (nodup : (raws.map headerHash).Nodup) (short : raws.length < 2 ^ 32)
    (mem : genesis.raw ∈ raws) (height : genesis.height = 0) : Headers where
  raws := { raw | raw ∈ raws }
  inj := fun _ h _ h' heq ↦ List.inj_on_of_nodup_map nodup h h' heq
  small := by
    have hle := Set.encard_coe_eq_coe_finsetCard raws.toFinset
    rw [List.coe_toFinset] at hle
    rw [hle]
    exact_mod_cast (List.toFinset_card_le raws).trans_lt short
  genesis := genesis
  genesis_mem := mem
  genesis_height := height
  powLimit := powLimit

/-! ## A small tree of blocks -/

namespace Scene

/-- The key whose signature makes a checkpoint. -/
def authority : Arr 32 :=
  .ofNat 32 0xea4a6c63e29c520abef5507b132ec5f9954776aebebe7b92421eea691446d22c

/-- The header of a block that pays the first reward, to the miner of `Sample`, and nothing
else. -/
def blockOn (prevHash : Hash32) (time : UInt64) : Header :=
  { Sample.firstHeader with prevHash, time }

/-- Genesis. -/
def genesis : RawHeader := Sample.genesisHeader.encode

/-- The hash of genesis. -/
def genesisHash : Hash32 :=
  .ofNat 32 0x343a705c9594c214ae69e14437fd3375535c20c0b64b33f2439a032906245c07

/-- A block on genesis. -/
def first : RawHeader := (blockOn genesisHash 1000060).encode

/-- Its hash. -/
def firstHash : Hash32 :=
  .ofNat 32 0x6cb0248112e13b4d65ce8a24d7340cfcd5ef85242523231ed1b4654ea96fc78f

/-- Another block on genesis, of a lower hash. -/
def rival : RawHeader := (blockOn genesisHash 1000110).encode

/-- Its hash. -/
def rivalHash : Hash32 :=
  .ofNat 32 0x097fc27909ecc09412905734bb761547d775284f3e937c1f15340f666b730904

/-- The body of both. -/
def body : Bytes := Sample.firstBody

/-- A block on the first one. -/
def second : RawHeader :=
  { blockOn firstHash 1000120 with
    height := 2
    txRoot := .ofNat 32 0xff4b4fbd6393984d36afc506a03cc67aae67a0833b21b76d497004f219c84e54 }.encode

/-- Its hash. -/
def secondHash : Hash32 :=
  .ofNat 32 0x1b82fd9153d202b94b85da55ec9954d74953fc422707854e2c27177ac3747e85

/-- A block on the second one, with the bits that fit the rival's time. -/
def third : RawHeader :=
  { blockOn secondHash 1000180 with
    height := 3
    bits := 0x1f00fd8d
    txRoot := .ofNat 32 0x0c30c7251bfbb417b17a52ed7bd9bec63d305f5767918c24297a28b310309e2c }.encode

/-- Its hash. -/
def thirdHash : Hash32 :=
  .ofNat 32 0x6eed974124a0f5670efed82c045495eb13711ef15d3609ccc8b1a371160d437a

/-- The checkpoint for the first block. -/
def checkpoint : SignedCheckpoint where
  height := 1
  hash := firstHash
  sigs := [⟨authority, .ofNat 64
    0xc3f6df0a53517fd950246fd8981608d865f61a1a0a593e93510fa46d5654641cb36dda0e1c5b63e8023c4e43e5f0ecdc299b9ad9950e4f872397adc75fdf110c⟩]

/-- The primitives, with the checkpoint's signature known to verify. -/
@[reducible]
def crypto : Crypto :=
  .ofSignatures (checkpoint.sigs.map fun s ↦ (s.pubkey, checkpointMessage 1 firstHash, s.sig))

/-- The default parameters, with an authority for checkpoints. -/
def params : ChainParams := { Sample.params with authorityKeys := [authority] }

/-- The cost of a proof of work, `INTERPRETER_COST_MICROS`, and every proof good. -/
@[reducible]
def pow : PowVerifier :=
  @countingPow crypto [] 2000

/-- A manager on a store with the genesis block. -/
def boot (params : ChainParams) : Option (@World crypto (@MemStore crypto)) :=
  letI := crypto
  letI := pow
  do
    let s ← MemStore.withGenesis (.fromRaw genesis) Sample.genesisBody params
    let m ← (Manager.new s params).toOption
    return ⟨m, s⟩

/-- The manager after a list of operations. -/
def run (params : ChainParams) (ops : List Op) : Option (@World crypto (@MemStore crypto)) :=
  letI := crypto
  letI := pow
  (boot params).bind fun w ↦ ops.foldlM Op.exec w

/-- The headers of the tree. -/
def raws : List RawHeader := [genesis, first, rival, second, third]

theorem hashes : letI := crypto
    raws.map headerHash = [genesisHash, firstHash, rivalHash, secondHash, thirdHash] := by
  decide +kernel

/-- The headers of the tree. -/
def headers : @Headers crypto :=
  letI := crypto
  .ofList raws (.fromRaw genesis) params.powLimit (by rw [hashes]; decide) (by decide)
    List.mem_cons_self (by decide +kernel)

/-- The store with the genesis block is one to start from. -/
theorem boots {D : @Realm crypto} (hD : @Realm.toHeaders crypto D = headers) {params : ChainParams}
    (hlimit : params.powLimit = Scene.params.powLimit)
    {w : @World crypto (@MemStore crypto)} (h : boot params = some w) :
    letI := crypto
    letI := pow
    Boots D w.store ∧ Manager.new w.store params = .ok w.chain := by
  let _ := crypto
  let _ := pow
  obtain ⟨H, checked⟩ := D
  obtain rfl : H = headers := hD
  simp only [boot, Option.bind_eq_bind, Option.bind_eq_some_iff] at h
  obtain ⟨s, hs, m, hm, h⟩ := h
  cases h
  have hm' : Manager.new s params = .ok m := by
    cases hnew : Manager.new s params with
    | error e => rw [hnew] at hm; cases hm
    | ok m' => rw [hnew] at hm; exact congrArg _ (Option.some.inj hm)
  exact ⟨MemStore.boots_withGenesis (D := ⟨headers, checked⟩) hlimit hs, hm'⟩

/-- A run of operations on it. -/
theorem reachable_run {D : @Realm crypto} (hD : @Realm.toHeaders crypto D = headers) {params : ChainParams}
    (hlimit : params.powLimit = Scene.params.powLimit) {ops : List Op}
    (hraws : ∀ op ∈ ops, ∀ raw ∈ op.raws, raw ∈ raws)
    {w : @World crypto (@MemStore crypto)} (h : run params ops = some w) :
    letI := crypto
    letI := pow
    Reachable D params (fun _ _ ↦ True) w := by
  let _ := crypto
  let _ := pow
  obtain ⟨w₀, hboot, hrun⟩ := Option.bind_eq_some_iff.mp h
  obtain ⟨hs, hm⟩ := boots hD hlimit hboot
  refine (Reachable.boot hs hm).foldlM (fun op hop raw hraw ↦ ?_) hrun
  rw [hD]
  exact hraws op hop raw hraw

/-- Headers from a source, all of them asked for. -/
def deliver (raws : List RawHeader) : Op := .submitHeaders 1000200 1000 1 raws .solicitedIbd

/-- The first block is adopted, and its rival takes its place on the lower hash. -/
def reorgOps : List Op :=
  [deliver [first], .submitBlock firstHash body, .advance 1000200,
    deliver [rival], .submitBlock rivalHash body, .advance 1000200]

theorem raws_reorgOps : ∀ op ∈ reorgOps, ∀ raw ∈ op.raws, raw ∈ raws := by
  simp [reorgOps, deliver, Op.raws, raws]

theorem run_reorgOps : letI := crypto
    (run params reorgOps).map (fun w ↦ (w.chain.index.canonical, w.chain.tip.hash)) =
      some ([0, 2], rivalHash) := by decide +kernel

end Scene

end Plaine.Chain

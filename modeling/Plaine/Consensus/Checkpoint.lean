import Plaine.Consensus.Blake3
import Plaine.Consensus.Codec
import Plaine.Consensus.Rules
import Plaine.Lib.Reader
import Plaine.Lib.Slices
import Plaine.Lib.Tally

/-!
# Checkpoint records

`checkpoint_record.rs` writes a signed checkpoint as a version, the height, the hash, and as many
signatures with their keys as the count before them says; what it reads is what it writes.
`verify_checkpoint` counts the authority keys whose first signature in the record is good.
-/

namespace Plaine.Consensus

open Plaine.Lib Plaine.Lib.Slices

namespace CheckpointRecord

/-- `VERSION`. -/
def version : UInt8 := 1

/-- `SIGS_MAX`. -/
def sigsMax : Nat := 15

/-- `HEAD` of `decode`. -/
def head : Nat := 1 + 8 + 32 + 1

/-- `MAX_BYTES`. -/
def maxBytes : Nat := 1 + 8 + 32 + 1 + sigsMax * 96

/-- `RecordError`. -/
inductive RecordError where
  | version (v : UInt8)
  | truncated (got want : Nat)
  | tooManySignatures (n : Nat)
  | trailingBytes (n : Nat)
deriving DecidableEq

/-- A key and its signature. -/
def sigBytes (s : CheckpointSig) : Bytes := s.pubkey.bytes ++ s.sig.bytes

/-- `checkpoint_record::encode`. -/
def encode (cp : SignedCheckpoint) : Bytes :=
  let n := min cp.sigs.length sigsMax
  version :: leBytes 8 cp.height ++ cp.hash.bytes ++ [UInt8.ofNat n] ++
    (cp.sigs.take n).flatMap sigBytes

/-- The key and the signature at an offset. -/
def sigAt (raw : Bytes) (at_ : Nat) : CheckpointSig :=
  ⟨Arr.ofSlice 32 at_ raw, Arr.ofSlice 64 (at_ + 32) raw⟩

/-- `checkpoint_record::decode`. -/
def decode (raw : Bytes) : Except RecordError SignedCheckpoint := do
  Except.require (head ≤ raw.length) (.truncated raw.length head)
  Except.require (byteAt 0 raw = version) (.version (byteAt 0 raw))
  let height := leAt 8 1 raw
  let hash := Arr.ofSlice 32 9 raw
  let n := (byteAt 41 raw).toNat
  Except.require (n ≤ sigsMax) (.tooManySignatures n)
  let want := head + n * 96
  Except.require (want ≤ raw.length) (.truncated raw.length want)
  Except.require (raw.length ≤ want) (.trailingBytes (raw.length - want))
  return ⟨height, hash, (List.range n).map fun i ↦ sigAt raw (head + i * 96)⟩

/-- A record with a height of 64 bits and no more signatures than the count holds. -/
structure Legal (cp : SignedCheckpoint) : Prop where
  height : cp.height < 2 ^ 64
  sigs : cp.sigs.length ≤ sigsMax

variable {cp : SignedCheckpoint} {raw : Bytes}

theorem length_sigBytes (s : CheckpointSig) : (sigBytes s).length = 96 := by
  rw [sigBytes, List.length_append, s.pubkey.length_eq, s.sig.length_eq]

theorem encode_of_le (h : cp.sigs.length ≤ sigsMax) : encode cp =
    version :: (leBytes 8 cp.height ++ (cp.hash.bytes ++
      (UInt8.ofNat cp.sigs.length :: (cp.sigs.flatMap sigBytes)))) := by
  rw [encode, Nat.min_eq_left h, List.take_length]
  simp only [List.cons_append, List.append_assoc, List.nil_append]

/-- The length is a function of the number of signatures alone. -/
theorem length_encode (cp : SignedCheckpoint) :
    (encode cp).length = head + min cp.sigs.length sigsMax * 96 := by
  have hsigs := Reader.length_flatMap length_sigBytes (cp.sigs.take (min cp.sigs.length sigsMax))
  rw [List.length_take, Nat.min_eq_left (Nat.min_le_left _ _)] at hsigs
  simp only [encode, List.length_append, List.length_cons, length_leBytes, cp.hash.length_eq, hsigs,
    List.length_nil, head]

theorem length_encode_le (cp : SignedCheckpoint) : (encode cp).length ≤ maxBytes := by
  rw [length_encode]
  exact Nat.add_le_add_left (Nat.mul_le_mul_right 96 (Nat.min_le_right _ _)) head

/-- A key and its signature, and what is behind them. -/
theorem drop_eq_sigBytes {lo : Nat} {s : CheckpointSig} {r : Bytes} (h : lo + 96 ≤ raw.length) :
    raw.drop lo = sigBytes s ++ r ↔ sigAt raw lo = s ∧ raw.drop (lo + 96) = r := by
  obtain ⟨pubkey, sig⟩ := s
  rw [sigBytes, List.append_assoc, drop_eq_bytes (by omega), drop_eq_bytes (by omega), ← and_assoc,
    sigAt, CheckpointSig.mk.injEq]

/-- The fields of a record, and nothing behind them. -/
theorem eq_encode (hlen : raw.length = head + cp.sigs.length * 96) (hcp : Legal cp) :
    (byteAt 0 raw = version ∧ leAt 8 1 raw = cp.height ∧ Arr.ofSlice 32 9 raw = cp.hash ∧
      byteAt 41 raw = UInt8.ofNat cp.sigs.length ∧
      (List.range cp.sigs.length).map (fun i ↦ sigAt raw (head + i * 96)) = cp.sigs) ↔
    raw = encode cp := by
  have hlen : raw.length = 42 + cp.sigs.length * 96 := hlen
  have hfields : raw.drop 0 = encode cp ++ [] ↔ byteAt 0 raw = version ∧
      leAt 8 1 raw = cp.height ∧ Arr.ofSlice 32 9 raw = cp.hash ∧
        byteAt 41 raw = UInt8.ofNat cp.sigs.length ∧
          (List.range cp.sigs.length).map (fun i ↦ sigAt raw (head + i * 96)) = cp.sigs := by
    rw [encode_of_le hcp.sigs]
    simp only [List.cons_append, List.append_assoc]
    rw [drop_eq_cons (by omega), drop_eq_leBytes (by omega) hcp.height, drop_eq_bytes (by omega),
      drop_eq_cons (by omega), drop_eq_flatMap (fun lo s r hlo ↦ drop_eq_sigBytes hlo) (by omega),
      drop_eq_nil (by omega), and_true]
    rfl
  rw [List.drop_zero, List.append_nil] at hfields
  exact hfields.symm

/-- What is decoded is what is encoded. -/
theorem decode_eq_ok : decode raw = .ok cp ↔ Legal cp ∧ encode cp = raw := by
  unfold decode
  simp only [Except.bind_eq_ok, Except.require_eq_ok]
  constructor
  · rintro ⟨-, hhead, -, hversion, -, hmax, -, hwant, -, hend, heq⟩
    obtain rfl := Except.ok.inj heq
    have hlen : raw.length = head + (byteAt 41 raw).toNat * 96 := le_antisymm hend hwant
    have hn : ((List.range (byteAt 41 raw).toNat).map fun i ↦
      sigAt raw (head + i * 96)).length = (byteAt 41 raw).toNat := by
      rw [List.length_map, List.length_range]
    have hlegal : Legal ⟨leAt 8 1 raw, Arr.ofSlice 32 9 raw,
        (List.range (byteAt 41 raw).toNat).map fun i ↦ sigAt raw (head + i * 96)⟩ := by
      refine ⟨(ofLe_lt _).trans_le ?_, hn.trans_le hmax⟩
      exact Nat.pow_le_pow_right (by decide) (List.length_take_le 8 _)
    refine ⟨hlegal, ((eq_encode (hn.symm ▸ hlen) hlegal).mp ⟨hversion, rfl, rfl, ?_, ?_⟩).symm⟩
    · rw [hn, UInt8.ofNat_toNat]
    · rw [hn]
  · rintro ⟨hlegal, rfl⟩
    have hlen : (encode cp).length = head + cp.sigs.length * 96 := by
      rw [length_encode, Nat.min_eq_left hlegal.sigs]
    obtain ⟨hversion, hheight, hhash, hcount, hsigs⟩ := (eq_encode hlen hlegal).mpr rfl
    have hn : (byteAt 41 (encode cp)).toNat = cp.sigs.length := by
      rw [hcount, UInt8.toNat_ofNat_of_lt' (hlegal.sigs.trans_lt (by decide))]
    rw [hn, hlen, hheight, hhash, hsigs]
    exact ⟨(), Nat.le_add_right _ _, (), hversion, (), hlegal.sigs, (), le_rfl, (), le_rfl, rfl⟩

end CheckpointRecord

/-! ## The threshold -/

section

variable [Crypto] {cp cp' : SignedCheckpoint} {authorityKeys : List (Arr 32)} {threshold : Nat}

/-- Whether a signature of a record is good. -/
def goodSig (msg : Bytes) (s : CheckpointSig) : Bool :=
  Crypto.validKey s.pubkey && Crypto.verifyStrict s.pubkey msg s.sig

/-- The authority keys whose first signature in a record is valid over its content. -/
def signers (cp : SignedCheckpoint) (authorityKeys : List (Arr 32)) : Finset (Arr 32) :=
  Tally.voters (·.pubkey) (goodSig (checkpointMessage cp.height cp.hash)) authorityKeys.toFinset
    cp.sigs

theorem mem_signers {k : Arr 32} : k ∈ signers cp authorityKeys ↔ k ∈ authorityKeys ∧
    ∃ s, cp.sigs.find? (·.pubkey = k) = some s ∧ Crypto.validKey k = true ∧
      Crypto.verifyStrict k (checkpointMessage cp.height cp.hash) s.sig = true := by
  rw [signers, Tally.voters, Finset.mem_filter, List.mem_toFinset, Tally.elects, Option.any_eq_true]
  refine and_congr_right fun _ ↦ exists_congr fun s ↦ and_congr_right fun hs ↦ ?_
  obtain rfl : s.pubkey = k := by simpa using List.find?_some hs
  rw [goodSig, Bool.and_eq_true]

/-- The keys that were tried are those struck off the roll. -/
theorem countVotes_eq (authorityKeys : List (Arr 32)) (threshold : Nat) (msg : Bytes)
    (tried : List (Arr 32)) (valid : Nat) (sigs : List CheckpointSig) :
    countVotes authorityKeys threshold msg tried valid sigs =
      Tally.reaches (·.pubkey) (goodSig msg) threshold (authorityKeys.toFinset \ tried.toFinset)
        valid sigs := by
  induction sigs generalizing tried valid with
  | nil => rfl
  | cons s sigs ih =>
    have hroll : s.pubkey ∈ authorityKeys.toFinset \ tried.toFinset ↔
        ¬(s.pubkey ∉ authorityKeys ∨ s.pubkey ∈ tried) := by
      simp [not_or]
    have herase : (authorityKeys.toFinset \ tried.toFinset).erase s.pubkey =
        authorityKeys.toFinset \ (s.pubkey :: tried).toFinset := by
      rw [List.toFinset_cons, Finset.sdiff_insert]
    rw [countVotes, Tally.reaches, herase]
    by_cases hskip : s.pubkey ∉ authorityKeys ∨ s.pubkey ∈ tried
    · rw [if_pos hskip, if_neg (fun h ↦ hroll.mp h hskip), ih]
    · rw [if_neg hskip, if_pos (hroll.mpr hskip), ih, ih]
      simp only [goodSig, Bool.and_eq_true]

/-- Enough distinct authority keys have signed. -/
theorem verifyCheckpoint_iff (hhash : cp.hash ≠ zeroHash) (hheight : cp.height < checkpointSunsetHeight)
    (hsigs : cp.sigs.length ≤ authorityKeys.length) (hpos : 1 ≤ threshold)
    (hle : threshold ≤ authorityKeys.length) :
    verifyCheckpoint cp authorityKeys threshold = true ↔
      threshold ≤ (signers cp authorityKeys).card := by
  have hkeys : ¬(authorityKeys = [] ∨ threshold = 0 ∨ authorityKeys.length < threshold) := by
    rintro (rfl | rfl | hlt)
    · exact absurd (hpos.trans hle) (Nat.not_succ_le_zero 0)
    · exact absurd hpos (Nat.not_succ_le_zero 0)
    · exact absurd hle (Nat.not_le.mpr hlt)
  rw [verifyCheckpoint, if_neg hkeys, if_neg (Nat.not_lt.mpr hsigs), if_neg hhash,
    if_neg (Nat.not_le.mpr hheight), countVotes_eq, List.toFinset_nil, Finset.sdiff_empty,
    Tally.reaches_iff hpos, Nat.zero_add, signers]

/-- Only the first signatures by authority keys count. -/
theorem signers_congr (hheight : cp.height = cp'.height) (hhash : cp.hash = cp'.hash)
    (hfirst : ∀ k ∈ authorityKeys,
      cp.sigs.find? (·.pubkey = k) = cp'.sigs.find? (·.pubkey = k)) :
    signers cp authorityKeys = signers cp' authorityKeys := by
  rw [signers, signers, hheight, hhash]
  exact Tally.voters_congr fun k hk ↦ hfirst k (List.mem_toFinset.mp hk)

/-- The bounds under which `verify_checkpoint` looks at the signatures. -/
structure Countable (cp : SignedCheckpoint) (authorityKeys : List (Arr 32)) : Prop where
  hash : cp.hash ≠ zeroHash
  height : cp.height < checkpointSunsetHeight
  sigs : cp.sigs.length ≤ authorityKeys.length

/-- Checkpoint records.  What is decoded is exactly what was encoded; and a record is accepted if and
only if enough distinct authority keys have their first signature valid over its content, which
depends on nothing but those first signatures. -/
theorem checkpointRecord_spec :
    (∀ raw cp, CheckpointRecord.decode raw = .ok cp ↔
      CheckpointRecord.Legal cp ∧ CheckpointRecord.encode cp = raw) ∧
    (∀ (cp : SignedCheckpoint) (authorityKeys : List (Arr 32)) (threshold : Nat),
      Countable cp authorityKeys → 1 ≤ threshold → threshold ≤ authorityKeys.length →
        (verifyCheckpoint cp authorityKeys threshold = true ↔
          threshold ≤ (signers cp authorityKeys).card)) ∧
    ∀ (cp cp' : SignedCheckpoint) (authorityKeys : List (Arr 32)) (threshold : Nat),
      Countable cp authorityKeys → Countable cp' authorityKeys → 1 ≤ threshold →
      threshold ≤ authorityKeys.length → cp.height = cp'.height → cp.hash = cp'.hash →
      (∀ k ∈ authorityKeys, cp.sigs.find? (·.pubkey = k) = cp'.sigs.find? (·.pubkey = k)) →
        verifyCheckpoint cp authorityKeys threshold = verifyCheckpoint cp' authorityKeys threshold := by
  refine ⟨fun raw cp ↦ CheckpointRecord.decode_eq_ok, ?_, ?_⟩
  · intro cp authorityKeys threshold hcp hpos hle
    exact verifyCheckpoint_iff hcp.hash hcp.height hcp.sigs hpos hle
  · intro cp cp' authorityKeys threshold hcp hcp' hpos hle hheight hhash hfirst
    rw [Bool.eq_iff_iff, verifyCheckpoint_iff hcp.hash hcp.height hcp.sigs hpos hle,
      verifyCheckpoint_iff hcp'.hash hcp'.height hcp'.sigs hpos hle,
      signers_congr hheight hhash hfirst]

end

namespace Checkpoint

/-- Two authority keys, and a key that is none. -/
def first : Arr 32 := Arr.ofNat 32 1
def second : Arr 32 := Arr.ofNat 32 2
def stranger : Arr 32 := Arr.ofNat 32 3

/-- A record that the first key signed badly before it signed well, the second signed once, and a
stranger signed as well. -/
def record : SignedCheckpoint where
  height := 10
  hash := Arr.ofNat 32 7
  sigs := [⟨first, Arr.zero 64⟩, ⟨stranger, Arr.ofNat 64 1⟩, ⟨second, Arr.ofNat 64 1⟩,
    ⟨first, Arr.ofNat 64 1⟩]

/-- The record as it was signed. -/
def message : Bytes := checkpointMessage 10 (Arr.ofNat 32 7)

/-- Two more authorities, who did not sign. -/
def authorities : List (Arr 32) := [first, second, Arr.ofNat 32 4, Arr.ofNat 32 5]

end Checkpoint

/-- The second key alone counts. -/
theorem checkpointRecord_spec_record :
    letI := Crypto.ofSignatures [(Checkpoint.first, Checkpoint.message, Arr.ofNat 64 1),
      (Checkpoint.second, Checkpoint.message, Arr.ofNat 64 1),
      (Checkpoint.stranger, Checkpoint.message, Arr.ofNat 64 1)]
    verifyCheckpoint Checkpoint.record Checkpoint.authorities 1 = true ∧
      verifyCheckpoint Checkpoint.record Checkpoint.authorities 2 = false := by
  let _ := Crypto.ofSignatures [(Checkpoint.first, Checkpoint.message, Arr.ofNat 64 1),
    (Checkpoint.second, Checkpoint.message, Arr.ofNat 64 1),
    (Checkpoint.stranger, Checkpoint.message, Arr.ofNat 64 1)]
  have hcount : Countable Checkpoint.record Checkpoint.authorities :=
    ⟨by decide, by decide, by decide⟩
  have hsigners : (signers Checkpoint.record Checkpoint.authorities).card = 1 := by decide +kernel
  have hspec := checkpointRecord_spec.2.1 Checkpoint.record Checkpoint.authorities
  refine ⟨(hspec 1 hcount le_rfl (by decide)).mpr hsigners.ge, ?_⟩
  rw [Bool.eq_false_iff]
  intro htwo
  have hle := (hspec 2 hcount (by decide) (by decide)).mp htwo
  rw [hsigners] at hle
  exact absurd hle (by decide)

end Plaine.Consensus

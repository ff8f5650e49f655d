import Plaine.Consensus.Blake3
import Plaine.Lib.Result
import Plaine.Wallet.Sechex

/-!
# Backup strings

`wallet/src/sechex.rs`: a seed in 64 digits, and four digits more to check it by.

A slip of one digit makes the string of another seed or of another check, so what is refused is told
by the checks of the two seeds.  A check has two bytes of a hash: there are seeds one digit apart that
have the same.
-/

namespace Plaine.Wallet.Sechex

open Plaine.Lib Plaine.Lib.Text Plaine.Consensus

/-- `TAG_BACKUP_CHECK`. -/
def tagBackupCheck : Bytes :=
  [0x50, 0x4C, 0x4E, 0x45, 0x2D, 0x77, 0x61, 0x6C, 0x6C, 0x65, 0x74, 0x2D, 0x62, 0x61, 0x63, 0x6B,
    0x75, 0x70, 0x2D, 0x63, 0x68, 0x65, 0x63, 0x6B, 0x2D, 0x76, 0x31]

/-- `BACKUP_CHECK_DIGITS`. -/
def backupCheckDigits : Nat := 4

/-- `SeedSource`. -/
inductive SeedSource where
  | checked
  | unchecked
deriving DecidableEq

/-- The errors of `decode_seed` and `decode_backup`. -/
inductive BackupError where
  | hex (e : HexError)
  | seedLength (len : Nat)
  | checkNotHex
  | mismatch
deriving DecidableEq

/-- `decode_seed`. -/
def decodeSeed (s : Text) : Except BackupError (Arr 32) := do
  let v ← (decode s).mapError .hex
  if h : v.length = 32 then return ⟨v, h⟩ else throw (.seedLength v.length)

/-- `ct_eq`. -/
def ctEq (a b : Bytes) : Bool :=
  a.length = b.length && (List.zipWith (· ^^^ ·) a b).foldl (· ||| ·) 0 = 0

section Code

variable [Crypto]

/-- `backup_check`. -/
def backupCheck (seed : Bytes) : Bytes := (Crypto.blake3 (tagBackupCheck ++ seed)).bytes.take 2

/-- `encode_backup`. -/
def encodeBackup (seed : Arr 32) : Text := encode seed.bytes ++ encode (backupCheck seed.bytes)

/-- `decode_backup`. -/
def decodeBackup (s : Text) : Except BackupError (Arr 32 × SeedSource) := do
  if (asBytes s).length = 64 + backupCheckDigits ∧ isAscii s then
    let seed ← decodeSeed (s.take 64)
    let given ← (decode (s.drop 64)).mapError fun _ ↦ .checkNotHex
    if ctEq given (backupCheck seed.bytes) then return (seed, .checked) else throw .mismatch
  else
    return (← decodeSeed s, .unchecked)

end Code

/-! ## Digits in either case -/

variable {b c : Bytes} {t : Text} {v : UInt8} {i : Nat}

/-- The digit of a value. -/
def digit (v : UInt8) : Char := asChar (nibbleToAscii v)

@[simp] theorem encode_nil : encode [] = [] := rfl

@[simp] theorem encode_cons {x : UInt8} :
    encode (x :: b) = digit (x >>> 4) :: digit (x &&& 0x0f) :: encode b := rfl

theorem encode_append : encode (b ++ c) = encode b ++ encode c := List.flatMap_append

@[simp] theorem length_encode : (encode b).length = 2 * b.length := by
  induction b with
  | nil => rfl
  | cons x b ih =>
    simp only [encode_cons, List.length_cons, ih]
    omega

/-- A character whose small form is a digit is read as that digit. -/
theorem asciiToNibble_of_toLower {c : Char} (h : c.toLower = digit v) (hv : v < 16) :
    String.utf8EncodeChar c = [c.toUInt8] ∧ asciiToNibble c.toUInt8 = (v, 1) ∧ c.toNat < 128 := by
  have hdigit : ∀ v : UInt8, v < 16 → (digit v).toNat < 128 := by decide +kernel
  have hsmall : c.toNat < 128 := by
    have hle : c.toNat ≤ c.toLower.toNat := by
      delta Char.toLower
      split
      case isTrue hc =>
        change c.val.toNat ≤ (c.val + 32).toNat
        have hle : c.val.toNat ≤ 90 := hc.2
        rw [UInt32.toNat_add]
        exact (Nat.le_add_right _ _).trans_eq (Nat.mod_eq_of_lt (by
          change c.val.toNat + 32 < 4294967296
          omega)).symm
      case isFalse => exact le_rfl
    rw [h] at hle
    exact hle.trans_lt (hdigit v hv)
  have hall : ∀ n < 128, ∀ k < 16, (Char.ofNat n).toLower = digit (.ofNat k) →
      asciiToNibble (Char.ofNat n).toUInt8 = (.ofNat k, 1) ∧
        String.utf8EncodeChar (Char.ofNat n) = [(Char.ofNat n).toUInt8] := by
    decide +kernel
  rw [← Char.ofNat_toNat c, ← UInt8.ofNat_toNat (x := v)] at h
  obtain ⟨hread, hone⟩ := hall c.toNat hsmall v.toNat (UInt8.lt_iff_toNat_lt.mp hv) h
  rw [Char.ofNat_toNat, UInt8.ofNat_toNat] at hread
  rw [Char.ofNat_toNat] at hone
  exact ⟨hone, hread, hsmall⟩

/-- What is written is read back from digits in either case. -/
theorem decodePairs_of_toLower (h : t.map Char.toLower = encode b) :
    decodePairs 1 (asBytes t) = (b, 1) ∧ (asBytes t).length = 2 * b.length ∧ isAscii t = true := by
  induction b generalizing t with
  | nil =>
    rw [encode_nil, List.map_eq_nil_iff] at h
    subst h
    exact ⟨rfl, rfl, rfl⟩
  | cons x b ih =>
    obtain ⟨c, t, rfl, hc, ht⟩ := List.map_eq_cons_iff.mp h
    obtain ⟨d, t, rfl, hd, ht⟩ := List.map_eq_cons_iff.mp ht
    obtain ⟨hhi, hlo, hjoin⟩ := nibbles x
    obtain ⟨hc1, hc2, hc3⟩ := asciiToNibble_of_toLower hc hhi
    obtain ⟨hd1, hd2, hd3⟩ := asciiToNibble_of_toLower hd hlo
    obtain ⟨hpairs, hlen, hascii⟩ := ih ht
    have hsplit : asBytes (c :: d :: t) = c.toUInt8 :: d.toUInt8 :: asBytes t := by
      rw [asBytes, List.flatMap_cons, List.flatMap_cons, hc1, hd1]
      rfl
    refine ⟨?_, ?_, ?_⟩
    · rw [hsplit, decodePairs, hc2, hd2]
      change (_ :: (decodePairs 1 (asBytes t)).1, (decodePairs 1 (asBytes t)).2) = _
      rw [hpairs, hjoin]
    · rw [hsplit, List.length_cons, List.length_cons, hlen, List.length_cons]
      omega
    · rw [isAscii, List.all_cons, List.all_cons, decide_eq_true hc3, decide_eq_true hd3]
      exact hascii

theorem decode_of_toLower (h : t.map Char.toLower = encode b) : decode t = .ok b := by
  obtain ⟨hpairs, hlen, -⟩ := decodePairs_of_toLower h
  unfold decode
  dsimp only
  rw [hlen, if_neg (not_not_intro (Nat.mul_mod_right 2 _)), hpairs, if_neg (not_not_intro rfl)]

/-! ## Slips -/

/-- The bytes with another digit at `i`. -/
def slip (b : Bytes) (i : Nat) (v : UInt8) : Bytes :=
  b.modify (i / 2) fun x ↦ if i % 2 = 0 then (v <<< 4) ||| (x &&& 0x0f) else (x &&& 0xf0) ||| v

@[simp] theorem length_slip : (slip b i v).length = b.length := List.length_modify ..

@[simp] theorem slip_cons {x : UInt8} : slip (x :: b) (i + 2) v = x :: slip b i v := by
  rw [slip, Nat.add_div_right i Nat.two_pos, List.modify_succ_cons, Nat.add_mod_right]
  rfl

/-- Two digits joined to a byte are its digits. -/
theorem nibbles_join : ∀ v : UInt8, v < 16 → ∀ w : UInt8, w < 16 →
    ((v <<< 4) ||| w) >>> 4 = v ∧ ((v <<< 4) ||| w) &&& 0x0f = w := by
  decide +kernel

theorem digits_slip (v : UInt8) (hv : v < 16) (x : UInt8) :
    (((v <<< 4) ||| (x &&& 0x0f)) >>> 4 = v ∧ ((v <<< 4) ||| (x &&& 0x0f)) &&& 0x0f = x &&& 0x0f) ∧
      ((x &&& 0xf0) ||| v) >>> 4 = x >>> 4 ∧ ((x &&& 0xf0) ||| v) &&& 0x0f = v := by
  have hhalves : ∀ x : UInt8, x >>> 4 < 16 ∧
      (x &&& (0x0f : UInt8)) < 16 ∧ x &&& (0xf0 : UInt8) = (x >>> 4) <<< 4 := by
    decide +kernel
  obtain ⟨hhi, hlo, hhigh⟩ := hhalves x
  rw [hhigh]
  exact ⟨nibbles_join v hv _ hlo, nibbles_join _ hhi v hv⟩

/-- A slip writes one digit. -/
theorem encode_slip (hv : v < 16) : encode (slip b i v) = (encode b).set i (digit v) := by
  induction b generalizing i with
  | nil => rw [slip, List.modify_nil, encode_nil, List.set_nil]
  | cons x b ih =>
    obtain ⟨⟨hhi, hlo⟩, hhi', hlo'⟩ := digits_slip v hv x
    match i with
    | 0 =>
      change encode (((v <<< 4) ||| (x &&& 0x0f)) :: b) = _
      rw [encode_cons, hhi, hlo]
      rfl
    | 1 =>
      change encode (((x &&& 0xf0) ||| v) :: b) = _
      rw [encode_cons, hhi', hlo']
      rfl
    | i + 2 =>
      rw [slip_cons, encode_cons, ih]
      rfl

/-- A slip to another digit makes other bytes. -/
theorem slip_ne (hv : v < 16) (hi : i < 2 * b.length) (hne : (encode b)[i]? ≠ some (digit v)) :
    slip b i v ≠ b := by
  intro hslip
  have hset := encode_slip (b := b) (i := i) hv
  rw [hslip] at hset
  apply hne
  rw [hset]
  exact List.getElem?_set_self (by rwa [length_encode])

theorem slip_append_left (hi : i < 2 * b.length) : slip (b ++ c) i v = slip b i v ++ c := by
  induction b generalizing i with
  | nil => exact absurd hi (Nat.not_lt_zero i)
  | cons x b ih =>
    match i with
    | 0 => rfl
    | 1 => rfl
    | i + 2 =>
      rw [List.length_cons] at hi
      rw [List.cons_append, slip_cons, slip_cons, ih (by omega), List.cons_append]

theorem slip_append_right (hi : 2 * b.length ≤ i) :
    slip (b ++ c) i v = b ++ slip c (i - 2 * b.length) v := by
  induction b generalizing i with
  | nil => rfl
  | cons x b ih =>
    rw [List.length_cons] at hi
    obtain ⟨i, rfl⟩ := Nat.exists_eq_add_of_le' (show 2 ≤ i by omega)
    rw [List.cons_append, slip_cons, ih (by omega), List.cons_append, List.length_cons]
    congr 3
    omega

/-! ## What is restored -/

theorem foldl_or_xor_eq_zero {a b : Bytes} {acc : UInt8} (hlen : a.length = b.length) :
    (List.zipWith (· ^^^ ·) a b).foldl (· ||| ·) acc = 0 ↔ acc = 0 ∧ a = b := by
  induction a generalizing b acc with
  | nil =>
    obtain rfl := List.eq_nil_of_length_eq_zero hlen.symm
    exact (and_iff_left rfl).symm
  | cons x a ih =>
    obtain ⟨y, b, rfl⟩ := List.exists_cons_of_length_eq_add_one hlen.symm
    rw [List.zipWith_cons_cons, List.foldl_cons, ih (Nat.succ.inj hlen), UInt8.or_eq_zero_iff,
      UInt8.xor_eq_zero_iff, List.cons.injEq, and_assoc]

/-- The comparison that does not stop early is equality. -/
theorem ctEq_iff {a b : Bytes} : ctEq a b = true ↔ a = b := by
  rw [ctEq, Bool.and_eq_true, decide_eq_true_iff, decide_eq_true_iff]
  constructor
  · rintro ⟨hlen, hdiff⟩
    exact ((foldl_or_xor_eq_zero hlen).mp hdiff).2
  · rintro rfl
    exact ⟨rfl, (foldl_or_xor_eq_zero rfl).mpr ⟨rfl, rfl⟩⟩

section Restore

variable [Crypto] {seed : Arr 32}

theorem length_backupCheck {b : Bytes} : (backupCheck b).length = 2 := by
  rw [backupCheck, List.length_take, Arr.length_eq]
  rfl

/-- A string of 68 digits restores its seed if the check is that of the seed. -/
theorem decodeBackup_of_toLower (hlen : c.length = 2)
    (h : t.map Char.toLower = encode (seed.bytes ++ c)) :
    decodeBackup t =
      if c = backupCheck seed.bytes then .ok (seed, .checked) else .error .mismatch := by
  obtain ⟨-, hbytes, hascii⟩ := decodePairs_of_toLower h
  rw [List.length_append, seed.length_eq, hlen] at hbytes
  have htake : (t.take 64).map Char.toLower = encode seed.bytes := by
    rw [List.map_take, h, encode_append]
    exact List.take_left' (by rw [length_encode, seed.length_eq])
  have hdrop : (t.drop 64).map Char.toLower = encode c := by
    rw [List.map_drop, h, encode_append]
    exact List.drop_left' (by rw [length_encode, seed.length_eq])
  have hseed : decodeSeed (t.take 64) = .ok seed := by
    rw [decodeSeed, decode_of_toLower htake]
    exact dif_pos seed.length_eq
  rw [decodeBackup, if_pos ⟨hbytes, hascii⟩, hseed, decode_of_toLower hdrop]
  change (if ctEq c (backupCheck seed.bytes) = true then _ else _) = _
  simp only [ctEq_iff]
  rfl

/-- A backup string restores its seed in any mix of letter case.  A slip of one digit is refused
exactly when it is in the check, or makes a seed with another check. -/
theorem backups (seed : Arr 32) :
    (∀ t : Text, t.map Char.toLower = encodeBackup seed →
      decodeBackup t = .ok (seed, .checked)) ∧
    ∀ (i : Nat) (v : UInt8) (t : Text), i < 64 + backupCheckDigits → v < 16 →
      (encodeBackup seed)[i]? ≠ some (digit v) →
      t.map Char.toLower = (encodeBackup seed).set i (digit v) →
      ((∃ e, decodeBackup t = .error e) ↔
        64 ≤ i ∨ backupCheck (slip seed.bytes i v) ≠ backupCheck seed.bytes) := by
  have hprinted : encodeBackup seed = encode (seed.bytes ++ backupCheck seed.bytes) :=
    encode_append.symm
  have hseed := seed.length_eq
  constructor
  · intro t ht
    rw [decodeBackup_of_toLower length_backupCheck (ht.trans hprinted), if_pos rfl]
  · intro i v t hi hv hne ht
    rw [hprinted] at hne ht
    rw [← encode_slip hv] at ht
    rcases Nat.lt_or_ge i 64 with hlt | hge
    · rw [slip_append_left (by rwa [hseed])] at ht
      have hslip : (slip seed.bytes i v).length = 32 := length_slip.trans hseed
      let slipped : Arr 32 := ⟨_, hslip⟩
      have ht : t.map Char.toLower = encode (slipped.bytes ++ backupCheck seed.bytes) := ht
      rw [decodeBackup_of_toLower length_backupCheck ht, or_iff_right (Nat.not_le_of_lt hlt)]
      split
      case isTrue heq => exact iff_of_false (fun ⟨e, he⟩ ↦ by cases he) (not_not_intro heq.symm)
      case isFalse heq => exact iff_of_true ⟨_, rfl⟩ (Ne.symm heq)
    · rw [slip_append_right (by rwa [hseed])] at ht
      have hcheck : slip (backupCheck seed.bytes) (i - 2 * seed.bytes.length) v ≠
          backupCheck seed.bytes := by
        rw [hseed]
        have hi : i < 68 := hi
        refine slip_ne hv (by rw [length_backupCheck]; omega) ?_
        rw [encode_append, List.getElem?_append_right (by rwa [length_encode, hseed]),
          length_encode, hseed] at hne
        exact hne
      rw [decodeBackup_of_toLower (length_slip.trans length_backupCheck) ht, if_neg hcheck]
      exact iff_of_true ⟨_, rfl⟩ (.inl hge)

end Restore

section Sample

/-- A seed with a neighbour of the same check. -/
def sampleSeed : Arr 32 :=
  ⟨[0x45, 0xa4, 0x77, 0xbe, 0x79, 0xa8, 0x4b, 0x62, 0xed, 0xec, 0x5f, 0x46, 0xa1, 0x70, 0xb3, 0x6a,
    0x95, 0x34, 0x47, 0xce, 0xc9, 0x38, 0x1b, 0x72, 0x3d, 0x7c, 0x2f, 0x56, 0xf1, 0x00, 0x83, 0x7a],
    rfl⟩

/-- The last digit of the 16th byte read as 3: another seed is restored, as a checked one. -/
theorem backup_slip_taken :
    let _ := Crypto.ofSignatures []
    (encodeBackup sampleSeed)[31]? = some 'a' ∧
      ∃ seed, seed ≠ sampleSeed ∧
        decodeBackup ((encodeBackup sampleSeed).set 31 '3') = .ok (seed, .checked) := by
  refine ⟨by decide +kernel, ⟨slip sampleSeed.bytes 31 3, rfl⟩, by decide +kernel, ?_⟩
  decide +kernel

/-- The same seed with its last check digit changed is refused. -/
theorem backups_sample :
    let _ := Crypto.ofSignatures []
    ∃ e, decodeBackup ((encodeBackup sampleSeed).set 67 (digit 0)) = .error e := by
  let _ := Crypto.ofSignatures []
  have hself : ((encodeBackup sampleSeed).set 67 (digit 0)).map Char.toLower =
      (encodeBackup sampleSeed).set 67 (digit 0) := by decide +kernel
  exact ((backups sampleSeed).2 67 0 _ (by decide) (by decide) (by decide +kernel) hself).mpr
    (.inl (by decide))

end Sample

end Plaine.Wallet.Sechex

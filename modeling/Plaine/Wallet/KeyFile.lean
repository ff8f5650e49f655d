import Plaine.Consensus.Address
import Plaine.Consensus.Blake3
import Plaine.Consensus.Crypto
import Plaine.Lib.LineEnds
import Plaine.Lib.Result
import Plaine.Lib.Text
import Plaine.Wallet.Sechex
import Mathlib.Data.List.GetD

/-!
# Key files

`wallet/src/kdf.rs`: the key of a passphrase, the stream that a seed is encrypted with, and the tag
over the text of a key file, all from the one hash function.

`wallet/src/keyfile.rs`: a seed that is sealed with a passphrase, and the text it is kept in.  A text
is read as a record only if it is the text of that record up to its line ends; a record is read back
from its text exactly when its fields are ones that are written on one line and accepted.
-/

namespace Plaine.Wallet

open Plaine.Lib Plaine.Consensus

/-! ## Keys from passphrases -/

/-- `TAG_KDF`. -/
def tagKdf : Bytes :=
  [0x50, 0x4C, 0x4E, 0x45, 0x2D, 0x77, 0x61, 0x6C, 0x6C, 0x65, 0x74, 0x2D, 0x6B, 0x64, 0x66, 0x2D,
    0x76, 0x31]

/-- `TAG_ENC`. -/
def tagEnc : Bytes :=
  [0x50, 0x4C, 0x4E, 0x45, 0x2D, 0x77, 0x61, 0x6C, 0x6C, 0x65, 0x74, 0x2D, 0x65, 0x6E, 0x63, 0x2D,
    0x76, 0x31]

/-- `TAG_MAC`. -/
def tagMac : Bytes :=
  [0x50, 0x4C, 0x4E, 0x45, 0x2D, 0x77, 0x61, 0x6C, 0x6C, 0x65, 0x74, 0x2D, 0x6D, 0x61, 0x63, 0x2D,
    0x76, 0x31]

/-- `TAG_SALT`. -/
def tagSalt : Bytes :=
  [0x50, 0x4C, 0x4E, 0x45, 0x2D, 0x77, 0x61, 0x6C, 0x6C, 0x65, 0x74, 0x2D, 0x73, 0x61, 0x6C, 0x74,
    0x2D, 0x76, 0x31]

/-- `TAG_NONCE`. -/
def tagNonce : Bytes :=
  [0x50, 0x4C, 0x4E, 0x45, 0x2D, 0x77, 0x61, 0x6C, 0x6C, 0x65, 0x74, 0x2D, 0x6E, 0x6F, 0x6E, 0x63,
    0x65, 0x2D, 0x76, 0x31]

/-- `KDF_BLAKE3_ITER_V1`. -/
def kdfBlake3IterV1 : Text := ['b', 'l', 'a', 'k', 'e', '3', '-', 'i', 't', 'e', 'r', '-', 'v', '1']

/-- `KDF_NONE`. -/
def kdfNone : Text := ['n', 'o', 'n', 'e']

/-- `CIPHER_BLAKE3_CTR_V1`. -/
def cipherBlake3CtrV1 : Text := ['b', 'l', 'a', 'k', 'e', '3', '-', 'c', 't', 'r', '-', 'v', '1']

/-- `CIPHER_NONE`. -/
def cipherNone : Text := ['n', 'o', 'n', 'e']

/-- `MAX_ITERS`. -/
def maxIters : Nat := 1000000000

variable [Crypto]

/-- `derive_key`. -/
def deriveKey (passphrase : Bytes) (salt : Arr 32) (iters : UInt64) : Arr 32 :=
  (List.range iters.toNat).foldl
    (fun k i ↦ Crypto.blake3 (tagKdf ++ salt.bytes ++ leBytes 8 i ++ k.bytes))
    (Crypto.blake3 (tagKdf ++ salt.bytes ++ passphrase))

/-- `effective_key`: without a passphrase it is the null key. -/
def effectiveKey (passphrase : Option Bytes) (salt : Arr 32) (iters : UInt64) : Arr 32 :=
  match passphrase with
  | some p => deriveKey p salt iters
  | none => Arr.zero 32

/-- `keystream_block`. -/
def keystreamBlock (key : Arr 32) (nonce : Arr 16) (counter : UInt64) : Arr 32 :=
  Crypto.blake3 (tagEnc ++ key.bytes ++ nonce.bytes ++ leBytes 8 counter.toNat)

omit [Crypto] in
theorem length_xorBytes {n : Nat} (a b : Arr n) :
    (List.zipWith (· ^^^ ·) a.bytes b.bytes).length = n := by
  rw [List.length_zipWith, a.length_eq, b.length_eq, Nat.min_self]

/-- The bytes of two arrays, one against the other. -/
def xorArr {n : Nat} (a b : Arr n) : Arr n :=
  ⟨List.zipWith (· ^^^ ·) a.bytes b.bytes, length_xorBytes a b⟩

/-- `xor_seed`. -/
def xorSeed (key : Arr 32) (nonce : Arr 16) (input : Arr 32) : Arr 32 :=
  xorArr input (keystreamBlock key nonce 0)

/-- `mac`. -/
def mac (key : Arr 32) (message : Bytes) : Arr 32 :=
  Crypto.blake3 (tagMac ++ key.bytes ++ message)

/-- `derive_salt`. -/
def deriveSalt (seed : Arr 32) (created : UInt64) : Arr 32 :=
  Crypto.blake3 (tagSalt ++ seed.bytes ++ leBytes 8 created.toNat)

/-- `derive_nonce`. -/
def deriveNonce (seed : Arr 32) (created : UInt64) : Arr 16 :=
  Arr.ofSlice 16 0 (Crypto.blake3 (tagNonce ++ seed.bytes ++ leBytes 8 created.toNat)).bytes

omit [Crypto] in
theorem zipWith_xor_zipWith_xor {l l' : Bytes} (h : l.length = l'.length) :
    List.zipWith (· ^^^ ·) (List.zipWith (· ^^^ ·) l l') l' = l := by
  induction l generalizing l' with
  | nil => rfl
  | cons b l ih =>
    cases l' with
    | nil => cases h
    | cons b' l' =>
      rw [List.zipWith_cons_cons, List.zipWith_cons_cons, ih (Nat.succ.inj h), UInt8.xor_assoc,
        UInt8.xor_self, UInt8.xor_zero]

omit [Crypto] in
theorem xorArr_xorArr {n : Nat} (a b : Arr n) : xorArr (xorArr a b) b = a :=
  Arr.ext (zipWith_xor_zipWith_xor (a.length_eq.trans b.length_eq.symm))

/-- The stream that encrypts a seed decrypts it. -/
theorem xorSeed_xorSeed (key : Arr 32) (nonce : Arr 16) (seed : Arr 32) :
    xorSeed key nonce (xorSeed key nonce seed) = seed := xorArr_xorArr seed _

end Plaine.Wallet

namespace Plaine.Wallet.Keyfile

open Plaine.Lib Plaine.Lib.Text Plaine.Consensus

/-- `sig::public_key_of`. -/
class SigningKeys where
  publicKeyOf : Arr 32 → Arr 32

/-- `Role`. -/
inductive Role where
  | spend
  | author
  | checkpoint
deriving DecidableEq

/-- `Role::as_str`. -/
def Role.asStr : Role → Text
  | .spend => ['s', 'p', 'e', 'n', 'd']
  | .author => ['a', 'u', 't', 'h', 'o', 'r']
  | .checkpoint => ['c', 'h', 'e', 'c', 'k', 'p', 'o', 'i', 'n', 't']

/-- `Role::parse`. -/
def Role.parse (s : Text) : Option Role :=
  if s = Role.spend.asStr then some .spend
  else if s = Role.author.asStr then some .author
  else if s = Role.checkpoint.asStr then some .checkpoint
  else none

/-- `KeyFile`. -/
structure KeyFile where
  version : UInt32
  role : Role
  created : UInt64
  kdf : Text
  kdfIters : UInt64
  kdfSalt : Arr 32
  cipher : Text
  nonce : Arr 16
  pubkey : Arr 32
  address : Text
  ciphertext : Arr 32
  mac : Arr 32
deriving DecidableEq

/-- `MAGIC`. -/
def magic : Text := ['P', 'L', 'N', 'E', 'K', 'E', 'Y', '1']

/-- `FORMAT_VERSION`. -/
def formatVersion : UInt32 := 1

/-- The keys of the fields, in `FIELDS`. -/
def fieldVersion : Text := ['v', 'e', 'r', 's', 'i', 'o', 'n']

@[inherit_doc fieldVersion] def fieldRole : Text := ['r', 'o', 'l', 'e']

@[inherit_doc fieldVersion] def fieldCreated : Text := ['c', 'r', 'e', 'a', 't', 'e', 'd']

@[inherit_doc fieldVersion] def fieldKdf : Text := ['k', 'd', 'f']

@[inherit_doc fieldVersion]
def fieldKdfIters : Text := ['k', 'd', 'f', '_', 'i', 't', 'e', 'r', 's']

@[inherit_doc fieldVersion] def fieldKdfSalt : Text := ['k', 'd', 'f', '_', 's', 'a', 'l', 't']

@[inherit_doc fieldVersion] def fieldCipher : Text := ['c', 'i', 'p', 'h', 'e', 'r']

@[inherit_doc fieldVersion] def fieldNonce : Text := ['n', 'o', 'n', 'c', 'e']

@[inherit_doc fieldVersion] def fieldPubkey : Text := ['p', 'u', 'b', 'k', 'e', 'y']

@[inherit_doc fieldVersion] def fieldAddress : Text := ['a', 'd', 'd', 'r', 'e', 's', 's']

@[inherit_doc fieldVersion]
def fieldCiphertext : Text := ['c', 'i', 'p', 'h', 'e', 'r', 't', 'e', 'x', 't']

@[inherit_doc fieldVersion] def fieldMac : Text := ['m', 'a', 'c']

/-- `FIELDS`. -/
def fields : List Text :=
  [fieldVersion, fieldRole, fieldCreated, fieldKdf, fieldKdfIters, fieldKdfSalt, fieldCipher,
    fieldNonce, fieldPubkey, fieldAddress, fieldCiphertext, fieldMac]

/-- The errors of `parse`. -/
inductive KeyFileError where
  | nonAscii
  | empty
  | magic
  | lineCount (found : Nat)
  | noSeparator (lineno : Nat) (expected : Text)
  | key (lineno : Nat) (expected found : Text)
  | emptyValue (lineno : Nat) (key : Text)
  | number (lineno : Nat) (name value : Text)
  | hex (lineno : Nat) (name : Text) (why : Sechex.HexError)
  | size (lineno : Nat) (name : Text) (found : Nat)
  | version (found : UInt64)
  | role (found : Text)
  | address (derived : Text)
  | itersOfNone
  | tooManyIters (found : UInt64)
  | notCanonical (lineno : Nat) (field : Text)
deriving DecidableEq

/-- The errors of `open`. -/
inductive OpenError where
  | noPassphrase
  | passphraseOfNone
  | unsupportedKdf
  | unsupportedCipher
  | macMismatch
  | wrongPubkey
deriving DecidableEq

namespace KeyFile

/-! ## The text -/

/-- The line of a field. -/
def line (key value : Text) : Text := key ++ (':' :: ' ' :: value)

/-- The lines that the tag is over. -/
def macLines (k : KeyFile) : List Text :=
  [magic,
    line fieldVersion (Text.decimal k.version.toNat),
    line fieldRole k.role.asStr,
    line fieldCreated (Text.decimal k.created.toNat),
    line fieldKdf k.kdf,
    line fieldKdfIters (Text.decimal k.kdfIters.toNat),
    line fieldKdfSalt (hexEncode k.kdfSalt.bytes),
    line fieldCipher k.cipher,
    line fieldNonce (hexEncode k.nonce.bytes),
    line fieldPubkey (hexEncode k.pubkey.bytes),
    line fieldAddress k.address,
    line fieldCiphertext (Sechex.encode k.ciphertext.bytes)]

/-- `KeyFile::render_without_mac`, which is `mac_input`. -/
def renderWithoutMac (k : KeyFile) : Text := joinLines k.macLines

/-- `KeyFile::render`. -/
def render (k : KeyFile) : Text :=
  k.renderWithoutMac ++ (line fieldMac (hexEncode k.mac.bytes) ++ ['\n'])

/-! ## Reading -/

/-- The loop over the fields in `parse`, from a line on: the values. -/
def valuesFrom : Nat → List Text → List Text → Except KeyFileError (List Text)
  | lineno, expected :: fields, l :: lines => do
    let (key, value) ← Except.ofOption (.noSeparator lineno expected) (splitOnceAt [':', ' '] l)
    Except.require (key = expected) (.key lineno expected key)
    Except.require (value ≠ []) (.emptyValue lineno key)
    let values ← valuesFrom (lineno + 1) fields lines
    return value :: values
  | _, _, _ => .ok []

/-- `num` in `parse`. -/
def num (values : List Text) (i : Nat) (name : Text) : Except KeyFileError UInt64 :=
  Except.ofOption (.number (i + 2) name (values.getD i [])) (parseU64 (values.getD i []))

/-- `bytes32` in `parse`, and the same for the nonce. -/
def bytesOf (n : Nat) (values : List Text) (i : Nat) (name : Text) : Except KeyFileError (Arr n) := do
  let v ← (Sechex.decode (values.getD i [])).mapError (.hex (i + 2) name)
  if h : v.length = n then return ⟨v, h⟩ else .error (.size (i + 2) name v.length)

/-- The place of the first line that differs. -/
def firstDifference (canonical onDisk : Text) : Nat :=
  (((lines canonical).zip (lines onDisk)).findIdx? fun p ↦ p.1 ≠ p.2).getD 0

section Code

variable [Crypto]

/-- The part of `parse` from the values to the record. -/
def recordOf (values : List Text) : Except KeyFileError KeyFile := do
  let versionField ← num values 0 fieldVersion
  Except.require (versionField.toNat = formatVersion.toNat) (.version versionField)
  let role ← Except.ofOption (.role (values.getD 1 [])) (Role.parse (values.getD 1 []))
  let created ← num values 2 fieldCreated
  let kdf := values.getD 3 []
  let kdfIters ← num values 4 fieldKdfIters
  let kdfSalt ← bytesOf 32 values 5 fieldKdfSalt
  let cipher := values.getD 6 []
  let nonce ← bytesOf 16 values 7 fieldNonce
  let pubkey ← bytesOf 32 values 8 fieldPubkey
  let address := values.getD 9 []
  let ciphertext ← bytesOf 32 values 10 fieldCiphertext
  let mac ← bytesOf 32 values 11 fieldMac
  Except.require (addressFromPubkey pubkey = address) (.address (addressFromPubkey pubkey))
  Except.require (¬(kdf = kdfNone ∧ kdfIters ≠ 0)) .itersOfNone
  Except.require (kdfIters.toNat ≤ maxIters) (.tooManyIters kdfIters)
  return {
    version := formatVersion
    role
    created
    kdf
    kdfIters
    kdfSalt
    cipher
    nonce
    pubkey
    address
    ciphertext
    mac }

/-- `KeyFile::parse`. -/
def parse (text : Text) : Except KeyFileError KeyFile := do
  Except.require (isAscii text) .nonAscii
  let lines := plainLines text
  Except.require (lines ≠ []) .empty
  Except.require (lines.head? = some magic) .magic
  Except.require (lines.length = 1 + fields.length) (.lineCount lines.length)
  let values ← valuesFrom 2 fields lines.tail
  let kf ← recordOf values
  let onDisk := ['\n'].intercalate lines ++ ['\n']
  let n := firstDifference kf.render onDisk
  Except.require (kf.render = onDisk)
    (.notCanonical (n + 1) (if n = 0 then magic else fields.getD (n - 1) []))
  return kf

/-! ## Sealing and opening -/

variable [SigningKeys]

/-- `KeyFile::seal`. -/
def sealed (role : Role) (created : UInt64) (seed : Arr 32) (passphrase : Option Bytes)
    (iters : UInt64) : KeyFile :=
  let pubkey := SigningKeys.publicKeyOf seed
  let salt := deriveSalt seed created
  let nonce := deriveNonce seed created
  let (kdfName, cipherName, iters) :=
    match passphrase with
    | some _ => (kdfBlake3IterV1, cipherBlake3CtrV1, iters)
    | none => (kdfNone, cipherNone, 0)
  let key := effectiveKey passphrase salt iters
  let ciphertext := match passphrase with
    | some _ => xorSeed key nonce seed
    | none => seed
  let kf : KeyFile := {
    version := formatVersion
    role
    created
    kdf := kdfName
    kdfIters := iters
    kdfSalt := salt
    cipher := cipherName
    nonce
    pubkey
    address := addressFromPubkey pubkey
    ciphertext
    mac := Arr.zero 32 }
  { kf with mac := Wallet.mac key (asBytes kf.renderWithoutMac) }

/-- `KeyFile::open`. -/
def opened (k : KeyFile) (passphrase : Option Bytes) : Except OpenError (Arr 32) := do
  let usesKdf := k.kdf ≠ kdfNone
  Except.require (¬(usesKdf ∧ passphrase = none)) .noPassphrase
  Except.require (¬(¬usesKdf ∧ passphrase ≠ none)) .passphraseOfNone
  Except.require (¬(usesKdf ∧ k.kdf ≠ kdfBlake3IterV1)) .unsupportedKdf
  Except.require (¬(usesKdf ∧ k.cipher ≠ cipherBlake3CtrV1)) .unsupportedCipher
  let key := effectiveKey passphrase k.kdfSalt k.kdfIters
  Except.require (Wallet.mac key (asBytes k.renderWithoutMac) = k.mac) .macMismatch
  let seed := if usesKdf then xorSeed key k.nonce k.ciphertext else k.ciphertext
  Except.require (SigningKeys.publicKeyOf seed = k.pubkey) .wrongPubkey
  return seed

end Code

/-! ## Values on one line -/

variable {k k' : KeyFile} {text v : Text}

/-- A value that is written on one line and read back. -/
structure OneLine (v : Text) : Prop where
  ne_nil : v ≠ []
  ascii : isAscii v = true
  newline : '\n' ∉ v
  last : v.getLast? ≠ some '\r'

theorem oneLine_of_printable (hne : v ≠ []) (h : ∀ c ∈ v, 33 ≤ c.toNat ∧ c.toNat ≤ 126) :
    OneLine v where
  ne_nil := hne
  ascii := List.all_eq_true.mpr fun c hc ↦ decide_eq_true ((h c hc).2.trans_lt (by decide))
  newline hmem := absurd (h _ hmem).1 (by decide)
  last hlast := absurd (h _ (List.mem_of_getLast? hlast)).1 (by decide)

theorem oneLine_decimal (n : Nat) : OneLine (Text.decimal n) := by
  refine oneLine_of_printable Nat.toDigits_ne_nil fun c hc ↦ ?_
  have hdigit := isDigit_of_mem_decimal hc
  rw [Char.isDigit, Bool.and_eq_true, decide_eq_true_eq, decide_eq_true_eq] at hdigit
  have hlow : 48 ≤ c.toNat := hdigit.1
  have hhigh : c.toNat ≤ 57 := hdigit.2
  exact ⟨by omega, by omega⟩

theorem printable_digitChar : ∀ n < 16, 33 ≤ (Nat.digitChar n).toNat ∧ (Nat.digitChar n).toNat ≤ 126 := by
  decide

theorem oneLine_hexEncode {n : Nat} (a : Arr (n + 1)) : OneLine (hexEncode a.bytes) := by
  refine oneLine_of_printable (fun hnil ↦ ?_) fun c hc ↦ ?_
  · have hlen := a.length_eq
    have hdecode := hexDecode_hexEncode a.bytes
    rw [hnil] at hdecode
    rw [← Option.some.inj hdecode] at hlen
    cases hlen
  · obtain ⟨x, -, hc⟩ := List.mem_flatMap.mp hc
    rcases List.mem_cons.mp hc with rfl | hc
    · exact printable_digitChar _ (Nat.div_lt_of_lt_mul x.toNat_lt)
    · rw [List.mem_singleton.mp hc]
      exact printable_digitChar _ (Nat.mod_lt _ (by decide))

theorem oneLine_role (r : Role) : OneLine r.asStr := by
  cases r <;> exact oneLine_of_printable (by simp [Role.asStr]) (by simp [Role.asStr])

theorem oneLine_names : (OneLine kdfBlake3IterV1 ∧ OneLine kdfNone) ∧
    OneLine cipherBlake3CtrV1 ∧ OneLine cipherNone :=
  ⟨⟨oneLine_of_printable (by simp [kdfBlake3IterV1]) (by simp [kdfBlake3IterV1]),
      oneLine_of_printable (by simp [kdfNone]) (by simp [kdfNone])⟩,
    oneLine_of_printable (by simp [cipherBlake3CtrV1]) (by simp [cipherBlake3CtrV1]),
    oneLine_of_printable (by simp [cipherNone]) (by simp [cipherNone])⟩

theorem oneLine_address [Crypto] (pubkey : Arr 32) : OneLine (addressFromPubkey pubkey) :=
  oneLine_of_printable (addressFromPubkey_chars pubkey).1 (addressFromPubkey_chars pubkey).2

/-! ## Lines of a record -/

/-- The values of the fields. -/
def values (k : KeyFile) : List Text :=
  [Text.decimal k.version.toNat, k.role.asStr, Text.decimal k.created.toNat, k.kdf,
    Text.decimal k.kdfIters.toNat, hexEncode k.kdfSalt.bytes, k.cipher, hexEncode k.nonce.bytes,
    hexEncode k.pubkey.bytes, k.address, Sechex.encode k.ciphertext.bytes, hexEncode k.mac.bytes]

/-- The lines of the text. -/
def lines (k : KeyFile) : List Text := magic :: List.zipWith line fields k.values

theorem render_eq (k : KeyFile) : k.render = joinLines k.lines := by
  have hlines : k.lines = k.macLines ++ [line fieldMac (hexEncode k.mac.bytes)] := rfl
  rw [hlines, joinLines, List.flatMap_append, List.flatMap_singleton]
  rfl

theorem forall_fields {p : Text → Prop} [DecidablePred p] (h : fields.all (p ·) = true) :
    ∀ key ∈ fields, p key := fun key hkey ↦ of_decide_eq_true (List.all_eq_true.mp h key hkey)

/-- A line is the magic, or has a field and its value. -/
theorem eq_line_of_mem_lines {l : Text} (h : l ∈ k.lines) :
    l = magic ∨ ∃ key ∈ fields, ∃ v ∈ k.values, l = line key v := by
  rcases List.mem_cons.mp h with h | h
  · exact .inl h
  · obtain ⟨⟨key, v⟩, hmem, rfl⟩ := List.mem_map.mp (List.map_uncurry_zip_eq_zipWith ▸ h)
    exact .inr ⟨key, (List.of_mem_zip hmem).1, v, (List.of_mem_zip hmem).2, rfl⟩

theorem mem_line {key : Text} {c : Char} (h : c ∈ v) : c ∈ line key v :=
  List.mem_append_right _ (List.mem_cons_of_mem _ (List.mem_cons_of_mem _ h))

theorem getLast?_line {key : Text} (h : v ≠ []) : (line key v).getLast? = v.getLast? := by
  rw [line, List.getLast?_append_of_ne_nil _ (by simp), List.getLast?_cons_cons,
    List.getLast?_cons_of_ne_nil h]

theorem mem_of_mem_line {key : Text} {c : Char} (h : c ∈ line key v) :
    c ∈ key ∨ c = ':' ∨ c = ' ' ∨ c ∈ v := by
  rcases List.mem_append.mp h with h | h
  · exact .inl h
  · rcases List.mem_cons.mp h with h | h
    · exact .inr (.inl h)
    · rcases List.mem_cons.mp h with h | h
      · exact .inr (.inr (.inl h))
      · exact .inr (.inr (.inr h))

/-- What is true of every value on one line and of those that are kept as they are. -/
theorem forall_values {p : Text → Prop} (h : ∀ v, OneLine v → p v) (hkdf : p k.kdf)
    (hcipher : p k.cipher) (haddress : p k.address) : ∀ v ∈ k.values, p v := by
  intro v hv
  simp only [values, List.mem_cons, List.not_mem_nil, or_false] at hv
  rcases hv with rfl | rfl | rfl | rfl | rfl | rfl | rfl | rfl | rfl | rfl | rfl | rfl
  · exact h _ (oneLine_decimal _)
  · exact h _ (oneLine_role _)
  · exact h _ (oneLine_decimal _)
  · exact hkdf
  · exact h _ (oneLine_decimal _)
  · exact h _ (oneLine_hexEncode _)
  · exact hcipher
  · exact h _ (oneLine_hexEncode _)
  · exact h _ (oneLine_hexEncode _)
  · exact haddress
  · rw [Sechex.encode_eq]
    exact h _ (oneLine_hexEncode _)
  · exact h _ (oneLine_hexEncode _)

/-- No line has a newline if no value has. -/
theorem newline_notMem_lines (hkdf : '\n' ∉ k.kdf) (hcipher : '\n' ∉ k.cipher)
    (haddress : '\n' ∉ k.address) : ∀ l ∈ k.lines, '\n' ∉ l := by
  have hvalues := forall_values (fun v hv ↦ hv.newline) hkdf hcipher haddress
  intro l hl hmem
  rcases eq_line_of_mem_lines hl with rfl | ⟨key, hkey, v, hv, rfl⟩
  · exact absurd hmem (by decide)
  · rcases mem_of_mem_line hmem with h | h | h | h
    · exact forall_fields (p := ('\n' ∉ ·)) (by decide) key hkey h
    · exact absurd h (by decide)
    · exact absurd h (by decide)
    · exact hvalues v hv h

/-! ## Values are read back -/

/-- The loop over the fields reads values back from their lines. -/
theorem valuesFrom_lines {keys vs : List Text} (lineno : Nat) (hlen : keys.length = vs.length)
    (hkeys : ∀ key ∈ keys, ':' ∉ key) (hvs : ∀ v ∈ vs, v ≠ []) :
    valuesFrom lineno keys (List.zipWith line keys vs) = .ok vs := by
  induction keys generalizing lineno vs with
  | nil =>
    rw [List.eq_nil_of_length_eq_zero hlen.symm]
    rfl
  | cons key keys ih =>
    cases vs with
    | nil => cases hlen
    | cons v vs =>
      obtain ⟨hkey, hkeys⟩ := List.forall_mem_cons.mp hkeys
      obtain ⟨hv, hvs⟩ := List.forall_mem_cons.mp hvs
      have hsplit : splitOnceAt [':', ' '] (line key v) = some (key, v) := splitOnceAt_append hkey v
      rw [List.zipWith_cons_cons, valuesFrom, hsplit]
      change (Except.require (key = key) _ >>= fun _ ↦ Except.require (v ≠ []) _ >>= fun _ ↦
        valuesFrom _ keys _ >>= fun values ↦ pure (v :: values)) = _
      rw [Except.require_of rfl, Except.ok_bind, Except.require_of hv, Except.ok_bind,
        ih _ (Nat.succ.inj hlen) hkeys hvs]
      rfl

/-- What the loop over the fields reads is not empty, and stands in the lines. -/
theorem valuesFrom_spec {lineno : Nat} {keys ls vs : List Text} (hlen : keys.length = ls.length)
    (h : valuesFrom lineno keys ls = .ok vs) :
    vs.length = keys.length ∧ ∀ v ∈ vs, v ≠ [] ∧ ∃ l ∈ ls, ∃ key, l = line key v := by
  induction keys generalizing lineno ls vs with
  | nil =>
    cases h
    exact ⟨rfl, fun v hv ↦ absurd hv List.not_mem_nil⟩
  | cons key keys ih =>
    cases ls with
    | nil => cases hlen
    | cons l ls =>
      simp only [valuesFrom, Except.bind_eq_ok, Prod.exists, Except.ofOption_eq_ok,
        Except.require_eq_ok] at h
      obtain ⟨found, v, hsplit, -, -, -, hv, rest, hrest, h⟩ := h
      cases h
      obtain ⟨hlength, hall⟩ := ih (Nat.succ.inj hlen) hrest
      refine ⟨congrArg Nat.succ hlength, fun w hw ↦ ?_⟩
      rcases List.mem_cons.mp hw with rfl | hw
      · exact ⟨hv, l, List.mem_cons_self, found, eq_append_of_splitOnceAt hsplit⟩
      · obtain ⟨hne, l', hl', hline⟩ := hall w hw
        exact ⟨hne, l', List.mem_cons_of_mem _ hl', hline⟩

theorem num_decimal {vs : List Text} {i : Nat} {n : UInt64} (name : Text)
    (h : vs.getD i [] = Text.decimal n.toNat) : num vs i name = .ok n := by
  rw [num, h, parseU64_decimal]
  rfl

theorem bytesOf_encode {n : Nat} {vs : List Text} {i : Nat} {a : Arr n} (name : Text)
    (h : vs.getD i [] = hexEncode a.bytes) : bytesOf n vs i name = .ok a := by
  rw [bytesOf, h, ← Sechex.encode_eq, Sechex.decode_encode]
  change (if h : a.bytes.length = n then _ else _) = _
  rw [dif_pos a.length_eq]
  rfl

theorem roleParse_asStr (r : Role) : Role.parse r.asStr = some r := by
  cases r <;> decide

section Parse

variable [Crypto]

/-- The conditions on the values of a record that is read. -/
structure Accepted (k : KeyFile) : Prop where
  version : k.version = formatVersion
  kdf : k.kdf ≠ []
  cipher : k.cipher ≠ []
  address : k.address = addressFromPubkey k.pubkey
  itersOfNone : k.kdf = kdfNone → k.kdfIters = 0
  iters : k.kdfIters.toNat ≤ maxIters

theorem recordOf_values (h : k.Accepted) : recordOf k.values = .ok k := by
  have hversion : num k.values 0 fieldVersion = .ok 1 :=
    num_decimal _ (show Text.decimal k.version.toNat = _ by rw [h.version]; rfl)
  have hnone : ¬(k.kdf = kdfNone ∧ k.kdfIters ≠ 0) := fun hk ↦ hk.2 (h.itersOfNone hk.1)
  have hcipher : k.values.getD 10 [] = hexEncode k.ciphertext.bytes :=
    Sechex.encode_eq k.ciphertext.bytes
  have hrole : Role.parse (k.values.getD 1 []) = some k.role := roleParse_asStr k.role
  have hmade : { k with version := formatVersion } = k := by rw [← h.version]
  simp only [recordOf, Except.bind_eq_ok, Except.require_eq_ok, Except.ofOption_eq_ok]
  exact ⟨1, hversion, (), rfl, k.role, hrole, k.created, num_decimal _ rfl, k.kdfIters,
    num_decimal _ rfl, k.kdfSalt, bytesOf_encode _ rfl, k.nonce, bytesOf_encode _ rfl, k.pubkey,
    bytesOf_encode _ rfl, k.ciphertext, bytesOf_encode _ hcipher, k.mac, bytesOf_encode _ rfl, (),
    h.address.symm, (), hnone, (), h.iters, congrArg Except.ok hmade⟩

/-- A record that is made of values. -/
theorem recordOf_spec {vs : List Text} (h : recordOf vs = .ok k) :
    k.version = formatVersion ∧ k.kdf = vs.getD 3 [] ∧ k.cipher = vs.getD 6 [] ∧
      k.address = vs.getD 9 [] ∧ k.address = addressFromPubkey k.pubkey ∧
      (k.kdf = kdfNone → k.kdfIters = 0) ∧ k.kdfIters.toNat ≤ maxIters := by
  simp only [recordOf, Except.bind_eq_ok, Except.require_eq_ok] at h
  obtain ⟨-, -, -, -, role, -, created, -, iters, -, salt, -, nonce, -, pubkey, -, ciphertext, -, mac,
    -, -, haddress, -, hnone, -, hiters, h⟩ := h
  cases h
  exact ⟨rfl, rfl, rfl, rfl, haddress.symm, fun hk ↦ not_not.mp fun hne ↦ hnone ⟨hk, hne⟩, hiters⟩

/-- A text is read as a record exactly when its lines are those of the record. -/
theorem parse_eq_ok : parse text = .ok k ↔
    isAscii text = true ∧ plainLines text = k.lines ∧ k.Accepted := by
  simp only [parse, Except.bind_eq_ok, Except.require_eq_ok]
  constructor
  · rintro ⟨-, hascii, -, hne, -, hhead, -, hlen, vs, hvs, k', hrecord, -, hcanonical, h⟩
    cases h
    obtain ⟨hversion, hkdf, hcipher, haddress, hderived, hnone, hiters⟩ := recordOf_spec hrecord
    have hfields : fields.length = (plainLines text).tail.length := by
      rw [List.length_tail, hlen, Nat.add_sub_cancel_left]
    obtain ⟨hlength, hall⟩ := valuesFrom_spec hfields hvs
    have hget : ∀ i < 12, vs.getD i [] ≠ [] ∧ '\n' ∉ vs.getD i [] := by
      intro i hi
      have hmem : vs.getD i [] ∈ vs := by
        rw [List.getD_eq_getElem _ _ (hlength ▸ hi)]
        exact List.getElem_mem _
      obtain ⟨hv, l, hl, key, hline⟩ := hall _ hmem
      refine ⟨hv, fun hmem ↦ ?_⟩
      exact newline_notMem_of_mem_plainLines (List.mem_of_mem_tail hl) (hline ▸ mem_line hmem)
    have hk := hkdf ▸ hget 3 (by decide)
    have hc := hcipher ▸ hget 6 (by decide)
    have ha := haddress ▸ hget 9 (by decide)
    refine ⟨hascii, ?_, hversion, hk.1, hc.1, hderived, hnone, hiters⟩
    rw [intercalate_append_newline hne, render_eq] at hcanonical
    exact (joinLines_inj (newline_notMem_lines hk.2 hc.2 ha.2)
      (fun l ↦ newline_notMem_of_mem_plainLines) hcanonical).symm
  · rintro ⟨hascii, hlines, h⟩
    have hne : k.lines ≠ [] := List.cons_ne_nil _ _
    have hvs : valuesFrom 2 fields k.lines.tail = .ok k.values :=
      valuesFrom_lines 2 rfl (forall_fields (by decide))
        (forall_values (fun v hv ↦ hv.ne_nil) h.kdf h.cipher
          (h.address ▸ (oneLine_address k.pubkey).ne_nil))
    rw [hlines, intercalate_append_newline hne, ← render_eq]
    exact ⟨(), hascii, (), hne, (), rfl, (), rfl, k.values, hvs, k, recordOf_values h, (), rfl, rfl⟩

/-! ## Records that come back -/

/-- A record that is read back from its text. -/
structure WellFormed (k : KeyFile) : Prop where
  accepted : k.Accepted
  kdf : OneLine k.kdf
  cipher : OneLine k.cipher

/-- A record is read back from its text exactly when it is well formed. -/
theorem parse_render_iff : parse k.render = .ok k ↔ k.WellFormed := by
  rw [parse_eq_ok, render_eq, plainLines_joinLines_iff]
  have hline : ∀ {key v : Text}, line key v ∈ k.lines → v ≠ [] → isAscii (joinLines k.lines) = true →
      (∀ l ∈ k.lines, '\n' ∉ l ∧ l.getLast? ≠ some '\r') → OneLine v := by
    intro key v hmem hne hascii hlines
    obtain ⟨hnewline, hlast⟩ := hlines _ hmem
    refine ⟨hne, List.all_eq_true.mpr fun c hc ↦ ?_, fun hc ↦ hnewline (mem_line hc),
      getLast?_line hne ▸ hlast⟩
    exact List.all_eq_true.mp hascii c (List.mem_flatMap.mpr
      ⟨_, hmem, List.mem_append_left _ (mem_line hc)⟩)
  constructor
  · rintro ⟨hascii, hlines, h⟩
    refine ⟨h, @hline fieldKdf _ ?_ h.kdf hascii hlines, @hline fieldCipher _ ?_ h.cipher hascii hlines⟩
    all_goals simp [lines, fields, values]
  · rintro ⟨h, hkdf, hcipher⟩
    have hvalues := forall_values (k := k) (p := OneLine) (fun v hv ↦ hv) hkdf hcipher
      (h.address ▸ oneLine_address k.pubkey)
    refine ⟨?_, fun l hl ↦ ⟨?_, ?_⟩, h⟩
    · refine List.all_eq_true.mpr fun c hc ↦ ?_
      obtain ⟨l, hl, hc⟩ := List.mem_flatMap.mp hc
      rcases List.mem_append.mp hc with hc | hc
      · rcases eq_line_of_mem_lines hl with rfl | ⟨key, hkey, v, hv, rfl⟩
        · exact List.all_eq_true.mp (show isAscii magic = true by decide) c hc
        · rcases mem_of_mem_line hc with hc | rfl | rfl | hc
          · exact List.all_eq_true.mp (forall_fields (p := (isAscii · = true)) (by decide) key hkey) c hc
          · decide
          · decide
          · exact List.all_eq_true.mp (hvalues v hv).ascii c hc
      · rw [List.mem_singleton.mp hc]
        decide
    · exact newline_notMem_lines hkdf.newline hcipher.newline
        (h.address ▸ (oneLine_address k.pubkey).newline) l hl
    · rcases eq_line_of_mem_lines hl with rfl | ⟨key, hkey, v, hv, rfl⟩
      · decide
      · rw [getLast?_line (hvalues v hv).ne_nil]
        exact (hvalues v hv).last

/-- A text that is read is the text of the record, up to its line ends. -/
theorem madeOf_of_parse (h : parse text = .ok k) :
    ∃ ls, (∀ l ∈ ls, '\n' ∉ l) ∧ k.render = joinLines ls ∧ MadeOf ls text := by
  obtain ⟨-, hlines, -⟩ := parse_eq_ok.mp h
  refine ⟨plainLines text, fun l ↦ newline_notMem_of_mem_plainLines, ?_, madeOf_plainLines text⟩
  rw [hlines, render_eq]

end Parse

/-! ## What the tag is over -/

theorem line_inj {key w : Text} (h : line key v = line key w) : v = w :=
  (List.cons.inj (List.cons.inj (List.append_cancel_left h)).2).2

theorem decimal_inj {n m : Nat} (h : Text.decimal n = Text.decimal m) : n = m :=
  Text.decimal_injective h

theorem hexEncode_inj {n : Nat} {a b : Arr n} (h : hexEncode a.bytes = hexEncode b.bytes) : a = b := by
  have hread := congrArg hexDecode h
  rw [hexDecode_hexEncode, hexDecode_hexEncode] at hread
  exact Arr.ext (Option.some.inj hread)

theorem asStr_injective : Function.Injective Role.asStr := by
  intro r r' h
  have hread := congrArg Role.parse h
  rw [roleParse_asStr, roleParse_asStr] at hread
  exact Option.some.inj hread

/-- The lines that the tag is over have all fields but the tag. -/
theorem macLines_inj (h : k'.macLines = k.macLines) : k' = { k with mac := k'.mac } := by
  simp only [macLines, List.cons.injEq, true_and, and_true] at h
  obtain ⟨hversion, hrole, hcreated, hkdf, hiters, hsalt, hcipher, hnonce, hpubkey, haddress,
    hciphertext⟩ := h
  rw [Sechex.encode_eq, Sechex.encode_eq] at hciphertext
  cases k with
  | mk version role created kdf kdfIters kdfSalt cipher nonce pubkey address ciphertext mac =>
    cases k' with
    | mk version' role' created' kdf' kdfIters' kdfSalt' cipher' nonce' pubkey' address' ciphertext' mac' =>
      obtain rfl := UInt32.toNat_inj.mp (decimal_inj (line_inj hversion))
      obtain rfl := asStr_injective (line_inj hrole)
      obtain rfl := UInt64.toNat_inj.mp (decimal_inj (line_inj hcreated))
      obtain rfl := line_inj hkdf
      obtain rfl := UInt64.toNat_inj.mp (decimal_inj (line_inj hiters))
      obtain rfl := hexEncode_inj (line_inj hsalt)
      obtain rfl := line_inj hcipher
      obtain rfl := hexEncode_inj (line_inj hnonce)
      obtain rfl := hexEncode_inj (line_inj hpubkey)
      obtain rfl := line_inj haddress
      obtain rfl := hexEncode_inj (line_inj hciphertext)
      rfl

/-- A record whose own values have no newline is told from any other by what its tag is over. -/
theorem renderWithoutMac_inj (hkdf : '\n' ∉ k.kdf) (hcipher : '\n' ∉ k.cipher)
    (haddress : '\n' ∉ k.address) (h : k'.renderWithoutMac = k.renderWithoutMac) :
    k' = { k with mac := k'.mac } := by
  have hjoin : joinLines k.macLines = joinLines k'.macLines := h.symm
  have hlines : ∀ l ∈ k.macLines, '\n' ∉ l := fun l hl ↦
    newline_notMem_lines hkdf hcipher haddress l
      (List.mem_append_left [line fieldMac (hexEncode k.mac.bytes)] hl)
  have hlen : k'.macLines.length = k.macLines.length := rfl
  exact macLines_inj (joinLines_inj_of_length hlines hlen hjoin).symm

/-! ## Sealed records -/

section Sealed

variable [Crypto] [SigningKeys] {role : Role} {created : UInt64} {seed : Arr 32}
variable {passphrase : Option Bytes} {iters : UInt64}

/-- The tag of `k'` is a forgery: it is the tag of a message that was not tagged when `k` was sealed,
under a key of the passphrase. -/
def Forges (passphrase : Option Bytes) (k k' : KeyFile) : Prop :=
  asBytes k'.renderWithoutMac ≠ asBytes k.renderWithoutMac ∧
    Wallet.mac (effectiveKey passphrase k'.kdfSalt k'.kdfIters) (asBytes k'.renderWithoutMac) = k'.mac

/-- The values of a sealed record that are kept as they are stand on one line each. -/
theorem oneLine_sealed (role : Role) (created : UInt64) (seed : Arr 32) (passphrase : Option Bytes)
    (iters : UInt64) : OneLine (sealed role created seed passphrase iters).kdf ∧
      OneLine (sealed role created seed passphrase iters).cipher ∧
      OneLine (sealed role created seed passphrase iters).address := by
  obtain ⟨⟨hkdf, hkdfNone⟩, hcipher, hcipherNone⟩ := oneLine_names
  cases passphrase with
  | none => exact ⟨hkdfNone, hcipherNone, oneLine_address _⟩
  | some p => exact ⟨hkdf, hcipher, oneLine_address _⟩

/-- A sealed record is read back, if its iterations are not too many. -/
theorem wellFormed_sealed (h : passphrase = none ∨ iters.toNat ≤ maxIters) :
    (sealed role created seed passphrase iters).WellFormed := by
  obtain ⟨hkdf, hcipher, -⟩ := oneLine_sealed role created seed passphrase iters
  refine ⟨⟨rfl, hkdf.ne_nil, hcipher.ne_nil, rfl, ?_, ?_⟩, hkdf, hcipher⟩
  · cases passphrase with
    | none => exact fun _ ↦ rfl
    | some p => exact fun hnone ↦ absurd hnone (show kdfBlake3IterV1 ≠ kdfNone by decide)
  · cases passphrase with
    | none => exact Nat.zero_le _
    | some p => exact h.resolve_left (Option.some_ne_none p)

theorem sealed_mac (role : Role) (created : UInt64) (seed : Arr 32) (passphrase : Option Bytes)
    (iters : UInt64) : (sealed role created seed passphrase iters).mac =
      Wallet.mac (effectiveKey passphrase (sealed role created seed passphrase iters).kdfSalt
        (sealed role created seed passphrase iters).kdfIters)
        (asBytes (sealed role created seed passphrase iters).renderWithoutMac) := by
  cases passphrase <;> rfl

/-- A sealed record is opened with the passphrase it was sealed with. -/
theorem opened_sealed (role : Role) (created : UInt64) (seed : Arr 32) (passphrase : Option Bytes)
    (iters : UInt64) : (sealed role created seed passphrase iters).opened passphrase = .ok seed := by
  simp only [opened, Except.bind_eq_ok, Except.require_eq_ok]
  have hmac := (sealed_mac role created seed passphrase iters).symm
  cases passphrase with
  | none =>
    have hkdf : ¬(sealed role created seed none iters).kdf ≠ kdfNone := fun h ↦ h rfl
    refine ⟨(), fun h ↦ hkdf h.1, (), fun h ↦ h.2 rfl, (), fun h ↦ hkdf h.1, (),
      fun h ↦ hkdf h.1, (), hmac, (), ?_⟩
    rw [if_neg hkdf]
    exact ⟨rfl, rfl⟩
  | some p =>
    have hkdf : (sealed role created seed (some p) iters).kdf ≠ kdfNone :=
      fun h ↦ absurd h (show kdfBlake3IterV1 ≠ kdfNone by decide)
    have hseed : xorSeed (effectiveKey (some p) (sealed role created seed (some p) iters).kdfSalt
        (sealed role created seed (some p) iters).kdfIters)
        (sealed role created seed (some p) iters).nonce
        (sealed role created seed (some p) iters).ciphertext = seed := xorSeed_xorSeed _ _ _
    refine ⟨(), fun h ↦ absurd h.2 (Option.some_ne_none p), (), fun h ↦ h.1 hkdf, (),
      fun h ↦ h.2 rfl, (), fun h ↦ h.2 rfl, (), hmac, (), ?_⟩
    rw [if_pos hkdf, hseed]
    exact ⟨rfl, rfl⟩

/-- A record that is opened has its tag. -/
theorem mac_of_opened (h : k.opened passphrase = .ok seed) :
    Wallet.mac (effectiveKey passphrase k.kdfSalt k.kdfIters) (asBytes k.renderWithoutMac) =
      k.mac := by
  simp only [opened, Except.bind_eq_ok, Except.require_eq_ok] at h
  obtain ⟨-, -, -, -, -, -, -, -, -, hmac, -⟩ := h
  exact hmac

/-- What is opened with the passphrase of a sealed record is that record, or a forgery. -/
theorem eq_or_forges_of_opened {s : Arr 32} (h : k'.opened passphrase = .ok s) :
    k' = sealed role created seed passphrase iters ∨
      Forges passphrase (sealed role created seed passphrase iters) k' := by
  have hmac := mac_of_opened h
  by_cases hmessage : asBytes k'.renderWithoutMac =
      asBytes (sealed role created seed passphrase iters).renderWithoutMac
  · left
    obtain ⟨hkdf, hcipher, haddress⟩ := oneLine_sealed role created seed passphrase iters
    have heq := renderWithoutMac_inj hkdf.newline hcipher.newline haddress.newline
      (asBytes_injective hmessage)
    have hsame : k'.mac = (sealed role created seed passphrase iters).mac := by
      rw [sealed_mac, ← hmac, hmessage, heq]
    rw [heq, hsame]
  · exact .inr ⟨hmessage, hmac⟩

/-- A record is read back from its text exactly when it is well formed, as sealed ones are, and only
the text of a record is read, up to its line ends.  What was sealed is opened with its passphrase,
and nothing else is, unless its tag is a forgery. -/
theorem key_files :
    (∀ k : KeyFile, parse k.render = .ok k ↔ k.WellFormed) ∧
    (∀ text k, parse text = .ok k →
      ∃ ls, (∀ l ∈ ls, '\n' ∉ l) ∧ k.render = joinLines ls ∧ MadeOf ls text) ∧
    ∀ role created seed passphrase iters, let k := sealed role created seed passphrase iters
      (passphrase = none ∨ iters.toNat ≤ maxIters → k.WellFormed) ∧
      k.opened passphrase = .ok seed ∧
      ∀ k', k' ≠ k → ¬Forges passphrase k k' → ∃ e, k'.opened passphrase = .error e := by
  refine ⟨fun k ↦ parse_render_iff, fun text k ↦ madeOf_of_parse, ?_⟩
  intro role created seed passphrase iters
  refine ⟨wellFormed_sealed, opened_sealed role created seed passphrase iters, fun k' hne hforges ↦ ?_⟩
  cases hopened : k'.opened passphrase with
  | error e => exact ⟨e, rfl⟩
  | ok s => exact absurd (eq_or_forges_of_opened hopened) (not_or.mpr ⟨hne, hforges⟩)

end Sealed

/-- A record that was sealed with one iteration too many is not read. -/
theorem overdone_not_read : ¬∀ k : KeyFile, @parse (.ofSignatures []) k.render = .ok k := by
  intro h
  let _ : Crypto := .ofSignatures []
  let _ : SigningKeys := ⟨fun _ ↦ Arr.zero 32⟩
  obtain ⟨-, -, hread⟩ := parse_eq_ok.mp (h (sealed .spend 0 (Arr.zero 32) (some []) 1000000001))
  exact absurd hread.iters (by decide)

end KeyFile

end Plaine.Wallet.Keyfile

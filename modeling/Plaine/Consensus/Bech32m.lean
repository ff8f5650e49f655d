import Plaine.Lib.Regroup
import Plaine.Lib.Result

/-!
# Addresses as strings

`bech32m.rs`.  A string is its bytes: a human-readable part, the separator `1`, and characters that
stand for five bits each, the last six of them a checksum.  Bytes are regrouped into five bits with
zeros for padding, which the reader insists on, so that a payload has one string up to its case.
-/

namespace Plaine.Consensus.Bech32m

open Plaine.Lib

/-- `CHARSET`: the characters `qpzry9x8gf2tvdw0s3jn54khce6mua7l`. -/
def charset : Bytes :=
  [113, 112, 122, 114, 121, 57, 120, 56, 103, 102, 50, 116, 118, 100, 119, 48, 115, 51, 106,
   110, 53, 52, 107, 104, 99, 101, 54, 109, 117, 97, 55, 108]

/-- `GEN`. -/
def gen : List UInt32 := [0x3b6a57b2, 0x26508e6d, 0x1ea119fa, 0x3d4233dd, 0x2a1462b3]

def bech32mConst : UInt32 := 0x2bc830a3

def maxStringLen : Nat := 90

def maxHrpLen : Nat := 83

def checksumChars : Nat := 6

/-- The separator, `'1'`. -/
def separator : UInt8 := 0x31

inductive Bech32Error where
  | tooLong (len : Nat)
  | tooShort
  | mixedCase
  | noSeparator
  | emptyHrp
  | hrpTooLong (len : Nat)
  | hrpChar (index : Nat) (byte : UInt8)
  | dataChar (index : Nat) (byte : UInt8)
  | badChecksum
  | padding
deriving DecidableEq

/-! ## Checksum -/

/-- A round of `polymod`. -/
def polymodStep (chk : UInt32) (v : UInt8) : UInt32 :=
  let top := chk >>> 25
  gen.zipIdx.foldl
    (fun chk p ↦ if (top >>> UInt32.ofNat p.2) &&& 1 = 1 then chk ^^^ p.1 else chk)
    (((chk &&& 0x1ffffff) <<< 5) ^^^ v.toUInt32)

def polymod (values : Bytes) : UInt32 := values.foldl polymodStep 1

def hrpExpand (hrp : Bytes) : Bytes :=
  hrp.map (fun c : UInt8 ↦ c >>> 5) ++ 0 :: hrp.map fun c : UInt8 ↦ c &&& 31

/-! ## Regrouping -/

def convert8to5 (data : Bytes) : Bytes :=
  let s := Regroup.pushAll 8 5 .empty data
  if 0 < s.bits then s.out ++ [((s.acc <<< UInt32.ofNat (5 - s.bits)) &&& 31).toUInt8] else s.out

/-- The loop of `convert_5_to_8`, from the digit with this index on. -/
def convert5to8Loop : Nat → Regroup → Bytes → Except Bech32Error Regroup
  | _, s, [] => .ok s
  | index, s, v :: data =>
    if v >>> 5 ≠ 0 then .error (.dataChar index v)
    else convert5to8Loop (index + 1) (s.push 5 8 v) data

def convert5to8 (data : Bytes) : Except Bech32Error Bytes := do
  let s ← convert5to8Loop 0 .empty data
  if 5 ≤ s.bits ∨ (s.acc <<< UInt32.ofNat (8 - s.bits)) &&& 0xff ≠ 0 then .error .padding
  else .ok s.out

/-! ## Strings -/

/-- `is_ascii_uppercase`. -/
abbrev IsUpper (b : UInt8) : Prop := 65 ≤ b ∧ b ≤ 90

/-- `is_ascii_lowercase`. -/
abbrev IsLower (b : UInt8) : Prop := 97 ≤ b ∧ b ≤ 122

/-- `to_ascii_lowercase`, of a byte. -/
def toLower (b : UInt8) : UInt8 := if IsUpper b then b + 32 else b

/-- `to_ascii_lowercase`. -/
def lowercase (s : Bytes) : Bytes := s.map toLower

/-- The loops that refuse the first byte that fails a test, with its index. -/
def checkEach (p : UInt8 → Prop) [DecidablePred p] (e : Nat → UInt8 → Bech32Error) :
    Nat → Bytes → Except Bech32Error Unit
  | _, [] => .ok ()
  | index, byte :: s => if p byte then checkEach p e (index + 1) s else .error (e index byte)

/-- `(33..=126).contains`. -/
abbrev Printable (b : UInt8) : Prop := 33 ≤ b ∧ b ≤ 126

/-- `rfind`: the last place of a byte. -/
def rfind (b : UInt8) : Bytes → Option Nat
  | [] => none
  | a :: s =>
    match rfind b s with
    | some i => some (i + 1)
    | none => if a = b then some 0 else none

/-- The character of a digit. -/
def symbol (v : UInt8) : UInt8 := charset.getD v.toNat 0

def encodeFesWithConst (hrp data5 : Bytes) (konst : UInt32) : Except Bech32Error Bytes := do
  Except.require (hrp ≠ []) .emptyHrp
  Except.require (hrp.length ≤ maxHrpLen) (.hrpTooLong hrp.length)
  checkEach (fun b ↦ Printable b ∧ ¬IsUpper b) .hrpChar 0 hrp
  checkEach (fun v ↦ v >>> 5 = 0) .dataChar 0 data5
  let total := hrp.length + 1 + data5.length + checksumChars
  Except.require (total ≤ maxStringLen) (.tooLong total)
  let pm := polymod (hrpExpand hrp ++ data5 ++ List.replicate checksumChars 0) ^^^ konst
  .ok (hrp ++ separator :: (data5.map symbol ++
    (List.range checksumChars).map fun i ↦
      symbol ((pm >>> UInt32.ofNat (5 * (5 - i))) &&& 31).toUInt8))

def encodeFes (hrp data5 : Bytes) : Except Bech32Error Bytes :=
  encodeFesWithConst hrp data5 bech32mConst

/-- The loop over the data part, from the byte with this index on. -/
def dataValues : Nat → Bytes → Except Bech32Error Bytes
  | _, [] => .ok []
  | index, byte :: s => do
    let idx ← Except.ofOption (.dataChar index byte) (charset.idxOf? byte)
    let data5 ← dataValues (index + 1) s
    .ok (UInt8.ofNat idx :: data5)

def decodeFes (s : Bytes) : Except Bech32Error (Bytes × Bytes) := do
  Except.require (s.length ≤ maxStringLen) (.tooLong s.length)
  checkEach Printable .hrpChar 0 s
  Except.require (¬((∃ b ∈ s, IsLower b) ∧ ∃ b ∈ s, IsUpper b)) .mixedCase
  let lowered := lowercase s
  let pos ← Except.ofOption .noSeparator (rfind separator lowered)
  Except.require (pos ≠ 0) .emptyHrp
  Except.require (pos ≤ maxHrpLen) (.hrpTooLong pos)
  Except.require (checksumChars ≤ lowered.length - pos - 1) .tooShort
  let hrp := lowered.take pos
  let data5 ← dataValues (pos + 1) (lowered.drop (pos + 1))
  Except.require (polymod (hrpExpand hrp ++ data5) = bech32mConst) .badChecksum
  .ok (hrp, data5.take (data5.length - checksumChars))

def encodeBytes (hrp data : Bytes) : Except Bech32Error Bytes := encodeFes hrp (convert8to5 data)

def decodeBytes (s : Bytes) : Except Bech32Error (Bytes × Bytes) := do
  let (hrp, data5) ← decodeFes s
  let bytes ← convert5to8 data5
  .ok (hrp, bytes)

/-! ## The regrouping loses nothing -/

variable {data data5 : Bytes} {index : Nat}

theorem shiftRight_five {v : UInt8} : v >>> 5 = 0 ↔ v.toNat < 2 ^ 5 := by
  have hshift : (v >>> 5).toNat = v.toNat / 2 ^ 5 := by
    rw [← Nat.shiftRight_eq_div_pow, UInt8.toNat_shiftRight]
    rfl
  rw [← UInt8.toNat_inj, hshift]
  exact Nat.div_eq_zero_iff_lt (Nat.two_pow_pos 5)

theorem digits_convert8to5 (data : Bytes) : Digits 5 (convert8to5 data) := by
  have hinv : Regroup.Inv 5 (Regroup.pushAll 8 5 .empty data) :=
    (Regroup.inv_empty (by decide)).pushAll (by decide) data
  unfold convert8to5
  dsimp only
  split
  · intro x hx
    rcases List.mem_append.mp hx with hold | hnew
    · exact hinv.digits x hold
    · rw [List.mem_singleton.mp hnew]
      exact @Regroup.cut_lt 5 _ (by decide)
  · exact hinv.digits

/-- The digits hold the bits of the bytes, and fewer than five zeros. -/
theorem stream_convert8to5 (data : Bytes) :
    ∃ k < 5, stream 5 (convert8to5 data) = stream 8 data ++ List.replicate k false := by
  have hinv : Regroup.Inv 5 (Regroup.pushAll 8 5 .empty data) :=
    (Regroup.inv_empty (by decide)).pushAll (by decide) data
  have hseen := Regroup.stream_pushAll (show 0 < 5 by decide) (by decide) (by decide)
    (digits_eight data)
  unfold convert8to5
  dsimp only
  split
  case isTrue hpos =>
    have htop := Regroup.lowBits_top (Regroup.pushAll 8 5 .empty data).acc
      hinv.bits_lt.le (by decide)
    refine ⟨5 - (Regroup.pushAll 8 5 .empty data).bits, Nat.sub_lt (by decide) hpos, ?_⟩
    rw [stream_append, stream_cons, stream_nil, List.append_nil, UInt32.toNat_toUInt8,
      lowBits_mod (by decide), ← hseen, List.append_assoc]
    exact congrArg _ htop
  case isFalse hzero =>
    rw [Nat.eq_zero_of_not_pos hzero, lowBits, List.append_nil] at hseen
    exact ⟨0, by decide, by rw [hseen, List.replicate_zero, List.append_nil]⟩

theorem convert5to8Loop_eq_ok {s t : Regroup} :
    convert5to8Loop index s data5 = .ok t ↔ Digits 5 data5 ∧ Regroup.pushAll 5 8 s data5 = t := by
  induction data5 generalizing index s with
  | nil =>
    constructor
    · intro h
      exact ⟨fun _ hx ↦ absurd hx List.not_mem_nil, Except.ok.inj h⟩
    · rintro ⟨-, rfl⟩
      rfl
  | cons v data5 ih =>
    rw [convert5to8Loop]
    by_cases hv : v >>> 5 = 0
    · have hdigits : Digits 5 (v :: data5) ↔ Digits 5 data5 := by
        rw [Digits, List.forall_mem_cons, and_iff_right (shiftRight_five.mp hv)]
      rw [if_neg (not_not.mpr hv), ih, hdigits]
      rfl
    · rw [if_pos hv]
      constructor
      · intro h
        cases h
      · rintro ⟨hdigits, -⟩
        exact absurd (shiftRight_five.mpr (hdigits v List.mem_cons_self)) hv

/-- The test on the bits that are left says that they are all zero. -/
theorem padding_iff (acc : UInt32) {bits : Nat} (hbits : bits ≤ 8) :
    (acc <<< UInt32.ofNat (8 - bits)) &&& 0xff = 0 ↔
      lowBits bits acc.toNat = List.replicate bits false := by
  have htop := Regroup.lowBits_top acc hbits (by decide)
  have hlt : ((acc <<< UInt32.ofNat (8 - bits)) &&& UInt32.ofNat (2 ^ 8 - 1)).toNat < 2 ^ 8 := by
    rw [UInt32.toNat_and, Regroup.toNat_mask (by decide)]
    exact Nat.and_lt_two_pow _ (by decide)
  have hzeros : List.replicate bits false ++ List.replicate (8 - bits) false =
      lowBits 8 (0 : UInt32).toNat := by
    rw [List.replicate_append_replicate, Nat.add_sub_cancel' hbits]
    exact (lowBits_zero 8).symm
  calc (acc <<< UInt32.ofNat (8 - bits)) &&& 0xff = 0
      ↔ ((acc <<< UInt32.ofNat (8 - bits)) &&& UInt32.ofNat (2 ^ 8 - 1)).toNat =
          (0 : UInt32).toNat := UInt32.toNat_inj.symm
    _ ↔ lowBits 8 ((acc <<< UInt32.ofNat (8 - bits)) &&& UInt32.ofNat (2 ^ 8 - 1)).toNat =
          lowBits 8 (0 : UInt32).toNat := (lowBits_inj_of_lt hlt (by decide)).symm
    _ ↔ lowBits bits acc.toNat = List.replicate bits false := by
        rw [htop, ← hzeros]
        exact List.append_left_inj _

/-- Digits are read as bytes if they hold the bits of the bytes, and fewer than five zeros. -/
theorem convert5to8_eq_ok : convert5to8 data5 = .ok data ↔
    Digits 5 data5 ∧ ∃ k < 5, stream 5 data5 = stream 8 data ++ List.replicate k false := by
  rw [convert5to8, Except.bind_eq_ok]
  simp only [convert5to8Loop_eq_ok]
  constructor
  · rintro ⟨s, ⟨hdigits, rfl⟩, hs⟩
    have hinv : Regroup.Inv 8 (Regroup.pushAll 5 8 .empty data5) :=
      (Regroup.inv_empty (by decide)).pushAll (by decide) data5
    have hseen := Regroup.stream_pushAll (show 0 < 8 by decide) (by decide) (by decide)
      hdigits
    split at hs
    · cases hs
    case isFalse hpad =>
      obtain ⟨hfive, hzero⟩ := not_or.mp hpad
      rw [(padding_iff _ hinv.bits_lt.le).mp (not_not.mp hzero), Except.ok.inj hs] at hseen
      exact ⟨hdigits, _, Nat.lt_of_not_le hfive, hseen.symm⟩
  · rintro ⟨hdigits, k, hk, hstream⟩
    have hinv : Regroup.Inv 8 (Regroup.pushAll 5 8 .empty data5) :=
      (Regroup.inv_empty (by decide)).pushAll (by decide) data5
    have hseen := Regroup.stream_pushAll (show 0 < 8 by decide) (by decide) (by decide)
      hdigits
    generalize Regroup.pushAll 5 8 .empty data5 = s at hinv hseen
    rw [hstream] at hseen
    -- Both sides are whole bytes and less than one more.
    have hbits := hinv.bits_lt
    have hlen := congrArg List.length hseen
    rw [List.length_append, List.length_append, length_stream, length_stream, length_lowBits,
      List.length_replicate] at hlen
    have hout : s.out.length = data.length := by omega
    obtain ⟨hbytes, hrest⟩ := List.append_inj hseen (by rw [length_stream, length_stream, hout])
    have hsame : s.bits = k := by omega
    rw [← hsame] at hk hrest
    refine ⟨s, ⟨hdigits, rfl⟩, ?_⟩
    rw [if_neg, (stream_inj (digits_eight _) (digits_eight _) hout).mp hbytes]
    rw [not_or, not_not]
    exact ⟨Nat.not_le.mpr hk, (padding_iff _ hbits.le).mpr hrest⟩

theorem convert5to8_convert8to5 (data : Bytes) : convert5to8 (convert8to5 data) = .ok data :=
  convert5to8_eq_ok.mpr ⟨digits_convert8to5 data, stream_convert8to5 data⟩

theorem convert8to5_of_convert5to8 (h : convert5to8 data5 = .ok data) : convert8to5 data = data5 := by
  obtain ⟨hdigits, k, hk, hstream⟩ := convert5to8_eq_ok.mp h
  obtain ⟨l, hl, hstream'⟩ := stream_convert8to5 data
  -- Both are whole digits, so the zeros are as many.
  have hlen := congrArg List.length hstream
  have hlen' := congrArg List.length hstream'
  rw [List.length_append, length_stream, length_stream, List.length_replicate] at hlen hlen'
  have hkl : k = l := by omega
  refine (stream_inj (digits_convert8to5 data) hdigits (by omega)).mp ?_
  rw [hstream', hstream, hkl]

/-! ## Characters -/

variable {p : UInt8 → Prop} [DecidablePred p] {e : Nat → UInt8 → Bech32Error} {b v : UInt8}
  {s s' t xs hrp : Bytes} {i : Nat}

theorem checkEach_eq_ok {u : Unit} : checkEach p e index s = .ok u ↔ ∀ b ∈ s, p b := by
  induction s generalizing index with
  | nil => exact iff_of_true rfl fun b hb ↦ absurd hb List.not_mem_nil
  | cons a s ih =>
    rw [checkEach, List.forall_mem_cons]
    by_cases ha : p a
    · rw [if_pos ha, ih, and_iff_right ha]
    · rw [if_neg ha]
      exact iff_of_false (fun h ↦ nomatch h) fun h ↦ ha h.1

theorem rfind_eq_none : rfind b s = none ↔ b ∉ s := by
  induction s with
  | nil => exact iff_of_true rfl List.not_mem_nil
  | cons a s ih =>
    rw [rfind, List.mem_cons, not_or]
    cases hs : rfind b s with
    | none =>
      have hnot : b ∉ s := ih.mp hs
      by_cases ha : a = b
      · simp [ha]
      · simp [ha, hnot, Ne.symm ha]
    | some i =>
      have hmem : b ∈ s := by
        by_contra hnot
        rw [ih.mpr hnot] at hs
        cases hs
      simp [hmem]

/-- The last separator is the one that no other follows. -/
theorem rfind_append (h : b ∉ t) : rfind b (s ++ b :: t) = some s.length := by
  induction s with
  | nil => simp [rfind, rfind_eq_none.mpr h]
  | cons a s ih => rw [List.cons_append, rfind, ih, List.length_cons]

theorem eq_append_of_rfind (h : rfind b s = some i) : s = s.take i ++ b :: s.drop (i + 1) := by
  induction s generalizing i with
  | nil => cases h
  | cons a s ih =>
    rw [rfind] at h
    cases hs : rfind b s with
    | none =>
      simp only [hs] at h
      split at h
      case isTrue ha =>
        cases h
        rw [ha]
        rfl
      case isFalse => cases h
    | some j =>
      simp only [hs] at h
      cases h
      rw [List.take_succ_cons, List.drop_succ_cons, List.cons_append, ← ih hs]

theorem lt_of_rfind (h : rfind b s = some i) : i < s.length := by
  have hlen := congrArg List.length (eq_append_of_rfind h)
  rw [List.length_append, List.length_cons, List.length_take, List.length_drop] at hlen
  omega

/-- The characters of digits are told apart, are lower case and no separators. -/
theorem symbol_facts : ∀ v : UInt8, v.toNat < 2 ^ 5 → charset.idxOf? (symbol v) = some v.toNat ∧
    Printable (symbol v) ∧ ¬IsUpper (symbol v) ∧ symbol v ≠ separator := by decide +kernel

theorem idxOf?_facts : ∀ b : UInt8, ∀ i ∈ charset.idxOf? b,
    i < 2 ^ 5 ∧ symbol (UInt8.ofNat i) = b := by decide +kernel

theorem symbol_inj {v v' : UInt8} (hv : v.toNat < 2 ^ 5) (hv' : v'.toNat < 2 ^ 5)
    (h : symbol v = symbol v') : v = v' := by
  have hidx := (symbol_facts v hv).1
  rw [h, (symbol_facts v' hv').1] at hidx
  exact UInt8.toNat_inj.mp (Option.some.inj hidx).symm

/-- A character of the set is that of a digit. -/
theorem exists_symbol (h : b ∈ charset) : ∃ v : UInt8, v.toNat < 2 ^ 5 ∧ symbol v = b := by
  cases hi : charset.idxOf? b with
  | none => exact absurd h (List.idxOf?_eq_none_iff.mp hi)
  | some i =>
    obtain ⟨hlt, hb⟩ := idxOf?_facts b i hi
    refine ⟨UInt8.ofNat i, ?_, hb⟩
    rwa [UInt8.toNat_ofNat_of_lt' (hlt.trans (by decide))]

theorem separator_notMem (h : Digits 5 xs) : separator ∉ xs.map symbol := by
  rintro hmem
  obtain ⟨v, hv, hsymbol⟩ := List.mem_map.mp hmem
  exact (symbol_facts v (h v hv)).2.2.2 hsymbol

theorem dataValues_eq_ok : dataValues index s = .ok xs ↔ Digits 5 xs ∧ s = xs.map symbol := by
  induction s generalizing index xs with
  | nil =>
    constructor
    · intro h
      cases h
      exact ⟨fun _ hx ↦ absurd hx List.not_mem_nil, rfl⟩
    · rintro ⟨-, h⟩
      rw [List.map_eq_nil_iff.mp h.symm]
      rfl
  | cons b s ih =>
    rw [dataValues, Except.bind_eq_ok]
    simp only [Except.ofOption_eq_ok, Except.bind_eq_ok, ih]
    constructor
    · rintro ⟨i, hi, ys, ⟨hys, rfl⟩, hxs⟩
      obtain ⟨hlt, hb⟩ := idxOf?_facts b i hi
      have hdigit : (UInt8.ofNat i).toNat < 2 ^ 5 := by
        rwa [UInt8.toNat_ofNat_of_lt' (hlt.trans (by decide))]
      cases hxs
      exact ⟨List.forall_mem_cons.mpr ⟨hdigit, hys⟩, by rw [List.map_cons, hb]⟩
    · rintro ⟨hxs, hs⟩
      obtain _ | ⟨v, ys⟩ := xs
      · cases hs
      obtain ⟨hv, hys⟩ := List.forall_mem_cons.mp hxs
      obtain ⟨rfl, rfl⟩ := List.cons.inj hs
      refine ⟨v.toNat, (symbol_facts v hv).1, ys, ⟨hys, rfl⟩, ?_⟩
      rw [UInt8.ofNat_toNat]

/-! ## Case -/

/-- The byte in upper case. -/
def toUpper (b : UInt8) : UInt8 := if IsLower b then b - 32 else b

/-- The string in upper case. -/
def uppercase (s : Bytes) : Bytes := s.map toUpper

/-- A string without letters of one of the cases. -/
def Uniform (s : Bytes) : Prop := lowercase s = s ∨ uppercase s = s

theorem toLower_facts : ∀ b : UInt8, (toLower b = b ↔ ¬IsUpper b) ∧ (toUpper b = b ↔ ¬IsLower b) ∧
    ¬IsUpper (toLower b) ∧ (Printable (toLower b) ↔ Printable b) := by decide +kernel

theorem map_eq_self {α : Type} {f : α → α} {l : List α} : l.map f = l ↔ ∀ a ∈ l, f a = a := by
  conv_lhs => rhs; rw [← List.map_id l]
  exact List.map_inj_left

theorem lowercase_eq_self : lowercase s = s ↔ ∀ b ∈ s, ¬IsUpper b :=
  map_eq_self.trans (forall₂_congr fun b _ ↦ (toLower_facts b).1)

theorem uniform_iff : Uniform s ↔ ¬((∃ b ∈ s, IsLower b) ∧ ∃ b ∈ s, IsUpper b) := by
  have hlower : lowercase s = s ↔ ¬∃ b ∈ s, IsUpper b := by
    rw [lowercase_eq_self]
    simp only [not_exists, not_and]
  have hupper : uppercase s = s ↔ ¬∃ b ∈ s, IsLower b := by
    refine (map_eq_self.trans (forall₂_congr fun b _ ↦ (toLower_facts b).2.1)).trans ?_
    simp only [not_exists, not_and]
  rw [Uniform, hlower, hupper, not_and_or, or_comm]

theorem lowercase_lowercase (s : Bytes) : lowercase (lowercase s) = lowercase s := by
  refine lowercase_eq_self.mpr fun b hb ↦ ?_
  obtain ⟨a, -, rfl⟩ := List.mem_map.mp hb
  exact (toLower_facts a).2.2.1

theorem printable_lowercase : (∀ b ∈ lowercase s, Printable b) ↔ ∀ b ∈ s, Printable b := by
  rw [lowercase, List.forall_mem_map]
  exact forall₂_congr fun b _ ↦ (toLower_facts b).2.2.2

end Plaine.Consensus.Bech32m

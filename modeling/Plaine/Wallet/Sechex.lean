import Plaine.Lib.Text

/-!
# Hexadecimal strings of secrets

`wallet/src/sechex.rs`: a codec that does not branch on what it reads.  It writes what
`hex::encode` writes, and reads it back.
-/

namespace Plaine.Wallet.Sechex

open Plaine.Lib Plaine.Lib.Text

/-- `u8 as i16`. -/
def widen (b : UInt8) : Int16 := b.toUInt16.toInt16

/-- `in_range`: the sign bits of two differences. -/
def inRange (c lo hi : UInt8) : UInt8 :=
  let x := widen c
  let geLo := ((widen lo - x - 1) >>> 15) &&& 1
  let leHi := ((x - widen hi - 1) >>> 15) &&& 1
  (geLo &&& leHi).toUInt16.toUInt8

/-- `nibble_to_ascii`. -/
def nibbleToAscii (n : UInt8) : UInt8 :=
  let gt9 := ((9 - n) >>> 7) &&& 1
  n + 48 + gt9 * 39

/-- `ascii_to_nibble`: the value, and whether it is one. -/
def asciiToNibble (c : UInt8) : UInt8 × UInt8 :=
  let isDigit := inRange c 48 57
  let isLower := inRange c 97 102
  let isUpper := inRange c 65 70
  let v := isDigit * (c - 48) ||| isLower * (c - 97 + 10) ||| isUpper * (c - 65 + 10)
  (v &&& 0x0f, isDigit ||| isLower ||| isUpper)

/-- `u8 as char`. -/
def asChar (b : UInt8) : Char := Char.ofNat b.toNat

/-- The two digits of a byte. -/
def digits (b : UInt8) : Text := [asChar (nibbleToAscii (b >>> 4)), asChar (nibbleToAscii (b &&& 0x0f))]

/-- `encode`. -/
def encode (bytes : Bytes) : Text := bytes.flatMap digits

/-- The errors of `decode`. -/
inductive HexError where
  | oddLength (len : Nat)
  | notHex
deriving DecidableEq

/-- The loop of `decode` over pairs, with `all_valid`. -/
def decodePairs (allValid : UInt8) : Bytes → Bytes × UInt8
  | a :: b :: l =>
    let (hi, hv) := asciiToNibble a
    let (lo, lv) := asciiToNibble b
    let (out, valid) := decodePairs (allValid &&& (hv &&& lv)) l
    (((hi <<< 4) ||| lo) :: out, valid)
  | _ => ([], allValid)

/-- `decode`. -/
def decode (s : Text) : Except HexError Bytes :=
  let b := asBytes s
  if b.length % 2 ≠ 0 then .error (.oddLength b.length)
  else
    let (out, allValid) := decodePairs 1 b
    if allValid ≠ 1 then .error .notHex else .ok out

/-! ## What is written is read -/

variable {bytes : Bytes}

theorem asciiToNibble_nibbleToAscii : ∀ n : UInt8, n < 16 →
    asciiToNibble (nibbleToAscii n) = (n, 1) ∧
      String.utf8EncodeChar (asChar (nibbleToAscii n)) = [nibbleToAscii n] := by
  decide +kernel

theorem nibbles (b : UInt8) : b >>> 4 < 16 ∧ b &&& 0x0f < 16 ∧ ((b >>> 4) <<< 4) ||| (b &&& 0x0f) = b := by
  revert b
  decide +kernel

/-- The digits are those of `hex::encode`. -/
theorem digits_eq (b : UInt8) : digits b = hexByte b := by
  revert b
  decide +kernel

theorem encode_eq (bytes : Bytes) : encode bytes = hexEncode bytes := by
  unfold encode hexEncode
  congr 1
  funext b
  exact digits_eq b

theorem asBytes_digits (b : UInt8) :
    asBytes (digits b) = [nibbleToAscii (b >>> 4), nibbleToAscii (b &&& 0x0f)] := by
  obtain ⟨hhi, hlo, -⟩ := nibbles b
  rw [digits, asBytes, List.flatMap_cons, List.flatMap_cons, List.flatMap_nil,
    (asciiToNibble_nibbleToAscii _ hhi).2, (asciiToNibble_nibbleToAscii _ hlo).2]
  rfl

theorem decodePairs_asBytes (bytes : Bytes) :
    decodePairs 1 (asBytes (encode bytes)) = (bytes, 1) ∧ (asBytes (encode bytes)).length % 2 = 0 := by
  induction bytes with
  | nil => exact ⟨rfl, rfl⟩
  | cons b bytes ih =>
    obtain ⟨hhi, hlo, hjoin⟩ := nibbles b
    have hsplit : asBytes (encode (b :: bytes)) =
        nibbleToAscii (b >>> 4) :: nibbleToAscii (b &&& 0x0f) :: asBytes (encode bytes) := by
      rw [encode, List.flatMap_cons, asBytes, List.flatMap_append, ← asBytes, asBytes_digits]
      rfl
    rw [hsplit, decodePairs, (asciiToNibble_nibbleToAscii _ hhi).1,
      (asciiToNibble_nibbleToAscii _ hlo).1]
    refine ⟨?_, ?_⟩
    · change (_ :: (decodePairs 1 (asBytes (encode bytes))).1, _) = _
      rw [ih.1, hjoin]
      change (b :: bytes, (decodePairs 1 (asBytes (encode bytes))).2) = _
      rw [ih.1]
    · rw [List.length_cons, List.length_cons, Nat.add_assoc, Nat.add_mod_right]
      exact ih.2

theorem decode_encode (bytes : Bytes) : decode (encode bytes) = .ok bytes := by
  obtain ⟨hpairs, heven⟩ := decodePairs_asBytes bytes
  unfold decode
  dsimp only
  rw [if_neg (not_not_intro heven), hpairs, if_neg (not_not_intro rfl)]

end Plaine.Wallet.Sechex

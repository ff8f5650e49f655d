import Plaine.Lib.Crc
import Plaine.Storage.Codec

/-!
# The checksum of a frame

`crc32c` reads eight bytes at a time, each through a table of its own, and the rest one by one.  It
is the remainder by the Castagnoli polynomial, bit for bit.
-/

namespace Plaine.Storage

open Plaine.Lib

/-- The Castagnoli polynomial, its highest coefficients lowest. -/
def castagnoli : BitVec 32 := 0x82F63B78#32

/-- CRC-32C by its definition: the register starts with ones, and is inverted at the end. -/
def castagnoliCrc (data : Bytes) : BitVec 32 :=
  ~~~Crc.remainder castagnoli (BitVec.allOnes 32) (Crc.bitsOf data)

section

open Crc

theorem reversible_castagnoli : Reversible castagnoli := by
  unfold Reversible
  decide

/-! ## Tables -/

/-- A round of `build`. -/
theorem semiconj_crcStep : Function.Semiconj UInt32.toBitVec
    (fun crc : UInt32 ↦ if crc &&& 1 ≠ 0 then (crc >>> 1) ^^^ crcPoly else crc >>> 1)
    (shift castagnoli) := by
  intro crc
  have hlow : crc &&& 1 ≠ 0 ↔ crc.toBitVec.getLsbD 0 = true := by
    have hbit : (crc &&& 1).toBitVec = (BitVec.ofBool (crc.toBitVec.getLsbD 0)).setWidth 32 :=
      BitVec.and_one_eq_setWidth_ofBool_getLsbD
    rw [ne_eq, ← UInt32.toBitVec_inj, hbit]
    cases crc.toBitVec.getLsbD 0 <;> decide
  dsimp only
  unfold shift
  by_cases h : crc &&& 1 ≠ 0
  · rw [if_pos h, if_pos (hlow.mp h)]
    rfl
  · rw [if_neg h, if_neg fun hbit ↦ h (hlow.mpr hbit)]
    rfl

theorem toBitVec_crcTable_zero (i : UInt32) :
    (crcTable 0 i).toBitVec = (shift castagnoli)^[8] i.toBitVec := by
  rw [crcTable]
  exact semiconj_crcStep.iterate_right 8 i

/-- Eight shifts, by the first table. -/
theorem toBitVec_crcByte (x : UInt32) :
    ((x >>> 8) ^^^ crcTable 0 (x &&& 0xFF)).toBitVec = (shift castagnoli)^[8] x.toBitVec := by
  have hmask (i : Nat) (hi : i < 32) : (0xFF#32).getLsbD i = decide (i < 8) := by
    have hones : 0xFF = 2 ^ 8 - 1 := rfl
    rw [BitVec.getLsbD_ofNat, hones, Nat.testBit_two_pow_sub_one, decide_eq_true hi, Bool.true_and]
  have hsplit := @iterate_shift_eq_and _ castagnoli x.toBitVec 8 _ hmask
  rw [UInt32.toBitVec_xor, toBitVec_crcTable_zero, hsplit, BitVec.xor_comm]
  rfl

/-- A table holds the shifts of its indices. -/
theorem toBitVec_crcTable (s : Nat) (i : UInt32) :
    (crcTable s i).toBitVec = (shift castagnoli)^[8 * s + 8] i.toBitVec := by
  induction s with
  | zero => exact toBitVec_crcTable_zero i
  | succ s ih =>
    rw [crcTable, toBitVec_crcByte, ih, ← Function.iterate_add_apply, Nat.add_comm, Nat.mul_succ]

/-- The four bytes of a word, each through its table. -/
theorem toBitVec_crcWord (s : Nat) (x : UInt32) :
    (crcTable (s + 3) (x &&& 0xFF) ^^^ crcTable (s + 2) ((x >>> 8) &&& 0xFF) ^^^
      crcTable (s + 1) ((x >>> 16) &&& 0xFF) ^^^ crcTable s ((x >>> 24) &&& 0xFF)).toBitVec =
        (shift castagnoli)^[8 * s + 32] x.toBitVec := by
  have hbyte (n : Nat) (y : UInt32) : (shift castagnoli)^[n + 8] y.toBitVec =
      (shift castagnoli)^[n + 8] (y &&& 0xFF).toBitVec ^^^ (shift castagnoli)^[n] (y >>> 8).toBitVec := by
    rw [Function.iterate_add_apply, ← toBitVec_crcByte, UInt32.toBitVec_xor, iterate_shift_xor,
      toBitVec_crcTable_zero, ← Function.iterate_add_apply, BitVec.xor_comm]
  have hlast : (x >>> 24) &&& (0xFF : UInt32) = x >>> 24 := by
    rw [← UInt32.toNat_inj, UInt32.toNat_and, UInt32.toNat_shiftRight]
    have hlt : x.toNat >>> 24 < 2 ^ 8 := by
      rw [Nat.shiftRight_eq_div_pow]
      exact Nat.div_lt_of_lt_mul x.toNat_lt
    exact (Nat.and_two_pow_sub_one_eq_mod _ 8).trans (Nat.mod_eq_of_lt hlt)
  have h₁ : x >>> 8 >>> 8 = x >>> 16 := by
    rw [← UInt32.toNat_inj, UInt32.toNat_shiftRight, UInt32.toNat_shiftRight, UInt32.toNat_shiftRight]
    exact (Nat.shiftRight_add _ 8 8).symm
  have h₂ : x >>> 16 >>> 8 = x >>> 24 := by
    rw [← UInt32.toNat_inj, UInt32.toNat_shiftRight, UInt32.toNat_shiftRight, UInt32.toNat_shiftRight]
    exact (Nat.shiftRight_add _ 16 8).symm
  rw [hlast]
  simp only [UInt32.toBitVec_xor, toBitVec_crcTable]
  have e₁ := hbyte (8 * s + 24) x
  have e₂ := hbyte (8 * s + 16) (x >>> 8)
  have e₃ := hbyte (8 * s + 8) (x >>> 16)
  rw [h₁] at e₂
  rw [h₂] at e₃
  rw [e₁, e₂, e₃, BitVec.xor_assoc, BitVec.xor_assoc]
  rfl

/-! ## Loops -/

/-- Four bytes fill the register. -/
theorem remainder_word {l : Bytes} (hl : l.length = 4) (r : BitVec 32) :
    remainder castagnoli r (bitsOf l) =
      (shift castagnoli)^[32] (r ^^^ (UInt32.ofNat (ofLe l)).toBitVec) := by
  rw [remainder_bitsOf (by rw [hl]), hl]
  rfl

/-- A chunk is eight bytes of input. -/
theorem toBitVec_crcChunk {c : Bytes} (hc : c.length = 8) (crc : UInt32) :
    (crcChunk crc c).toBitVec = remainder castagnoli crc.toBitVec (bitsOf c) := by
  have hlow : (c.take 4).length = 4 := by rw [List.length_take, hc]; rfl
  have hhigh : (c.drop 4).length = 4 := by rw [List.length_drop, hc]
  have hall : (c.drop 4).take 4 = c.drop 4 := List.take_of_length_le hhigh.le
  have hlo := toBitVec_crcWord 4 (UInt32.ofNat (ofLe (c.take 4)) ^^^ crc)
  have hhi := toBitVec_crcWord 0 (UInt32.ofNat (ofLe (c.drop 4)))
  have hread : remainder castagnoli crc.toBitVec (bitsOf c) =
      (shift castagnoli)^[64] (UInt32.ofNat (ofLe (c.take 4)) ^^^ crc).toBitVec ^^^
        (shift castagnoli)^[32] (UInt32.ofNat (ofLe (c.drop 4))).toBitVec := by
    conv_lhs => rw [← List.take_append_drop 4 c, bitsOf_append, remainder_append, remainder_word hlow,
      remainder_word hhigh, iterate_shift_xor, ← Function.iterate_add_apply, BitVec.xor_comm crc.toBitVec]
    rfl
  rw [hread, crcChunk, leAt, leAt, List.drop_zero, hall]
  refine Eq.trans ?_ (congrArg₂ (· ^^^ ·) hlo hhi)
  rw [← UInt32.toBitVec_xor]
  simp only [UInt32.xor_assoc]

/-- The tail goes byte by byte. -/
theorem toBitVec_crcTail (data : Bytes) (crc : UInt32) :
    (data.foldl (fun (crc : UInt32) b ↦
      (crc >>> 8) ^^^ crcTable 0 ((crc ^^^ b.toUInt32) &&& 0xFF)) crc).toBitVec =
      remainder castagnoli crc.toBitVec (bitsOf data) := by
  induction data generalizing crc with
  | nil => rfl
  | cons b data ih =>
    have hbyte : b.toUInt32.toBitVec = BitVec.ofNat 32 (ofLe [b]) := by
      rw [ofLe, ofLe, Nat.mul_zero, Nat.add_zero, ← UInt8.toNat_toUInt32, ← UInt32.toNat_toBitVec,
        BitVec.ofNat_toNat, BitVec.setWidth_eq]
    -- The byte does not reach the bits that stay.
    have hhigh : crc >>> 8 = (crc ^^^ b.toUInt32) >>> 8 := by
      have hzero : b.toNat >>> 8 = 0 := by
        rw [Nat.shiftRight_eq_div_pow]
        exact Nat.div_eq_of_lt b.toNat_lt
      rw [← UInt32.toNat_inj, UInt32.toNat_shiftRight, UInt32.toNat_shiftRight, UInt32.toNat_xor,
        UInt8.toNat_toUInt32]
      show crc.toNat >>> 8 = (crc.toNat ^^^ b.toNat) >>> 8
      rw [Nat.shiftRight_xor_distrib, hzero, Nat.xor_zero]
    have hone : remainder castagnoli crc.toBitVec (bitsOf [b]) =
        (shift castagnoli)^[8] (crc.toBitVec ^^^ BitVec.ofNat 32 (ofLe [b])) :=
      remainder_bitsOf (by rw [List.length_singleton]; decide)
    rw [List.foldl_cons, ih, hhigh, toBitVec_crcByte, UInt32.toBitVec_xor, hbyte, ← hone,
      ← remainder_append, ← bitsOf_append, List.singleton_append]

theorem toBitVec_crcLoop {n : Nat} {data : Bytes} (hn : 8 * n ≤ data.length) (crc : UInt32) :
    (crcLoop n crc data).toBitVec = remainder castagnoli crc.toBitVec (bitsOf data) := by
  induction n generalizing crc data with
  | zero => exact toBitVec_crcTail data crc
  | succ n ih =>
    have htake : (data.take 8).length = 8 := by rw [List.length_take]; omega
    rw [crcLoop, ih (by rw [List.length_drop]; omega), toBitVec_crcChunk htake, ← remainder_append,
      ← bitsOf_append, List.take_append_drop]

/-- The checksum by tables is the checksum by its definition. -/
theorem toBitVec_crc32c (data : Bytes) : (crc32c data).toBitVec = castagnoliCrc data := by
  rw [crc32c, UInt32.toBitVec_not, toBitVec_crcLoop (Nat.mul_div_le _ _)]
  rfl

end

/-- The checksum in the header of a frame. -/
theorem crc_decodeFrameHeader (len : Nat) (crc : UInt32) :
    (decodeFrameHeader (encodeFrameHeader len crc)).2 = crc := by
  have hread := leAt_append 4 crc.toNat (leBytes 4 len) [] (length_leBytes 4 len) crc.toNat_lt
  rw [List.append_nil] at hread
  rw [decodeFrameHeader, encodeFrameHeader, hread, UInt32.ofNat_toNat]

/-- The checksum by tables is CRC-32C, and the one in a frame's header tells every change of its payload
that is confined to 32 consecutive bits, in the order the register takes them. -/
theorem crc32c_spec : (∀ data, (crc32c data).toBitVec = castagnoliCrc data) ∧
    ∀ payload payload' : Bytes, payload.length = payload'.length → payload ≠ payload' →
      ∀ k, (∀ i, (Crc.bitsOf payload)[i]? ≠ (Crc.bitsOf payload')[i]? → k ≤ i ∧ i < k + 32) →
        crc32c payload' ≠ (decodeFrameHeader (encodeFrameHeader payload.length (crc32c payload))).2 := by
  refine ⟨toBitVec_crc32c, fun payload payload' hlen hne k hburst heq ↦ ?_⟩
  rw [crc_decodeFrameHeader, ← UInt32.toBitVec_inj, toBitVec_crc32c, toBitVec_crc32c] at heq
  refine Crc.remainder_ne_of_burst reversible_castagnoli ?_ ?_ k hburst (BitVec.not_inj.mp heq).symm
  · rw [Crc.length_bitsOf, Crc.length_bitsOf, hlen]
  · exact fun hbits ↦ hne (Crc.bitsOf_injective hbits)

/-- Two bits of a payload. -/
theorem crc32c_spec_two : crc32c [0x62] ≠ (decodeFrameHeader (encodeFrameHeader 1 (crc32c [0x61]))).2 := by
  refine crc32c_spec.2 [0x61] [0x62] rfl (by decide) 0 fun i hi ↦ ⟨Nat.zero_le i, ?_⟩
  by_contra hge
  have hlen (b : UInt8) : (Crc.bitsOf [b]).length ≤ i := by
    rw [Crc.length_bitsOf, List.length_singleton]
    omega
  rw [List.getElem?_eq_none (hlen 0x61), List.getElem?_eq_none (hlen 0x62)] at hi
  exact hi rfl

end Plaine.Storage

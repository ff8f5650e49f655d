import Plaine.Consensus.Bech32m
import Plaine.Lib.Syndrome

/-!
# The checksum of an address

The six characters of the checksum fill a register of 30 bits, which `polymod` advances linearly.
They are the only six that leave it at the constant, so a string is read back if it was written, and
a string with one or two characters changed is not read at all.
-/

namespace Plaine.Consensus.Bech32m

open Plaine.Lib

variable {hrp data data5 xs s cs : Bytes} {v : UInt8}

/-! ## The register -/

section

open Syndrome

/-- What a bit that is shifted out adds. -/
def feedback (r : BitVec 30) (i : Nat) (g : BitVec 30) : BitVec 30 :=
  if r.getLsbD i then g else 0#30

/-- The register of `polymod`: the five bits that are shifted out come back as the generator. -/
def advance (r : BitVec 30) : BitVec 30 :=
  (r <<< 5) ^^^ feedback r 25 0x3b6a57b2#30 ^^^ feedback r 26 0x26508e6d#30 ^^^
    feedback r 27 0x1ea119fa#30 ^^^ feedback r 28 0x3d4233dd#30 ^^^ feedback r 29 0x2a1462b3#30

/-- A digit in the register. -/
def digit (v : UInt8) : BitVec 30 := v.toBitVec.setWidth 30

theorem toNat_digit (v : UInt8) : (digit v).toNat = v.toNat := by
  rw [digit, BitVec.toNat_setWidth, UInt8.toNat_toBitVec]
  exact Nat.mod_eq_of_lt (v.toNat_lt.trans (by decide))

theorem setWidth_digit (v : UInt8) : (digit v).setWidth 32 = v.toBitVec.setWidth 32 := by
  rw [← BitVec.toNat_inj, BitVec.toNat_setWidth, toNat_digit, BitVec.toNat_setWidth,
    UInt8.toNat_toBitVec]

theorem toNat_setWidth (r : BitVec 30) : (r.setWidth 32).toNat = r.toNat := by
  rw [BitVec.toNat_setWidth]
  exact Nat.mod_eq_of_lt (r.isLt.trans (by decide))

theorem digit_injective : Function.Injective digit := by
  intro v v' h
  rw [← UInt8.toNat_inj, ← toNat_digit, h, toNat_digit]

theorem feedback_xor (r s : BitVec 30) (i : Nat) (g : BitVec 30) :
    feedback (r ^^^ s) i g = feedback r i g ^^^ feedback s i g := by
  unfold feedback
  rw [BitVec.getLsbD_xor]
  cases r.getLsbD i <;> cases s.getLsbD i <;> simp

theorem additive_advance : Additive advance := by
  intro r s
  simp only [advance, feedback_xor, BitVec.shiftLeft_xor_distrib]
  ac_rfl

/-- A bit of what is shifted out, tested. -/
theorem top_bit {chk : UInt32} {r : BitVec 30} (h : chk.toBitVec = r.setWidth 32) {i : Nat}
    (hi : i < 5) : (chk >>> 25 >>> UInt32.ofNat i) &&& 1 = 1 ↔ r.getLsbD (25 + i) = true := by
  have hbit : chk.toNat.testBit (25 + i) = r.getLsbD (25 + i) := by
    have hget : chk.toBitVec.getLsbD (25 + i) = r.getLsbD (25 + i) := by
      rw [h, BitVec.getLsbD_setWidth, decide_eq_true (by omega), Bool.true_and]
    exact hget
  have hmod : (UInt32.ofNat i).toNat % 32 = i := by
    rw [UInt32.toNat_ofNat_of_lt' (hi.trans (by decide)), Nat.mod_eq_of_lt (hi.trans (by decide))]
  have hshift : (chk >>> 25 >>> UInt32.ofNat i).toNat = chk.toNat >>> (25 + i) := by
    rw [UInt32.toNat_shiftRight, hmod, UInt32.toNat_shiftRight, Nat.shiftRight_add]
    rfl
  rw [← UInt32.toNat_inj, UInt32.toNat_and, hshift, ← hbit, Nat.testBit_eq_decide_div_mod_eq,
    decide_eq_true_iff, ← Nat.shiftRight_eq_div_pow]
  show chk.toNat >>> (25 + i) &&& 1 = 1 ↔ _
  rw [Nat.and_one_is_mod]

/-- A round of the loop over the generator. -/
theorem toBitVec_round {chk x : UInt32} {r y g' : BitVec 30} {g : UInt32}
    (hx : x.toBitVec = y.setWidth 32) (h : chk.toBitVec = r.setWidth 32)
    (hg : g.toBitVec = g'.setWidth 32) {i : Nat} (hi : i < 5) :
    (if (chk >>> 25 >>> UInt32.ofNat i) &&& 1 = 1 then x ^^^ g else x).toBitVec =
      (y ^^^ feedback r (25 + i) g').setWidth 32 := by
  rw [feedback]
  by_cases hbit : r.getLsbD (25 + i) = true
  · rw [if_pos ((top_bit h hi).mpr hbit), if_pos hbit, UInt32.toBitVec_xor, hx, hg,
      BitVec.setWidth_xor]
  · rw [if_neg (mt (top_bit h hi).mp hbit), if_neg hbit, BitVec.xor_zero, hx]

/-- What stays of the register moves up. -/
theorem toBitVec_shift {chk : UInt32} {r : BitVec 30} (h : chk.toBitVec = r.setWidth 32) :
    ((chk &&& 0x1ffffff) <<< 5).toBitVec = (r <<< 5).setWidth 32 := by
  have hmask (j : Nat) (hj : j < 32) : (0x1ffffff#32).getLsbD j = decide (j < 25) := by
    have hones : 0x1ffffff = 2 ^ 25 - 1 := rfl
    rw [BitVec.getLsbD_ofNat, hones, Nat.testBit_two_pow_sub_one, decide_eq_true hj, Bool.true_and]
  have hword : ((chk &&& 0x1ffffff) <<< 5).toBitVec = (chk.toBitVec &&& 0x1ffffff#32) <<< 5 := rfl
  rw [hword, h]
  ext i hi
  rw [← BitVec.getLsbD_eq_getElem, ← BitVec.getLsbD_eq_getElem, BitVec.getLsbD_shiftLeft,
    BitVec.getLsbD_setWidth, BitVec.getLsbD_shiftLeft, BitVec.getLsbD_and, BitVec.getLsbD_setWidth,
    hmask _ (Nat.lt_of_le_of_lt (Nat.sub_le i 5) hi)]
  by_cases hlow : i < 5
  · simp [hlow]
  · have hcut : (i < 30) = (i - 5 < 25) := by
      rw [eq_iff_iff]
      omega
    simp only [hi, hlow, hcut, Nat.lt_of_le_of_lt (Nat.sub_le i 5) hi]
    cases r.getLsbD (i - 5) <;> simp

/-- A step of `polymod` is one of the register. -/
theorem toBitVec_polymodStep {chk : UInt32} {r : BitVec 30} (h : chk.toBitVec = r.setWidth 32)
    (v : UInt8) : (polymodStep chk v).toBitVec = (advance r ^^^ digit v).setWidth 32 := by
  have hshift : (((chk &&& 0x1ffffff) <<< 5) ^^^ v.toUInt32).toBitVec =
      ((r <<< 5) ^^^ digit v).setWidth 32 := by
    rw [UInt32.toBitVec_xor, BitVec.setWidth_xor, toBitVec_shift h, UInt8.toBitVec_toUInt32,
      setWidth_digit]
  have hsum : advance r ^^^ digit v = (r <<< 5) ^^^ digit v ^^^ feedback r 25 0x3b6a57b2#30 ^^^
      feedback r 26 0x26508e6d#30 ^^^ feedback r 27 0x1ea119fa#30 ^^^ feedback r 28 0x3d4233dd#30 ^^^
      feedback r 29 0x2a1462b3#30 := by
    unfold advance
    ac_rfl
  have hg (g : BitVec 30) : (UInt32.ofBitVec (g.setWidth 32)).toBitVec = g.setWidth 32 := rfl
  have h₀ := toBitVec_round hshift h (hg 0x3b6a57b2#30) (show 0 < 5 by decide)
  have h₁ := toBitVec_round h₀ h (hg 0x26508e6d#30) (show 1 < 5 by decide)
  have h₂ := toBitVec_round h₁ h (hg 0x1ea119fa#30) (show 2 < 5 by decide)
  have h₃ := toBitVec_round h₂ h (hg 0x3d4233dd#30) (show 3 < 5 by decide)
  have h₄ := toBitVec_round h₃ h (hg 0x2a1462b3#30) (show 4 < 5 by decide)
  rw [hsum]
  exact h₄

theorem toBitVec_foldl_polymodStep {chk : UInt32} {r : BitVec 30} (h : chk.toBitVec = r.setWidth 32)
    (values : Bytes) : (values.foldl polymodStep chk).toBitVec =
      (syndrome advance r (values.map digit)).setWidth 32 := by
  induction values generalizing chk r with
  | nil => exact h
  | cons v values ih => exact ih (toBitVec_polymodStep h v)

/-- `polymod` is a syndrome. -/
theorem toBitVec_polymod (values : Bytes) :
    (polymod values).toBitVec = (syndrome advance 1#30 (values.map digit)).setWidth 32 :=
  toBitVec_foldl_polymodStep (r := 1#30) rfl values

/-! ## Distance -/

/-- The five bits that are shifted out show in the five lowest. -/
theorem feedback_eq_zero : ∀ b₀ b₁ b₂ b₃ b₄ : Bool,
    (∀ i < 5, ((if b₀ then 0x3b6a57b2#30 else 0#30) ^^^ (if b₁ then 0x26508e6d#30 else 0#30) ^^^
      (if b₂ then 0x1ea119fa#30 else 0#30) ^^^ (if b₃ then 0x3d4233dd#30 else 0#30) ^^^
      (if b₄ then 0x2a1462b3#30 else 0#30)).getLsbD i = false) →
    b₀ = false ∧ b₁ = false ∧ b₂ = false ∧ b₃ = false ∧ b₄ = false := by decide

/-- The register loses nothing. -/
theorem eq_zero_of_advance (r : BitVec 30) (h : advance r = 0#30) : r = 0#30 := by
  have hsum : advance r = (r <<< 5) ^^^ (feedback r 25 0x3b6a57b2#30 ^^^
      feedback r 26 0x26508e6d#30 ^^^ feedback r 27 0x1ea119fa#30 ^^^ feedback r 28 0x3d4233dd#30 ^^^
      feedback r 29 0x2a1462b3#30) := by
    unfold advance
    ac_rfl
  obtain ⟨h₂₅, h₂₆, h₂₇, h₂₈, h₂₉⟩ := feedback_eq_zero (r.getLsbD 25) (r.getLsbD 26) (r.getLsbD 27)
    (r.getLsbD 28) (r.getLsbD 29) fun i hi ↦ by
      have hbit : (advance r).getLsbD i = false := by
        rw [h]
        exact BitVec.getLsbD_zero
      have hlow : (r <<< 5).getLsbD i = false := by
        rw [BitVec.getLsbD_shiftLeft, decide_eq_true hi, Bool.not_true, Bool.and_false,
          Bool.false_and]
      rwa [hsum, BitVec.getLsbD_xor, hlow, Bool.false_xor] at hbit
  have hshift : advance r = r <<< 5 := by
    simp only [advance, feedback, h₂₅, h₂₆, h₂₇, h₂₈, h₂₉, Bool.false_eq_true, if_false,
      BitVec.xor_zero]
  refine BitVec.eq_of_getLsbD_eq fun i hi ↦ ?_
  rw [BitVec.getLsbD_zero]
  obtain hlow | hhigh := Nat.lt_or_ge i 25
  · have hbit : (r <<< 5).getLsbD (i + 5) = false := by
      rw [← hshift, h]
      exact BitVec.getLsbD_zero
    rw [BitVec.getLsbD_shiftLeft, Nat.add_sub_cancel, decide_eq_true (by omega),
      decide_eq_false (by omega)] at hbit
    simpa using hbit
  · obtain rfl | rfl | rfl | rfl | rfl : i = 25 ∨ i = 26 ∨ i = 27 ∨ i = 28 ∨ i = 29 := by omega
    all_goals assumption

theorem apart_advance : Apart advance (fun x ↦ x.toNat < 32) 88 := by
  refine apart_of_comesBack fun x hx hne ↦ ?_
  have hall : ∀ n < 32, n ≠ 0 →
      comesBack advance (fun x ↦ x.toNat < 32) 88 (BitVec.ofNat 30 n) = false := by
    decide +kernel
  have hback := hall x.toNat hx fun hzero ↦ hne (BitVec.toNat_inj.mp hzero)
  rwa [BitVec.ofNat_toNat, BitVec.setWidth_eq] at hback

/-! ## The six characters -/

/-- A register with room for a digit only moves up. -/
theorem advance_of_lt {r : BitVec 30} (h : r.toNat < 2 ^ 25) : advance r = r <<< 5 := by
  have hzero (i : Nat) (g : BitVec 30) (hi : 25 ≤ i) : feedback r i g = 0#30 := by
    refine if_neg ?_
    have hbit : r.getLsbD i = false := Nat.testBit_lt_two_pow
      (h.trans_le (Nat.pow_le_pow_right (by decide) hi))
    rw [hbit]
    exact Bool.false_ne_true
  rw [advance, hzero 25 _ (by decide), hzero 26 _ (by decide), hzero 27 _ (by decide),
    hzero 28 _ (by decide), hzero 29 _ (by decide)]
  simp only [BitVec.xor_zero]

/-- Six digits fill an empty register. -/
theorem syndrome_zero (hcs : Digits 5 cs) (hlen : cs.length ≤ 6) :
    (syndrome advance 0#30 (cs.map digit)).toNat < 2 ^ (5 * cs.length) ∧
      lowBits (5 * cs.length) (syndrome advance 0#30 (cs.map digit)).toNat = stream 5 cs := by
  induction cs using List.reverseRecOn with
  | nil => exact ⟨by decide, rfl⟩
  | append_singleton cs c ih =>
    rw [List.length_append, List.length_singleton] at hlen ⊢
    obtain ⟨hlt, hbits⟩ := ih (fun x hx ↦ hcs x (List.mem_append_left _ hx)) (by omega)
    have hc : c.toNat < 2 ^ 5 := hcs c (List.mem_append_right _ List.mem_cons_self)
    rw [List.map_append, syndrome_append, List.map_singleton, syndrome_cons, syndrome_nil, Nat.mul_succ]
    generalize syndrome advance 0#30 (cs.map digit) = r at hlt hbits
    have hroom : r.toNat < 2 ^ 25 := hlt.trans_le (Nat.pow_le_pow_right (by decide) (by omega))
    have hfit : r.toNat <<< 5 < 2 ^ (5 * cs.length + 5) := by
      rw [Nat.shiftLeft_eq, Nat.pow_add]
      exact Nat.mul_lt_mul_of_pos_right hlt (Nat.two_pow_pos 5)
    have hnext : (advance r ^^^ digit c).toNat = r.toNat <<< 5 ^^^ c.toNat := by
      rw [advance_of_lt hroom, BitVec.toNat_xor, BitVec.toNat_shiftLeft, toNat_digit,
        Nat.mod_eq_of_lt (hfit.trans_le (Nat.pow_le_pow_right (by decide) (by omega)))]
    rw [hnext]
    constructor
    · exact Nat.xor_lt_two_pow hfit
        (hc.trans_le (Nat.pow_le_pow_right (by decide) (Nat.le_add_left 5 _)))
    · rw [lowBits_add, stream_append, stream_cons, stream_nil, List.append_nil, ← hbits]
      congr 1
      · refine lowBits_inj.mpr fun i hi ↦ ?_
        have hhigh : c.toNat.testBit (5 + i) = false := Nat.testBit_lt_two_pow
          (hc.trans_le (Nat.pow_le_pow_right (by decide) (Nat.le_add_right 5 i)))
        rw [Nat.testBit_shiftRight, Nat.testBit_xor, hhigh, Bool.xor_false, Nat.testBit_shiftLeft,
          decide_eq_true (Nat.le_add_right 5 i), Bool.true_and, Nat.add_sub_cancel_left]
      · refine lowBits_inj.mpr fun i hi ↦ ?_
        rw [Nat.testBit_xor, Nat.testBit_shiftLeft, decide_eq_false (Nat.not_le.mpr hi),
          Bool.false_and, Bool.false_xor]

end

/-- The digits that `encodeFes` puts at the end. -/
def checksum (hrp data5 : Bytes) : Bytes :=
  (List.range checksumChars).map fun i ↦
    (((polymod (hrpExpand hrp ++ data5 ++ List.replicate checksumChars 0) ^^^ bech32mConst) >>>
      UInt32.ofNat (5 * (5 - i))) &&& 31).toUInt8

theorem length_checksum (hrp data5 : Bytes) : (checksum hrp data5).length = checksumChars := by
  rw [checksum, List.length_map, List.length_range]

theorem digits_checksum (hrp data5 : Bytes) : Digits 5 (checksum hrp data5) := by
  intro x hx
  obtain ⟨i, -, rfl⟩ := List.mem_map.mp hx
  exact @Regroup.cut_lt 5 _ (by decide)

theorem stream_checksum (hrp data5 : Bytes) : stream 5 (checksum hrp data5) = lowBits 30
    (polymod (hrpExpand hrp ++ data5 ++ List.replicate checksumChars 0) ^^^ bech32mConst).toNat := by
  rw [checksum, stream, List.flatMap_map]
  refine Eq.trans (List.flatMap_congr fun i _ ↦ ?_) (lowBits_mul 5 6 _).symm
  have hsmall : 5 * (5 - i) < 32 := (Nat.mul_le_mul_left 5 (Nat.sub_le 5 i)).trans_lt (by decide)
  exact @Regroup.lowBits_cut 5 _ _ (by decide) hsmall

/-- The checksum is the only one that verifies. -/
theorem polymod_eq_iff (hcs : Digits 5 cs) (hlen : cs.length = checksumChars) :
    polymod (hrpExpand hrp ++ (data5 ++ cs)) = bech32mConst ↔ cs = checksum hrp data5 := by
  set values := hrpExpand hrp ++ data5 with hvalues
  have happend : hrpExpand hrp ++ (data5 ++ cs) = values ++ cs := (List.append_assoc ..).symm
  -- The register with the six digits, and with six zeros in their place.
  have hword := toBitVec_polymod (values ++ cs)
  have hzeros := toBitVec_polymod (values ++ List.replicate checksumChars 0)
  have hdigit : digit 0 = 0#30 := rfl
  rw [List.map_append, Syndrome.syndrome_append, Syndrome.syndrome_eq additive_advance,
    List.length_map, hlen] at hword
  rw [List.map_append, Syndrome.syndrome_append, List.map_replicate, hdigit,
    Syndrome.syndrome_replicate] at hzeros
  generalize advance^[checksumChars] (Syndrome.syndrome advance 1#30 (values.map digit)) = r
    at hword hzeros
  obtain ⟨hlt, hbits⟩ := syndrome_zero hcs hlen.le
  rw [hlen] at hlt hbits
  generalize Syndrome.syndrome advance 0#30 (cs.map digit) = c at hword hlt hbits
  have hpm : (polymod (values ++ List.replicate checksumChars 0) ^^^ bech32mConst).toNat =
      (r ^^^ 0x2bc830a3#30).toNat := by
    rw [← UInt32.toNat_toBitVec, UInt32.toBitVec_xor, hzeros, ← toNat_setWidth (r ^^^ 0x2bc830a3#30),
      BitVec.setWidth_xor]
    rfl
  rw [happend]
  calc polymod (values ++ cs) = bech32mConst
      ↔ (r ^^^ c).setWidth 32 = (0x2bc830a3#30).setWidth 32 := by
        rw [← UInt32.toBitVec_inj, hword]
        rfl
    _ ↔ r ^^^ c = 0x2bc830a3#30 := by
        rw [← BitVec.toNat_inj, toNat_setWidth, toNat_setWidth, BitVec.toNat_inj]
    _ ↔ c = r ^^^ 0x2bc830a3#30 := by
        rw [← BitVec.xor_right_inj r, ← BitVec.xor_assoc, BitVec.xor_self, BitVec.zero_xor]
    _ ↔ c.toNat = (polymod (values ++ List.replicate checksumChars 0) ^^^ bech32mConst).toNat := by
        rw [hpm, BitVec.toNat_inj]
    _ ↔ stream 5 cs = stream 5 (checksum hrp data5) := by
        rw [stream_checksum, ← hbits]
        exact (lowBits_inj_of_lt hlt (by rw [hpm]; exact BitVec.isLt _)).symm
    _ ↔ cs = checksum hrp data5 :=
        stream_inj hcs (digits_checksum hrp data5) (by rw [hlen, length_checksum])

/-! ## Strings -/

/-- A human-readable part and digits that make a string. -/
structure Shape (hrp xs : Bytes) : Prop where
  hrp_ne : hrp ≠ []
  hrp_le : hrp.length ≤ maxHrpLen
  hrp_chars : ∀ b ∈ hrp, Printable b ∧ ¬IsUpper b
  digits : Digits 5 xs
  checksum_le : checksumChars ≤ xs.length
  length_le : hrp.length + 1 + xs.length ≤ maxStringLen

/-- The string they make. -/
def join (hrp xs : Bytes) : Bytes := hrp ++ separator :: xs.map symbol

theorem length_join (hrp xs : Bytes) : (join hrp xs).length = hrp.length + 1 + xs.length := by
  rw [join, List.length_append, List.length_cons, List.length_map, Nat.add_right_comm, Nat.add_assoc]

theorem join_chars (h : Shape hrp xs) : ∀ b ∈ join hrp xs, Printable b ∧ ¬IsUpper b := by
  intro b hb
  rcases List.mem_append.mp hb with hhrp | hdata
  · exact h.hrp_chars b hhrp
  rcases List.mem_cons.mp hdata with rfl | hsymbol
  · decide
  · obtain ⟨v, hv, rfl⟩ := List.mem_map.mp hsymbol
    obtain ⟨-, hprint, hcase, -⟩ := symbol_facts v (h.digits v hv)
    exact ⟨hprint, hcase⟩

theorem lowercase_join (h : Shape hrp xs) : lowercase (join hrp xs) = join hrp xs :=
  lowercase_eq_self.mpr fun b hb ↦ (join_chars h b hb).2

theorem encodeFes_eq_ok : encodeFes hrp data5 = .ok s ↔
    Shape hrp (data5 ++ checksum hrp data5) ∧ s = join hrp (data5 ++ checksum hrp data5) := by
  have hjoin : join hrp (data5 ++ checksum hrp data5) = hrp ++ separator :: (data5.map symbol ++
      (checksum hrp data5).map symbol) := by rw [join, List.map_append]
  have hsymbols : (checksum hrp data5).map symbol = (List.range checksumChars).map fun i ↦
      symbol (((polymod (hrpExpand hrp ++ data5 ++ List.replicate checksumChars 0) ^^^ bech32mConst) >>>
        UInt32.ofNat (5 * (5 - i))) &&& 31).toUInt8 := by rw [checksum, List.map_map]; rfl
  have hlen : (data5 ++ checksum hrp data5).length = data5.length + checksumChars := by
    rw [List.length_append, length_checksum]
  rw [hjoin, hsymbols, encodeFes, encodeFesWithConst]
  simp only [Except.bind_eq_ok, Except.require_eq_ok, checkEach_eq_ok, shiftRight_five, exists_const,
    Except.ok.injEq]
  constructor
  · rintro ⟨hne, hle, hchars, hdigits, htotal, rfl⟩
    refine ⟨⟨hne, hle, hchars, ?_, ?_, ?_⟩, rfl⟩
    · exact List.forall_mem_append.mpr ⟨hdigits, digits_checksum hrp data5⟩
    · rw [hlen]
      exact Nat.le_add_left _ _
    · rwa [hlen, ← Nat.add_assoc]
  · rintro ⟨h, rfl⟩
    have htotal := h.length_le
    rw [hlen, ← Nat.add_assoc] at htotal
    exact ⟨h.hrp_ne, h.hrp_le, h.hrp_chars, (List.forall_mem_append.mp h.digits).1, htotal, rfl⟩

/-- A string that is well formed up to its case is read if the checksum verifies. -/
theorem decodeFes_of_shape (h : Shape hrp xs) (hs : lowercase s = join hrp xs) (hcase : Uniform s) :
    decodeFes s = if polymod (hrpExpand hrp ++ xs) = bech32mConst
      then .ok (hrp, xs.take (xs.length - checksumChars)) else .error .badChecksum := by
  have hlength : s.length = hrp.length + 1 + xs.length := by
    rw [← length_join, ← hs, lowercase, List.length_map]
  have hprint : ∀ b ∈ s, Printable b := by
    rw [← printable_lowercase, hs]
    exact fun b hb ↦ (join_chars h b hb).1
  have hpos : rfind separator (join hrp xs) = some hrp.length :=
    rfind_append (separator_notMem h.digits)
  have htake : (join hrp xs).take hrp.length = hrp := List.take_left
  have hdrop : (join hrp xs).drop (hrp.length + 1) = xs.map symbol := by
    rw [join, ← List.drop_drop, List.drop_left, List.drop_succ_cons, List.drop_zero]
  have hdata (index : Nat) : dataValues index (xs.map symbol) = .ok xs :=
    dataValues_eq_ok.mpr ⟨h.digits, rfl⟩
  have hsum : checksumChars ≤ (join hrp xs).length - hrp.length - 1 := by
    have hle := h.checksum_le
    rw [length_join]
    omega
  rw [decodeFes, Except.require_of (by rw [hlength]; exact h.length_le), Except.ok_bind,
    checkEach_eq_ok (u := ()).mpr hprint, Except.ok_bind, Except.require_of (uniform_iff.mp hcase),
    Except.ok_bind, hs]
  simp only [hpos, Except.ofOption, Except.ok_bind, htake, hdrop, hdata]
  rw [Except.require_of (mt List.eq_nil_of_length_eq_zero h.hrp_ne), Except.ok_bind,
    Except.require_of h.hrp_le, Except.ok_bind, Except.require_of hsum, Except.ok_bind]
  unfold Except.require
  split <;> rfl

/-- What is read is well formed up to its case. -/
theorem shape_of_decodeFes (h : decodeFes s = .ok (hrp, data5)) :
    Uniform s ∧ ∃ xs, Shape hrp xs ∧ lowercase s = join hrp xs := by
  rw [decodeFes] at h
  simp only [Except.bind_eq_ok, Except.require_eq_ok, checkEach_eq_ok, Except.ofOption_eq_ok,
    exists_const, dataValues_eq_ok] at h
  obtain ⟨hlen, hprint, hcase, pos, hpos, hpos0, hposle, hsum, xs, ⟨hdigits, hxs⟩, -, hres⟩ := h
  have hsplit := eq_append_of_rfind hpos
  obtain ⟨rfl, -⟩ := Prod.mk.inj (Except.ok.inj hres)
  rw [hxs] at hsplit
  have htotal : (lowercase s).length = s.length := List.length_map _
  have hxslen : xs.length = (lowercase s).length - (pos + 1) := by
    rw [← List.length_drop, hxs, List.length_map]
  have hlt := lt_of_rfind hpos
  have hhead : ((lowercase s).take pos).length = pos := List.length_take_of_le hlt.le
  refine ⟨uniform_iff.mpr hcase, xs, ?_, hsplit⟩
  constructor
  case hrp_ne =>
    intro hnil
    rw [hnil] at hhead
    exact hpos0 hhead.symm
  case hrp_le => rwa [hhead]
  case hrp_chars =>
    intro b hb
    have hmem := List.mem_of_mem_take hb
    refine ⟨printable_lowercase.mpr hprint b hmem, ?_⟩
    exact lowercase_eq_self.mp (lowercase_lowercase s) b hmem
  case digits => exact hdigits
  case checksum_le => omega
  case length_le =>
    rw [hhead]
    omega

/-- A string is read if, in lower case, it was written, and its case is uniform. -/
theorem decodeFes_eq_ok : decodeFes s = .ok (hrp, data5) ↔
    Uniform s ∧ encodeFes hrp data5 = .ok (lowercase s) := by
  constructor
  · intro h
    obtain ⟨hcase, xs, hshape, hs⟩ := shape_of_decodeFes h
    rw [decodeFes_of_shape hshape hs hcase] at h
    split at h
    case isFalse => cases h
    case isTrue hsum =>
      obtain ⟨-, rfl⟩ := Prod.mk.inj (Except.ok.inj h)
      -- The last six digits are the checksum of the others.
      have hxs : xs = xs.take (xs.length - checksumChars) ++ xs.drop (xs.length - checksumChars) :=
        (List.take_append_drop ..).symm
      have hlast : (xs.drop (xs.length - checksumChars)).length = checksumChars := by
        rw [List.length_drop, Nat.sub_sub_self hshape.checksum_le]
      have hdigits : Digits 5 (xs.drop (xs.length - checksumChars)) :=
        fun x hx ↦ hshape.digits x (List.mem_of_mem_drop hx)
      rw [hxs, polymod_eq_iff hdigits hlast] at hsum
      rw [hsum] at hxs
      exact ⟨hcase, encodeFes_eq_ok.mpr ⟨hxs ▸ hshape, hxs ▸ hs⟩⟩
  · rintro ⟨hcase, hencode⟩
    obtain ⟨hshape, hs⟩ := encodeFes_eq_ok.mp hencode
    have hsum := (@polymod_eq_iff hrp data5 _ (digits_checksum hrp data5)
      (length_checksum hrp data5)).mpr rfl
    rw [decodeFes_of_shape hshape hs hcase, if_pos hsum, List.length_append, length_checksum,
      Nat.add_sub_cancel, List.take_left]

theorem decodeBytes_eq_ok : decodeBytes s = .ok (hrp, data) ↔
    Uniform s ∧ encodeBytes hrp data = .ok (lowercase s) := by
  rw [decodeBytes, Except.bind_eq_ok]
  constructor
  · rintro ⟨⟨hrp', data5⟩, hdecode, hrest⟩
    obtain ⟨data', hconvert, hres⟩ := Except.bind_eq_ok.mp hrest
    cases hres
    rw [encodeBytes, convert8to5_of_convert5to8 hconvert]
    exact decodeFes_eq_ok.mp hdecode
  · rintro ⟨hcase, hencode⟩
    refine ⟨(hrp, convert8to5 data), decodeFes_eq_ok.mpr ⟨hcase, hencode⟩, ?_⟩
    exact Except.bind_eq_ok.mpr ⟨data, convert5to8_convert8to5 data, rfl⟩

/-! ## Changed characters -/

/-- The difference of two digits is one. -/
theorem digit_xor_lt {v v' : UInt8} (hv : v.toNat < 2 ^ 5) (hv' : v'.toNat < 2 ^ 5) :
    (digit v ^^^ digit v').toNat < 32 := by
  rw [BitVec.toNat_xor, toNat_digit, toNat_digit]
  exact Nat.xor_lt_two_pow (n := 5) hv hv'

theorem polymod_ne_of_syndrome {values values' : Bytes}
    (h : Syndrome.syndrome advance 1#30 (values.map digit) ≠
      Syndrome.syndrome advance 1#30 (values'.map digit)) : polymod values ≠ polymod values' := by
  intro heq
  have hword := congrArg UInt32.toBitVec heq
  rw [toBitVec_polymod, toBitVec_polymod, ← BitVec.toNat_inj, toNat_setWidth, toNat_setWidth,
    BitVec.toNat_inj] at hword
  exact h hword

theorem advance_injective : Function.Injective advance :=
  additive_advance.injective eq_zero_of_advance

/-- Another digit in one place. -/
theorem polymod_set_ne {i : Nat} (hi : i < xs.length) (hne : xs[i] ≠ v) :
    polymod (hrpExpand hrp ++ xs.set i v) ≠ polymod (hrpExpand hrp ++ xs) := by
  refine polymod_ne_of_syndrome ?_
  have hold : xs = xs.take i ++ xs[i] :: xs.drop (i + 1) := by
    rw [List.cons_getElem_drop_succ, List.take_append_drop]
  rw [List.set_eq_take_append_cons_drop, if_pos hi]
  conv_rhs => rw [hold]
  simp only [List.map_append, List.map_cons, ← List.append_assoc]
  exact Syndrome.syndrome_ne_of_one advance_injective (digit_injective.ne hne.symm)

/-- Other digits in two places. -/
theorem polymod_set_set_ne {i j : Nat} {u : UInt8} (hxs : Digits 5 xs) (hlen : xs.length ≤ 88)
    (hij : i < j) (hj : j < xs.length) (hv : v.toNat < 2 ^ 5) (hu : u.toNat < 2 ^ 5)
    (hne : xs[i] ≠ v) :
    polymod (hrpExpand hrp ++ (xs.set i v).set j u) ≠ polymod (hrpExpand hrp ++ xs) := by
  refine polymod_ne_of_syndrome ?_
  have hi : i < xs.length := hij.trans hj
  set ys := xs.drop (i + 1) with hys
  have hk : j - (i + 1) < ys.length := by
    rw [hys, List.length_drop]
    omega
  have hold : xs = xs.take i ++ xs[i] :: ys := by
    rw [hys, List.cons_getElem_drop_succ, List.take_append_drop]
  have hrest : ys = ys.take (j - (i + 1)) ++ ys[j - (i + 1)] :: ys.drop (j - (i + 1) + 1) := by
    rw [List.cons_getElem_drop_succ, List.take_append_drop]
  have hhead : (xs.take i).length = i := List.length_take_of_le hi.le
  have hnew : (xs.set i v).set j u = xs.take i ++ v :: (ys.take (j - (i + 1)) ++
      u :: ys.drop (j - (i + 1) + 1)) := by
    have hstep : j - i = j - (i + 1) + 1 := by omega
    have hfirst : xs.set i v = xs.take i ++ v :: ys := by
      rw [List.set_eq_take_append_cons_drop, if_pos hi]
    rw [hfirst, List.set_append_right _ _ (by rw [hhead]; exact hij.le), hhead, hstep,
      List.set_cons_succ, List.set_eq_take_append_cons_drop, if_pos hk]
  rw [hnew]
  conv_rhs => rw [hold, hrest]
  have hmem : ys[j - (i + 1)] ∈ xs := List.mem_of_mem_drop (List.getElem_mem hk)
  have hnear : ((ys.take (j - (i + 1))).map digit).length < 88 := by
    rw [List.length_map, List.length_take_of_le hk.le]
    omega
  simp only [List.map_append, List.map_cons]
  rw [← List.append_assoc, ← List.append_assoc]
  exact Syndrome.syndrome_ne_of_two additive_advance advance_injective apart_advance hnear
    (digit_injective.ne hne.symm) (digit_xor_lt hv (hxs _ (List.getElem_mem hi)))
    (digit_xor_lt hu (hxs _ hmem))

/-- Characters changed in the data part are digits changed. -/
theorem join_set {k : Nat} : (join hrp xs).set (hrp.length + 1 + k) (symbol v) = join hrp (xs.set k v) := by
  have hplace : hrp.length + 1 + k - hrp.length = k + 1 := by omega
  rw [join, join, List.set_append_right _ _ (by omega), hplace, List.set_cons_succ, List.map_set]

theorem Shape.set (h : Shape hrp xs) (hv : v.toNat < 2 ^ 5) (k : Nat) : Shape hrp (xs.set k v) where
  hrp_ne := h.hrp_ne
  hrp_le := h.hrp_le
  hrp_chars := h.hrp_chars
  digits x hx := by
    rcases List.mem_or_eq_of_mem_set hx with hold | rfl
    · exact h.digits x hold
    · exact hv
  checksum_le := by rw [List.length_set]; exact h.checksum_le
  length_le := by rw [List.length_set]; exact h.length_le

theorem Shape.length_le_88 (h : Shape hrp xs) : xs.length ≤ 88 := by
  have hpos := List.length_pos_of_ne_nil h.hrp_ne
  have hle := h.length_le
  have hmax : maxStringLen = 90 := rfl
  omega

/-- A string whose checksum does not verify is not read. -/
theorem decodeBytes_join_ne (h : Shape hrp xs)
    (hsum : polymod (hrpExpand hrp ++ xs) ≠ bech32mConst) :
    decodeBytes (join hrp xs) = .error .badChecksum := by
  rw [decodeBytes, decodeFes_of_shape h (lowercase_join h) (.inl (lowercase_join h)), if_neg hsum]
  rfl

/-- What is written verifies. -/
theorem shape_of_encodeBytes (h : encodeBytes hrp data = .ok s) :
    ∃ xs, Shape hrp xs ∧ s = join hrp xs ∧ polymod (hrpExpand hrp ++ xs) = bech32mConst := by
  obtain ⟨hshape, rfl⟩ := encodeFes_eq_ok.mp h
  exact ⟨_, hshape, rfl, (polymod_eq_iff (digits_checksum _ _) (length_checksum _ _)).mpr rfl⟩

/-- A character of the data part is that of a digit. -/
theorem exists_getElem_join {i : Nat} (hi : hrp.length < i) (his : i < (join hrp xs).length) :
    ∃ k, ∃ hk : k < xs.length, i = hrp.length + 1 + k ∧ (join hrp xs)[i] = symbol xs[k] := by
  rw [length_join] at his
  obtain ⟨k, rfl⟩ : ∃ k, i = hrp.length + 1 + k := ⟨i - (hrp.length + 1), by omega⟩
  have hk : k < xs.length := by omega
  have hplace : hrp.length + 1 + k - hrp.length = k + 1 := by omega
  refine ⟨k, hk, rfl, ?_⟩
  simp only [join, List.getElem_append_right (show hrp.length ≤ hrp.length + 1 + k by omega), hplace,
    List.getElem_cons_succ, List.getElem_map]

/-- One other character. -/
theorem decodeBytes_set {i : Nat} {c : UInt8} (h : encodeBytes hrp data = .ok s)
    (hi : hrp.length < i) (his : i < s.length) (hc : c ∈ charset) (hne : s[i] ≠ c) :
    decodeBytes (s.set i c) = .error .badChecksum := by
  obtain ⟨xs, hshape, rfl, hsum⟩ := shape_of_encodeBytes h
  obtain ⟨v, hv, rfl⟩ := exists_symbol hc
  obtain ⟨k, hk, rfl, hget⟩ := exists_getElem_join hi his
  rw [hget] at hne
  rw [join_set]
  refine decodeBytes_join_ne (hshape.set hv k) ?_
  rw [← hsum]
  exact polymod_set_ne hk (mt (congrArg symbol) hne)

/-- Two other characters. -/
theorem decodeBytes_set_set {i j : Nat} {c d : UInt8} (h : encodeBytes hrp data = .ok s)
    (hi : hrp.length < i) (hij : i < j) (hjs : j < s.length) (hc : c ∈ charset) (hd : d ∈ charset)
    (hne : s[i] ≠ c) : decodeBytes ((s.set i c).set j d) = .error .badChecksum := by
  obtain ⟨xs, hshape, rfl, hsum⟩ := shape_of_encodeBytes h
  obtain ⟨v, hv, rfl⟩ := exists_symbol hc
  obtain ⟨u, hu, rfl⟩ := exists_symbol hd
  obtain ⟨k, hk, rfl, hget⟩ := exists_getElem_join hi (hij.trans hjs)
  obtain ⟨l, hl, rfl, -⟩ := exists_getElem_join (hi.trans hij) hjs
  rw [hget] at hne
  rw [join_set, join_set]
  refine decodeBytes_join_ne ((hshape.set hv k).set hu l) ?_
  rw [← hsum]
  exact polymod_set_set_ne hshape.digits hshape.length_le_88 (Nat.lt_of_add_lt_add_left hij) hl hv hu
    (mt (congrArg symbol) hne)

theorem lowercase_of_encodeBytes (h : encodeBytes hrp data = .ok s) : lowercase s = s := by
  obtain ⟨xs, hshape, rfl, -⟩ := shape_of_encodeBytes h
  exact lowercase_join hshape

/-- Every address that is written is read back; a string is read exactly if its case is uniform and
its lower-case form was written for what it is read as; and an address with one or two characters of
its data part replaced by others of the set is refused. -/
theorem address_spec :
    (∀ hrp data s, encodeBytes hrp data = .ok s → decodeBytes s = .ok (hrp, data)) ∧
    (∀ hrp data s, decodeBytes s = .ok (hrp, data) ↔
      (lowercase s = s ∨ uppercase s = s) ∧ encodeBytes hrp data = .ok (lowercase s)) ∧
    (∀ s t p, decodeBytes s = .ok p → decodeBytes t = .ok p → lowercase s = lowercase t) ∧
    (∀ hrp data s, encodeBytes hrp data = .ok s →
      ∀ i c, ∀ hi : i < s.length, hrp.length < i → c ∈ charset → s[i] ≠ c →
        decodeBytes (s.set i c) = .error .badChecksum) ∧
    (∀ hrp data s, encodeBytes hrp data = .ok s →
      ∀ i j c d, ∀ hij : i < j, ∀ hj : j < s.length, hrp.length < i → c ∈ charset → d ∈ charset →
        s[i] ≠ c → s[j] ≠ d → decodeBytes ((s.set i c).set j d) = .error .badChecksum) := by
  refine ⟨?_, ?_, ?_, ?_, ?_⟩
  · intro hrp data s h
    have hlower := lowercase_of_encodeBytes h
    exact decodeBytes_eq_ok.mpr ⟨.inl hlower, by rw [hlower, h]⟩
  · intro hrp data s
    exact decodeBytes_eq_ok
  · rintro s t ⟨hrp, data⟩ hs ht
    have hwritten := (decodeBytes_eq_ok.mp hs).2.symm.trans (decodeBytes_eq_ok.mp ht).2
    exact Except.ok.inj hwritten
  · intro hrp data s h i c hi hdata hc hne
    exact decodeBytes_set h hdata hi hc hne
  · intro hrp data s h i j c d hij hj hdata hc hd hne _
    exact decodeBytes_set_set h hdata hij hj hc hd hne

/-- The string `A1LQFN3A`. -/
example : decodeBytes [65, 49, 76, 81, 70, 78, 51, 65] = .ok ([97], []) := by decide +kernel

end Plaine.Consensus.Bech32m

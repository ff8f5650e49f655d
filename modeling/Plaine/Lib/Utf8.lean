import Plaine.Lib.Text

/-!
# UTF-8

Reading a text from its bytes, and what the bytes of a character look like: the first of them tells
where a character starts, none of a character beyond ASCII is an ASCII byte, and no encoding is the
start of another.
-/

namespace Plaine.Lib.Text

open String (utf8EncodeChar)

variable {c d : Char} {l : Text} {b x y : Bytes}

/-- `str::from_utf8`. -/
def fromUtf8 (b : Bytes) : Option Text := (ByteArray.utf8Decode? b.toByteArray).map (·.toList)

@[simp] theorem asBytes_nil : asBytes [] = [] := rfl

@[simp] theorem asBytes_cons : asBytes (c :: l) = utf8EncodeChar c ++ asBytes l := rfl

theorem asBytes_append (s t : Text) : asBytes (s ++ t) = asBytes s ++ asBytes t :=
  List.flatMap_append

theorem utf8Encode_eq : l.utf8Encode = (asBytes l).toByteArray := rfl

/-- The code of a character made from its code. -/
theorem toNat_ofNat {n : Nat} (h : n.isValidChar) : (Char.ofNat n).toNat = n := by
  rw [Char.ofNat, dif_pos h]
  rfl

/-- Bytes are read as the text they are the image of. -/
theorem fromUtf8_eq_some : fromUtf8 b = some l ↔ b = asBytes l := by
  rw [fromUtf8, Option.map_eq_some_iff]
  constructor
  · rintro ⟨a, ha, rfl⟩
    have hsome : (ByteArray.utf8Decode? b.toByteArray).isSome := by rw [ha]; rfl
    have hget : (ByteArray.utf8Decode? b.toByteArray).get hsome = a := Option.get_of_eq_some hsome ha
    have hencode := ByteArray.utf8Encode_get_utf8Decode? (h := hsome)
    rw [hget, utf8Encode_eq] at hencode
    have hdata := congrArg ByteArray.data hencode
    rw [List.data_toByteArray, List.data_toByteArray] at hdata
    exact (congrArg Array.toList hdata).symm
  · rintro rfl
    refine ⟨l.toArray, ?_, rfl⟩
    rw [← utf8Encode_eq, List.utf8Decode?_utf8Encode]

@[simp] theorem fromUtf8_asBytes : fromUtf8 (asBytes l) = some l := fromUtf8_eq_some.mpr rfl

/-- The first byte of a character can start one. -/
theorem encode_eq_cons (c : Char) : ∃ b t, utf8EncodeChar c = b :: t ∧ b.IsUTF8FirstByte := by
  have hpos : 0 < (utf8EncodeChar c).length := by
    rw [String.length_utf8EncodeChar]
    exact c.utf8Size_pos
  have hfirst : ((utf8EncodeChar c)[0]).IsUTF8FirstByte :=
    UInt8.isUTF8FirstByte_getElem_utf8EncodeChar.mpr rfl
  cases hc : utf8EncodeChar c with
  | nil => rw [hc] at hpos; cases hpos
  | cons b t =>
    refine ⟨b, t, rfl, ?_⟩
    simpa only [hc, List.getElem_cons_zero] using hfirst

theorem encode_of_ascii (h : c.toNat < 128) : utf8EncodeChar c = [c.toUInt8] := by
  apply String.utf8EncodeChar_eq_singleton
  rw [Char.utf8Size_eq_one_iff, UInt32.le_iff_toNat_le]
  exact Nat.le_of_lt_succ h

/-- A character beyond ASCII has no ASCII bytes. -/
theorem le_of_mem_encode {b : UInt8} (h : 128 ≤ c.toNat) (hb : b ∈ utf8EncodeChar c) :
    128 ≤ b.toNat := by
  have hor : ∀ v k : UInt8, 128 ≤ k.toNat → 128 ≤ (v ||| k).toNat := by
    intro v k hk
    rw [UInt8.toNat_or]
    exact hk.trans Nat.right_le_or
  have hone : c.utf8Size ≠ 1 := by
    rw [Ne, Char.utf8Size_eq_one_iff, UInt32.le_iff_toNat_le]
    exact Nat.not_le_of_lt h
  rcases c.utf8Size_eq with hc | hc | hc | hc
  · exact absurd hc hone
  · rw [String.utf8EncodeChar_eq_cons_cons hc] at hb
    simp only [List.mem_cons, List.not_mem_nil, or_false] at hb
    rcases hb with rfl | rfl <;> exact hor _ _ (by decide)
  · rw [String.utf8EncodeChar_eq_cons_cons_cons hc] at hb
    simp only [List.mem_cons, List.not_mem_nil, or_false] at hb
    rcases hb with rfl | rfl | rfl <;> exact hor _ _ (by decide)
  · rw [String.utf8EncodeChar_eq_cons_cons_cons_cons hc] at hb
    simp only [List.mem_cons, List.not_mem_nil, or_false] at hb
    rcases hb with rfl | rfl | rfl | rfl <;> exact hor _ _ (by decide)

/-- The first byte of a character is the character, or both are beyond ASCII. -/
theorem first_byte {b : UInt8} {t : Bytes} (h : utf8EncodeChar c = b :: t) :
    c.toNat = b.toNat ∧ t = [] ∨ 128 ≤ c.toNat ∧ 128 ≤ b.toNat := by
  rcases Nat.lt_or_ge c.toNat 128 with hlt | hge
  · rw [encode_of_ascii hlt] at h
    obtain ⟨rfl, rfl⟩ := List.cons.inj h
    refine .inl ⟨?_, rfl⟩
    show c.toNat = (UInt8.ofNat c.toNat).toNat
    rw [UInt8.toNat_ofNat_of_lt' (hlt.trans (by decide))]
  · exact .inr ⟨hge, le_of_mem_encode hge (h ▸ List.mem_cons_self)⟩

end Plaine.Lib.Text

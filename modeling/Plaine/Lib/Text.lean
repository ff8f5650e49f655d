import Plaine.Lib.Bytes
import Mathlib.Data.List.Basic
import Mathlib.Tactic.IntervalCases

/-!
# Lines of text

Words and lines of a text, decimal numbers and hexadecimal strings, as the standard library of the
code splits and reads them, and how they come back from what was written.
-/

namespace Plaine.Lib

/-- A text, character by character. -/
abbrev Text : Type := List Char

namespace Text

variable {l l' w : Text} {c : Char}

/-! ## Words -/

/-- `char::is_whitespace`. -/
def isWhite (c : Char) : Bool :=
  (9 ≤ c.toNat && c.toNat ≤ 13) || c.toNat ∈ [0x20, 0x85, 0xa0, 0x1680] ||
    (0x2000 ≤ c.toNat && c.toNat ≤ 0x200a) || c.toNat ∈ [0x2028, 0x2029, 0x202f, 0x205f, 0x3000]

/-- `str::split_whitespace`. -/
def words (l : Text) : List Text := (l.splitOnP isWhite).filter (· ≠ [])

/-- Words with a blank between each two. -/
def unwords : List Text → Text
  | [] => []
  | [w] => w
  | w :: ws => w ++ ' ' :: unwords ws

/-- A word: it is not empty and has no blanks. -/
def IsWord (w : Text) : Prop := w ≠ [] ∧ ∀ c ∈ w, isWhite c = false

/-- The words of a line that was put together from words. -/
theorem words_unwords {ws : List Text} (h : ∀ w ∈ ws, IsWord w) : words (unwords ws) = ws := by
  induction ws with
  | nil => rfl
  | cons w ws ih =>
    obtain ⟨⟨hne, hword⟩, hws⟩ := List.forall_mem_cons.mp h
    cases ws with
    | nil =>
      rw [unwords, words, List.splitOnP_eq_singleton hword, List.filter_cons_of_pos (by simpa using hne)]
      rfl
    | cons w' ws =>
      have hrest := ih hws
      rw [words] at hrest
      rw [unwords, words, List.splitOnP_append_cons_of_forall_mem hword ' ' (by decide),
        List.filter_cons_of_pos (by simpa using hne), hrest]
      exact List.cons_ne_nil _ _

/-- A line that was put together from words has no other blanks than those between them. -/
theorem mem_unwords {ws : List Text} (h : ∀ w ∈ ws, IsWord w) (hc : c ∈ unwords ws) :
    isWhite c = false ∨ c = ' ' := by
  induction ws with
  | nil => cases hc
  | cons w ws ih =>
    obtain ⟨⟨-, hword⟩, hws⟩ := List.forall_mem_cons.mp h
    cases ws with
    | nil => exact .inl (hword c hc)
    | cons w' ws =>
      rcases List.mem_append.mp hc with hc | hc
      · exact .inl (hword c hc)
      · rcases List.mem_cons.mp hc with rfl | hc
        · exact .inr rfl
        · exact ih hws hc

/-! ## Parts -/

/-- `str::to_ascii_lowercase`. -/
def toAsciiLowercase (l : Text) : Text := l.map Char.toLower

/-- `str::strip_suffix`. -/
def stripSuffix (suffix l : Text) : Option Text :=
  if suffix <:+ l then some (l.take (l.length - suffix.length)) else none

/-- `str::split_once` at a character. -/
def splitOnce (sep : Char) : Text → Option (Text × Text)
  | [] => none
  | c :: l => if c = sep then some ([], l) else (splitOnce sep l).map fun p ↦ (c :: p.1, p.2)

theorem stripSuffix_eq_some {suffix rest : Text} :
    stripSuffix suffix l = some rest ↔ l = rest ++ suffix := by
  unfold stripSuffix
  constructor
  · intro h
    split at h
    case isTrue hsuffix =>
      obtain ⟨r, rfl⟩ := hsuffix
      rw [List.length_append, Nat.add_sub_cancel, List.take_left] at h
      rw [Option.some.inj h]
    case isFalse => cases h
  · rintro rfl
    rw [if_pos (List.suffix_append _ _), List.length_append, Nat.add_sub_cancel, List.take_left]

theorem stripSuffix_eq_none {suffix : Text} :
    stripSuffix suffix l = none ↔ ∀ rest, l ≠ rest ++ suffix := by
  constructor
  · intro h rest hl
    rw [stripSuffix_eq_some.mpr hl] at h
    cases h
  · intro h
    cases hstrip : stripSuffix suffix l with
    | none => rfl
    | some rest => exact absurd (stripSuffix_eq_some.mp hstrip) (h rest)

theorem splitOnce_eq_none {sep : Char} : splitOnce sep l = none ↔ sep ∉ l := by
  induction l with
  | nil => exact iff_of_true rfl List.not_mem_nil
  | cons c l ih =>
    rw [splitOnce, List.mem_cons, not_or]
    split
    case isTrue hc => exact iff_of_false (fun h ↦ (by cases h)) fun h ↦ h.1 hc.symm
    case isFalse hc => rw [Option.map_eq_none_iff, ih, and_iff_right (Ne.symm hc)]

/-- A text is split at the first separator. -/
theorem splitOnce_eq_some {sep : Char} {a b : Text} :
    splitOnce sep l = some (a, b) ↔ l = a ++ sep :: b ∧ sep ∉ a := by
  induction l generalizing a with
  | nil => exact iff_of_false (fun h ↦ (by cases h)) fun h ↦ (by cases a <;> cases h.1)
  | cons c l ih =>
    rw [splitOnce]
    split
    case isTrue hc =>
      subst hc
      constructor
      · intro h
        cases h
        exact ⟨rfl, List.not_mem_nil⟩
      · rintro ⟨h, hnot⟩
        cases a with
        | nil =>
          cases h
          rfl
        | cons d a =>
          cases h
          exact absurd List.mem_cons_self hnot
    case isFalse hc =>
      rw [Option.map_eq_some_iff]
      constructor
      · rintro ⟨⟨a', b'⟩, hp, h⟩
        cases h
        obtain ⟨rfl, hnot⟩ := ih.mp hp
        exact ⟨rfl, fun h ↦ (List.mem_cons.mp h).elim (Ne.symm hc) hnot⟩
      · rintro ⟨h, hnot⟩
        cases a with
        | nil =>
          cases h
          exact absurd rfl hc
        | cons d a =>
          cases h
          exact ⟨(a, b), ih.mpr ⟨rfl, fun h ↦ hnot (List.mem_cons_of_mem _ h)⟩, rfl⟩

/-- `str::split_once` at a text. -/
def splitOnceAt (sep : Text) : Text → Option (Text × Text)
  | [] => if sep = [] then some ([], []) else none
  | c :: l =>
    if sep <+: c :: l then some ([], (c :: l).drop sep.length)
    else (splitOnceAt sep l).map fun p ↦ (c :: p.1, p.2)

theorem eq_append_of_splitOnceAt {sep a b : Text} (h : splitOnceAt sep l = some (a, b)) :
    l = a ++ (sep ++ b) := by
  induction l generalizing a with
  | nil =>
    rw [splitOnceAt] at h
    split at h
    case isTrue hsep =>
      cases h
      rw [hsep]
      rfl
    case isFalse => cases h
  | cons c l ih =>
    rw [splitOnceAt] at h
    split at h
    case isTrue hprefix =>
      cases h
      obtain ⟨rest, hrest⟩ := hprefix
      rw [← hrest, List.drop_left]
      rfl
    case isFalse =>
      obtain ⟨⟨a', b'⟩, hsplit, heq⟩ := Option.map_eq_some_iff.mp h
      cases heq
      rw [ih hsplit, List.cons_append]

/-- A text is split behind what has no first character of the separator. -/
theorem splitOnceAt_append {s : Char} {sep a : Text} (h : s ∉ a) (b : Text) :
    splitOnceAt (s :: sep) (a ++ (s :: sep ++ b)) = some (a, b) := by
  induction a with
  | nil =>
    rw [List.nil_append, List.cons_append, splitOnceAt, ← List.cons_append,
      if_pos (List.prefix_append _ _), List.drop_left]
  | cons c a ih =>
    obtain ⟨hc, ha⟩ := not_or.mp (mt List.mem_cons.mpr h)
    rw [List.cons_append, splitOnceAt, if_neg, ih ha]
    · rfl
    · intro hprefix
      obtain ⟨rest, hrest⟩ := hprefix
      exact hc (List.cons.inj hrest).1

/-! ## Bytes -/

/-- `str::is_ascii`. -/
def isAscii (l : Text) : Bool := l.all (·.toNat < 128)

/-- `str::as_bytes`. -/
def asBytes (l : Text) : Bytes := l.flatMap String.utf8EncodeChar

theorem asBytes_injective : Function.Injective asBytes := by
  intro l l' h
  have hencode : l.utf8Encode = l'.utf8Encode := congrArg List.toByteArray h
  exact String.ofList_injective (String.toByteArray_inj.mp hencode)

/-! ## Lines -/

/-- A line without the carriage return at its end. -/
def stripCr (l : Text) : Text := if l.getLast? = some '\r' then l.dropLast else l

/-- `str::lines`. -/
def lines (l : Text) : List Text :=
  let parts := l.splitOnP (· = '\n')
  parts.dropLast.map stripCr ++ parts.getLast?.toList.filter (· ≠ [])

/-- A line: it has no line breaks, and does not end in half of one. -/
def IsLine (l : Text) : Prop := (∀ c ∈ l, c ≠ '\n') ∧ l.getLast? ≠ some '\r'

theorem splitOnP_flatMap_lines {ls : List Text} (h : ∀ l ∈ ls, IsLine l) :
    (ls.flatMap (· ++ ['\n'])).splitOnP (· = '\n') = ls ++ [[]] := by
  induction ls with
  | nil => rfl
  | cons l ls ih =>
    obtain ⟨⟨hbreak, -⟩, hls⟩ := List.forall_mem_cons.mp h
    have hnot : ∀ c ∈ l, decide (c = '\n') = false := fun c hc ↦ decide_eq_false (hbreak c hc)
    rw [List.flatMap_cons, List.append_assoc, List.singleton_append,
      List.splitOnP_append_cons_of_forall_mem hnot '\n' (by decide), ih hls, List.cons_append]

/-- The lines of a text that was put together from lines. -/
theorem lines_flatMap {ls : List Text} (h : ∀ l ∈ ls, IsLine l) :
    lines (ls.flatMap (· ++ ['\n'])) = ls := by
  have hstrip : ls.map stripCr = ls := by
    refine (List.map_congr_left fun l hl ↦ ?_).trans (List.map_id ls)
    exact if_neg (h l hl).2
  rw [lines, splitOnP_flatMap_lines h, List.dropLast_concat, hstrip, List.getLast?_concat]
  exact List.append_nil ls

/-! ## Numbers -/

/-- A number as `u64` prints it. -/
def decimal (n : Nat) : Text := Nat.toDigits 10 n

/-- `str::parse` to a `u64`. -/
def parseU64 (l : Text) : Option UInt64 :=
  let digits := if l.head? = some '+' then l.tail else l
  if digits ≠ [] ∧ digits.all Char.isDigit ∧ Nat.ofDigitChars 10 digits 0 < 2 ^ 64 then
    some (UInt64.ofNat (Nat.ofDigitChars 10 digits 0))
  else none

/-- `str::parse` to an unsigned integer up to `max`. -/
def parseUnsigned (max : Nat) (l : Text) : Option Nat :=
  let digits := if l.head? = some '+' then l.tail else l
  if digits ≠ [] ∧ digits.all Char.isDigit ∧ Nat.ofDigitChars 10 digits 0 ≤ max then
    some (Nat.ofDigitChars 10 digits 0)
  else none

/-- The number that digits spell. -/
theorem parseUnsigned_of_digits {max : Nat} (hne : l ≠ []) (hall : l.all Char.isDigit = true) :
    parseUnsigned max l =
      if Nat.ofDigitChars 10 l 0 ≤ max then some (Nat.ofDigitChars 10 l 0) else none := by
  have hplus : l.head? ≠ some '+' := fun h ↦
    absurd (List.all_eq_true.mp hall _ (List.mem_of_mem_head? h)) (by decide)
  unfold parseUnsigned
  rw [if_neg hplus]
  dsimp only
  by_cases hle : Nat.ofDigitChars 10 l 0 ≤ max
  · rw [if_pos ⟨hne, hall, hle⟩, if_pos hle]
  · rw [if_neg fun h ↦ hle h.2.2, if_neg hle]

theorem isDigit_of_mem_decimal {n : Nat} (h : c ∈ decimal n) : c.isDigit = true :=
  Nat.isDigit_of_mem_toDigits (by decide) le_rfl h

theorem decimal_injective : Function.Injective decimal := by
  intro n m h
  have hread := congrArg (Nat.ofDigitChars 10 · 0) h
  dsimp only [decimal] at hread
  rwa [Nat.ofDigitChars_ten_toDigits, Nat.ofDigitChars_ten_toDigits] at hread

/-- A printed number is read back. -/
theorem parseU64_decimal (n : UInt64) : parseU64 (decimal n.toNat) = some n := by
  have hplus : (decimal n.toNat).head? ≠ some '+' := by
    intro h
    exact absurd (isDigit_of_mem_decimal (List.mem_of_mem_head? h)) (by decide)
  unfold parseU64
  rw [if_neg hplus]
  dsimp only
  have hvalue : Nat.ofDigitChars 10 (decimal n.toNat) 0 = n.toNat := Nat.ofDigitChars_ten_toDigits
  have hall : (decimal n.toNat).all Char.isDigit = true :=
    List.all_eq_true.mpr fun c hc ↦ isDigit_of_mem_decimal hc
  rw [hvalue, if_pos ⟨Nat.toDigits_ne_nil, hall, n.toNat_lt⟩, UInt64.ofNat_toNat]

/-! ## Hexadecimal strings -/

/-- A byte in `hex::encode`. -/
def hexByte (b : UInt8) : Text := [Nat.digitChar (b.toNat / 16), Nat.digitChar (b.toNat % 16)]

/-- `hex::encode`. -/
def hexEncode (b : Bytes) : Text := b.flatMap hexByte

/-- `nibble`. -/
def nibble (c : Char) : Option Nat :=
  if '0' ≤ c ∧ c ≤ '9' then some (c.toNat - '0'.toNat)
  else if 'a' ≤ c ∧ c ≤ 'f' then some (c.toNat - 'a'.toNat + 10)
  else if 'A' ≤ c ∧ c ≤ 'F' then some (c.toNat - 'A'.toNat + 10)
  else none

/-- `hex::decode`. -/
def hexDecode : Text → Option Bytes
  | [] => some []
  | [_] => none
  | hi :: lo :: l => do
    let hi ← nibble hi
    let lo ← nibble lo
    return UInt8.ofNat (hi * 16 + lo) :: (← hexDecode l)

theorem nibble_digitChar {n : Nat} (h : n < 16) : nibble n.digitChar = some n := by
  interval_cases n <;> decide

theorem hexDecode_hexByte_append (b : UInt8) (l : Text) :
    hexDecode (hexByte b ++ l) = (hexDecode l).map (b :: ·) := by
  have hhi : b.toNat / 16 < 16 := Nat.div_lt_of_lt_mul b.toNat_lt
  have hlo : b.toNat % 16 < 16 := Nat.mod_lt _ (by decide)
  have hbyte : UInt8.ofNat (b.toNat / 16 * 16 + b.toNat % 16) = b := by
    rw [Nat.div_add_mod', UInt8.ofNat_toNat]
  change (nibble _ >>= fun hi ↦ nibble _ >>= fun lo ↦ hexDecode l >>= fun bs ↦
    some (UInt8.ofNat (hi * 16 + lo) :: bs)) = _
  rw [nibble_digitChar hhi, nibble_digitChar hlo]
  change (hexDecode l >>= fun bs ↦ some (UInt8.ofNat _ :: bs)) = _
  rw [hbyte]
  cases hexDecode l <;> rfl

/-- An encoded string is decoded back. -/
theorem hexDecode_hexEncode (b : Bytes) : hexDecode (hexEncode b) = some b := by
  induction b with
  | nil => rfl
  | cons x b ih =>
    rw [hexEncode, List.flatMap_cons, hexDecode_hexByte_append]
    rw [hexEncode] at ih
    rw [ih]
    rfl

theorem isWhite_digitChar {n : Nat} (h : n < 16) : isWhite n.digitChar = false := by
  interval_cases n <;> decide

theorem isWhite_of_mem_hexEncode {b : Bytes} (h : c ∈ hexEncode b) : isWhite c = false := by
  obtain ⟨x, -, hc⟩ := List.mem_flatMap.mp h
  rcases List.mem_cons.mp hc with rfl | hc
  · exact isWhite_digitChar (Nat.div_lt_of_lt_mul x.toNat_lt)
  · rw [List.mem_singleton.mp hc]
    exact isWhite_digitChar (Nat.mod_lt _ (by decide))

theorem isWhite_of_isDigit (h : c.isDigit = true) : isWhite c = false := by
  have hbounds : 48 ≤ c.toNat ∧ c.toNat ≤ 57 := by
    rw [Char.isDigit, Bool.and_eq_true, decide_eq_true_eq, decide_eq_true_eq] at h
    exact h
  simp only [isWhite, List.mem_cons, List.not_mem_nil, or_false, Bool.or_eq_false_iff,
    Bool.and_eq_false_iff, decide_eq_false_iff_not]
  omega

end Text

end Plaine.Lib

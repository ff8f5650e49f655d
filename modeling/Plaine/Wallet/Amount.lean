import Plaine.Consensus.Constants
import Plaine.Lib.Checked
import Plaine.Lib.Result
import Plaine.Lib.Text
import Mathlib.Data.Rat.Cast.Order
import Mathlib.Tactic.FieldSimp

/-!
# Amounts

`wallet/src/amount.rs`: an amount is written with digits, a point and a unit, and read without
rounding.  The value that is written is a rational number; it is read if it is within the ceiling.
-/

namespace Plaine.Wallet

open Plaine.Lib Plaine.Lib.Text Plaine.Consensus

/-- `DECIMALS`. -/
def decimals : Nat := 6

/-- `MILE_PER_PLNE`. -/
def milePerPlne : Nat := 1000000

/-- `MAX_PARSE_MILE`. -/
def maxParseMile : Nat := 1000000000000000

/-- The name of the smaller unit. -/
def mile : Text := ['m', 'i', 'l', 'e']

/-- The name of the larger unit. -/
def plne : Text := ['p', 'l', 'n', 'e']

/-- The part of a number that an error is about. -/
inductive Part where
  | integer
  | fractional
deriving DecidableEq

/-- The errors of `parse_inner`, in its order. -/
inductive AmountError where
  | noUnit
  | noDigits
  | signed
  | exponent
  | separator
  | points
  | fractionOfMile
  | nonDigit (part : Part)
  | tooFine (digits : Nat)
  | overflow
  | overCeiling
deriving DecidableEq

/-! ## Reading -/

/-- The number before the unit, and whether the unit is `mile`. -/
def unitOf (lower : Text) : Except AmountError (Text × Bool) :=
  match stripSuffix mile lower with
  | some rest => .ok (rest, true)
  | none =>
    match stripSuffix plne lower with
    | some rest => .ok (rest, false)
    | none => .error .noUnit

/-- The parts before and after the point. -/
def partsOf (num : Text) : Except AmountError (Text × Text) :=
  match splitOnce '.' num with
  | none => .ok (num, [])
  | some (int, frac) => if '.' ∈ frac then .error .points else .ok (int, frac)

/-- The fraction with zeros up to the last place. -/
def padded (frac : Text) : Text := frac ++ List.replicate (decimals - frac.length) '0'

/-- The number of a part; an empty one is zero. -/
def valueOf (part : Text) : Except AmountError Nat :=
  if part = [] then .ok 0 else Except.ofOption .overflow (parseUnsigned u128Max part)

/-- The total of the parts, in mile. -/
def totalOf (unitIsMile : Bool) (int frac : Text) : Except AmountError Nat := do
  let intVal ← valueOf int
  if unitIsMile then return intVal
  let scaled ← Except.ofOption .overflow (checkedMul u128Max intVal milePerPlne)
  let fracVal ← valueOf (padded frac)
  Except.ofOption .overflow (checkedAdd u128Max scaled fracVal)

/-- `parse_mile`, and `parse_mile_for`. -/
def parseMile (s : Text) : Except AmountError Nat := do
  let (num, unitIsMile) ← unitOf (toAsciiLowercase s)
  Except.require (num ≠ []) .noDigits
  Except.require (num.head? ≠ some '+' ∧ num.head? ≠ some '-') .signed
  Except.require ('e' ∉ num) .exponent
  Except.require ('_' ∉ num ∧ ',' ∉ num ∧ ' ' ∉ num) .separator
  let (int, frac) ← partsOf num
  Except.require (¬(unitIsMile = true ∧ frac ≠ [])) .fractionOfMile
  Except.require (¬(int = [] ∧ frac = [])) .noDigits
  Except.require (int.all Char.isDigit) (.nonDigit .integer)
  Except.require (frac.all Char.isDigit) (.nonDigit .fractional)
  Except.require (frac.length ≤ decimals) (.tooFine frac.length)
  let total ← totalOf unitIsMile int frac
  Except.require (total ≤ maxParseMile) .overCeiling
  return total

/-! ## Printing -/

/-- Zeros popped off a reversed text, but for its last character. -/
def dropZeros : Text → Text
  | [] => []
  | [c] => [c]
  | c :: d :: l => if c = '0' then dropZeros (d :: l) else c :: d :: l

/-- `format_plne`. -/
def formatPlne (amount : Nat) : Text :=
  let frac := Text.decimal (amount % milePerPlne)
  let f := List.replicate (decimals - frac.length) '0' ++ frac
  Text.decimal (amount / milePerPlne) ++ '.' :: (dropZeros f.reverse).reverse

/-! ## What is written -/

/-- The units. -/
inductive MoneyUnit where
  | mile
  | plne
deriving DecidableEq

namespace MoneyUnit

/-- The name. -/
def name : MoneyUnit → Text
  | .mile => Wallet.mile
  | .plne => Wallet.plne

/-- What a unit is in mile. -/
def inMile : MoneyUnit → Nat
  | .mile => 1
  | .plne => milePerPlne

/-- The places a fraction of a unit may have. -/
def places : MoneyUnit → Nat
  | .mile => 0
  | .plne => decimals

end MoneyUnit

/-- The number that digits spell. -/
def number (l : Text) : Nat := Nat.ofDigitChars 10 l 0

/-- A written amount: digits, a point if there is one, no more digits than the unit has places, and
the unit in letters of any case. -/
structure Written where
  int : Text
  point : Bool
  frac : Text
  unit : MoneyUnit
  letters : Text
  int_digits : int.all Char.isDigit = true
  frac_digits : frac.all Char.isDigit = true
  digits : int ≠ [] ∨ frac ≠ []
  point_of_frac : frac ≠ [] → point = true
  places : frac.length ≤ unit.places
  letters_eq : toAsciiLowercase letters = unit.name

namespace Written

/-- The number without the unit. -/
def num (w : Written) : Text := w.int ++ ((if w.point then ['.'] else []) ++ w.frac)

/-- The text. -/
def text (w : Written) : Text := w.num ++ w.letters

/-- The value, in mile. -/
def value (w : Written) : ℚ :=
  (number w.int + number w.frac / 10 ^ w.frac.length) * w.unit.inMile

end Written

/-! ## Parts of the reading -/

variable {lower num int frac l : Text} {b : Bool} {m : Nat} {c : Char}

theorem unitOf_eq_ok : unitOf lower = .ok (num, b) ↔ lower = num ++ if b then mile else plne := by
  unfold unitOf
  constructor
  · intro h
    split at h
    case h_1 rest hmile =>
      cases h
      exact stripSuffix_eq_some.mp hmile
    case h_2 =>
      split at h
      case h_1 rest hplne =>
        cases h
        exact stripSuffix_eq_some.mp hplne
      case h_2 => cases h
  · intro h
    cases b with
    | true =>
      have hmile : stripSuffix mile lower = some num := stripSuffix_eq_some.mpr h
      rw [hmile]
    | false =>
      -- The names are of one length.
      have hmile : stripSuffix mile lower = none := stripSuffix_eq_none.mpr fun rest hrest ↦
        absurd (List.append_inj_right' (hrest.symm.trans h) rfl) (by decide)
      have hplne : stripSuffix plne lower = some num := stripSuffix_eq_some.mpr h
      rw [hmile, hplne]

theorem partsOf_eq_ok : partsOf num = .ok (int, frac) ↔
    num = int ∧ frac = [] ∧ '.' ∉ num ∨ num = int ++ '.' :: frac ∧ '.' ∉ int ∧ '.' ∉ frac := by
  unfold partsOf
  constructor
  · intro h
    split at h
    case h_1 hnone =>
      cases h
      exact .inl ⟨rfl, rfl, splitOnce_eq_none.mp hnone⟩
    case h_2 hsome =>
      split at h
      case isTrue => cases h
      case isFalse hfrac =>
        cases h
        obtain ⟨hnum, hint⟩ := splitOnce_eq_some.mp hsome
        exact .inr ⟨hnum, hint, hfrac⟩
  · rintro (⟨rfl, rfl, hnot⟩ | ⟨hnum, hint, hfrac⟩)
    · rw [splitOnce_eq_none.mpr hnot]
    · rw [splitOnce_eq_some.mpr ⟨hnum, hint⟩]
      exact if_neg hfrac

theorem number_append (l l' : Text) : number (l ++ l') = number l * 10 ^ l'.length + number l' := by
  unfold number
  rw [Nat.ofDigitChars_append, Nat.ofDigitChars_eq_ofDigitChars_zero, Nat.mul_comm]

theorem number_replicate_zero (n : Nat) : number (List.replicate n '0') = 0 := by
  unfold number
  rw [Nat.ofDigitChars_replicate_zero, Nat.mul_zero]

theorem number_padded (frac : Text) :
    number (padded frac) = number frac * 10 ^ (decimals - frac.length) := by
  rw [padded, number_append, number_replicate_zero, List.length_replicate, Nat.add_zero]

/-- A digit is less than ten. -/
theorem toNat_sub_lt_ten (h : c.isDigit = true) : c.toNat - '0'.toNat < 10 := by
  rw [Char.isDigit, Bool.and_eq_true, decide_eq_true_eq, decide_eq_true_eq] at h
  have hle : c.toNat ≤ 57 := h.2
  show c.toNat - 48 < 10
  omega

theorem number_lt (h : l.all Char.isDigit = true) : number l < 10 ^ l.length := by
  induction l using List.reverseRecOn with
  | nil => exact Nat.one_pos
  | append_singleton l c ih =>
    rw [List.all_append, Bool.and_eq_true, List.all_cons, List.all_nil, Bool.and_true] at h
    have hone : number [c] = c.toNat - '0'.toNat := by
      unfold number
      rw [Nat.ofDigitChars_cons, Nat.ofDigitChars_nil, Nat.mul_zero, Nat.zero_add]
    have hlt := ih h.1
    have hc := toNat_sub_lt_ten h.2
    rw [number_append, hone, List.length_append, List.length_singleton, Nat.pow_succ]
    omega

/-- The total of digits, in mile, before it is known to be in range. -/
def exactTotal (unitIsMile : Bool) (int frac : Text) : Nat :=
  if unitIsMile then number int else number int * milePerPlne + number (padded frac)

theorem length_padded (h : frac.length ≤ decimals) : (padded frac).length = decimals := by
  rw [padded, List.length_append, List.length_replicate, Nat.add_sub_cancel' h]

theorem padded_digits (h : frac.all Char.isDigit = true) : (padded frac).all Char.isDigit = true := by
  rw [padded, List.all_append, h, Bool.true_and, List.all_eq_true]
  intro c hc
  rw [(List.mem_replicate.mp hc).2]
  decide

/-- A part is read when it is in range. -/
theorem valueOf_eq_ok (h : l.all Char.isDigit = true) :
    valueOf l = .ok m ↔ number l = m ∧ number l ≤ u128Max := by
  unfold valueOf
  by_cases hnil : l = []
  · have hzero : number [] ≤ u128Max := Nat.zero_le _
    rw [if_pos hnil, hnil, and_iff_left hzero]
    exact ⟨fun h ↦ by cases h; rfl, fun h ↦ congrArg Except.ok h⟩
  · rw [if_neg hnil, Except.ofOption_eq_ok, parseUnsigned_of_digits hnil h]
    constructor
    · intro h
      split at h
      case isTrue hle =>
        cases h
        exact ⟨rfl, hle⟩
      case isFalse => cases h
    · rintro ⟨rfl, hle⟩
      exact if_pos hle

/-- The total is exact, if it is in the range of the machine. -/
theorem totalOf_eq_ok (hint : int.all Char.isDigit = true) (hfrac : frac.all Char.isDigit = true)
    (hplaces : frac.length ≤ decimals) :
    totalOf b int frac = .ok m ↔ exactTotal b int frac = m ∧ exactTotal b int frac ≤ u128Max := by
  have hpad : number (padded frac) ≤ u128Max := by
    have hlt := number_lt (padded_digits hfrac)
    rw [length_padded hplaces] at hlt
    exact hlt.le.trans (by decide)
  unfold totalOf exactTotal
  rw [Except.bind_eq_ok]
  cases b with
  | true =>
    rw [if_pos rfl]
    constructor
    · rintro ⟨n, hn, hm⟩
      cases hm
      exact (valueOf_eq_ok hint).mp hn
    · intro h
      exact ⟨m, (valueOf_eq_ok hint).mpr h, rfl⟩
  | false =>
    rw [if_neg Bool.false_ne_true]
    constructor
    · rintro ⟨n, hn, hm⟩
      obtain ⟨rfl, -⟩ := (valueOf_eq_ok hint).mp hn
      obtain ⟨scaled, hscaled, hm⟩ := Except.bind_eq_ok.mp hm
      obtain ⟨-, rfl⟩ := checkedMul_eq_some.mp (Except.ofOption_eq_ok.mp hscaled)
      obtain ⟨fracVal, hfracVal, hm⟩ := Except.bind_eq_ok.mp hm
      obtain ⟨rfl, -⟩ := (valueOf_eq_ok (padded_digits hfrac)).mp hfracVal
      obtain ⟨hle, rfl⟩ := checkedAdd_eq_some.mp (Except.ofOption_eq_ok.mp hm)
      exact ⟨rfl, hle⟩
    · rintro ⟨rfl, hle⟩
      have hmul : number int * milePerPlne ≤ u128Max := le_of_add_le_left hle
      have hint' : number int ≤ u128Max :=
        (Nat.le_mul_of_pos_right _ (by decide)).trans hmul
      refine ⟨_, (valueOf_eq_ok hint).mpr ⟨rfl, hint'⟩, ?_⟩
      refine Except.bind_eq_ok.mpr
        ⟨_, Except.ofOption_eq_ok.mpr (checkedMul_eq_some.mpr ⟨hmul, rfl⟩), ?_⟩
      refine Except.bind_eq_ok.mpr
        ⟨_, (valueOf_eq_ok (padded_digits hfrac)).mpr ⟨rfl, hpad⟩, ?_⟩
      exact Except.ofOption_eq_ok.mpr (checkedAdd_eq_some.mpr ⟨hle, rfl⟩)

/-- What a text has to be for an amount to be read. -/
theorem parseMile_eq_ok {s : Text} : parseMile s = .ok m ↔ ∃ num b int frac,
    toAsciiLowercase s = num ++ (if b then mile else plne) ∧ num ≠ [] ∧
      (num.head? ≠ some '+' ∧ num.head? ≠ some '-') ∧ 'e' ∉ num ∧
      ('_' ∉ num ∧ ',' ∉ num ∧ ' ' ∉ num) ∧
      (num = int ∧ frac = [] ∧ '.' ∉ num ∨ num = int ++ '.' :: frac ∧ '.' ∉ int ∧ '.' ∉ frac) ∧
      ¬(b = true ∧ frac ≠ []) ∧ ¬(int = [] ∧ frac = []) ∧ int.all Char.isDigit = true ∧
      frac.all Char.isDigit = true ∧ frac.length ≤ decimals ∧ exactTotal b int frac = m ∧
      m ≤ maxParseMile := by
  unfold parseMile
  simp only [Except.bind_eq_ok, Prod.exists, Except.require_eq_ok, unitOf_eq_ok, partsOf_eq_ok]
  constructor
  · rintro ⟨num, b, hnum, -, hne, -, hsign, -, hexp, -, hsep, int, frac, hparts, -, hmile, -,
      hdigit, -, hint, -, hfrac, -, hplaces, total, htotal, -, hle, h⟩
    cases h
    obtain ⟨hexact, -⟩ := (totalOf_eq_ok hint hfrac hplaces).mp htotal
    exact ⟨num, b, int, frac, hnum, hne, hsign, hexp, hsep, hparts, hmile, hdigit, hint, hfrac,
      hplaces, hexact, hle⟩
  · rintro ⟨num, b, int, frac, hnum, hne, hsign, hexp, hsep, hparts, hmile, hdigit, hint, hfrac,
      hplaces, rfl, hle⟩
    have htotal : totalOf b int frac = .ok (exactTotal b int frac) :=
      (totalOf_eq_ok hint hfrac hplaces).mpr ⟨rfl, hle.trans (by decide)⟩
    exact ⟨num, b, hnum, (), hne, (), hsign, (), hexp, (), hsep, int, frac, hparts, (), hmile, (),
      hdigit, (), hint, (), hfrac, (), hplaces, _, htotal, (), hle, rfl⟩

/-! ## Letters of any case -/

/-- A character of a number: a digit or the point. -/
def IsNumeral (c : Char) : Prop := c.isDigit = true ∨ c = '.'

theorem IsNumeral.toNat_le (h : IsNumeral c) : c.toNat ≤ 57 := by
  rcases h with h | rfl
  · rw [Char.isDigit, Bool.and_eq_true, decide_eq_true_eq, decide_eq_true_eq] at h
    exact h.2
  · decide

/-- A numeral is in no case. -/
theorem IsNumeral.eq_of_toLower (h : IsNumeral c.toLower) : c.toLower = c := by
  have hle := h.toNat_le
  by_cases hcase : c.val ≥ 'A'.val ∧ c.val ≤ 'Z'.val
  case neg => exact dif_neg hcase
  case pos =>
    have hlower : c.toLower.toNat = (c.val + ('a'.val - 'A'.val)).toNat :=
      congrArg Char.toNat (dif_pos hcase)
    -- A letter is past the digits and the point.
    have h65 : 65 ≤ c.val.toNat := hcase.1
    have h90 : c.val.toNat ≤ 90 := hcase.2
    have hsum : (c.val + ('a'.val - 'A'.val)).toNat = c.val.toNat + 32 := by
      have hstep : ('a'.val - 'A'.val).toNat = 32 := rfl
      rw [UInt32.toNat_add, hstep]
      exact Nat.mod_eq_of_lt (by omega)
    rw [hlower, hsum] at hle
    exact absurd hle (by omega)

theorem IsNumeral.toLower (h : IsNumeral c) : c.toLower = c := by
  have hle := h.toNat_le
  refine dif_neg ?_
  rintro ⟨h65, -⟩
  have h65 : 65 ≤ c.toNat := h65
  omega

/-- A number is what it is in lower case. -/
theorem toAsciiLowercase_eq_iff (h : ∀ c ∈ num, IsNumeral c) : toAsciiLowercase l = num ↔ l = num := by
  constructor
  · rintro rfl
    refine ((List.map_congr_left fun c hc ↦ ?_).trans (List.map_id l)).symm
    exact (h _ (List.mem_map_of_mem hc)).eq_of_toLower
  · rintro rfl
    exact (List.map_congr_left fun c hc ↦ (h c hc).toLower).trans (List.map_id l)

/-! ## What is read is what is written -/

namespace Written

variable {w w' : Written}

/-- The value is a number of mile. -/
def total (w : Written) : Nat := exactTotal (w.unit = .mile) w.int w.frac

theorem value_eq (w : Written) : w.value = (w.total : ℚ) := by
  have hplaces := w.places
  unfold value total exactTotal
  cases hunit : w.unit with
  | mile =>
    rw [hunit] at hplaces
    have hnil : w.frac = [] := List.eq_nil_of_length_eq_zero (Nat.le_zero.mp hplaces)
    have hzero : number [] = 0 := rfl
    rw [hnil, hzero, decide_eq_true rfl, if_pos rfl, MoneyUnit.inMile, Nat.cast_zero, zero_div,
      add_zero, Nat.cast_one, mul_one]
  | plne =>
    rw [hunit] at hplaces
    have hplaces : w.frac.length ≤ decimals := hplaces
    have hpow : (milePerPlne : ℚ) = 10 ^ w.frac.length * 10 ^ (decimals - w.frac.length) := by
      rw [← pow_add, Nat.add_sub_cancel' hplaces]
      norm_num [milePerPlne, decimals]
    have hne : (10 : ℚ) ^ w.frac.length ≠ 0 := pow_ne_zero _ (by norm_num)
    rw [if_neg (by decide), number_padded, MoneyUnit.inMile, Nat.cast_add, Nat.cast_mul,
      Nat.cast_mul, Nat.cast_pow, Nat.cast_ofNat, add_mul, add_right_inj, hpow, ← mul_assoc,
      div_mul_cancel₀ _ hne]

/-- A number is digits and a point. -/
theorem isNumeral_of_mem (hc : c ∈ w.num) : IsNumeral c := by
  rcases List.mem_append.mp hc with hc | hc
  · exact .inl (List.all_eq_true.mp w.int_digits c hc)
  · rcases List.mem_append.mp hc with hc | hc
    · cases hpoint : w.point with
      | true =>
        rw [hpoint, if_pos rfl, List.mem_singleton] at hc
        exact .inr hc
      | false =>
        rw [hpoint, if_neg Bool.false_ne_true] at hc
        exact absurd hc List.not_mem_nil
    · exact .inl (List.all_eq_true.mp w.frac_digits c hc)

theorem num_ne_nil (w : Written) : w.num ≠ [] := by
  intro h
  obtain ⟨hint, hrest⟩ := List.append_eq_nil_iff.mp h
  exact w.digits.elim (absurd hint) (absurd (List.append_eq_nil_iff.mp hrest).2)

/-- In lower case a text is its number and the name of its unit. -/
theorem toAsciiLowercase_text (w : Written) : toAsciiLowercase w.text = w.num ++ w.unit.name := by
  rw [text, toAsciiLowercase, List.map_append]
  congr 1
  · exact (toAsciiLowercase_eq_iff fun c hc ↦ isNumeral_of_mem hc).mpr rfl
  · exact w.letters_eq

theorem length_name (u : MoneyUnit) : u.name.length = 4 := by cases u <;> rfl

theorem name_injective : Function.Injective MoneyUnit.name := by
  intro u u' h
  cases u <;> cases u' <;> first | rfl | exact absurd h (by decide)

/-- A text has one unit. -/
theorem unit_eq (h : w.text = w'.text) : w.unit = w'.unit := by
  have hlower := congrArg toAsciiLowercase h
  rw [toAsciiLowercase_text, toAsciiLowercase_text] at hlower
  refine name_injective (List.append_inj_right' hlower ?_)
  rw [length_name, length_name]

end Written

/-- What is written is read, if it is within the ceiling. -/
theorem parseMile_text (w : Written) (hle : w.total ≤ maxParseMile) :
    parseMile w.text = .ok w.total := by
  have hnot : ∀ c : Char, ¬IsNumeral c → c ∉ w.num := fun c hc hmem ↦
    hc (Written.isNumeral_of_mem hmem)
  have hhead : ∀ c : Char, ¬IsNumeral c → w.num.head? ≠ some c := fun c hc hmem ↦
    hnot c hc (List.mem_of_mem_head? hmem)
  have hfine : w.frac.length ≤ decimals := by
    have hplaces := w.places
    cases hunit : w.unit <;> rw [hunit] at hplaces
    · exact hplaces.trans (Nat.zero_le _)
    · exact hplaces
  have hdot : ∀ l : Text, l.all Char.isDigit = true → '.' ∉ l := fun l hall hmem ↦
    absurd (List.all_eq_true.mp hall _ hmem) (by decide)
  refine parseMile_eq_ok.mpr ⟨w.num, w.unit = .mile, w.int, w.frac, ?_, w.num_ne_nil,
    ⟨hhead _ ?_, hhead _ ?_⟩, hnot _ ?_, ⟨hnot _ ?_, hnot _ ?_, hnot _ ?_⟩, ?_, ?_, ?_,
    w.int_digits, w.frac_digits, hfine, rfl, hle⟩
  case refine_1 =>
    rw [w.toAsciiLowercase_text]
    cases w.unit <;> rfl
  case refine_8 =>
    cases hpoint : w.point with
    | true =>
      right
      exact ⟨by rw [Written.num, hpoint]; rfl, hdot _ w.int_digits, hdot _ w.frac_digits⟩
    | false =>
      left
      have hnil : w.frac = [] := by
        by_contra hne
        rw [w.point_of_frac hne] at hpoint
        cases hpoint
      have hnum : w.num = w.int := by
        rw [Written.num, hpoint, hnil]
        exact List.append_nil _
      exact ⟨hnum, hnil, hnum ▸ hdot _ w.int_digits⟩
  case refine_9 =>
    rintro ⟨hmile, hne⟩
    have hplaces := w.places
    rw [of_decide_eq_true hmile] at hplaces
    exact hne (List.eq_nil_of_length_eq_zero (Nat.le_zero.mp hplaces))
  case refine_10 =>
    rintro ⟨hint, hfrac⟩
    exact w.digits.elim (absurd hint) (absurd hfrac)
  all_goals
    rintro (h | h)
    · exact absurd h (by decide)
    · exact absurd h (by decide)

/-- What is read was written. -/
theorem written_of_parseMile {s : Text} (h : parseMile s = .ok m) :
    ∃ w : Written, w.text = s ∧ w.total = m ∧ m ≤ maxParseMile := by
  obtain ⟨num, b, int, frac, hlower, hne, -, -, -, hparts, hmile, hdigit, hint, hfrac, hplaces,
    htotal, hle⟩ := parseMile_eq_ok.mp h
  have hnumeral : ∀ l : Text, l.all Char.isDigit = true → ∀ c ∈ l, IsNumeral c := fun l hall c hc ↦
    .inl (List.all_eq_true.mp hall c hc)
  have hnum : ∀ c ∈ num, IsNumeral c := by
    rcases hparts with ⟨rfl, -, -⟩ | ⟨rfl, -, -⟩
    · exact hnumeral _ hint
    · intro c hc
      rcases List.mem_append.mp hc with hc | hc
      · exact hnumeral _ hint c hc
      · rcases List.mem_cons.mp hc with rfl | hc
        · exact .inr rfl
        · exact hnumeral _ hfrac c hc
  obtain ⟨digits, letters, rfl, hdigits, hletters⟩ := List.map_eq_append_iff.mp hlower
  obtain rfl := (toAsciiLowercase_eq_iff hnum).mp hdigits
  have hpoint : frac ≠ [] → decide ('.' ∈ digits) = true := by
    intro hfrac
    rcases hparts with ⟨-, hnil, -⟩ | ⟨hdigits, -, -⟩
    · exact absurd hnil hfrac
    · exact decide_eq_true (hdigits ▸ List.mem_append_right _ List.mem_cons_self)
  let unit : MoneyUnit := if b then .mile else .plne
  have hunit : decide (unit = .mile) = b := by cases b <;> rfl
  have hfine : frac.length ≤ unit.places := by
    cases b with
    | true =>
      have hnil : frac = [] := not_not.mp fun hne ↦ hmile ⟨rfl, hne⟩
      rw [hnil]
      exact Nat.zero_le _
    | false => exact hplaces
  have hname : toAsciiLowercase letters = unit.name := by
    rw [toAsciiLowercase, hletters]
    cases b <;> rfl
  let w : Written := ⟨int, decide ('.' ∈ digits), frac, unit, letters, hint, hfrac,
    not_and_or.mp hdigit, hpoint, hfine, hname⟩
  have hnum : w.num = digits := by
    rcases hparts with ⟨rfl, hnil, hdot⟩ | ⟨hdigits, -, -⟩
    · show digits ++ ((if decide ('.' ∈ digits) then ['.'] else []) ++ frac) = digits
      rw [decide_eq_false hdot, hnil]
      exact List.append_nil _
    · show int ++ ((if decide ('.' ∈ digits) then ['.'] else []) ++ frac) = digits
      rw [decide_eq_true (hdigits ▸ List.mem_append_right _ List.mem_cons_self), hdigits]
      rfl
  refine ⟨w, ?_, ?_, hle⟩
  · rw [Written.text, hnum]
  · rw [← htotal]
    show exactTotal (decide (unit = .mile)) int frac = _
    rw [hunit]

/-! ## What is printed is read -/

/-- The zeros that are dropped. -/
theorem exists_replicate_dropZeros (l : Text) : ∃ k, l = List.replicate k '0' ++ dropZeros l := by
  fun_induction dropZeros l with
  | case1 => exact ⟨0, rfl⟩
  | case2 c => exact ⟨0, rfl⟩
  | case3 d l ih =>
    obtain ⟨k, hk⟩ := ih
    refine ⟨k + 1, ?_⟩
    rw [List.replicate_succ, List.cons_append, ← hk]
  | case4 c d l hc => exact ⟨0, rfl⟩

/-- The fraction that is printed for an amount. -/
def fraction (amount : Nat) : Text :=
  let frac := Text.decimal (amount % milePerPlne)
  (dropZeros (List.replicate (decimals - frac.length) '0' ++ frac).reverse).reverse

theorem formatPlne_eq (amount : Nat) :
    formatPlne amount = Text.decimal (amount / milePerPlne) ++ '.' :: fraction amount := rfl

theorem number_decimal (n : Nat) : number (Text.decimal n) = n := Nat.ofDigitChars_ten_toDigits

theorem decimal_digits (n : Nat) : (Text.decimal n).all Char.isDigit = true :=
  List.all_eq_true.mpr fun _ hc ↦ isDigit_of_mem_decimal hc

/-- The fraction with the zeros that were dropped is the rest of the amount in six digits. -/
theorem fraction_spec (amount : Nat) : ∃ k, (fraction amount).length + k = decimals ∧
    (fraction amount).all Char.isDigit = true ∧
      number (fraction amount) * 10 ^ k = amount % milePerPlne := by
  set frac := Text.decimal (amount % milePerPlne) with hfrac
  set f := List.replicate (decimals - frac.length) '0' ++ frac with hf
  obtain ⟨k, hk⟩ := exists_replicate_dropZeros f.reverse
  have hsplit : f = fraction amount ++ List.replicate k '0' := by
    rw [← List.reverse_reverse f, hk, List.reverse_append, List.reverse_replicate]
    rfl
  have hlen : frac.length ≤ decimals := by
    rw [hfrac, Text.decimal, Nat.length_toDigits_le_iff (by decide) (by decide)]
    exact Nat.mod_lt _ (by decide)
  have hdigits : f.all Char.isDigit = true := by
    rw [hf, List.all_append, decimal_digits, Bool.and_true, List.all_eq_true]
    intro c hc
    rw [(List.mem_replicate.mp hc).2]
    decide
  have hnumber : number f = amount % milePerPlne := by
    rw [hf, number_append, number_replicate_zero, Nat.zero_mul, Nat.zero_add, number_decimal]
  refine ⟨k, ?_, ?_, ?_⟩
  · have hflen : f.length = decimals := by
      rw [hf, List.length_append, List.length_replicate, Nat.sub_add_cancel hlen]
    rw [← hflen, hsplit, List.length_append, List.length_replicate]
  · rw [hsplit, List.all_append, Bool.and_eq_true] at hdigits
    exact hdigits.1
  · rw [← hnumber, hsplit, number_append, number_replicate_zero, List.length_replicate, Nat.add_zero]

/-- What is printed for an amount, with the larger unit in letters of any case. -/
theorem parseMile_formatPlne {letters : Text} (hle : m ≤ maxParseMile)
    (h : toAsciiLowercase letters = plne) : parseMile (formatPlne m ++ letters) = .ok m := by
  obtain ⟨k, hk, hdigits, hnumber⟩ := fraction_spec m
  let w : Written := ⟨Text.decimal (m / milePerPlne), true, fraction m, .plne, letters,
    decimal_digits _, hdigits, .inl Nat.toDigits_ne_nil, fun _ ↦ rfl, Nat.le.intro hk, h⟩
  have htext : w.text = formatPlne m ++ letters := rfl
  have htotal : w.total = m := by
    show number (Text.decimal (m / milePerPlne)) * milePerPlne + number (padded (fraction m)) = m
    rw [number_decimal, number_padded, ← hk, Nat.add_sub_cancel_left, hnumber, Nat.div_add_mod']
  rw [← htext, parseMile_text w (htotal.trans_le hle), htotal]

/-- An amount that is printed is read back.  A text is read when it is an amount that was written
with a value within the ceiling, and as just this value; and it has one unit. -/
theorem amounts_parse :
    (∀ m ≤ maxParseMile, ∀ letters, toAsciiLowercase letters = plne →
      parseMile (formatPlne m ++ letters) = .ok m) ∧
    (∀ s m, parseMile s = .ok m ↔
      ∃ w : Written, w.text = s ∧ w.value = (m : ℚ) ∧ w.value ≤ (maxParseMile : ℚ)) ∧
    (∀ w : Written, w.value ≤ (maxParseMile : ℚ) →
      ∃ m, parseMile w.text = .ok m ∧ (m : ℚ) = w.value) ∧
    (∀ w w' : Written, w.text = w'.text → w.unit = w'.unit) := by
  refine ⟨fun m hle letters h ↦ parseMile_formatPlne hle h, ?_, ?_, fun w w' h ↦ Written.unit_eq h⟩
  · intro s m
    constructor
    · intro h
      obtain ⟨w, hw, rfl, hle⟩ := written_of_parseMile h
      exact ⟨w, hw, w.value_eq, w.value_eq ▸ Nat.cast_le.mpr hle⟩
    · rintro ⟨w, rfl, hm, hle⟩
      rw [w.value_eq, Nat.cast_le] at hle
      rw [w.value_eq, Nat.cast_inj] at hm
      rw [← hm]
      exact parseMile_text w hle
  · intro w hle
    rw [w.value_eq, Nat.cast_le] at hle
    exact ⟨w.total, parseMile_text w hle, w.value_eq.symm⟩

end Plaine.Wallet

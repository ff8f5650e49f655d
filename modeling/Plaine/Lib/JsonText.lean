import Plaine.Lib.Utf8

/-!
# JSON texts

The bytes that spell a JSON value: blanks, strings with their escapes, decimal numbers, and values up
to a nesting.  What numbers there are and how they are spelled, how long a string, an array or an
object may be and what may stand at the greatest depth is left to a `Dialect`.

Keys are unique, and a string is a text: its bytes between the escapes are UTF-8, and a surrogate has
its other half behind it.
-/

namespace Plaine.Lib.JsonText

open String (utf8EncodeChar)

/-! ## Blanks -/

/-- A byte between two tokens. -/
def isBlank (b : UInt8) : Bool := b == 0x20 || b == 0x09 || b == 0x0a || b == 0x0d

/-- Bytes between two tokens. -/
def Blank (w : Bytes) : Prop := ∀ b ∈ w, isBlank b = true

theorem blank_nil : Blank [] := fun _ h ↦ absurd h List.not_mem_nil

theorem blank_takeWhile (b : Bytes) : Blank (b.takeWhile isBlank) := fun _ h ↦ List.all_eq_true.mp List.all_takeWhile _ h

/-- Blanks are dropped up to a byte that is none. -/
theorem dropWhile_blank {w r : Bytes} (hw : Blank w) (hr : ∀ b ∈ r.head?, isBlank b = false) :
    (w ++ r).dropWhile isBlank = r := by
  rw [List.dropWhile_append_of_pos hw]
  cases r with
  | nil => rfl
  | cons b r => exact List.dropWhile_cons_of_neg (Bool.eq_false_iff.mp (hr b rfl))

/-! ## Strings -/

/-- The digit a byte stands for. -/
def hexValue (b : UInt8) : Option Nat :=
  if 0x30 ≤ b ∧ b ≤ 0x39 then some (b.toNat - 0x30)
  else if 0x61 ≤ b ∧ b ≤ 0x66 then some (b.toNat - 0x61 + 10)
  else if 0x41 ≤ b ∧ b ≤ 0x46 then some (b.toNat - 0x41 + 10)
  else none

/-- Four digits and the number they spell. -/
inductive Hex4 : Nat → Bytes → Prop
  | mk {a b c d : UInt8} {i j k l : Nat} : hexValue a = some i → hexValue b = some j →
      hexValue c = some k → hexValue d = some l →
      Hex4 (((i * 16 + j) * 16 + k) * 16 + l) [a, b, c, d]

/-- The character behind a backslash and a byte. -/
def shortEscape (e : UInt8) : Option Char :=
  if e = 0x22 ∨ e = 0x5c ∨ e = 0x2f then some (Char.ofNat e.toNat)
  else if e = 0x62 then some (Char.ofNat 0x08)
  else if e = 0x66 then some (Char.ofNat 0x0c)
  else if e = 0x6e then some (Char.ofNat 0x0a)
  else if e = 0x72 then some (Char.ofNat 0x0d)
  else if e = 0x74 then some (Char.ofNat 0x09)
  else none

/-- The first half of a surrogate pair. -/
def isHigh (n : Nat) : Bool := 0xd800 ≤ n && n < 0xdc00

/-- The second half of a surrogate pair. -/
def isLow (n : Nat) : Bool := 0xdc00 ≤ n && n < 0xe000

/-- The character of two surrogates. -/
def joined (hi lo : Nat) : Nat := 0x10000 + (hi - 0xd800) * 1024 + (lo - 0xdc00)

/-- The bytes behind the `u` of an escape: the code of the character, or its two surrogates. -/
inductive Unicode (c : Char) : Bytes → Prop
  | unit {x : Bytes} : Hex4 c.toNat x → Unicode c x
  | pair {hi lo : Nat} {x y : Bytes} : Hex4 hi x → Hex4 lo y → isHigh hi → isLow lo →
      c.toNat = joined hi lo → Unicode c (x ++ 0x5c :: 0x75 :: y)

/-- The bytes of one character of a string. -/
inductive Piece : Char → Bytes → Prop
  | plain {c : Char} : 0x20 ≤ c.toNat → c.toNat ≠ 0x22 → c.toNat ≠ 0x5c →
      Piece c (utf8EncodeChar c)
  | short {c : Char} {e : UInt8} : shortEscape e = some c → Piece c [0x5c, e]
  | unicode {c : Char} {x : Bytes} : Unicode c x → Piece c (0x5c :: 0x75 :: x)

/-- The bytes of a string between its quotes. -/
inductive Chars : Text → Bytes → Prop
  | nil : Chars [] []
  | cons {c : Char} {s : Text} {x y : Bytes} : Piece c x → Chars s y → Chars (c :: s) (x ++ y)

/-- The bytes of a string. -/
def Quoted (s : Text) (b : Bytes) : Prop := ∃ x, Chars s x ∧ b = 0x22 :: (x ++ [0x22])

/-- A character is no surrogate. -/
theorem isHigh_toNat (c : Char) : isHigh c.toNat = false ∧ isLow c.toNat = false := by
  have hvalid : c.toNat < 0xd800 ∨ 0xdfff < c.toNat ∧ c.toNat < 0x110000 := c.valid
  simp only [isHigh, isLow, Bool.and_eq_false_iff, decide_eq_false_iff_not]
  omega

/-! ## Numbers -/

/-- A decimal digit. -/
def isDigit (b : UInt8) : Bool := 0x30 ≤ b && b ≤ 0x39

/-- The number that digits spell. -/
def valueOf (ds : Bytes) : Nat := ds.foldl (fun n d ↦ n * 10 + (d.toNat - 0x30)) 0

/-- The digits of a number. -/
def decimal (n : Nat) : Bytes := Text.asBytes (Text.decimal n)

/-- A digit as a byte. -/
theorem asBytes_digitChar {d : Nat} (h : d < 10) :
    Text.asBytes [d.digitChar] = [UInt8.ofNat (0x30 + d)] := by
  interval_cases d <;> decide

theorem decimal_of_lt {n : Nat} (h : n < 10) : decimal n = [UInt8.ofNat (0x30 + n)] := by
  rw [decimal, Text.decimal, Nat.toDigits_of_lt_base h, asBytes_digitChar h]

theorem decimal_append {n d : Nat} (hn : 0 < n) (hd : d < 10) :
    decimal (10 * n + d) = decimal n ++ [UInt8.ofNat (0x30 + d)] := by
  rw [decimal, Text.decimal, ← Nat.toDigits_append_toDigits (by decide) hn hd,
    Nat.toDigits_of_lt_base hd, Text.asBytes, List.flatMap_append]
  exact congrArg _ (asBytes_digitChar hd)

/-- A number is a digit, or a number with a digit behind it. -/
theorem decimal_induction {P : Nat → Prop} (digit : ∀ d < 10, P d)
    (append : ∀ n d, 0 < n → d < 10 → P n → P (10 * n + d)) (n : Nat) : P n := by
  induction n using Nat.strong_induction_on with
  | _ n ih =>
    rcases Nat.lt_or_ge n 10 with hlt | hge
    · exact digit n hlt
    · have hdiv : 0 < n / 10 := Nat.div_pos hge (by decide)
      have hmod : n % 10 < 10 := Nat.mod_lt _ (by decide)
      rw [← Nat.div_add_mod n 10]
      exact append _ _ hdiv hmod (ih _ (Nat.div_lt_self (by omega) (by decide)))

theorem isDigit_ofNat {d : Nat} (h : d < 10) : isDigit (UInt8.ofNat (0x30 + d)) = true := by
  interval_cases d <;> decide

theorem toNat_digit {d : Nat} (h : d < 10) : (UInt8.ofNat (0x30 + d)).toNat - 0x30 = d := by
  interval_cases d <;> decide

theorem valueOf_concat (ds : Bytes) (b : UInt8) :
    valueOf (ds ++ [b]) = valueOf ds * 10 + (b.toNat - 0x30) := List.foldl_concat _ _ _ _

theorem isDigit_of_mem_decimal (n : Nat) : ∀ d ∈ decimal n, isDigit d = true := by
  induction n using decimal_induction with
  | digit d hd =>
    rw [decimal_of_lt hd, List.forall_mem_singleton]
    exact isDigit_ofNat hd
  | append n d hn hd ih =>
    rw [decimal_append hn hd, List.forall_mem_append, List.forall_mem_singleton]
    exact ⟨ih, isDigit_ofNat hd⟩

@[simp] theorem valueOf_decimal (n : Nat) : valueOf (decimal n) = n := by
  induction n using decimal_induction with
  | digit d hd =>
    rw [decimal_of_lt hd]
    exact (Nat.zero_add _).trans (toNat_digit hd)
  | append n d hn hd ih => rw [decimal_append hn hd, valueOf_concat, ih, toNat_digit hd, Nat.mul_comm]

/-- Digits that are printed: there are some, and the first one is a zero only if it is alone. -/
structure Canonical (ds : Bytes) : Prop where
  ne_nil : ds ≠ []
  digits : ∀ d ∈ ds, isDigit d = true
  zero : ds.head? = some 0x30 → ds.length = 1

theorem canonical_decimal (n : Nat) : Canonical (decimal n) where
  ne_nil := by
    induction n using decimal_induction with
    | digit d hd => rw [decimal_of_lt hd]; exact List.cons_ne_nil _ _
    | append n d hn hd _ => rw [decimal_append hn hd]; exact List.append_ne_nil_of_right_ne_nil _ (List.cons_ne_nil _ _)
  digits := isDigit_of_mem_decimal n
  zero := by
    suffices h : (decimal n).head? = some 0x30 → n = 0 by
      intro hhead
      rw [h hhead]
      rfl
    induction n using decimal_induction with
    | digit d hd =>
      rw [decimal_of_lt hd]
      intro h
      have hzero := congrArg UInt8.toNat (Option.some.inj h)
      have hd' := toNat_digit hd
      rw [hzero] at hd'
      exact hd'.symm
    | append n d hn hd ih =>
      rw [decimal_append hn hd]
      intro h
      cases hdigits : decimal n with
      | nil =>
        have hvalue := valueOf_decimal n
        rw [hdigits] at hvalue
        exact absurd hvalue.symm hn.ne'
      | cons b ds =>
        rw [hdigits] at h ih
        exact absurd (ih h) hn.ne'

/-- Digits that are printed are those of their number. -/
theorem Canonical.eq_decimal {ds : Bytes} (h : Canonical ds) : decimal (valueOf ds) = ds := by
  obtain ⟨hne, hdigits, hzero⟩ := h
  induction ds using List.reverseRecOn with
  | nil => exact absurd rfl hne
  | append_singleton ds b ih =>
    rw [List.forall_mem_append, List.forall_mem_singleton] at hdigits
    have hb : 0x30 ≤ b.toNat ∧ b.toNat ≤ 0x39 := by
      have h := hdigits.2
      rw [isDigit, Bool.and_eq_true, decide_eq_true_eq, decide_eq_true_eq] at h
      exact h
    have hlt : b.toNat - 0x30 < 10 := by omega
    have hbyte : UInt8.ofNat (0x30 + (b.toNat - 0x30)) = b := by
      rw [Nat.add_sub_cancel' hb.1, UInt8.ofNat_toNat]
    rw [valueOf_concat]
    rcases eq_or_ne ds [] with rfl | hds
    · show decimal (0 * 10 + _) = _
      rw [Nat.zero_mul, Nat.zero_add, decimal_of_lt hlt, hbyte]
      rfl
    · have hhead : (ds ++ [b]).head? = ds.head? := List.head?_append_of_ne_nil _ hds
      have hlen : 0 < ds.length := List.length_pos_of_ne_nil hds
      rw [hhead, List.length_append, List.length_singleton] at hzero
      have hnot : ds.head? ≠ some 0x30 := fun h ↦ by
        have := hzero h
        omega
      have hprefix := ih hds hdigits.1 fun h ↦ absurd h hnot
      have hpos : 0 < valueOf ds := by
        rw [Nat.pos_iff_ne_zero]
        intro hvalue
        rw [hvalue] at hprefix
        rw [← hprefix] at hnot
        exact hnot rfl
      rw [Nat.mul_comm, decimal_append hpos hlt, hprefix, hbyte]

/-! ## Values -/

/-- A JSON value with numbers in `ν`. -/
inductive Json (ν : Type) : Type
  | null
  | bool (b : Bool)
  | num (n : ν)
  | str (s : Text)
  | arr (items : List (Json ν))
  | obj (members : List (Text × Json ν))

mutual

/-- How many values there are in a value. -/
def Json.count {ν : Type} : Json ν → Nat
  | .arr items => countItems items + 1
  | .obj members => countMembers members + 1
  | _ => 1

/-- How many values there are in items. -/
def Json.countItems {ν : Type} : List (Json ν) → Nat
  | [] => 0
  | v :: items => count v + countItems items

/-- How many values there are in members. -/
def Json.countMembers {ν : Type} : List (Text × Json ν) → Nat
  | [] => 0
  | (_, v) :: members => count v + countMembers members

end

/-- How numbers are spelled, and what is taken. -/
structure Dialect (ν : Type) where
  num : ν → Bytes → Prop
  text : Text → Prop
  maxItems : Nat
  maxMembers : Nat
  /-- Below the deepest arrays and objects there may be other values. -/
  bottom : Prop

variable {ν α : Type}

theorem countItems_eq (items : List (Json ν)) :
    Json.countItems items = (items.map Json.count).sum := by
  induction items with
  | nil => rfl
  | cons v items ih => rw [Json.countItems, ih, List.map_cons, List.sum_cons]

theorem countMembers_eq (members : List (Text × Json ν)) :
    Json.countMembers members = (members.map (·.2.count)).sum := by
  induction members with
  | nil => rfl
  | cons m members ih => rw [Json.countMembers, ih, List.map_cons, List.sum_cons]

/-- The bytes between two brackets: items between commas, with blanks around them. -/
inductive Items (R : α → Bytes → Prop) : List α → Bytes → Prop
  | one {a : α} {w x w' : Bytes} : Blank w → R a x → Blank w' → Items R [a] (w ++ (x ++ w'))
  | cons {a : α} {l : List α} {w x w' y : Bytes} : Blank w → R a x → Blank w' → Items R l y →
      Items R (a :: l) (w ++ (x ++ (w' ++ 0x2c :: y)))

/-- The bytes of items between brackets. -/
inductive Enclosed (R : α → Bytes → Prop) (opening closing : UInt8) : List α → Bytes → Prop
  | nil {w : Bytes} : Blank w → Enclosed R opening closing [] (opening :: (w ++ [closing]))
  | items {l : List α} {x : Bytes} : Items R l x →
      Enclosed R opening closing l (opening :: (x ++ [closing]))

/-- The bytes of a member of an object. -/
def Member (R : Json ν → Bytes → Prop) (m : Text × Json ν) (b : Bytes) : Prop :=
  ∃ x w w' y, Quoted m.1 x ∧ Blank w ∧ Blank w' ∧ R m.2 y ∧ b = x ++ (w ++ 0x3a :: (w' ++ y))

theorem Blank.append {w w' : Bytes} (h : Blank w) (h' : Blank w') : Blank (w ++ w') := by
  intro b hb
  rcases List.mem_append.mp hb with hb | hb
  · exact h b hb
  · exact h' b hb

/-- Blanks before items are of the first item. -/
theorem Items.blank {R : α → Bytes → Prop} {l : List α} {w x : Bytes} (hw : Blank w)
    (h : Items R l x) : Items R l (w ++ x) := by
  cases h with
  | one h₁ ha h₂ =>
    rw [← List.append_assoc]
    exact .one (hw.append h₁) ha h₂
  | cons h₁ ha h₂ hl =>
    rw [← List.append_assoc]
    exact .cons (hw.append h₁) ha h₂ hl

/-- Items start with blanks and the bytes of an item. -/
theorem Items.first {R : α → Bytes → Prop} {l : List α} {x : Bytes} (h : Items R l x) :
    ∃ a w y z, Blank w ∧ R a y ∧ x = w ++ (y ++ z) ∧ Items R l (y ++ z) := by
  cases h with
  | one hw ha hw' => exact ⟨_, _, _, _, hw, ha, rfl, .one (w := []) blank_nil ha hw'⟩
  | cons hw ha hw' hl => exact ⟨_, _, _, _, hw, ha, rfl, .cons (w := []) blank_nil ha hw' hl⟩

/-- What stands between brackets is spelled, one by one. -/
theorem Items.mem {R : α → Bytes → Prop} {l : List α} {x : Bytes} (h : Items R l x) :
    ∀ a ∈ l, ∃ y, R a y := by
  induction h with
  | one _ ha _ => exact List.forall_mem_singleton.mpr ⟨_, ha⟩
  | cons _ ha _ _ ih => exact List.forall_mem_cons.mpr ⟨⟨_, ha⟩, ih⟩

theorem Enclosed.mem {R : α → Bytes → Prop} {opening closing : UInt8} {l : List α} {x : Bytes}
    (h : Enclosed R opening closing l x) : ∀ a ∈ l, ∃ y, R a y := by
  cases h with
  | nil => exact nofun
  | items hitems => exact hitems.mem

namespace Dialect

variable (g : Dialect ν)

/-- The bytes of a value that is neither an array nor an object. -/
def Scalar : Json ν → Bytes → Prop
  | .null, b => b = [0x6e, 0x75, 0x6c, 0x6c]
  | .bool true, b => b = [0x74, 0x72, 0x75, 0x65]
  | .bool false, b => b = [0x66, 0x61, 0x6c, 0x73, 0x65]
  | .num n, b => g.num n b
  | .str s, b => g.text s ∧ Quoted s b
  | .arr _, _ => False
  | .obj _, _ => False

/-- The bytes of a value, with so many levels of nesting left. -/
def Spells : Nat → Json ν → Bytes → Prop
  | 0, v, b => g.bottom ∧ g.Scalar v b
  | k + 1, .arr items, b =>
    items.length ≤ g.maxItems ∧ Enclosed (Spells k) 0x5b 0x5d items b
  | k + 1, .obj members, b =>
    members.length ≤ g.maxMembers ∧ (members.map (·.1)).Nodup ∧ (∀ m ∈ members, g.text m.1) ∧
      Enclosed (Member (Spells k)) 0x7b 0x7d members b
  | _ + 1, v, b => g.Scalar v b

/-- A value the dialect takes, with so many levels of nesting left. -/
def Within : Nat → Json ν → Prop
  | 0, .str s => g.bottom ∧ g.text s
  | 0, .arr _ | 0, .obj _ => False
  | 0, _ => g.bottom
  | _ + 1, .str s => g.text s
  | k + 1, .arr items => items.length ≤ g.maxItems ∧ ∀ v ∈ items, Within k v
  | k + 1, .obj members => members.length ≤ g.maxMembers ∧ (members.map (·.1)).Nodup ∧
      ∀ m ∈ members, g.text m.1 ∧ Within k m.2
  | _ + 1, _ => True

end Dialect

end Plaine.Lib.JsonText

import Plaine.Rpc.Json

/-!
# The tokens of the JSON parser

What each of the functions below `value` accepts, as an equivalence: it reads `x` and leaves the parser
behind `x` if and only if `x` spells what it returns.
-/

namespace Plaine.Rpc

open Plaine.Lib Plaine.Lib.JsonText
open String (utf8EncodeChar)

namespace Parser

variable {p q r : Parser} {x y w t : Bytes} {n m : Nat} {b : UInt8} {c : Char}

/-! ## What was read -/

/-- From `p` the bytes `x` are read and `n` values are counted, and `q` is left. -/
structure Takes (p : Parser) (x : Bytes) (n : Nat) (q : Parser) : Prop where
  rest : p.rest = x ++ q.rest
  pos : q.pos = p.pos + x.length
  values : q.values = p.values + n

namespace Takes

theorem trans (h : p.Takes x n q) (h' : q.Takes y m r) : p.Takes (x ++ y) (n + m) r where
  rest := by rw [h.rest, h'.rest, List.append_assoc]
  pos := by rw [h'.pos, h.pos, List.length_append, Nat.add_assoc]
  values := by rw [h'.values, h.values, Nat.add_assoc]

theorem unique (h : p.Takes x n q) (h' : p.Takes x n r) : q = r := by
  have hrest : q.rest = r.rest := List.append_cancel_left (h.rest.symm.trans h'.rest)
  have hpos := h.pos.trans h'.pos.symm
  have hvalues := h.values.trans h'.values.symm
  cases q
  cases r
  cases hrest
  cases hpos
  cases hvalues
  rfl

theorem split (h : p.Takes (x ++ y) (n + m) r) : ∃ q, p.Takes x n q ∧ q.Takes y m r := by
  refine ⟨⟨y ++ r.rest, p.pos + x.length, p.values + n⟩, ⟨?_, rfl, rfl⟩, rfl, ?_, ?_⟩
  · rw [h.rest, List.append_assoc]
  · rw [h.pos, List.length_append, Nat.add_assoc]
  · rw [h.values, Nat.add_assoc]

theorem bump_eq (h : p.Takes x 0 q) : p.bump x.length = q := by
  have hbump : p.Takes x 0 (p.bump x.length) := by
    refine ⟨?_, rfl, rfl⟩
    show p.rest = x ++ p.rest.drop x.length
    rw [h.rest, List.drop_left]
  exact hbump.unique h

theorem length_le (h : p.Takes x n q) : q.rest.length + x.length = p.rest.length := by
  rw [h.rest, List.length_append, Nat.add_comm]

theorem peek (h : p.Takes (b :: x) n q) : p.peek = some b := by
  rw [Parser.peek, h.rest]
  rfl

end Takes

theorem takes_bump (h : p.rest = x ++ t) : p.Takes x 0 (p.bump x.length) := by
  refine ⟨?_, rfl, rfl⟩
  show p.rest = x ++ p.rest.drop x.length
  rw [h, List.drop_left]

/-- A byte that is there can be read. -/
theorem takes_byte (h : p.peek = some b) : p.Takes [b] 0 (p.bump 1) := by
  obtain ⟨t, ht⟩ := List.head?_eq_some_iff.mp h
  exact takes_bump (x := [b]) ht

theorem not_fail {α : Type} {kind : JsonErrorKind} {a : α} : p.fail kind ≠ .ok a := nofun

theorem not_unexpected {α : Type} {a : α} : p.unexpected ≠ .ok a := nofun

/-- The blanks are read up to a byte that is none. -/
theorem takes_skipWs (p : Parser) :
    ∃ w, Blank w ∧ p.Takes w 0 p.skipWs ∧ ∀ b ∈ p.skipWs.peek, isBlank b = false := by
  have hsplit := List.takeWhile_append_dropWhile (p := isBlank) (l := p.rest)
  have htakes := takes_bump hsplit.symm
  refine ⟨_, blank_takeWhile p.rest, htakes, fun b hb ↦ ?_⟩
  have hrest : p.skipWs.rest = p.rest.dropWhile isBlank :=
    List.append_cancel_left (htakes.rest.symm.trans hsplit.symm)
  have hhead : b ∈ (p.rest.dropWhile isBlank).head? := by
    rw [← hrest]
    exact hb
  have hnot := List.head?_dropWhile_not isBlank p.rest
  rw [Option.mem_def.mp hhead] at hnot
  exact hnot

theorem skipWs_eq (h : p.Takes w 0 q) (hw : Blank w) (hq : ∀ b ∈ q.peek, isBlank b = false) :
    p.skipWs = q := by
  have htake : p.rest.takeWhile isBlank = w := by
    have hdrop := dropWhile_blank hw hq
    have hsplit := List.takeWhile_append_dropWhile (p := isBlank) (l := p.rest)
    rw [h.rest, show (w ++ q.rest).dropWhile isBlank = q.rest from hdrop] at hsplit
    rw [h.rest]
    exact List.append_cancel_right hsplit
  rw [skipWs, htake]
  exact h.bump_eq

/-! ## Strings -/

theorem hex4_eq_ok : p.hex4 = .ok (n, q) ↔ ∃ x, Hex4 n x ∧ p.Takes x 0 q := by
  constructor
  · intro h
    rw [hex4] at h
    split at h
    case h_1 a b c d t hrest =>
      split at h
      case h_1 i j k l hi hj hk hl =>
        cases h
        exact ⟨_, .mk hi hj hk hl, takes_bump (x := [a, b, c, d]) hrest⟩
      case h_2 => cases h
    case h_2 => cases h
  · rintro ⟨_, ⟨hi, hj, hk, hl⟩, h⟩
    rw [hex4, h.rest]
    simp only [List.cons_append, hi, hj, hk, hl]
    rw [← h.bump_eq]
    rfl

theorem charFromU32_eq_some : charFromU32 n = some c ↔ c.toNat = n := by
  unfold charFromU32
  constructor
  · intro h
    split at h
    case isTrue hn =>
      cases h
      exact Text.toNat_ofNat hn
    case isFalse => cases h
  · rintro rfl
    have hvalid : c.toNat.isValidChar := c.valid
    rw [if_pos hvalid, Char.ofNat_toNat]

theorem charOf_eq_ok : p.charOf n = .ok (c, q) ↔ c.toNat = n ∧ p = q := by
  unfold charOf
  split
  case h_1 c' hc =>
    rw [Except.ok.injEq, Prod.mk.injEq, ← charFromU32_eq_some, hc, Option.some.injEq]
  case h_2 hnone =>
    rw [← charFromU32_eq_some, hnone]
    exact iff_of_false not_fail fun h ↦ nomatch h.1

theorem secondHalf_eq_ok : p.secondHalf n = .ok (c, q) ↔
    ∃ lo x, isLow lo ∧ Hex4 lo x ∧ c.toNat = joined n lo ∧ p.Takes (0x5c :: 0x75 :: x) 0 q := by
  unfold secondHalf
  constructor
  · intro h
    split at h
    case isTrue => exact (not_fail h).elim
    case isFalse hback =>
      split at h
      case isTrue => exact (not_fail h).elim
      case isFalse hu =>
        obtain ⟨⟨lo, r⟩, hlo, h⟩ := Except.bind_eq_ok.mp h
        obtain ⟨x, hx, htakes⟩ := hex4_eq_ok.mp hlo
        dsimp only at h
        split at h
        case isTrue => exact (not_fail h).elim
        case isFalse hlow =>
          obtain ⟨hc, rfl⟩ := charOf_eq_ok.mp h
          have hescape := (takes_byte (not_not.mp hback)).trans
            ((takes_byte (not_not.mp hu)).trans htakes)
          exact ⟨lo, x, not_not.mp hlow, hx, hc, hescape⟩
  · rintro ⟨lo, x, hlow, hx, hc, htakes⟩
    obtain ⟨q₁, h₁, htakes⟩ := Takes.split (x := [0x5c]) (n := 0) (m := 0) htakes
    obtain ⟨q₂, h₂, htakes⟩ := Takes.split (x := [0x75]) (n := 0) (m := 0) htakes
    have hb₁ : p.bump 1 = q₁ := h₁.bump_eq
    have hb₂ : q₁.bump 1 = q₂ := h₂.bump_eq
    rw [hb₁, hb₂, if_neg (not_not.mpr h₁.peek), if_neg (not_not.mpr h₂.peek),
      hex4_eq_ok.mpr ⟨x, hx, htakes⟩, Except.ok_bind]
    dsimp only
    rw [if_neg (not_not.mpr hlow), charOf_eq_ok]
    exact ⟨hc, rfl⟩

theorem unicodeEscape_eq_ok :
    p.unicodeEscape = .ok (c, q) ↔ ∃ x, Unicode c x ∧ p.Takes x 0 q := by
  unfold unicodeEscape
  constructor
  · intro h
    obtain ⟨⟨hi, r⟩, hhi, h⟩ := Except.bind_eq_ok.mp h
    obtain ⟨y, hy, htakes⟩ := hex4_eq_ok.mp hhi
    dsimp only at h
    split at h
    case isTrue hhigh =>
      obtain ⟨lo, x, hlow, hx, hc, htakes'⟩ := secondHalf_eq_ok.mp h
      exact ⟨_, .pair hy hx hhigh hlow hc, htakes.trans htakes'⟩
    case isFalse =>
      split at h
      case isTrue => exact (not_fail h).elim
      case isFalse =>
        obtain ⟨rfl, rfl⟩ := charOf_eq_ok.mp h
        exact ⟨y, .unit hy, htakes⟩
  · rintro ⟨x, hx, htakes⟩
    cases hx with
    | unit hx =>
      obtain ⟨hhigh, hlow⟩ := isHigh_toNat c
      rw [hex4_eq_ok.mpr ⟨x, hx, htakes⟩, Except.ok_bind]
      dsimp only
      rw [if_neg (Bool.eq_false_iff.mp hhigh), if_neg (Bool.eq_false_iff.mp hlow), charOf_eq_ok]
      exact ⟨rfl, rfl⟩
    | pair hy hz hhigh hlow hc =>
      obtain ⟨r, h₁, htakes⟩ := htakes.split (n := 0) (m := 0)
      rw [hex4_eq_ok.mpr ⟨_, hy, h₁⟩, Except.ok_bind]
      dsimp only
      rw [if_pos hhigh, secondHalf_eq_ok]
      exact ⟨_, _, hlow, hz, hc, htakes⟩

/-- The first byte of a character tells how many there are. -/
theorem utf8Len_eq (h : utf8EncodeChar c = b :: t) : utf8Len b = (utf8EncodeChar c).length := by
  have hvalid : c.val.toNat < 0x110000 := by
    rcases c.valid with hlt | ⟨-, hlt⟩
    · exact hlt.trans (by decide)
    · exact hlt
  unfold String.utf8EncodeChar at h ⊢
  dsimp only at h ⊢
  generalize c.val.toNat = v at h hvalid ⊢
  unfold utf8Len
  simp only [UInt8.le_iff_toNat_le]
  split at h
  case isTrue hle =>
    obtain ⟨rfl, -⟩ := List.cons.inj h
    rw [if_pos hle, UInt8.toNat_ofNat', Nat.mod_eq_of_lt (by omega)]
    exact if_pos hle
  case isFalse hle =>
    split at h
    case isTrue hle' =>
      obtain ⟨rfl, -⟩ := List.cons.inj h
      rw [if_neg hle, if_pos hle', UInt8.toNat_ofNat', Nat.mod_eq_of_lt (by omega)]
      rw [if_neg, if_pos]
      · rfl
      · show 194 ≤ _ ∧ _ ≤ 223
        omega
      · show ¬_ ≤ 127
        omega
    case isFalse hle' =>
      split at h
      case isTrue hle'' =>
        obtain ⟨rfl, -⟩ := List.cons.inj h
        rw [if_neg hle, if_neg hle', if_pos hle'', UInt8.toNat_ofNat', Nat.mod_eq_of_lt (by omega)]
        rw [if_neg, if_neg, if_pos]
        · rfl
        · show 224 ≤ _ ∧ _ ≤ 239
          omega
        · show ¬(194 ≤ _ ∧ _ ≤ 223)
          omega
        · show ¬_ ≤ 127
          omega
      case isFalse hle'' =>
        obtain ⟨rfl, -⟩ := List.cons.inj h
        rw [if_neg hle, if_neg hle', if_neg hle'', UInt8.toNat_ofNat', Nat.mod_eq_of_lt (by omega)]
        rw [if_neg, if_neg, if_neg, if_pos]
        · rfl
        · show 240 ≤ _ ∧ _ ≤ 244
          omega
        · show ¬(224 ≤ _ ∧ _ ≤ 239)
          omega
        · show ¬(194 ≤ _ ∧ _ ≤ 223)
          omega
        · show ¬_ ≤ 127
          omega

/-- A byte of a string that starts a plain character. -/
def Plain (b : UInt8) : Prop := b ≠ 0x22 ∧ b ≠ 0x5c ∧ ¬b ≤ 0x1f

/-- A character is plain if its first byte is. -/
theorem plain_iff (h : utf8EncodeChar c = b :: t) :
    Plain b ↔ 0x20 ≤ c.toNat ∧ c.toNat ≠ 0x22 ∧ c.toNat ≠ 0x5c := by
  have hne (k : UInt8) : b ≠ k ↔ b.toNat ≠ k.toNat := UInt8.toNat_inj.not.symm
  unfold Plain
  rw [hne, hne, UInt8.le_iff_toNat_le]
  show b.toNat ≠ 34 ∧ b.toNat ≠ 92 ∧ ¬b.toNat ≤ 31 ↔ _
  rcases Text.first_byte h with ⟨heq, -⟩ | ⟨hc, hb⟩ <;> omega

/-- A character that is not escaped, as it is read. -/
theorem takes_of_fromUtf8 {cs : Text} (hb : p.peek = some b) (hquote : b ≠ 0x22) (hback : b ≠ 0x5c)
    (hcontrol : ¬b ≤ 0x1f) (hlen : ¬(utf8Len b = 0 ∨ p.rest.length < utf8Len b))
    (hs : Text.fromUtf8 (p.rest.take (utf8Len b)) = some cs) :
    ∃ c x, cs = [c] ∧ Piece c x ∧ p.Takes x 0 (p.bump (utf8Len b)) := by
  obtain ⟨t, ht⟩ := List.head?_eq_some_iff.mp hb
  obtain ⟨hzero, hle⟩ := not_or.mp hlen
  have hbytes := Text.fromUtf8_eq_some.mp hs
  have htake : (p.rest.take (utf8Len b)).length = utf8Len b :=
    List.length_take_of_le (Nat.le_of_not_lt hle)
  cases cs with
  | nil =>
    rw [hbytes] at htake
    exact absurd htake.symm hzero
  | cons c s =>
    rw [Text.asBytes_cons] at hbytes
    obtain ⟨b', t', hc, -⟩ := Text.encode_eq_cons c
    have hfirst : b = b' := by
      have hhead := congrArg List.head? hbytes
      rw [hc, ht, List.head?_take, if_neg hzero] at hhead
      exact Option.some.inj hhead
    subst hfirst
    rw [hbytes, List.length_append, utf8Len_eq hc] at htake
    have hs : s = [] := Text.asBytes_injective
      (List.length_eq_zero_iff.mp (Nat.add_left_cancel htake))
    subst hs
    rw [Text.asBytes_nil, List.append_nil] at hbytes
    obtain ⟨hge, hne, hne'⟩ := (plain_iff hc).mp ⟨hquote, hback, hcontrol⟩
    refine ⟨c, _, rfl, .plain hge hne hne', ?_⟩
    have htakes := takes_bump (List.take_append_drop (utf8Len b) p.rest).symm
    rwa [hbytes, ← utf8Len_eq hc] at htakes

theorem takes_of_piece {cs : Text} (hb : p.peek = some b) (hquote : b ≠ 0x22)
    (h : p.piece b = .ok (cs, q)) : ∃ c x, cs = [c] ∧ Piece c x ∧ p.Takes x 0 q := by
  unfold piece at h
  split at h
  case isTrue hback =>
    subst hback
    dsimp only at h
    split at h
    case h_1 => exact (not_fail h).elim
    case h_2 e he =>
      have hescape := (takes_byte hb).trans (takes_byte he)
      split at h
      case isTrue hu =>
        subst hu
        obtain ⟨⟨c, r⟩, hc, h⟩ := Except.bind_eq_ok.mp h
        obtain ⟨x, hx, htakes⟩ := unicodeEscape_eq_ok.mp hc
        cases h
        exact ⟨c, _, rfl, .unicode hx, hescape.trans htakes⟩
      case isFalse =>
        split at h
        case h_1 c hc =>
          cases h
          exact ⟨c, _, rfl, .short hc, hescape⟩
        case h_2 => exact (not_fail h).elim
  case isFalse hback =>
    split at h
    case isTrue => exact (not_fail h).elim
    case isFalse hcontrol =>
      dsimp only at h
      split at h
      case isTrue => exact (not_fail h).elim
      case isFalse hlen =>
        split at h
        case h_1 s hs =>
          cases h
          exact takes_of_fromUtf8 hb hquote hback hcontrol hlen hs
        case h_2 => exact (not_fail h).elim

theorem piece_of_takes {c : Char} {x : Bytes} (hb : p.peek = some b) (hpiece : Piece c x)
    (htakes : p.Takes x 0 q) : p.piece b = .ok ([c], q) := by
  unfold piece
  cases hpiece with
  | plain hge hne hne' =>
    obtain ⟨b', t', hc, -⟩ := Text.encode_eq_cons c
    have hfirst : b = b' := by
      rw [hc] at htakes
      exact Option.some.inj (hb.symm.trans htakes.peek)
    subst hfirst
    obtain ⟨-, hback, hcontrol⟩ := (plain_iff hc).mpr ⟨hge, hne, hne'⟩
    have hlen := utf8Len_eq hc
    have htake : p.rest.take (utf8Len b) = utf8EncodeChar c := by
      rw [hlen, htakes.rest, List.take_left]
    have hread : Text.fromUtf8 (utf8EncodeChar c) = some [c] := by
      rw [Text.fromUtf8_eq_some, Text.asBytes_cons, Text.asBytes_nil, List.append_nil]
    have hfits : ¬(utf8Len b = 0 ∨ p.rest.length < utf8Len b) := by
      rw [hlen, ← htakes.length_le, hc, List.length_cons]
      omega
    rw [if_neg hback, if_neg hcontrol]
    dsimp only
    rw [if_neg hfits, htake, hread, hlen, htakes.bump_eq]
  | short he =>
    obtain ⟨r, h₁, h₂⟩ := Takes.split (x := [0x5c]) (n := 0) (m := 0) htakes
    obtain rfl := Option.some.inj (hb.symm.trans h₁.peek)
    have hb₁ : p.bump 1 = r := h₁.bump_eq
    have hb₂ : r.bump 1 = q := h₂.bump_eq
    rename_i e
    have hu : e ≠ 0x75 := by
      rintro rfl
      exact nomatch he
    rw [if_pos rfl, hb₁]
    dsimp only
    rw [h₂.peek]
    dsimp only
    rw [if_neg hu, he, hb₂]
  | unicode hx =>
    obtain ⟨q₁, h₁, htakes⟩ := Takes.split (x := [0x5c]) (n := 0) (m := 0) htakes
    obtain ⟨q₂, h₂, htakes⟩ := Takes.split (x := [0x75]) (n := 0) (m := 0) htakes
    obtain rfl := Option.some.inj (hb.symm.trans h₁.peek)
    have hb₁ : p.bump 1 = q₁ := h₁.bump_eq
    have hb₂ : q₁.bump 1 = q₂ := h₂.bump_eq
    rw [if_pos rfl, hb₁]
    dsimp only
    rw [h₂.peek]
    dsimp only
    rw [if_pos rfl, hb₂, unicodeEscape_eq_ok.mpr ⟨_, hx, htakes⟩]
    rfl

/-- A piece of a string is the bytes of one character. -/
theorem piece_eq_ok {cs : Text} (hb : p.peek = some b) (hquote : b ≠ 0x22) :
    p.piece b = .ok (cs, q) ↔ ∃ c x, cs = [c] ∧ Piece c x ∧ p.Takes x 0 q := by
  refine ⟨takes_of_piece hb hquote, ?_⟩
  rintro ⟨c, x, rfl, hpiece, htakes⟩
  exact piece_of_takes hb hpiece htakes

/-- A piece is not empty. -/
theorem piece_ne_nil (h : Piece c x) : x ≠ [] := by
  cases h with
  | plain =>
    obtain ⟨b, t, hc, -⟩ := Text.encode_eq_cons c
    rw [hc]
    exact List.cons_ne_nil _ _
  | short => exact List.cons_ne_nil _ _
  | unicode => exact List.cons_ne_nil _ _

/-- The first byte of a piece is no quote. -/
theorem ne_quote_of_piece (h : Piece c (b :: x)) : b ≠ 0x22 := by
  generalize hy : b :: x = y at h
  cases h with
  | plain hge hne hne' => exact ((plain_iff hy.symm).mpr ⟨hge, hne, hne'⟩).1
  | short =>
    cases hy
    decide
  | unicode =>
    cases hy
    decide

/-- A round of `string` reads the quote at the end or one character. -/
theorem stringStep_eq_ok {s : Text} {o : (Text × Parser) ⊕ (Text × Parser)} :
    stringStep (s, p) = .ok o ↔ (∃ q, o = .inr (s, q) ∧ p.Takes [0x22] 0 q) ∨
      ∃ c x q, o = .inl (s ++ [c], q) ∧ Piece c x ∧ p.Takes x 0 q := by
  unfold stringStep
  constructor
  · intro h
    split at h
    case h_1 => exact (not_fail h).elim
    case h_2 b hb =>
      split at h
      case isTrue hquote =>
        subst hquote
        cases h
        exact .inl ⟨_, rfl, takes_byte hb⟩
      case isFalse hquote =>
        obtain ⟨⟨cs, q⟩, hcs, h⟩ := Except.bind_eq_ok.mp h
        obtain ⟨c, x, rfl, hx, htakes⟩ := (piece_eq_ok hb hquote).mp hcs
        cases h
        exact .inr ⟨c, x, q, rfl, hx, htakes⟩
  · rintro (⟨q, rfl, htakes⟩ | ⟨c, x, q, rfl, hx, htakes⟩)
    · have hq : p.bump 1 = q := htakes.bump_eq
      rw [show (s, p).2.peek = some 0x22 from htakes.peek]
      dsimp only
      rw [if_pos rfl, hq]
    · cases x with
      | nil => exact absurd rfl (piece_ne_nil hx)
      | cons b x =>
        have hb := htakes.peek
        have hquote := ne_quote_of_piece hx
        rw [show (s, p).2.peek = some b from hb]
        dsimp only
        rw [if_neg hquote, (piece_eq_ok hb hquote).mpr ⟨c, _, rfl, hx, htakes⟩]
        rfl

theorem lowers_stringStep : Except.Lowers stringStep (·.2.rest.length) := by
  rintro ⟨s, p⟩ ⟨s', q⟩ h
  obtain ⟨_, heq, -⟩ | ⟨c, x, q', heq, hx, htakes⟩ := stringStep_eq_ok.mp h
  · cases heq
  · cases heq
    show q.rest.length < p.rest.length
    rw [← htakes.length_le]
    exact Nat.lt_add_of_pos_right (List.length_pos_of_ne_nil (piece_ne_nil hx))

/-- The rounds of `string` read the characters up to the quote. -/
theorem rounds_stringStep {s t : Text} : Except.Rounds stringStep (s, p) (t, q) ↔
    ∃ u x, t = s ++ u ∧ Chars u x ∧ p.Takes (x ++ [0x22]) 0 q := by
  constructor
  · intro h
    generalize ha : (s, p) = a at h
    generalize hb : (t, q) = b at h
    induction h generalizing s p with
    | done hstep =>
      subst ha hb
      obtain ⟨q', heq, htakes⟩ | ⟨c, x, q', heq, -⟩ := stringStep_eq_ok.mp hstep
      · cases heq
        exact ⟨[], [], (List.append_nil _).symm, .nil, htakes⟩
      · cases heq
    | more hstep _ ih =>
      subst ha
      obtain ⟨q', heq, -⟩ | ⟨c, x, q', heq, hx, htakes⟩ := stringStep_eq_ok.mp hstep
      · cases heq
      · cases heq
        obtain ⟨u, y, rfl, hy, htakes'⟩ := ih rfl hb
        refine ⟨c :: u, x ++ y, List.append_assoc _ _ _, .cons hx hy, ?_⟩
        rw [List.append_assoc]
        exact htakes.trans htakes'
  · rintro ⟨u, x, rfl, hx, htakes⟩
    induction hx generalizing s p with
    | nil =>
      rw [List.append_nil]
      exact .done (stringStep_eq_ok.mpr (.inl ⟨q, rfl, htakes⟩))
    | @cons c u x y hpiece _ ih =>
      rw [List.append_assoc] at htakes
      obtain ⟨r, h₁, h₂⟩ := htakes.split (n := 0) (m := 0)
      have hrest := ih (s := s ++ [c]) h₂
      rw [List.append_assoc] at hrest
      exact .more (stringStep_eq_ok.mpr (.inr ⟨c, x, r, rfl, hpiece, h₁⟩)) hrest

/-- A string is read from its quote on. -/
theorem string_eq_ok {s : Text} (hp : p.peek = some 0x22) :
    p.string = .ok (s, q) ↔ ∃ x, Quoted s x ∧ p.Takes x 0 q := by
  have hquote := takes_byte hp
  have hfuel : (p.bump 1).rest.length < p.rest.length + 1 :=
    Nat.lt_succ_of_le (Nat.le.intro hquote.length_le)
  unfold string
  rw [Except.rounds_eq_ok lowers_stringStep hfuel, rounds_stringStep]
  constructor
  · rintro ⟨u, x, rfl, hx, htakes⟩
    exact ⟨_, ⟨x, hx, rfl⟩, hquote.trans htakes⟩
  · rintro ⟨_, ⟨x, hx, rfl⟩, htakes⟩
    obtain ⟨r, h₁, h₂⟩ := Takes.split (x := [0x22]) (n := 0) (m := 0) htakes
    rw [hquote.unique h₁]
    exact ⟨s, x, rfl, hx, h₂⟩

/-! ## Words and numbers -/

theorem literal_eq_ok {want : Bytes} {u v : Json} :
    p.literal want u = .ok (v, q) ↔ u = v ∧ p.Takes want 0 q := by
  unfold literal
  constructor
  · intro h
    split at h
    case isTrue hprefix =>
      cases h
      obtain ⟨t, ht⟩ := hprefix
      exact ⟨rfl, takes_bump ht.symm⟩
    case isFalse => exact (not_unexpected h).elim
  · rintro ⟨rfl, htakes⟩
    rw [if_pos ⟨q.rest, htakes.rest.symm⟩, htakes.bump_eq]

/-- The bytes of an integer. -/
def SpellsInt (n : Int64) (x : Bytes) : Prop :=
  x = decimal n.toInt.toNat ∧ 0 ≤ n.toInt ∨ x = 0x2d :: decimal (-n.toInt).toNat ∧ n.toInt ≤ 0

/-- Behind the digits of a number there is nothing that would be of the number. -/
def Stops (t : Bytes) : Prop :=
  ∀ b ∈ t.head?, isDigit b = false ∧ b ≠ 0x2e ∧ b ≠ 0x65 ∧ b ≠ 0x45

theorem parseI64_eq_some {neg : Bool} {ds : Bytes} {k : Int64} : parseI64 neg ds = some k ↔
    k.toInt = if neg then -(valueOf ds : Int) else valueOf ds := by
  have hlow : -2 ^ 63 ≤ k.toInt := k.le_toInt
  have hhigh : k.toInt < 2 ^ 63 := k.toInt_lt
  have hofInt {z : Int} (h : -2 ^ 63 ≤ z) (h' : z < 2 ^ 63) : Int64.ofInt z = k ↔ k.toInt = z := by
    constructor
    · rintro rfl
      exact Int64.toInt_ofInt_of_le h h'
    · rintro rfl
      exact Int64.ofInt_toInt k
  unfold parseI64
  dsimp only
  cases neg with
  | true =>
    rw [if_pos rfl, if_pos rfl]
    split
    case isTrue hle => rw [Option.some.injEq, hofInt (by omega) (by omega)]
    case isFalse hle => exact iff_of_false (fun h ↦ nomatch h) (by omega)
  | false =>
    rw [if_neg Bool.false_ne_true, if_neg Bool.false_ne_true]
    split
    case isTrue hlt => rw [Option.some.injEq, hofInt (by omega) (by omega)]
    case isFalse hlt => exact iff_of_false (fun h ↦ nomatch h) (by omega)

theorem takeWhile_isDigit {ds t : Bytes} (hds : ∀ d ∈ ds, isDigit d = true)
    (ht : ∀ b ∈ t.head?, isDigit b = false) : (ds ++ t).takeWhile isDigit = ds := by
  rw [List.takeWhile_append_of_pos hds]
  cases t with
  | nil => exact List.append_nil ds
  | cons b t =>
    rw [List.takeWhile_cons_of_neg (Bool.eq_false_iff.mp (ht b rfl)), List.append_nil]

/-- Digits are read as far as they go. -/
theorem takes_digits (p : Parser) : (∀ d ∈ p.rest.takeWhile isDigit, isDigit d = true) ∧
    p.Takes (p.rest.takeWhile isDigit) 0 (p.bump (p.rest.takeWhile isDigit).length) ∧
    ∀ b ∈ (p.bump (p.rest.takeWhile isDigit).length).peek, isDigit b = false := by
  have hsplit := List.takeWhile_append_dropWhile (p := isDigit) (l := p.rest)
  have htakes := takes_bump hsplit.symm
  refine ⟨fun d hd ↦ List.all_eq_true.mp List.all_takeWhile d hd, htakes, fun b hb ↦ ?_⟩
  have hrest := List.append_cancel_left (htakes.rest.symm.trans hsplit.symm)
  rw [peek, hrest] at hb
  have hnot := List.head?_dropWhile_not isDigit p.rest
  rw [Option.mem_def.mp hb] at hnot
  exact hnot

/-- Digits are taken if they are the digits of a number that fits. -/
theorem unsigned_eq_ok {start : Parser} {neg : Bool} {v : Json} :
    p.unsigned start neg = .ok (v, q) ↔ ∃ k ds, v = .num k ∧ Canonical ds ∧
      k.toInt = (if neg then -(valueOf ds : Int) else valueOf ds) ∧ p.Takes ds 0 q ∧
      Stops q.rest := by
  unfold unsigned
  dsimp only
  constructor
  · intro h
    obtain ⟨hall, htakes, hend⟩ := takes_digits p
    split at h
    case isTrue => exact (not_unexpected h).elim
    case isFalse hne =>
      split at h
      case isTrue => exact (not_fail h).elim
      case isFalse hzero =>
        split at h
        case isTrue => exact (not_fail h).elim
        case isFalse hfloat =>
          split at h
          case h_1 k hk =>
            cases h
            have hcanonical : Canonical (p.rest.takeWhile isDigit) := by
              refine ⟨hne, hall, fun hhead ↦ ?_⟩
              have hle : (p.rest.takeWhile isDigit).length ≤ 1 :=
                Nat.le_of_not_lt fun hlt ↦ hzero ⟨hhead, hlt⟩
              exact le_antisymm hle (List.length_pos_of_ne_nil hne)
            refine ⟨k, _, rfl, hcanonical, parseI64_eq_some.mp hk, htakes, fun b hb ↦ ?_⟩
            obtain ⟨hdot, hfloat⟩ := not_or.mp hfloat
            obtain ⟨he, hE⟩ := not_or.mp hfloat
            rw [peek, Option.mem_def.mp hb] at hdot he hE
            exact ⟨hend b hb, fun h ↦ hdot (congrArg some h), fun h ↦ he (congrArg some h),
              fun h ↦ hE (congrArg some h)⟩
          case h_2 => exact (not_fail h).elim
  · rintro ⟨k, ds, rfl, ⟨hne, hall, hzero⟩, hk, htakes, hstops⟩
    have htake : p.rest.takeWhile isDigit = ds := by
      rw [htakes.rest]
      exact takeWhile_isDigit hall fun b hb ↦ (hstops b hb).1
    have hfloat : ¬(q.peek = some 0x2e ∨ q.peek = some 0x65 ∨ q.peek = some 0x45) := by
      rintro (h | h | h)
      · exact (hstops _ h).2.1 rfl
      · exact (hstops _ h).2.2.1 rfl
      · exact (hstops _ h).2.2.2 rfl
    rw [htake, htakes.bump_eq, if_neg hne, if_neg fun h ↦ h.2.ne' (hzero h.1), if_neg hfloat,
      parseI64_eq_some.mpr hk]

/-- A number is read if what follows is not of it. -/
theorem number_eq_ok {v : Json} : p.number = .ok (v, q) ↔
    ∃ k x, v = .num k ∧ SpellsInt k x ∧ p.Takes x 0 q ∧ Stops q.rest := by
  unfold number
  constructor
  · intro h
    split at h
    case isTrue hminus =>
      obtain ⟨k, ds, rfl, hcanonical, hk, htakes, hstops⟩ := unsigned_eq_ok.mp h
      rw [if_pos rfl] at hk
      have hvalue : (-k.toInt).toNat = valueOf ds := by rw [hk, neg_neg, Int.toNat_natCast]
      refine ⟨k, _, rfl, .inr ⟨?_, ?_⟩, (takes_byte hminus).trans htakes, hstops⟩
      · rw [hvalue, hcanonical.eq_decimal]
        rfl
      · rw [hk]
        exact Int.neg_nonpos_of_nonneg (Int.natCast_nonneg _)
    case isFalse =>
      obtain ⟨k, ds, rfl, hcanonical, hk, htakes, hstops⟩ := unsigned_eq_ok.mp h
      rw [if_neg Bool.false_ne_true] at hk
      have hvalue : k.toInt.toNat = valueOf ds := by rw [hk, Int.toNat_natCast]
      refine ⟨k, _, rfl, .inl ⟨?_, ?_⟩, htakes, hstops⟩
      · rw [hvalue, hcanonical.eq_decimal]
      · rw [hk]
        exact Int.natCast_nonneg _
  · rintro ⟨k, x, rfl, ⟨rfl, hk⟩ | ⟨rfl, hk⟩, htakes, hstops⟩
    · have hcanonical := canonical_decimal k.toInt.toNat
      have hminus : p.peek ≠ some 0x2d := by
        intro h
        cases hds : decimal k.toInt.toNat with
        | nil => exact hcanonical.ne_nil hds
        | cons b ds =>
          rw [hds] at htakes
          have hdigit := hcanonical.digits b (hds ▸ List.mem_cons_self)
          rw [Option.some.inj (htakes.peek.symm.trans h)] at hdigit
          exact absurd hdigit (by decide)
      rw [if_neg hminus, unsigned_eq_ok]
      refine ⟨k, _, rfl, hcanonical, ?_, htakes, hstops⟩
      rw [if_neg Bool.false_ne_true, valueOf_decimal, Int.toNat_of_nonneg hk]
    · obtain ⟨r, h₁, h₂⟩ := Takes.split (x := [0x2d]) (n := 0) (m := 0) htakes
      have hr : p.bump 1 = r := h₁.bump_eq
      rw [if_pos h₁.peek, hr, unsigned_eq_ok]
      refine ⟨k, _, rfl, canonical_decimal _, ?_, h₂, hstops⟩
      rw [if_pos rfl, valueOf_decimal, Int.toNat_of_nonneg (Int.neg_nonneg_of_nonpos hk), neg_neg]

end Parser

end Plaine.Rpc

import Plaine.Rpc.JsonTokens

/-!
# What the JSON parser accepts

The parser accepts a byte string if and only if it is one value of its dialect with blanks around it,
within the limits, and then returns that value.  Arrays and objects are read in the same way, by rounds
that read an item each; what is proved of the rounds is proved once.

What `write` makes of a value spells it, without a blank, and so it is read back.
-/

namespace Plaine.Rpc

open Plaine.Lib Plaine.Lib.JsonText

/-- The dialect of the parser. -/
def dialect (limits : JsonLimits) : Dialect Int64 where
  num := Parser.SpellsInt
  text _ := True
  maxItems := limits.maxMembers
  maxMembers := limits.maxMembers
  bottom := False

namespace Parser

variable {p q r : Parser} {x y w t : Bytes} {n m max : Nat} {b close : UInt8} {v : Json}

/-! ## Brackets -/

/-- What a bracket or a comma is not: a blank, or the first byte of an item. -/
structure Closing (close : UInt8) : Prop where
  comma : close ≠ 0x2c
  blank : isBlank close = false

theorem behind_eq_ok {σ : Type} {s : σ} (hclose : Closing close) {o : (σ × Parser) ⊕ (Json × Parser)} :
    p.behind close s v = .ok o ↔ ∃ w q, Blank w ∧
      (o = .inl (s, q) ∧ p.Takes (w ++ [0x2c]) 0 q ∨ o = .inr (v, q) ∧ p.Takes (w ++ [close]) 0 q) := by
  unfold behind
  constructor
  · intro h
    obtain ⟨w, hw, htakes, -⟩ := takes_skipWs p
    split at h
    case h_1 b hb =>
      split at h
      case isTrue hcomma =>
        subst hcomma
        cases h
        exact ⟨w, _, hw, .inl ⟨rfl, htakes.trans (takes_byte hb)⟩⟩
      case isFalse =>
        split at h
        case isTrue hbracket =>
          subst hbracket
          cases h
          exact ⟨w, _, hw, .inr ⟨rfl, htakes.trans (takes_byte hb)⟩⟩
        case isFalse => exact (not_unexpected h).elim
    case h_2 => exact (not_fail h).elim
  · have hskip {w : Bytes} {b : UInt8} {q : Parser} (hw : Blank w) (hb : isBlank b = false)
        (h : p.Takes (w ++ [b]) 0 q) : p.skipWs.peek = some b ∧ p.skipWs.bump 1 = q := by
      obtain ⟨r, h₁, h₂⟩ := h.split (n := 0) (m := 0)
      have hr : p.skipWs = r := by
        refine skipWs_eq h₁ hw fun b' hb' ↦ ?_
        rw [h₂.peek] at hb'
        obtain rfl := Option.some.inj hb'
        exact hb
      rw [hr]
      exact ⟨h₂.peek, h₂.bump_eq⟩
    rintro ⟨w, q, hw, ⟨rfl, htakes⟩ | ⟨rfl, htakes⟩⟩
    · obtain ⟨hpeek, hq⟩ := hskip hw (by decide) htakes
      rw [hpeek]
      dsimp only
      rw [if_pos rfl, hq]
    · obtain ⟨hpeek, hq⟩ := hskip hw hclose.blank htakes
      rw [hpeek]
      dsimp only
      rw [if_neg hclose.comma, if_pos rfl, hq]

section Rounds

variable {σ α : Type} {step : σ × Parser → Except JsonError ((σ × Parser) ⊕ (Json × Parser))}
  {R : α → Bytes → Prop} {count : α → Nat} {can : σ → α → Prop} {push : σ → α → σ} {wrap : σ → Json}
  {s : σ}

/-- A round reads an item with the blanks around it and what stands behind it. -/
def ReadsItem (max : Nat) (close : UInt8)
    (step : σ × Parser → Except JsonError ((σ × Parser) ⊕ (Json × Parser))) (R : α → Bytes → Prop)
    (count : α → Nat) (can : σ → α → Prop) (push : σ → α → σ) (wrap : σ → Json) : Prop :=
  ∀ s p o, step (s, p) = .ok o ↔ ∃ w a x w' q, Blank w ∧ R a x ∧ Blank w' ∧ can s a ∧
    q.values ≤ max ∧
    (o = .inl (push s a, q) ∧ p.Takes (w ++ (x ++ (w' ++ [0x2c]))) (count a) q ∨
      o = .inr (wrap (push s a), q) ∧ p.Takes (w ++ (x ++ (w' ++ [close]))) (count a) q)

/-- The items can be added one by one. -/
def CanAll (can : σ → α → Prop) (push : σ → α → σ) : σ → List α → Prop
  | _, [] => True
  | s, a :: l => can s a ∧ CanAll can push (push s a) l

theorem ReadsItem.lowers (h : ReadsItem max close step R count can push wrap) :
    Except.Lowers step (·.2.rest.length) := by
  rintro ⟨s, p⟩ ⟨s', q⟩ hstep
  obtain ⟨w, a, x, w', q', -, -, -, -, -, ⟨heq, htakes⟩ | ⟨heq, -⟩⟩ := (h s p _).mp hstep
  · cases heq
    show q.rest.length < p.rest.length
    rw [← htakes.length_le]
    simp only [List.length_append, List.length_singleton]
    omega
  · cases heq

/-- The rounds read items up to the closing bracket. -/
theorem ReadsItem.rounds (h : ReadsItem max close step R count can push wrap) :
    Except.Rounds step (s, p) (v, q) ↔ ∃ l x, v = wrap (l.foldl push s) ∧ CanAll can push s l ∧
      Items R l x ∧ p.Takes (x ++ [close]) (l.map count).sum q ∧ q.values ≤ max := by
  constructor
  · intro hrounds
    generalize ha : (s, p) = a at hrounds
    generalize hb : (v, q) = b at hrounds
    induction hrounds generalizing s p with
    | done hstep =>
      subst ha hb
      obtain ⟨w, a, x, w', q', hw, hx, hw', hcan, hmax, ⟨heq, -⟩ | ⟨heq, htakes⟩⟩ := (h s p _).mp hstep
      · cases heq
      · cases heq
        refine ⟨[a], _, rfl, ⟨hcan, trivial⟩, .one hw hx hw', ?_, hmax⟩
        simpa only [List.append_assoc, List.map_cons, List.map_nil, List.sum_cons, List.sum_nil,
          Nat.add_zero] using htakes
    | more hstep _ ih =>
      subst ha
      obtain ⟨w, a, x, w', q', hw, hx, hw', hcan, -, ⟨heq, htakes⟩ | ⟨heq, -⟩⟩ := (h s p _).mp hstep
      · cases heq
        obtain ⟨l, y, rfl, hall, hy, htakes', hmax⟩ := ih rfl hb
        refine ⟨a :: l, _, rfl, ⟨hcan, hall⟩, .cons hw hx hw' hy, ?_, hmax⟩
        simpa only [List.append_assoc, List.cons_append, List.nil_append, List.map_cons,
          List.sum_cons] using htakes.trans htakes'
      · cases heq
  · rintro ⟨l, x, rfl, hall, hitems, htakes, hmax⟩
    induction hitems generalizing s p with
    | one hw hx hw' =>
      refine .done ((h s p _).mpr ⟨_, _, _, _, q, hw, hx, hw', hall.1, hmax, .inr ⟨rfl, ?_⟩⟩)
      simpa only [List.append_assoc, List.map_cons, List.map_nil, List.sum_cons, List.sum_nil,
        Nat.add_zero] using htakes
    | @cons a l w x w' y hw hx hw' _ ih =>
      have hassoc : w ++ (x ++ (w' ++ 0x2c :: y)) ++ [close] =
          (w ++ (x ++ (w' ++ [0x2c]))) ++ (y ++ [close]) := by
        simp only [List.append_assoc, List.cons_append, List.nil_append]
      rw [hassoc, List.map_cons, List.sum_cons] at htakes
      obtain ⟨r, h₁, h₂⟩ := htakes.split
      have hr : r.values ≤ max := by
        have hvalues := h₂.values
        omega
      exact .more ((h s p _).mpr ⟨w, a, x, w', r, hw, hx, hw', hall.1, hr, .inl ⟨rfl, h₁⟩⟩)
        (ih hall.2 h₂)

/-- An item does not start with a blank or the closing bracket. -/
def Opens (R : α → Bytes → Prop) (close : UInt8) : Prop :=
  ∀ a x, R a x → ∃ b t, x = b :: t ∧ isBlank b = false ∧ b ≠ close

/-- What stands between brackets is read as items. -/
theorem ReadsItem.enclosed (h : ReadsItem max close step R count can push wrap)
    (hclose : Closing close) (hopens : Opens R close) (hp : p.peek = some b) (hmax : p.values ≤ max) :
    p.enclosed close step s (wrap s) = .ok (v, q) ↔ ∃ l x, v = wrap (l.foldl push s) ∧
      CanAll can push s l ∧ Enclosed R b close l x ∧ p.Takes x (l.map count).sum q ∧
      q.values ≤ max := by
  have hbracket := takes_byte hp
  unfold Parser.enclosed
  dsimp only
  constructor
  · intro h'
    obtain ⟨w, hw, htakes, -⟩ := takes_skipWs (p.bump 1)
    split at h'
    case isTrue hend =>
      cases h'
      have hall := (hbracket.trans htakes).trans (takes_byte hend)
      refine ⟨[], _, rfl, trivial, .nil hw, hall, ?_⟩
      rw [hall.values]
      exact hmax
    case isFalse =>
      obtain ⟨l, x, rfl, hcan, hitems, htakes', hq⟩ := h.rounds.mp (.of_ok h')
      refine ⟨l, _, rfl, hcan, .items (hitems.blank hw), ?_, hq⟩
      have hall := (hbracket.trans htakes).trans htakes'
      simpa only [List.append_assoc, List.cons_append, List.nil_append, Nat.zero_add] using hall
  · rintro ⟨l, x, rfl, hcan, henclosed, htakes, hq⟩
    cases henclosed with
    | @nil w hw =>
      obtain ⟨r, h₁, h₂⟩ := Takes.split (x := [b]) (n := 0) (m := 0) htakes
      obtain ⟨r', h₃, h₄⟩ := h₂.split (n := 0) (m := 0)
      have hr : p.bump 1 = r := h₁.bump_eq
      have hskip : r.skipWs = r' := by
        refine skipWs_eq h₃ hw fun b' hb' ↦ ?_
        rw [h₄.peek] at hb'
        obtain rfl := Option.some.inj hb'
        exact hclose.blank
      have hq' : r'.bump 1 = q := h₄.bump_eq
      rw [hr, hskip, if_pos h₄.peek, hq']
      rfl
    | items hitems =>
      obtain ⟨a, w, y, z, hw, ha, rfl, hfirst⟩ := hitems.first
      obtain ⟨b', t, rfl, hblank, hne⟩ := hopens a y ha
      rw [List.append_assoc, ← Nat.zero_add (List.map count l).sum] at htakes
      obtain ⟨r, h₁, h₂⟩ := Takes.split (x := [b]) (n := 0) htakes
      rw [← Nat.zero_add (List.map count l).sum] at h₂
      obtain ⟨r', h₃, h₄⟩ := h₂.split
      have hr : p.bump 1 = r := h₁.bump_eq
      have hpeek : r'.peek = some b' := Takes.peek (x := t ++ z ++ [close]) h₄
      have hskip : r.skipWs = r' := by
        refine skipWs_eq h₃ hw fun b'' hb'' ↦ ?_
        rw [hpeek] at hb''
        obtain rfl := Option.some.inj hb''
        exact hblank
      rw [hr, hskip, if_neg fun hend ↦ hne (Option.some.inj (hpeek.symm.trans hend)),
        Except.rounds_eq_ok h.lowers (s := (s, r')) (Nat.lt_succ_self _), h.rounds]
      exact ⟨l, _, rfl, hcan, hfirst, h₄, hq⟩

end Rounds

/-! ## Values -/

/-- What stands behind a value does not change it. -/
def Ends : Json → Bytes → Prop
  | .num _, t => Stops t
  | _, _ => True

/-- The function reads the values of a dialect. -/
def Reads (max : Nat) (f : Parser → Except JsonError (Json × Parser)) (R : Json → Bytes → Prop) :
    Prop :=
  ∀ p v q, f p = .ok (v, q) ↔
    ∃ x, R v x ∧ p.Takes x v.count q ∧ q.values ≤ max ∧ Ends v q.rest

/-- A byte no value starts with and no number has. -/
structure Apart (close : UInt8) : Prop extends Closing close where
  digit : isDigit close = false
  float : close ≠ 0x2e ∧ close ≠ 0x65 ∧ close ≠ 0x45

theorem stops_of_blank {c : UInt8} (hw : Blank w) (hc : c = 0x2c ∨ Apart c) : Stops (w ++ c :: t) := by
  have hblank (b : UInt8) (hb : isBlank b = true) :
      isDigit b = false ∧ b ≠ 0x2e ∧ b ≠ 0x65 ∧ b ≠ 0x45 := by
    simp only [isBlank, Bool.or_eq_true, beq_iff_eq] at hb
    rcases hb with ((rfl | rfl) | rfl) | rfl <;> decide
  intro b hb
  cases w with
  | nil =>
    obtain rfl := Option.some.inj hb
    rcases hc with rfl | hc
    · decide
    · exact ⟨hc.digit, hc.float⟩
  | cons b' w =>
    obtain rfl := Option.some.inj hb
    exact hblank _ (hw _ List.mem_cons_self)

theorem ends_of_blank {c : UInt8} (hw : Blank w) (hc : c = 0x2c ∨ Apart c) : Ends v (w ++ c :: t) := by
  cases v with
  | num => exact stops_of_blank hw hc
  | _ => trivial

variable {limits : JsonLimits} {f : Parser → Except JsonError (Json × Parser)}
  {R : Json → Bytes → Prop}

theorem split_item {w' : Bytes} {c : UInt8} (h : p.Takes (w ++ (x ++ (w' ++ [c]))) n q) :
    ∃ q₁ q₂, p.Takes w 0 q₁ ∧ q₁.Takes x n q₂ ∧ q₂.Takes (w' ++ [c]) 0 q := by
  rw [← Nat.zero_add n] at h
  obtain ⟨q₁, h₁, h⟩ := h.split
  obtain ⟨q₂, h₂, h₃⟩ := Takes.split (m := 0) h
  exact ⟨q₁, q₂, h₁, h₂, h₃⟩

theorem join_item {w' : Bytes} {c : UInt8} {q₁ q₂ : Parser} (h₁ : p.Takes w 0 q₁)
    (h₂ : q₁.Takes x n q₂) (h₃ : q₂.Takes (w' ++ [c]) 0 q) :
    p.Takes (w ++ (x ++ (w' ++ [c]))) n q := by
  have h := h₁.trans (h₂.trans h₃)
  rwa [Nat.zero_add] at h

/-- The blanks before a value are skipped. -/
theorem skipWs_of_opens {α : Type} {R : α → Bytes → Prop} {a : α} (hopens : Opens R close)
    (ha : R a x) (hw : Blank w) (h₁ : p.Takes w 0 q) (h₂ : q.Takes x n r) : p.skipWs = q := by
  obtain ⟨b, t, rfl, hblank, -⟩ := hopens a x ha
  refine skipWs_eq h₁ hw fun b' hb' ↦ ?_
  rw [h₂.peek] at hb'
  obtain rfl := Option.some.inj hb'
  exact hblank

theorem ends_of_takes {c : UInt8} (hw : Blank w) (hc : c = 0x2c ∨ Apart c)
    (h : p.Takes (w ++ [c]) 0 q) : Ends v p.rest := by
  rw [h.rest, List.append_assoc]
  exact ends_of_blank hw hc

theorem apart_bracket : Apart 0x5d := ⟨⟨by decide, by decide⟩, by decide, by decide⟩

theorem apart_brace : Apart 0x7d := ⟨⟨by decide, by decide⟩, by decide, by decide⟩

theorem readsItem_array (hf : Reads max f R) (hopens : Opens R 0x5d) :
    ReadsItem max 0x5d (arrayStep limits f) R Json.count
      (fun items _ ↦ items.length + 1 ≤ limits.maxMembers) (fun items v ↦ items ++ [v]) .arr := by
  intro items p o
  unfold arrayStep
  dsimp only
  constructor
  · intro h
    obtain ⟨w, hw, h₁, -⟩ := takes_skipWs p
    split at h
    case isTrue => exact (not_fail h).elim
    case isFalse hroom =>
      obtain ⟨⟨a, q₂⟩, ha, h⟩ := Except.bind_eq_ok.mp h
      obtain ⟨x, hx, h₂, hmax, -⟩ := (hf _ _ _).mp ha
      obtain ⟨w', q, hw', ho⟩ := (behind_eq_ok apart_bracket.toClosing).mp h
      have hq : q.values ≤ max := by
        rcases ho with ⟨-, h₃⟩ | ⟨-, h₃⟩
        all_goals
          rw [h₃.values]
          exact hmax
      refine ⟨w, a, x, w', q, hw, hx, hw', Nat.le_of_not_lt hroom, hq, ?_⟩
      exact ho.imp (And.imp_right (join_item h₁ h₂)) (And.imp_right (join_item h₁ h₂))
  · rintro ⟨w, a, x, w', q, hw, hx, hw', hroom, hmax, ho⟩
    rw [if_neg (Nat.not_lt.mpr hroom)]
    have hread {c : UInt8} (hc : c = 0x2c ∨ Apart c) (h : p.Takes (w ++ (x ++ (w' ++ [c]))) a.count q) :
        ∃ q₂, f p.skipWs = .ok (a, q₂) ∧ q₂.Takes (w' ++ [c]) 0 q := by
      obtain ⟨q₁, q₂, h₁, h₂, h₃⟩ := split_item h
      rw [skipWs_of_opens hopens hx hw h₁ h₂]
      refine ⟨q₂, (hf _ _ _).mpr ⟨x, hx, h₂, ?_, ends_of_takes hw' hc h₃⟩, h₃⟩
      rw [h₃.values] at hmax
      exact hmax
    rcases ho with ⟨rfl, h⟩ | ⟨rfl, h⟩
    · obtain ⟨q₂, hvalue, h₃⟩ := hread (.inl rfl) h
      rw [hvalue, Except.ok_bind]
      exact (behind_eq_ok apart_bracket.toClosing).mpr ⟨w', q, hw', .inl ⟨rfl, h₃⟩⟩
    · obtain ⟨q₂, hvalue, h₃⟩ := hread (.inr apart_bracket) h
      rw [hvalue, Except.ok_bind]
      exact (behind_eq_ok apart_bracket.toClosing).mpr ⟨w', q, hw', .inr ⟨rfl, h₃⟩⟩

/-! ## Keys -/

/-- The hashes are those of the keys. -/
def Members.Hashed (hashKey : Text → UInt64) (m : Members) : Prop :=
  ∀ set, m.seen = some set → ∀ k ∈ m.members.map (·.1), hashKey k ∈ set

variable {hashKey : Text → UInt64} {m : Members} {key : Text}

/-- However the keys are searched, a key is found if it is there. -/
theorem Members.Hashed.duplicate_eq_false (h : m.Hashed hashKey) :
    m.duplicate hashKey key = false ↔ key ∉ m.members.map (·.1) := by
  have hany : m.members.any (·.1 == key) = true ↔ key ∈ m.members.map (·.1) := by
    rw [List.any_eq_true, List.mem_map]
    exact exists_congr fun _ ↦ and_congr_right fun _ ↦ beq_iff_eq
  rw [← Bool.not_eq_true, not_iff_not]
  unfold Members.duplicate
  split
  case h_1 set hset =>
    rw [Bool.and_eq_true, hany, List.contains_iff_mem]
    exact and_iff_right_of_imp (h set hset key)
  case h_2 => exact hany

theorem Members.members_push (v : Json) :
    (m.push hashKey key v).members = m.members ++ [(key, v)] := by
  unfold Members.push
  dsimp only
  split
  case h_1 => rfl
  case h_2 => split <;> rfl

theorem Members.Hashed.push (h : m.Hashed hashKey) (v : Json) :
    (m.push hashKey key v).Hashed hashKey := by
  intro set hset k hk
  rw [Members.members_push, List.map_append, List.mem_append, List.map_singleton,
    List.mem_singleton] at hk
  unfold Members.push at hset
  dsimp only at hset
  split at hset
  case h_1 old hold =>
    cases hset
    rcases hk with hk | rfl
    · exact List.mem_cons_of_mem _ (h old hold k hk)
    · exact List.mem_cons_self
  case h_2 =>
    split at hset
    case isTrue =>
      cases hset
      rw [List.map_append, List.mem_append, List.map_singleton, List.mem_singleton]
      rcases hk with hk | rfl
      · obtain ⟨e, he, rfl⟩ := List.mem_map.mp hk
        exact .inl (List.mem_map_of_mem he)
      · exact .inr rfl
    case isFalse => cases hset

/-- A member can be added. -/
def CanAdd (limits : JsonLimits) (hashKey : Text → UInt64) (m : Members) (e : Text × Json) : Prop :=
  m.duplicate hashKey e.1 = false ∧ m.members.length + 1 ≤ limits.maxMembers

/-- The members that can be added have keys of their own. -/
theorem canAll_members {l : List (Text × Json)} (h : m.Hashed hashKey) :
    CanAll (CanAdd limits hashKey) (fun m e ↦ m.push hashKey e.1 e.2) m l ↔
      ((l.map (·.1)).Nodup ∧ ∀ k ∈ l.map (·.1), k ∉ m.members.map (·.1)) ∧
        (l = [] ∨ m.members.length + l.length ≤ limits.maxMembers) := by
  induction l generalizing m with
  | nil => exact iff_of_true trivial ⟨⟨List.nodup_nil, nofun⟩, .inl rfl⟩
  | cons e l ih =>
    rw [CanAll, CanAdd, h.duplicate_eq_false, ih (h.push e.2), Members.members_push,
      List.length_append, List.length_singleton, List.map_append, List.map_singleton,
      List.map_cons, List.nodup_cons, List.forall_mem_cons, List.length_cons]
    simp only [List.mem_append, List.mem_singleton, not_or, reduceCtorEq, false_or]
    have hlen : m.members.length + 1 ≤ limits.maxMembers ∧
        (l = [] ∨ m.members.length + 1 + l.length ≤ limits.maxMembers) ↔
          m.members.length + (l.length + 1) ≤ limits.maxMembers := by
      cases l with
      | nil => exact and_iff_left (.inl rfl)
      | cons =>
        rw [List.length_cons]
        simp only [reduceCtorEq, false_or]
        omega
    rw [← hlen]
    constructor
    · rintro ⟨⟨hkey, hroom⟩, ⟨hnodup, hall⟩, hrest⟩
      exact ⟨⟨⟨fun hmem ↦ (hall _ hmem).2 rfl, hnodup⟩, hkey, fun k hk ↦ (hall k hk).1⟩, hroom, hrest⟩
    · rintro ⟨⟨⟨hnot, hnodup⟩, hkey, hall⟩, hroom, hrest⟩
      exact ⟨⟨hkey, hroom⟩, ⟨hnodup, fun k hk ↦ ⟨hall k hk, fun heq ↦ hnot (heq ▸ hk)⟩⟩, hrest⟩

theorem canAll_items {items l : List Json} :
    CanAll (fun items (_ : Json) ↦ items.length + 1 ≤ limits.maxMembers) (fun items v ↦ items ++ [v])
      items l ↔ l = [] ∨ items.length + l.length ≤ limits.maxMembers := by
  induction l generalizing items with
  | nil => exact iff_of_true trivial (.inl rfl)
  | cons v l ih =>
    rw [CanAll, ih, List.length_append, List.length_singleton, List.length_cons]
    cases l with
    | nil => simp
    | cons =>
      rw [List.length_cons]
      simp only [reduceCtorEq, false_or]
      omega

theorem foldl_push_members (l : List (Text × Json)) (m : Members) :
    (l.foldl (fun m e ↦ m.push hashKey e.1 e.2) m).members = m.members ++ l := by
  induction l generalizing m with
  | nil => exact (List.append_nil _).symm
  | cons e l ih => rw [List.foldl_cons, ih, Members.members_push, List.append_assoc]; rfl

theorem foldl_concat (l items : List Json) : l.foldl (fun items v ↦ items ++ [v]) items = items ++ l := by
  induction l generalizing items with
  | nil => exact (List.append_nil _).symm
  | cons v l ih => rw [List.foldl_cons, ih, List.append_assoc]; rfl

theorem opens_member : Opens (Member R) 0x7d := by
  rintro ⟨key, v⟩ _ ⟨_, w, w', y, ⟨x, hx, rfl⟩, -, -, -, rfl⟩
  exact ⟨0x22, _, rfl, by decide, by decide⟩

variable {w₁ w₂ : Bytes} {o : Members × Parser ⊕ Json × Parser}

/-- A round that succeeds has read a member. -/
theorem member_of_objectStep (hf : Reads max f R) (h : objectStep limits f hashKey (m, p) = .ok o) :
    ∃ w e x w' q, Blank w ∧ Member R e x ∧ Blank w' ∧ CanAdd limits hashKey m e ∧
      q.values ≤ max ∧
      (o = .inl (m.push hashKey e.1 e.2, q) ∧ p.Takes (w ++ (x ++ (w' ++ [0x2c]))) e.2.count q ∨
        o = .inr (.obj (m.push hashKey e.1 e.2).members, q) ∧
          p.Takes (w ++ (x ++ (w' ++ [0x7d]))) e.2.count q) := by
  unfold objectStep at h
  dsimp only at h
  obtain ⟨w, hw, h₁, -⟩ := takes_skipWs p
  split at h
  case isTrue => exact (not_unexpected h).elim
  case isFalse hquote =>
    obtain ⟨⟨key, q₂⟩, hkey, h⟩ := Except.bind_eq_ok.mp h
    obtain ⟨x, hx, h₂⟩ := (string_eq_ok (not_not.mp hquote)).mp hkey
    dsimp only at h
    split at h
    case isTrue => exact (not_fail h).elim
    case isFalse hnew =>
      split at h
      case isTrue => exact (not_fail h).elim
      case isFalse hroom =>
        split at h
        case isTrue => exact (not_unexpected h).elim
        case isFalse hcolon =>
          obtain ⟨⟨v, q₃⟩, hv, h⟩ := Except.bind_eq_ok.mp h
          obtain ⟨y, hy, h₃, hmax, -⟩ := (hf _ _ _).mp hv
          obtain ⟨w', q, hw', ho⟩ := (behind_eq_ok apart_brace.toClosing).mp h
          obtain ⟨w₁, hw₁, hskip₁, -⟩ := takes_skipWs q₂
          obtain ⟨w₂, hw₂, hskip₂, -⟩ := takes_skipWs (q₂.skipWs.bump 1)
          have hitem := h₂.trans (hskip₁.trans ((takes_byte (not_not.mp hcolon)).trans
            (hskip₂.trans h₃)))
          simp only [Nat.zero_add] at hitem
          have hq : q.values ≤ max := by
            rcases ho with ⟨-, h₄⟩ | ⟨-, h₄⟩
            all_goals
              rw [h₄.values]
              exact hmax
          refine ⟨w, (key, v), _, w', q, hw, ⟨x, w₁, w₂, y, hx, hw₁, hw₂, hy, rfl⟩, hw',
            ⟨Bool.eq_false_of_not_eq_true hnew, Nat.le_of_not_lt hroom⟩, hq, ?_⟩
          exact ho.imp (And.imp_right (join_item h₁ hitem)) (And.imp_right (join_item h₁ hitem))

/-- Where a member is spelled, its key and its value are read. -/
theorem read_member (hf : Reads max f R) (hopens : Opens R 0x3a) (hw : Blank w)
    (hx : Quoted key x) (hw₁ : Blank w₁) (hw₂ : Blank w₂) (hy : R v y) (hw' : Blank w')
    (hmax : q.values ≤ max) (hc : b = 0x2c ∨ Apart b)
    (h : p.Takes (w ++ (x ++ (w₁ ++ 0x3a :: (w₂ ++ y)) ++ (w' ++ [b]))) v.count q) :
    ∃ q₂ q₃, p.skipWs.peek = some 0x22 ∧ p.skipWs.string = .ok (key, q₂) ∧
      q₂.skipWs.peek = some 0x3a ∧ f (q₂.skipWs.bump 1).skipWs = .ok (v, q₃) ∧
      q₃.Takes (w' ++ [b]) 0 q := by
  have hitem : Member R (key, v) (x ++ (w₁ ++ 0x3a :: (w₂ ++ y))) :=
    ⟨x, w₁, w₂, y, hx, hw₁, hw₂, hy, rfl⟩
  obtain ⟨q₁, q₃, h₁, h₂, h₃⟩ := split_item h
  rw [skipWs_of_opens opens_member hitem hw h₁ h₂]
  obtain ⟨z, hchars, hz⟩ := hx
  have hpeek : q₁.peek = some 0x22 := by
    rw [hz] at h₂
    exact h₂.peek
  rw [← Nat.zero_add v.count] at h₂
  obtain ⟨q₂, hkey, h₂⟩ := h₂.split
  rw [← Nat.zero_add v.count] at h₂
  obtain ⟨q₄, hskip₁, h₂⟩ := h₂.split
  rw [← Nat.zero_add v.count] at h₂
  obtain ⟨q₅, hcolon, h₂⟩ := Takes.split (x := [0x3a]) h₂
  rw [← Nat.zero_add v.count] at h₂
  obtain ⟨q₆, hskip₂, hvalue⟩ := h₂.split
  have hq₄ : q₂.skipWs = q₄ := by
    refine skipWs_eq hskip₁ hw₁ fun b hb ↦ ?_
    rw [hcolon.peek] at hb
    obtain rfl := Option.some.inj hb
    decide
  have hq₅ : q₄.bump 1 = q₅ := hcolon.bump_eq
  have hq₆ : q₅.skipWs = q₆ := skipWs_of_opens hopens hy hw₂ hskip₂ hvalue
  refine ⟨q₂, q₃, hpeek, (string_eq_ok hpeek).mpr ⟨x, ⟨z, hchars, hz⟩, hkey⟩, ?_, ?_, h₃⟩
  · rw [hq₄]
    exact hcolon.peek
  · rw [hq₄, hq₅, hq₆]
    refine (hf _ _ _).mpr ⟨y, hy, hvalue, ?_, ends_of_takes hw' hc h₃⟩
    rw [h₃.values] at hmax
    exact hmax

theorem readsItem_object (hf : Reads max f R) (hopens : Opens R 0x3a) :
    ReadsItem max 0x7d (objectStep limits f hashKey) (Member R) (·.2.count)
      (CanAdd limits hashKey) (fun m e ↦ m.push hashKey e.1 e.2) (.obj ·.members) := by
  intro m p o
  constructor
  · exact member_of_objectStep hf
  · rintro ⟨w, ⟨key, v⟩, _, w', q, hw, ⟨x, w₁, w₂, y, hx, hw₁, hw₂, hy, rfl⟩, hw', ⟨hnew, hroom⟩,
      hmax, ho⟩
    unfold objectStep
    dsimp only
    rcases ho with ⟨rfl, h⟩ | ⟨rfl, h⟩
    · obtain ⟨q₂, q₃, hpeek, hkey, hcolon, hvalue, h₃⟩ :=
        read_member hf hopens hw hx hw₁ hw₂ hy hw' hmax (.inl rfl) h
      rw [if_neg (not_not.mpr hpeek), hkey, Except.ok_bind]
      dsimp only
      rw [if_neg (Bool.eq_false_iff.mp hnew), if_neg (Nat.not_lt.mpr hroom),
        if_neg (not_not.mpr hcolon), hvalue, Except.ok_bind]
      exact (behind_eq_ok apart_brace.toClosing).mpr ⟨w', q, hw', .inl ⟨rfl, h₃⟩⟩
    · obtain ⟨q₂, q₃, hpeek, hkey, hcolon, hvalue, h₃⟩ :=
        read_member hf hopens hw hx hw₁ hw₂ hy hw' hmax (.inr apart_brace) h
      rw [if_neg (not_not.mpr hpeek), hkey, Except.ok_bind]
      dsimp only
      rw [if_neg (Bool.eq_false_iff.mp hnew), if_neg (Nat.not_lt.mpr hroom),
        if_neg (not_not.mpr hcolon), hvalue, Except.ok_bind]
      exact (behind_eq_ok apart_brace.toClosing).mpr ⟨w', q, hw', .inr ⟨rfl, h₃⟩⟩

/-! ## Nesting -/

/-- A value is counted before it is read. -/
theorem takes_counted : Takes { p with values := p.values + 1 } x n q ↔ p.Takes x (n + 1) q := by
  have hvalues : p.values + 1 + n = p.values + (n + 1) := by omega
  constructor
  · rintro ⟨hrest, hpos, hcount⟩
    exact ⟨hrest, hpos, hcount.trans hvalues⟩
  · rintro ⟨hrest, hpos, hcount⟩
    exact ⟨hrest, hpos, hcount.trans hvalues.symm⟩

/-- The first byte of a value. -/
def Starts (b : UInt8) : Prop :=
  b ∈ [0x7b, 0x5b, 0x22, 0x74, 0x66, 0x6e, 0x2d] ∨ isDigit b = true

theorem Starts.apart (h : Starts b) : isBlank b = false ∧ b ≠ 0x5d ∧ b ≠ 0x7d ∧ b ≠ 0x3a := by
  rcases h with h | h
  · simp only [List.mem_cons, List.not_mem_nil, or_false] at h
    rcases h with rfl | rfl | rfl | rfl | rfl | rfl | rfl <;> decide
  · have hne (k : UInt8) (hk : isDigit k = false) : b ≠ k := by
      rintro rfl
      rw [h] at hk
      cases hk
    refine ⟨?_, hne _ (by decide), hne _ (by decide), hne _ (by decide)⟩
    simp only [isBlank, Bool.or_eq_false_iff, beq_eq_false_iff_ne]
    exact ⟨⟨⟨hne _ (by decide), hne _ (by decide)⟩, hne _ (by decide)⟩, hne _ (by decide)⟩

theorem starts_spellsInt {k : Int64} (h : SpellsInt k x) : ∃ b t, x = b :: t ∧
    (b = 0x2d ∨ isDigit b = true) := by
  rcases h with ⟨rfl, -⟩ | ⟨rfl, -⟩
  · obtain ⟨hne, hdigits, -⟩ := canonical_decimal k.toInt.toNat
    obtain ⟨b, t, hbt⟩ := List.exists_cons_of_ne_nil hne
    rw [hbt] at hdigits ⊢
    exact ⟨b, t, rfl, .inr (hdigits b List.mem_cons_self)⟩
  · exact ⟨_, _, rfl, .inl rfl⟩

/-- A value that is spelled starts with one of the first bytes. -/
theorem starts_spells {k : Nat} (h : (dialect limits).Spells k v x) :
    ∃ b t, x = b :: t ∧ Starts b := by
  have hmem {b : UInt8} (hb : b ∈ [0x7b, 0x5b, 0x22, 0x74, 0x66, 0x6e, 0x2d]) : Starts b := .inl hb
  cases k with
  | zero => exact h.1.elim
  | succ k =>
    cases v with
    | null =>
      obtain rfl : x = _ := h
      exact ⟨_, _, rfl, hmem (by decide)⟩
    | bool c =>
      cases c
      · obtain rfl : x = _ := h
        exact ⟨_, _, rfl, hmem (by decide)⟩
      · obtain rfl : x = _ := h
        exact ⟨_, _, rfl, hmem (by decide)⟩
    | num n =>
      obtain ⟨b, t, rfl, hb⟩ := starts_spellsInt h
      refine ⟨b, t, rfl, hb.imp (fun hminus ↦ ?_) id⟩
      rw [hminus]
      decide
    | str s =>
      obtain ⟨-, y, -, rfl⟩ := h
      exact ⟨_, _, rfl, hmem (by decide)⟩
    | arr items =>
      obtain ⟨-, henclosed⟩ := h
      cases henclosed <;> exact ⟨_, _, rfl, hmem (by decide)⟩
    | obj members =>
      obtain ⟨-, -, -, henclosed⟩ := h
      cases henclosed <;> exact ⟨_, _, rfl, hmem (by decide)⟩

theorem opens_spells {k : Nat} (hclose : close = 0x5d ∨ close = 0x7d ∨ close = 0x3a) :
    Opens ((dialect limits).Spells k) close := by
  intro v x h
  obtain ⟨b, t, rfl, hb⟩ := starts_spells h
  obtain ⟨hblank, hbracket, hbrace, hcolon⟩ := hb.apart
  refine ⟨b, t, rfl, hblank, ?_⟩
  rcases hclose with rfl | rfl | rfl
  · exact hbracket
  · exact hbrace
  · exact hcolon

theorem array_eq_ok (hf : Reads limits.maxValues f R) (hopens : Opens R 0x5d)
    (hp : p.peek = some 0x5b) (hmax : p.values ≤ limits.maxValues) :
    p.array limits f = .ok (v, q) ↔ ∃ items x, v = .arr items ∧ items.length ≤ limits.maxMembers ∧
      Enclosed R 0x5b 0x5d items x ∧ p.Takes x (Json.countItems items) q ∧
      q.values ≤ limits.maxValues := by
  unfold array
  rw [(readsItem_array hf hopens).enclosed apart_bracket.toClosing hopens hp hmax]
  refine exists_congr fun l ↦ exists_congr fun x ↦ ?_
  have hlen : (l = [] ∨ ([] : List Json).length + l.length ≤ limits.maxMembers) ↔
      l.length ≤ limits.maxMembers := by
    rw [List.length_nil, Nat.zero_add]
    refine or_iff_right_of_imp fun hnil ↦ ?_
    rw [hnil]
    exact Nat.zero_le _
  rw [foldl_concat, List.nil_append, canAll_items, hlen, countItems_eq]

theorem object_eq_ok (hf : Reads limits.maxValues f R) (hopens : Opens R 0x3a)
    (hp : p.peek = some 0x7b) (hmax : p.values ≤ limits.maxValues) :
    p.object limits f hashKey = .ok (v, q) ↔ ∃ members x, v = .obj members ∧
      members.length ≤ limits.maxMembers ∧ (members.map (·.1)).Nodup ∧
      Enclosed (Member R) 0x7b 0x7d members x ∧ p.Takes x (Json.countMembers members) q ∧
      q.values ≤ limits.maxValues := by
  unfold object
  have hitem : ReadsItem limits.maxValues 0x7d (objectStep limits f hashKey) (Member R) (·.2.count)
      (CanAdd limits hashKey) (fun m e ↦ m.push hashKey e.1 e.2) (.obj ·.members) :=
    readsItem_object hf hopens
  have henclosed := hitem.enclosed (s := ⟨[], none⟩) (v := v) (q := q) apart_brace.toClosing
    opens_member hp hmax
  rw [henclosed]
  refine exists_congr fun l ↦ exists_congr fun x ↦ ?_
  have hhashed : Members.Hashed hashKey ⟨[], none⟩ := nofun
  have hlen : (l = [] ∨ ([] : List (Text × Json)).length + l.length ≤ limits.maxMembers) ↔
      l.length ≤ limits.maxMembers := by
    rw [List.length_nil, Nat.zero_add]
    refine or_iff_right_of_imp fun hnil ↦ ?_
    rw [hnil]
    exact Nat.zero_le _
  have hkeys : (∀ k ∈ l.map (·.1), k ∉ ([] : List (Text × Json)).map (·.1)) ↔ True :=
    iff_true_intro fun _ _ ↦ List.not_mem_nil
  rw [foldl_push_members, List.nil_append, canAll_members hhashed, hkeys, and_true, hlen,
    countMembers_eq]
  tauto

theorem spells_of_valueAt {k : Nat} (hf : Reads limits.maxValues f ((dialect limits).Spells k))
    (hp : p.peek = some b) (hmax : p.values ≤ limits.maxValues)
    (h : p.valueAt limits f hashKey b = .ok (v, q)) :
    ∃ n x, v.count = n + 1 ∧ (dialect limits).Spells (k + 1) v x ∧ p.Takes x n q ∧
      q.values ≤ limits.maxValues ∧ Ends v q.rest := by
  have hscalar {x : Bytes} (h : p.Takes x 0 q) : q.values ≤ limits.maxValues := by
    rw [h.values]
    exact hmax
  unfold valueAt at h
  split at h
  case isTrue hb =>
    subst hb
    obtain ⟨l, x, rfl, hlen, hnodup, hx, htakes, hq⟩ :=
      (object_eq_ok hf (opens_spells (.inr (.inr rfl))) hp hmax).mp h
    exact ⟨_, x, rfl, ⟨hlen, hnodup, fun _ _ ↦ trivial, hx⟩, htakes, hq, trivial⟩
  case isFalse =>
    split at h
    case isTrue hb =>
      subst hb
      obtain ⟨l, x, rfl, hlen, hx, htakes, hq⟩ :=
        (array_eq_ok hf (opens_spells (.inl rfl)) hp hmax).mp h
      exact ⟨_, x, rfl, ⟨hlen, hx⟩, htakes, hq, trivial⟩
    case isFalse =>
      split at h
      case isTrue hb =>
        subst hb
        obtain ⟨⟨s, r⟩, hs, h⟩ := Except.bind_eq_ok.mp h
        obtain ⟨x, hx, htakes⟩ := (string_eq_ok hp).mp hs
        cases h
        exact ⟨0, x, rfl, ⟨trivial, hx⟩, htakes, hscalar htakes, trivial⟩
      case isFalse =>
        split at h
        case isTrue =>
          obtain ⟨rfl, htakes⟩ := literal_eq_ok.mp h
          exact ⟨0, _, rfl, rfl, htakes, hscalar htakes, trivial⟩
        case isFalse =>
          split at h
          case isTrue =>
            obtain ⟨rfl, htakes⟩ := literal_eq_ok.mp h
            exact ⟨0, _, rfl, rfl, htakes, hscalar htakes, trivial⟩
          case isFalse =>
            split at h
            case isTrue =>
              obtain ⟨rfl, htakes⟩ := literal_eq_ok.mp h
              exact ⟨0, _, rfl, rfl, htakes, hscalar htakes, trivial⟩
            case isFalse =>
              split at h
              case isTrue =>
                obtain ⟨n, x, rfl, hx, htakes, hstops⟩ := number_eq_ok.mp h
                exact ⟨0, x, rfl, hx, htakes, hscalar htakes, hstops⟩
              case isFalse => exact (not_unexpected h).elim

theorem valueAt_of_spells {k n : Nat} {x : Bytes}
    (hf : Reads limits.maxValues f ((dialect limits).Spells k)) (hp : p.peek = some b)
    (hmax : p.values ≤ limits.maxValues) (hn : v.count = n + 1)
    (hx : (dialect limits).Spells (k + 1) v x) (htakes : p.Takes x n q)
    (hq : q.values ≤ limits.maxValues) (hends : Ends v q.rest) :
    p.valueAt limits f hashKey b = .ok (v, q) := by
  unfold valueAt
  have hfirst {b' : UInt8} {t : Bytes} (h : x = b' :: t) : b = b' := by
    rw [h] at htakes
    exact Option.some.inj (hp.symm.trans htakes.peek)
  cases v with
  | null =>
    obtain rfl : x = _ := hx
    obtain rfl : 0 = n := Nat.succ.inj hn
    obtain rfl := hfirst rfl
    exact literal_eq_ok.mpr ⟨rfl, htakes⟩
  | bool c =>
    obtain rfl : 0 = n := Nat.succ.inj hn
    cases c
    · obtain rfl : x = _ := hx
      obtain rfl := hfirst rfl
      exact literal_eq_ok.mpr ⟨rfl, htakes⟩
    · obtain rfl : x = _ := hx
      obtain rfl := hfirst rfl
      exact literal_eq_ok.mpr ⟨rfl, htakes⟩
  | num k =>
    obtain rfl : 0 = n := Nat.succ.inj hn
    obtain ⟨b', t, hxt, hb⟩ := starts_spellsInt hx
    obtain rfl := hfirst hxt
    have hne (c : UInt8) (hc : c ≠ 0x2d) (hc' : isDigit c = false) : b ≠ c := by
      rintro rfl
      rcases hb with hb | hb
      · exact hc hb
      · rw [hb] at hc'
        cases hc'
    rw [if_neg (hne _ (by decide) (by decide)), if_neg (hne _ (by decide) (by decide)),
      if_neg (hne _ (by decide) (by decide)), if_neg (hne _ (by decide) (by decide)),
      if_neg (hne _ (by decide) (by decide)), if_neg (hne _ (by decide) (by decide)), if_pos hb,
      number_eq_ok]
    exact ⟨k, x, rfl, hx, htakes, hends⟩
  | str s =>
    obtain rfl : 0 = n := Nat.succ.inj hn
    obtain ⟨-, hquoted⟩ := hx
    obtain ⟨y, hy, hxy⟩ := hquoted
    obtain rfl := hfirst hxy
    have hread := (string_eq_ok hp).mpr ⟨x, ⟨y, hy, hxy⟩, htakes⟩
    rw [if_neg (by decide), if_neg (by decide), if_pos rfl, hread]
    rfl
  | arr items =>
    obtain rfl : Json.countItems items = n := Nat.succ.inj hn
    obtain ⟨hlen, henclosed⟩ := hx
    have hb : b = 0x5b := by
      cases henclosed <;> exact hfirst rfl
    subst hb
    rw [if_neg (by decide), if_pos rfl, array_eq_ok hf (opens_spells (.inl rfl)) hp hmax]
    exact ⟨items, x, rfl, hlen, henclosed, htakes, hq⟩
  | obj members =>
    obtain rfl : Json.countMembers members = n := Nat.succ.inj hn
    obtain ⟨hlen, hnodup, -, henclosed⟩ := hx
    have hb : b = 0x7b := by
      cases henclosed <;> exact hfirst rfl
    subst hb
    rw [if_pos rfl, object_eq_ok hf (opens_spells (.inr (.inr rfl))) hp hmax]
    exact ⟨members, x, rfl, hlen, hnodup, henclosed, htakes, hq⟩

/-- What is read at the first byte of a value, which was counted. -/
theorem valueAt_eq_ok {k : Nat} (hf : Reads limits.maxValues f ((dialect limits).Spells k))
    (hp : p.peek = some b) (hmax : p.values ≤ limits.maxValues) :
    p.valueAt limits f hashKey b = .ok (v, q) ↔ ∃ n x, v.count = n + 1 ∧
      (dialect limits).Spells (k + 1) v x ∧ p.Takes x n q ∧ q.values ≤ limits.maxValues ∧
      Ends v q.rest := by
  refine ⟨spells_of_valueAt hf hp hmax, ?_⟩
  rintro ⟨n, x, hn, hx, htakes, hq, hends⟩
  exact valueAt_of_spells hf hp hmax hn hx htakes hq hends

theorem count_pos (v : Json) : ∃ n, v.count = n + 1 := by
  cases v <;> exact ⟨_, rfl⟩

/-- `value` reads the values of the dialect, up to the nesting that is left. -/
theorem reads_value (k : Nat) :
    Reads limits.maxValues (value limits hashKey k) ((dialect limits).Spells k) := by
  induction k with
  | zero =>
    intro p v q
    constructor
    · intro h
      exact (not_fail h).elim
    · rintro ⟨x, ⟨hbottom, -⟩, -⟩
      exact hbottom.elim
  | succ k ih =>
    intro p v q
    rw [value]
    unfold countValue
    constructor
    · intro h
      split at h
      case isTrue => cases h
      case isFalse hcount =>
        rw [Except.ok_bind] at h
        split at h
        case h_1 => exact (not_fail h).elim
        case h_2 b hb =>
          obtain ⟨n, x, hn, hx, htakes, hq, hends⟩ :=
            (valueAt_eq_ok ih hb (Nat.le_of_not_lt hcount)).mp h
          rw [takes_counted, ← hn] at htakes
          exact ⟨x, hx, htakes, hq, hends⟩
    · rintro ⟨x, hx, htakes, hq, hends⟩
      obtain ⟨n, hn⟩ := count_pos v
      obtain ⟨b, t, hbt, -⟩ := starts_spells hx
      rw [hn, ← takes_counted] at htakes
      have hle : p.values + 1 ≤ limits.maxValues := by
        have hvalues := htakes.values
        dsimp only at hvalues
        omega
      have hb : peek { p with values := p.values + 1 } = some b := by
        rw [hbt] at htakes
        exact htakes.peek
      rw [if_neg (Nat.not_lt.mpr hle), Except.ok_bind]
      rw [hb]
      exact (valueAt_eq_ok ih hb hle).mpr ⟨n, x, hn, hx, htakes, hq, hends⟩

end Parser

/-- An input is a value between blanks. -/
def IsJson (limits : JsonLimits) (input : Bytes) (v : Json) : Prop :=
  ∃ w x w', Blank w ∧ Blank w' ∧ (dialect limits).Spells (limits.maxDepth + 1) v x ∧
    input = w ++ (x ++ w')

section

variable {hashKey : Text → UInt64} {input : Bytes} {limits : JsonLimits} {v : Json}

theorem isJson_of_parse (h : parse hashKey input limits = .ok v) :
    input.length ≤ limits.maxBytes ∧ v.count ≤ limits.maxValues ∧ IsJson limits input v := by
  unfold parse at h
  split at h
  case isTrue => cases h
  case isFalse hlen =>
    obtain ⟨⟨u, q⟩, hu, h⟩ := Except.bind_eq_ok.mp h
    dsimp only at h
    split at h
    case isTrue => exact (Parser.not_fail h).elim
    case isFalse hend =>
      cases h
      obtain ⟨w, hw, h₁, -⟩ := Parser.takes_skipWs ⟨input, 0, 0⟩
      obtain ⟨x, hx, h₂, hmax, -⟩ := (Parser.reads_value (limits.maxDepth + 1) _ _ _).mp hu
      obtain ⟨w', hw', h₃, -⟩ := Parser.takes_skipWs q
      have hall := h₁.trans (h₂.trans h₃)
      have hcount := (h₁.trans h₂).values
      rw [Nat.zero_add, Nat.zero_add] at hcount
      refine ⟨Nat.le_of_not_lt hlen, hcount ▸ hmax, w, x, w', hw, hw', hx, ?_⟩
      have hrest := hall.rest
      rw [not_not.mp hend, List.append_nil] at hrest
      exact hrest

theorem parse_of_isJson (hlen : input.length ≤ limits.maxBytes) (hcount : v.count ≤ limits.maxValues)
    (h : IsJson limits input v) : parse hashKey input limits = .ok v := by
  obtain ⟨w, x, w', hw, hw', hx, rfl⟩ := h
  unfold parse
  have hall : Parser.Takes ⟨w ++ (x ++ w'), 0, 0⟩ (w ++ (x ++ w')) (0 + (v.count + 0))
      ⟨[], (w ++ (x ++ w')).length, v.count⟩ :=
    ⟨(List.append_nil _).symm, (Nat.zero_add _).symm, (by omega : v.count = 0 + (0 + (v.count + 0)))⟩
  obtain ⟨q₁, h₁, h⟩ := hall.split
  obtain ⟨q₂, h₂, h₃⟩ := h.split
  have hskip : (⟨w ++ (x ++ w'), 0, 0⟩ : Parser).skipWs = q₁ :=
    Parser.skipWs_of_opens (Parser.opens_spells (.inl rfl)) hx hw h₁ h₂
  have hq₂ : q₂.values = v.count := h₃.values.symm
  have hends : Parser.Ends v q₂.rest := by
    have hrest := h₃.rest
    rw [List.append_nil] at hrest
    rw [hrest]
    cases w' with
    | nil =>
      cases v with
      | num =>
        rintro b ⟨⟩
      | _ => trivial
    | cons b w' =>
      have hblank := hw' b List.mem_cons_self
      cases v with
      | num =>
        intro b' hb'
        obtain rfl := Option.some.inj hb'
        simp only [isBlank, Bool.or_eq_true, beq_iff_eq] at hblank
        rcases hblank with ((rfl | rfl) | rfl) | rfl <;> decide
      | _ => trivial
  have hvalue : value limits hashKey (limits.maxDepth + 1) q₁ = .ok (v, q₂) :=
    (Parser.reads_value _ _ _ _).mpr ⟨x, hx, h₂, hq₂.trans_le hcount, hends⟩
  have hskip' : q₂.skipWs = ⟨[], (w ++ (x ++ w')).length, v.count⟩ :=
    Parser.skipWs_eq h₃ hw' nofun
  rw [if_neg (Nat.not_lt.mpr hlen)]
  dsimp only
  rw [hskip, hvalue, Except.ok_bind]
  dsimp only
  rw [hskip', if_neg (not_not.mpr rfl)]
  rfl

/-- The parser accepts the values of its dialect, within the limits and with blanks around them, and
nothing else. -/
theorem parse_ok_iff_isJson : parse hashKey input limits = .ok v ↔
    input.length ≤ limits.maxBytes ∧ v.count ≤ limits.maxValues ∧ IsJson limits input v := by
  constructor
  · exact isJson_of_parse
  · rintro ⟨hlen, hcount, h⟩
    exact parse_of_isJson hlen hcount h

end

/-! ## What is written is read back -/

open String (utf8EncodeChar)

variable {c : Char} {n : Nat} {v : Json} {limits : JsonLimits}

theorem hexValue_digitChar (h : n < 16) :
    ∃ b, utf8EncodeChar n.digitChar = [b] ∧ hexValue b = some n := by
  interval_cases n <;> exact ⟨_, rfl, by decide⟩

theorem hex4_hex4Text (h : n < 65536) : Hex4 n (Text.asBytes (hex4Text n)) := by
  obtain ⟨b₁, h₁, hv₁⟩ := hexValue_digitChar (Nat.mod_lt (n / 4096) (by decide : 16 > 0))
  obtain ⟨b₂, h₂, hv₂⟩ := hexValue_digitChar (Nat.mod_lt (n / 256) (by decide : 16 > 0))
  obtain ⟨b₃, h₃, hv₃⟩ := hexValue_digitChar (Nat.mod_lt (n / 16) (by decide : 16 > 0))
  obtain ⟨b₄, h₄, hv₄⟩ := hexValue_digitChar (Nat.mod_lt n (by decide : 16 > 0))
  have hbytes : Text.asBytes (hex4Text n) = [b₁, b₂, b₃, b₄] := by
    simp only [hex4Text, Text.asBytes_cons, Text.asBytes_nil, h₁, h₂, h₃, h₄, List.cons_append,
      List.nil_append]
  have hvalue : ((n / 4096 % 16 * 16 + n / 256 % 16) * 16 + n / 16 % 16) * 16 + n % 16 = n := by
    omega
  have hmk := Hex4.mk hv₁ hv₂ hv₃ hv₄
  rwa [hvalue, ← hbytes] at hmk

/-- A character is written as a piece of a string. -/
theorem piece_writeChar (c : Char) : Piece c (Text.asBytes (writeChar c)) := by
  have hback : utf8EncodeChar (Char.ofNat 0x5c) = [0x5c] := by decide
  have hshort {code : Nat} {e : UInt8} {d : Char} (hc : c.toNat = code) (hd : utf8EncodeChar d = [e])
      (he : shortEscape e = some (Char.ofNat code)) :
      Piece c (Text.asBytes [Char.ofNat 0x5c, d]) := by
    have hbytes : Text.asBytes [Char.ofNat 0x5c, d] = [0x5c, e] := by
      simp only [Text.asBytes_cons, Text.asBytes_nil, hback, hd, List.cons_append, List.nil_append]
    rw [hbytes]
    refine .short ?_
    rw [he, ← hc, Char.ofNat_toNat]
  unfold writeChar
  split
  case isTrue h =>
    have hc : c = Char.ofNat c.toNat := (Char.ofNat_toNat c).symm
    rcases h with h | h
    · refine hshort (e := 0x22) h ?_ (by decide)
      rw [hc, h]
      decide
    · refine hshort (e := 0x5c) h ?_ (by decide)
      rw [hc, h]
      decide
  case isFalse hplain =>
    split
    case isTrue h => exact hshort (e := 0x6e) h (by decide) (by decide)
    case isFalse =>
      split
      case isTrue h => exact hshort (e := 0x72) h (by decide) (by decide)
      case isFalse =>
        split
        case isTrue h => exact hshort (e := 0x74) h (by decide) (by decide)
        case isFalse =>
          split
          case isTrue h => exact hshort (e := 0x62) h (by decide) (by decide)
          case isFalse =>
            split
            case isTrue h => exact hshort (e := 0x66) h (by decide) (by decide)
            case isFalse =>
              split
              case isTrue h =>
                have hlt : c.toNat < 65536 := by omega
                have hbytes : Text.asBytes (Char.ofNat 0x5c :: 'u' :: hex4Text c.toNat) =
                    0x5c :: 0x75 :: Text.asBytes (hex4Text c.toNat) := by
                  rw [Text.asBytes_cons, Text.asBytes_cons, hback]
                  rfl
                rw [hbytes]
                exact .unicode (.unit (hex4_hex4Text hlt))
              case isFalse h =>
                obtain ⟨hquote, hback⟩ := not_or.mp hplain
                rw [Text.asBytes_cons, Text.asBytes_nil, List.append_nil]
                exact .plain (Nat.le_of_not_lt (not_or.mp h).1) hquote hback

theorem quoted_writeString (s : Text) : Quoted s (Text.asBytes (writeString s)) := by
  have hchars : Chars s (Text.asBytes (s.flatMap writeChar)) := by
    induction s with
    | nil => exact .nil
    | cons c s ih =>
      rw [List.flatMap_cons, Text.asBytes_append]
      exact .cons (piece_writeChar c) ih
  refine ⟨_, hchars, ?_⟩
  rw [writeString, Text.asBytes_cons, Text.asBytes_append]
  rfl

theorem spellsInt_writeInt (n : Int64) : Parser.SpellsInt n (Text.asBytes (writeInt n)) := by
  unfold writeInt
  split
  case isTrue hneg => exact .inr ⟨rfl, le_of_lt hneg⟩
  case isFalse hneg => exact .inl ⟨rfl, Int.not_lt.mp hneg⟩

theorem items_writeItems {R : Json → Bytes → Prop} {items : List Json}
    (h : ∀ v ∈ items, R v (Text.asBytes (write v))) (hne : items ≠ []) :
    Items R items (Text.asBytes (writeItems items)) := by
  induction items with
  | nil => exact absurd rfl hne
  | cons v items ih =>
    obtain ⟨hv, hrest⟩ := List.forall_mem_cons.mp h
    cases items with
    | nil =>
      have hone := Items.one blank_nil hv blank_nil
      rwa [List.nil_append, List.append_nil] at hone
    | cons w items =>
      have hcons := Items.cons blank_nil hv blank_nil (ih hrest (List.cons_ne_nil _ _))
      rw [writeItems, Text.asBytes_append, Text.asBytes_cons]
      exact hcons

theorem items_writeMembers {R : Json → Bytes → Prop} {members : List (Text × Json)}
    (h : ∀ m ∈ members, R m.2 (Text.asBytes (write m.2))) (hne : members ≠ []) :
    Items (Member R) members (Text.asBytes (writeMembers members)) := by
  have hmember (key : Text) {v : Json} (hv : R v (Text.asBytes (write v))) :
      Member R (key, v) (Text.asBytes (writeString key ++ ':' :: write v)) := by
    refine ⟨_, [], [], _, quoted_writeString key, blank_nil, blank_nil, hv, ?_⟩
    rw [Text.asBytes_append, Text.asBytes_cons]
    rfl
  induction members with
  | nil => exact absurd rfl hne
  | cons m members ih =>
    obtain ⟨key, v⟩ := m
    obtain ⟨hv, hrest⟩ := List.forall_mem_cons.mp h
    cases members with
    | nil =>
      have hone := Items.one blank_nil (hmember key hv) blank_nil
      rwa [List.nil_append, List.append_nil] at hone
    | cons m members =>
      have hcons := Items.cons blank_nil (hmember key hv) blank_nil
        (ih hrest (List.cons_ne_nil _ _))
      have hwrite : writeMembers ((key, v) :: m :: members) =
          (writeString key ++ ':' :: write v) ++ ',' :: writeMembers (m :: members) := by
        rw [writeMembers, List.append_assoc]
        rfl
      rw [hwrite, Text.asBytes_append, Text.asBytes_cons]
      exact hcons

/-- What is written spells the value. -/
theorem spells_write {k : Nat} (h : (dialect limits).Within k v) :
    (dialect limits).Spells k v (Text.asBytes (write v)) := by
  induction k generalizing v with
  | zero =>
    cases v with
    | str => exact h.1.elim
    | _ => exact h.elim
  | succ k ih =>
    cases v with
    | null => exact (by decide : Text.asBytes ['n', 'u', 'l', 'l'] = [0x6e, 0x75, 0x6c, 0x6c])
    | bool b =>
      cases b
      · exact (by decide : Text.asBytes ['f', 'a', 'l', 's', 'e'] = [0x66, 0x61, 0x6c, 0x73, 0x65])
      · exact (by decide : Text.asBytes ['t', 'r', 'u', 'e'] = [0x74, 0x72, 0x75, 0x65])
    | num n => exact spellsInt_writeInt n
    | str s => exact ⟨trivial, quoted_writeString s⟩
    | arr items =>
      obtain ⟨hlen, hall⟩ := h
      refine ⟨hlen, ?_⟩
      rw [write, Text.asBytes_cons, Text.asBytes_append]
      cases items with
      | nil => exact .nil blank_nil
      | cons v items =>
        exact .items (items_writeItems (fun v hv ↦ ih (hall v hv)) (List.cons_ne_nil _ _))
    | obj members =>
      obtain ⟨hlen, hnodup, hall⟩ := h
      refine ⟨hlen, hnodup, fun m hm ↦ (hall m hm).1, ?_⟩
      rw [write, Text.asBytes_cons, Text.asBytes_append]
      cases members with
      | nil => exact .nil blank_nil
      | cons m members =>
        exact .items (items_writeMembers (fun m hm ↦ ih (hall m hm).2) (List.cons_ne_nil _ _))

theorem isJson_write (h : (dialect limits).Within (limits.maxDepth + 1) v) :
    IsJson limits (Text.asBytes (write v)) v :=
  ⟨[], _, [], blank_nil, blank_nil, spells_write h, (List.append_nil _).symm⟩

/-- A value within the limits is read back from what is written of it. -/
theorem parse_write (hashKey : Text → UInt64) (hwithin : (dialect limits).Within (limits.maxDepth + 1) v)
    (hcount : v.count ≤ limits.maxValues)
    (hlen : (Text.asBytes (write v)).length ≤ limits.maxBytes) :
    parse hashKey (Text.asBytes (write v)) limits = .ok v :=
  parse_of_isJson hlen hcount (isJson_write hwithin)

/-- An array of a negative number and a string with a quote in it, at the limits of the server. -/
theorem parse_write_array :
    parse (fun _ ↦ 0) (Text.asBytes (write (.arr [.num (-5), .str [Char.ofNat 0x22, 'a']])))
      JsonLimits.request = .ok (.arr [.num (-5), .str [Char.ofNat 0x22, 'a']]) :=
  parse_write _ ⟨by decide, fun v hv ↦ by rcases List.mem_pair.mp hv with rfl | rfl <;> trivial⟩
    (by decide) (by decide)

end Plaine.Rpc

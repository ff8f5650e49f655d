import Plaine.Lib.Bytes
import Plaine.Lib.Result

/-!
# Readers

A reader takes a value off the front of a byte string and leaves the rest, or fails.  What a reader
accepts is stated as an equivalence: it reads `x` and leaves `rest` if and only if the string is the
image of `x` followed by `rest`.  The equivalences compose along `do` blocks, so that a decoder and
its encoder are compared by rewriting.
-/

namespace Plaine.Lib

/-- The bytes of an array are those of the array. -/
theorem Arr.ofSlice_bytes {n : Nat} (a : Arr n) : Arr.ofSlice n 0 a.bytes = a := by
  have h := Arr.ofSlice_append a [] [] rfl
  rwa [List.nil_append, List.append_nil] at h

/-- A reader. -/
abbrev Reader (ε α : Type) : Type := StateT Bytes (Except ε) α

namespace Reader

variable {ε α β : Type} {p : Reader ε α} {b rest : Bytes} {x : α} {n k : Nat}

/-- The next `n` bytes. -/
def take (short : Nat → Nat → ε) (n : Nat) : Reader ε Bytes := fun b ↦
  if b.length < n then .error (short n b.length) else .ok (b.take n, b.drop n)

/-- A check that `n` bytes are left. -/
def need (short : Nat → Nat → ε) (n : Nat) : Reader ε Unit := fun b ↦
  if b.length < n then .error (short n b.length) else .ok ((), b)

/-- A check that nothing is left. -/
def finish (trailing : ε) : Reader ε Unit := fun b ↦ if b = [] then .ok ((), b) else .error trailing

/-- A failure. -/
def fail (e : ε) : Reader ε α := fun _ ↦ .error e

/-- A check. -/
def require (c : Prop) [Decidable c] (e : ε) : Reader ε Unit := if c then pure () else fail e

/-- A value a check has to find. -/
def ofOption (e : ε) : Option α → Reader ε α
  | some a => pure a
  | none => fail e

/-- The same thing `n` times. -/
def times (p : Reader ε α) : Nat → Reader ε (List α)
  | 0 => pure []
  | n + 1 => do
    let a ← p
    return a :: (← times p n)

/-! ## What they accept -/

@[simp] theorem pure_eq_ok {y : α} :
    (pure x : Reader ε α) b = .ok (y, rest) ↔ x = y ∧ b = rest := by
  show Except.ok (x, b) = _ ↔ _
  rw [Except.ok.injEq, Prod.mk.injEq]

@[simp] theorem bind_eq_ok {f : α → Reader ε β} {y : β} :
    (p >>= f) b = .ok (y, rest) ↔ ∃ a mid, p b = .ok (a, mid) ∧ f a mid = .ok (y, rest) := by
  show (p b >>= fun r ↦ f r.1 r.2) = _ ↔ _
  rw [Except.bind_eq_ok]
  constructor
  · rintro ⟨⟨a, mid⟩, hp, hf⟩
    exact ⟨a, mid, hp, hf⟩
  · rintro ⟨a, mid, hp, hf⟩
    exact ⟨(a, mid), hp, hf⟩

@[simp] theorem map_eq_ok {f : α → β} {y : β} :
    (f <$> p) b = .ok (y, rest) ↔ ∃ a, p b = .ok (a, rest) ∧ f a = y := by
  rw [map_eq_pure_bind, bind_eq_ok]
  simp only [pure_eq_ok]
  constructor
  · rintro ⟨a, _, hp, hf, rfl⟩
    exact ⟨a, hp, hf⟩
  · rintro ⟨a, hp, hf⟩
    exact ⟨a, rest, hp, hf, rfl⟩

@[simp] theorem fail_eq_ok {e : ε} : (fail e : Reader ε α) b = .ok (x, rest) ↔ False := by
  constructor
  · rintro ⟨⟩
  · exact False.elim

@[simp] theorem require_eq_ok {c : Prop} [Decidable c] {e : ε} {u : Unit} :
    require c e b = .ok (u, rest) ↔ c ∧ b = rest := by
  unfold require
  split
  case isTrue h => rw [pure_eq_ok, and_iff_right rfl, and_iff_right h]
  case isFalse h => exact iff_of_false (fun hfail ↦ fail_eq_ok.mp hfail) fun hc ↦ h hc.1

@[simp] theorem ofOption_eq_ok {e : ε} {o : Option α} :
    ofOption e o b = .ok (x, rest) ↔ o = some x ∧ b = rest := by
  cases o with
  | none =>
    rw [ofOption, fail_eq_ok]
    constructor
    · exact False.elim
    · rintro ⟨⟨⟩, -⟩
  | some a => rw [ofOption, pure_eq_ok, Option.some.injEq]

@[simp] theorem need_eq_ok {short : Nat → Nat → ε} {u : Unit} :
    need short n b = .ok (u, rest) ↔ n ≤ b.length ∧ b = rest := by
  unfold need
  split
  case isTrue h =>
    refine iff_of_false (fun h ↦ by cases h) fun hle ↦ ?_
    exact h.not_ge hle.1
  case isFalse h =>
    rw [Except.ok.injEq, Prod.mk.injEq, and_iff_right rfl, and_iff_right (Nat.le_of_not_lt h)]

@[simp] theorem finish_eq_ok {e : ε} {u : Unit} :
    finish e b = .ok (u, rest) ↔ b = [] ∧ rest = [] := by
  unfold finish
  split
  case isTrue h =>
    rw [Except.ok.injEq, Prod.mk.injEq, and_iff_right rfl, and_iff_right h, h, eq_comm]
  case isFalse h => exact iff_of_false (fun h ↦ by cases h) fun hb ↦ h hb.1

@[simp] theorem take_eq_ok {short : Nat → Nat → ε} {s : Bytes} :
    take short n b = .ok (s, rest) ↔ s.length = n ∧ b = s ++ rest := by
  unfold take
  split
  case isTrue h =>
    refine iff_of_false (fun h ↦ by cases h) ?_
    rintro ⟨rfl, rfl⟩
    exact h.not_ge (List.length_append.symm ▸ Nat.le_add_right _ _)
  case isFalse h =>
    rw [Except.ok.injEq, Prod.mk.injEq]
    constructor
    · rintro ⟨rfl, rfl⟩
      exact ⟨List.length_take_of_le (Nat.le_of_not_lt h), (List.take_append_drop n b).symm⟩
    · rintro ⟨rfl, rfl⟩
      exact ⟨List.take_left, List.drop_left⟩

/-- A loop reads what it would read one after the other. -/
theorem times_eq_ok {enc : α → Bytes} {D : α → Prop} {l : List α}
    (hp : ∀ b a mid, p b = .ok (a, mid) ↔ D a ∧ b = enc a ++ mid) :
    times p n b = .ok (l, rest) ↔ l.length = n ∧ (∀ a ∈ l, D a) ∧ b = l.flatMap enc ++ rest := by
  induction n generalizing b l rest with
  | zero =>
    rw [times, pure_eq_ok]
    constructor
    · rintro ⟨rfl, rfl⟩
      exact ⟨rfl, fun _ h ↦ (by cases h), rfl⟩
    · rintro ⟨hlen, -, rfl⟩
      obtain rfl := List.eq_nil_of_length_eq_zero hlen
      exact ⟨rfl, rfl⟩
  | succ n ih =>
    rw [times, bind_eq_ok]
    simp only [bind_eq_ok, pure_eq_ok, hp, ih]
    constructor
    · rintro ⟨a, _, ⟨ha, rfl⟩, l', _, ⟨rfl, hl', rfl⟩, rfl, rfl⟩
      exact ⟨rfl, List.forall_mem_cons.mpr ⟨ha, hl'⟩, by rw [List.flatMap_cons, List.append_assoc]⟩
    · rintro ⟨hlen, hl, rfl⟩
      rcases l with _ | ⟨a, l⟩
      · cases hlen
      · obtain ⟨ha, hl⟩ := List.forall_mem_cons.mp hl
        exact ⟨a, l.flatMap enc ++ rest, ⟨ha, by rw [List.flatMap_cons, List.append_assoc]⟩, l, rest,
          ⟨Nat.succ.inj hlen, hl, rfl⟩, rfl, rfl⟩

/-- Images of one size. -/
theorem length_flatMap {enc : α → Bytes} {size : Nat}
    (henc : ∀ a, (enc a).length = size) (l : List α) :
    (l.flatMap enc).length = l.length * size := by
  induction l with
  | nil => exact (Nat.zero_mul size).symm
  | cons a l ih =>
    rw [List.flatMap_cons, List.length_append, henc, ih, List.length_cons, Nat.succ_mul, Nat.add_comm]

/-! ## Numbers and arrays -/

/-- A little-endian number of `k` bytes, as `f` makes it a value. -/
def number (short : Nat → Nat → ε) (k : Nat) (f : Nat → α) : Reader ε α :=
  (fun s ↦ f (ofLe s)) <$> take short k

/-- `u8`. -/
def u8 (short : Nat → Nat → ε) : Reader ε UInt8 := number short 1 .ofNat

/-- `u16`. -/
def u16 (short : Nat → Nat → ε) : Reader ε UInt16 := number short 2 .ofNat

/-- `u32`. -/
def u32 (short : Nat → Nat → ε) : Reader ε UInt32 := number short 4 .ofNat

/-- `u64`. -/
def u64 (short : Nat → Nat → ε) : Reader ε UInt64 := number short 8 .ofNat

/-- `u128`. -/
def u128 (short : Nat → Nat → ε) : Reader ε (BitVec 128) := number short 16 (.ofNat 128)

/-- `arr`. -/
def arr (short : Nat → Nat → ε) (n : Nat) : Reader ε (Arr n) := (Arr.ofSlice n 0 ·) <$> take short n

variable {short : Nat → Nat → ε}

theorem number_eq_ok {f : Nat → α} {g : α → Nat} (hfg : ∀ a, f (g a) = a)
    (hgf : ∀ m < 256 ^ k, g (f m) = m) (hg : ∀ a, g a < 256 ^ k) :
    number short k f b = .ok (x, rest) ↔ b = leBytes k (g x) ++ rest := by
  rw [number, map_eq_ok]
  simp only [take_eq_ok]
  constructor
  · rintro ⟨s, ⟨rfl, rfl⟩, rfl⟩
    rw [hgf _ (ofLe_lt s), leBytes_ofLe]
  · rintro rfl
    exact ⟨leBytes k (g x), ⟨length_leBytes _ _, rfl⟩, by rw [ofLe_leBytes_of_lt (hg x), hfg]⟩

@[simp] theorem u8_eq_ok {x : UInt8} : u8 short b = .ok (x, rest) ↔ b = x :: rest := by
  rw [u8, number_eq_ok (g := UInt8.toNat) (fun _ ↦ UInt8.ofNat_toNat)
    (fun m hm ↦ UInt8.toNat_ofNat_of_lt' hm) fun a ↦ a.toNat_lt]
  rw [leBytes, leBytes, UInt8.ofNat_toNat, List.singleton_append]

@[simp] theorem u16_eq_ok {x : UInt16} :
    u16 short b = .ok (x, rest) ↔ b = leBytes 2 x.toNat ++ rest :=
  number_eq_ok (fun _ ↦ UInt16.ofNat_toNat) (fun _ hm ↦ UInt16.toNat_ofNat_of_lt' hm)
    fun a ↦ a.toNat_lt

@[simp] theorem u32_eq_ok {x : UInt32} :
    u32 short b = .ok (x, rest) ↔ b = leBytes 4 x.toNat ++ rest :=
  number_eq_ok (fun _ ↦ UInt32.ofNat_toNat) (fun _ hm ↦ UInt32.toNat_ofNat_of_lt' hm)
    fun a ↦ a.toNat_lt

@[simp] theorem u64_eq_ok {x : UInt64} :
    u64 short b = .ok (x, rest) ↔ b = leBytes 8 x.toNat ++ rest :=
  number_eq_ok (fun _ ↦ UInt64.ofNat_toNat) (fun _ hm ↦ UInt64.toNat_ofNat_of_lt' hm)
    fun a ↦ a.toNat_lt

@[simp] theorem u128_eq_ok {x : BitVec 128} :
    u128 short b = .ok (x, rest) ↔ b = leBytes 16 x.toNat ++ rest :=
  number_eq_ok (fun a ↦ by rw [BitVec.ofNat_toNat, BitVec.setWidth_eq])
    (fun _ hm ↦ Nat.mod_eq_of_lt hm) fun a ↦ a.isLt

@[simp] theorem arr_eq_ok {x : Arr n} : arr short n b = .ok (x, rest) ↔ b = x.bytes ++ rest := by
  rw [arr, map_eq_ok]
  simp only [take_eq_ok]
  constructor
  · rintro ⟨s, ⟨rfl, rfl⟩, rfl⟩
    exact congrArg (·.bytes ++ rest) (Arr.ofSlice_bytes ⟨s, rfl⟩).symm
  · rintro rfl
    exact ⟨x.bytes, ⟨x.length_eq, rfl⟩, Arr.ofSlice_bytes x⟩

end Reader

end Plaine.Lib

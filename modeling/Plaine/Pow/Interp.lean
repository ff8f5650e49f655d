import Plaine.Lib.Ends
import Plaine.Pow.Program
import Mathlib.Data.Nat.Bitwise

/-!
# Running a program

`pow/src/interp.rs`: eight registers, a scratchpad of words, and 1024 rounds of a program.  The AES
round is the processor's, and a parameter here.

The machine notes the addresses it computes, `touched`, before it makes word indices of them.  They
are all aligned and within the scratchpad, whatever the program and the registers.
-/

namespace Plaine.Pow

open Plaine.Lib

/-- `SCRATCH_BYTES`. -/
def scratchBytes : Nat := 65536

/-- `SCRATCH_WORDS`. -/
def scratchWords : Nat := scratchBytes / 8

/-- `SCRATCH_MASK`. -/
def scratchMask : UInt64 := 65536 - 8

/-- `LINE_MASK`. -/
def lineMask : UInt64 := 65536 - 16

/-- `LOOPS`. -/
def loops : Nat := 1024

/-- `MULT`. -/
def mult : UInt64 := 0x9E3779B97F4A7C15

/-- `C1`. -/
def c1 : UInt32 := 0x6A09E667

/-- `C2`. -/
def c2 : UInt32 := 0xBB67AE85

/-- Two words, as a line of the scratchpad. -/
abbrev Line : Type := UInt64 × UInt64

/-- The instruction for a round of AES, `aesenc_key`. -/
class Aes where
  aesencKey : Line → Line → Line

/-- `aesenc`: a round with `AESKEY`. -/
def aesenc [Aes] (state : Line) : Line :=
  Aes.aesencKey state (0x3AF54FA572F36E3C, 0x8C68059B7F520E51)

/-- An address the machine has computed, and how many bytes it is for. -/
structure Touch where
  addr : Nat
  len : Nat
deriving DecidableEq

/-- The registers and the scratchpad. -/
structure Machine where
  r : Fin 8 → UInt64
  sc : List UInt64
  touched : List Touch

/-- An index out of range, or a failed `debug_assert`. -/
inductive Panic where
  | outOfRange
  | misaligned
deriving DecidableEq

/-- What the machine does, unless it panics. -/
abbrev Run : Type → Type := EStateM Panic Machine

/-- `addr_of`. -/
def addrOf (v : UInt64) (k : UInt32) : UInt64 :=
  (((v ^^^ k.toUInt64) * mult) >>> 40) &&& scratchMask

/-- `line_of`. -/
def lineOf (v : UInt64) (k : UInt32) : UInt64 := (((v ^^^ k.toUInt64) * mult) >>> 40) &&& lineMask

/-- The word an address of `len` bytes starts at. -/
def wordAt (a : UInt64) (len : Nat) : Run Nat := fun m ↦
  .ok (a >>> 3).toNat { m with touched := ⟨a.toNat, len⟩ :: m.touched }

/-- `sc[w]`. -/
def readWord (w : Nat) : Run UInt64 := fun m ↦
  match m.sc[w]? with
  | some v => .ok v m
  | none => .error .outOfRange m

/-- `sc[w] = v`. -/
def writeWord (w : Nat) (v : UInt64) : Run Unit := fun m ↦
  if w < m.sc.length then .ok () { m with sc := m.sc.set w v } else .error .outOfRange m

/-- `debug_assert_eq!(w & 1, 0)`. -/
def checkEven (w : Nat) : Run Unit := if w &&& 1 = 0 then pure () else throw .misaligned

/-- `r[i]`. -/
def readReg (i : Fin 8) : Run UInt64 := fun m ↦ .ok (m.r i) m

/-- `r[i] = v`. -/
def writeReg (i : Fin 8) (v : UInt64) : Run Unit := fun m ↦
  .ok () { m with r := Function.update m.r i v }

/-- `u64::rotate_left`. -/
def rotateLeft (v k : UInt64) : UInt64 := (v <<< (k % 64)) ||| (v >>> ((64 - k % 64) % 64))

/-- `u64::rotate_right`. -/
def rotateRight (v k : UInt64) : UInt64 := (v >>> (k % 64)) ||| (v <<< ((64 - k % 64) % 64))

/-- The high half of a product. -/
def mulHigh (a b : UInt64) : UInt64 := UInt64.ofNat (a.toNat * b.toNat / 2 ^ 64)

/-- `Op::Load` and `Op::Loadb`. -/
def loadOp (x : Instr) (c : UInt32) : Run Unit := do
  let w ← wordAt (addrOf (← readReg x.s) (x.imm ^^^ c)) 8
  writeReg x.d ((← readReg x.d) ^^^ (← readWord w))

/-- `Op::Store` and `Op::Storeb`. -/
def storeOp (x : Instr) (c : UInt32) : Run Unit := do
  let w ← wordAt (addrOf (← readReg x.d) (x.imm ^^^ c)) 8
  writeWord w ((← readWord w) + (← readReg x.s))

/-- `Op::Rmw` and `Op::Rmwb`: the operations on the word and on the register, and the two keys. -/
def rmwOp (x : Instr) (onWord onReg : UInt64 → UInt64 → UInt64) (c c' : UInt32) : Run Unit := do
  let w ← wordAt (addrOf (← readReg x.s) (x.imm ^^^ c)) 8
  let v := onWord (← readWord w) (← readReg x.d)
  writeWord w v
  let w' ← wordAt (addrOf v c') 8
  writeReg x.d (onReg (← readReg x.d) (← readWord w'))

/-- An instruction that only looks at its two registers. -/
def regOp (x : Instr) (f : UInt64 → UInt64 → UInt64) : Run Unit := do
  writeReg x.d (f (← readReg x.d) (← readReg x.s))

/-- `Op::Aesr`. -/
def aesrOp [Aes] (x : Instr) : Run Unit := do
  let w ← wordAt (lineOf (← readReg x.s) (x.imm ^^^ c1)) 16
  checkEven w
  let v := aesenc (← readWord w, ← readWord (w ||| 1))
  writeWord w v.1
  writeWord (w ||| 1) v.2
  writeReg x.d ((← readReg x.d) ^^^ (← readWord w))

/-- The body of the loop over slots. -/
def step [Aes] (x : Instr) : Run Unit :=
  let immw := x.imm.toUInt64
  let k := ((x.imm &&& 63) ||| 1).toUInt64
  match x.op with
  | .add => regOp x fun d s ↦ (d + s) ^^^ immw
  | .sub => regOp x fun d s ↦ (d - s) ^^^ immw
  | .xor => regOp x fun d s ↦ (d ^^^ s) + immw
  | .or => regOp x fun d s ↦ rotateLeft d 17 ^^^ (s ||| immw)
  | .and => regOp x fun d s ↦ rotateLeft d 23 ^^^ (s &&& immw)
  | .andn => regOp x fun d s ↦ rotateLeft d 29 ^^^ (~~~s &&& immw)
  | .rolx => regOp x fun d s ↦ rotateLeft d k ^^^ s
  | .rola => regOp x fun d s ↦ rotateLeft d k + s
  | .rorx => regOp x fun d s ↦ rotateRight d k ^^^ s
  | .rora => regOp x fun d s ↦ rotateRight d k + s
  | .vrol => regOp x fun d s ↦ rotateLeft d (s &&& 63) ^^^ immw
  | .vror => regOp x fun d s ↦ rotateRight d (s &&& 63) + immw
  | .load => loadOp x c1
  | .store => storeOp x c1
  | .rmw => rmwOp x (· + ·) (· ^^^ ·) c1 c2
  | .loadb => loadOp x c2
  | .storeb => storeOp x c2
  | .rmwb => rmwOp x (· ^^^ ·) (· + ·) c2 c1
  | .mullo => regOp x fun d s ↦ d * (s ||| 1)
  | .mulhi => regOp x fun d s ↦ mulHigh d (s ||| 1) ^^^ immw
  | .aesr => aesrOp x

/-- One round: the slots in order, then the number of the round into `r[0]`. -/
def round [Aes] (slots : List Instr) (lp : Nat) : Run Unit := do
  slots.forM step
  writeReg 0 ((← readReg 0) ^^^ UInt64.ofNat lp)

/-- The registers at the start. -/
def startRegs (seed : UInt64) : Fin 8 → UInt64 := fun i ↦
  seed * (2 * UInt64.ofNat i + 1) + UInt64.ofNat i

/-- The rounds of `interp`, from any registers. -/
def rounds [Aes] (prog : Program) : Run Unit := (List.range loops).forM (round prog.slots)

/-- `interp`. -/
def interp [Aes] (prog : Program) (seed : UInt64) : Run UInt64 := do
  modify fun m ↦ { m with r := startRegs seed }
  rounds prog
  let m ← get
  return (List.ofFn m.r).foldl (· ^^^ ·) 0

/-! ## Addresses -/

variable {m : Machine} {v : UInt64} {k : UInt32} {w : Nat}

/-- What a mask with its low `n` bits clear leaves of a word. -/
theorem and_mask (x mask : UInt64) (n : Nat) (hmask : mask.toNat % 2 ^ n = 0) :
    (x &&& mask).toNat % 2 ^ n = 0 ∧ (x &&& mask).toNat ≤ mask.toNat := by
  rw [UInt64.toNat_and]
  refine ⟨?_, Nat.and_le_right⟩
  rw [Nat.and_mod_two_pow, hmask, Nat.and_zero]

/-- The address is aligned to its length and the bytes at it are within the scratchpad. -/
def Touch.Inside (t : Touch) : Prop := t.addr % t.len = 0 ∧ t.addr + t.len ≤ scratchBytes

theorem inside_addrOf : Touch.Inside ⟨(addrOf v k).toNat, 8⟩ := by
  obtain ⟨halign, hle⟩ := and_mask (((v ^^^ k.toUInt64) * mult) >>> 40) scratchMask 3 rfl
  exact ⟨halign, Nat.add_le_add_right hle 8⟩

theorem inside_lineOf : Touch.Inside ⟨(lineOf v k).toNat, 16⟩ := by
  obtain ⟨halign, hle⟩ := and_mask (((v ^^^ k.toUInt64) * mult) >>> 40) lineMask 4 rfl
  exact ⟨halign, Nat.add_le_add_right hle 16⟩

/-- The scratchpad has its length and nothing outside of it was touched. -/
structure Machine.Sound (m : Machine) : Prop where
  length : m.sc.length = scratchWords
  touched : ∀ t ∈ m.touched, t.Inside

/-- A computation that goes on without a panic, and touches nothing outside. -/
structure Safe {α : Type} (c : Run α) (Q : α → Prop) : Prop where
  ends (m : Machine) : m.Sound → Ends c m (fun a m' ↦ Q a ∧ m'.Sound) Never

section Safe

variable {α β : Type} {c : Run α} {f : α → Run β} {Q : α → Prop} {R : β → Prop} {a : UInt64}
variable {len : Nat}

theorem Safe.bind (hc : Safe c Q) (hf : ∀ a, Q a → Safe (f a) R) : Safe (c >>= f) R where
  ends m hm := (hc.ends m hm).bind fun a m' ⟨ha, hm'⟩ ↦ (hf a ha).ends m' hm'

/-- A safe computation returns. -/
theorem Safe.exists_ok (h : Safe c Q) (hm : m.Sound) : ∃ a m', c m = .ok a m' ∧ Q a ∧ m'.Sound :=
  (h.ends m hm).exists_ok

theorem safe_pure {x : α} (h : Q x) : Safe (pure x) Q := ⟨fun _ hm ↦ ⟨h, hm⟩⟩

theorem safe_readReg (i : Fin 8) : Safe (readReg i) fun _ ↦ True :=
  ⟨fun _ hm ↦ ⟨trivial, hm⟩⟩

theorem safe_writeReg (i : Fin 8) (v : UInt64) : Safe (writeReg i v) fun _ ↦ True :=
  ⟨fun _ hm ↦ ⟨trivial, hm.length, hm.touched⟩⟩

theorem safe_wordAt (h : Touch.Inside ⟨a.toNat, len⟩) :
    Safe (wordAt a len) fun w ↦ w = a.toNat / 8 := by
  constructor
  intro m hm
  refine ⟨?_, hm.length, List.forall_mem_cons.mpr ⟨h, hm.touched⟩⟩
  rw [UInt64.toNat_shiftRight]
  exact Nat.shiftRight_eq_div_pow _ 3

theorem safe_readWord (h : w < scratchWords) : Safe (readWord w) fun _ ↦ True := by
  constructor
  intro m hm
  have hw : w < m.sc.length := hm.length.symm ▸ h
  have hread : readWord w m = .ok m.sc[w] m := by rw [readWord, List.getElem?_eq_getElem hw]
  exact (ends_ok hread).mpr ⟨trivial, hm⟩

theorem safe_writeWord (h : w < scratchWords) (v : UInt64) : Safe (writeWord w v) fun _ ↦ True := by
  constructor
  intro m hm
  have hwrite : writeWord w v m = .ok () { m with sc := m.sc.set w v } := by
    rw [writeWord, if_pos (hm.length.symm ▸ h)]
  exact (ends_ok hwrite).mpr ⟨trivial, (List.length_set ..).trans hm.length, hm.touched⟩

theorem safe_forM {l : List α} {g : α → Run PUnit} (h : ∀ x ∈ l, Safe (g x) fun _ ↦ True) :
    Safe (l.forM g) fun _ ↦ True := by
  induction l with
  | nil => exact safe_pure trivial
  | cons x l ih =>
    obtain ⟨hx, hl⟩ := List.forall_mem_cons.mp h
    change Safe (g x >>= fun _ ↦ l.forM g) _
    exact hx.bind fun _ _ ↦ ih hl

theorem safe_checkEven (h : w % 2 = 0) : Safe (checkEven w) fun _ ↦ True := by
  constructor
  intro m hm
  rw [checkEven, if_pos ((Nat.and_one_is_mod w).trans h)]
  exact ⟨trivial, hm⟩

end Safe

/-! ## Every instruction is safe -/

theorem safe_regOp (x : Instr) (f : UInt64 → UInt64 → UInt64) : Safe (regOp x f) fun _ ↦ True :=
  (safe_readReg _).bind fun _ _ ↦ (safe_readReg _).bind fun _ _ ↦ safe_writeReg _ _

/-- The word of an address of eight bytes. -/
theorem safe_wordAt_addrOf : Safe (wordAt (addrOf v k) 8) (· < scratchWords) := by
  constructor
  intro m hm
  refine ((safe_wordAt inside_addrOf).ends m hm).mono ?_ fun _ _ h ↦ h
  rintro w m' ⟨rfl, hm'⟩
  have hle : (addrOf v k).toNat + 8 ≤ scratchBytes := inside_addrOf.2
  refine ⟨Nat.div_lt_of_lt_mul ?_, hm'⟩
  change (addrOf v k).toNat < 65536
  change (addrOf v k).toNat + 8 ≤ 65536 at hle
  omega

/-- The words of a line. -/
theorem safe_wordAt_lineOf :
    Safe (wordAt (lineOf v k) 16) fun w ↦ w % 2 = 0 ∧ w < scratchWords ∧ w ||| 1 < scratchWords := by
  constructor
  intro m hm
  refine ((safe_wordAt inside_lineOf).ends m hm).mono ?_ fun _ _ h ↦ h
  rintro w m' ⟨rfl, hm'⟩
  obtain ⟨halign, hle⟩ := inside_lineOf (v := v) (k := k)
  change (lineOf v k).toNat % 16 = 0 at halign
  change (lineOf v k).toNat + 16 ≤ 65536 at hle
  have heven : (lineOf v k).toNat / 8 % 2 = 0 := by omega
  refine ⟨⟨heven, ?_, ?_⟩, hm'⟩
  · change _ < 8192
    omega
  · change _ < 2 ^ 13
    exact Nat.or_lt_two_pow (by omega) (by decide)

theorem safe_loadOp (x : Instr) (c : UInt32) : Safe (loadOp x c) fun _ ↦ True :=
  (safe_readReg _).bind fun _ _ ↦ safe_wordAt_addrOf.bind fun _ hw ↦
    (safe_readReg _).bind fun _ _ ↦ (safe_readWord hw).bind fun _ _ ↦ safe_writeReg _ _

theorem safe_storeOp (x : Instr) (c : UInt32) : Safe (storeOp x c) fun _ ↦ True :=
  (safe_readReg _).bind fun _ _ ↦ safe_wordAt_addrOf.bind fun _ hw ↦
    (safe_readWord hw).bind fun _ _ ↦ (safe_readReg _).bind fun _ _ ↦ safe_writeWord hw _

theorem safe_rmwOp (x : Instr) (onWord onReg : UInt64 → UInt64 → UInt64) (c c' : UInt32) :
    Safe (rmwOp x onWord onReg c c') fun _ ↦ True :=
  (safe_readReg _).bind fun _ _ ↦ safe_wordAt_addrOf.bind fun _ hw ↦
    (safe_readWord hw).bind fun _ _ ↦ (safe_readReg _).bind fun _ _ ↦
      (safe_writeWord hw _).bind fun _ _ ↦ safe_wordAt_addrOf.bind fun _ hw' ↦
        (safe_readReg _).bind fun _ _ ↦ (safe_readWord hw').bind fun _ _ ↦ safe_writeReg _ _

section Rounds

variable [Aes]

theorem safe_aesrOp (x : Instr) : Safe (aesrOp x) fun _ ↦ True :=
  (safe_readReg _).bind fun _ _ ↦ safe_wordAt_lineOf.bind fun _ ⟨heven, hw, hw'⟩ ↦
    (safe_checkEven heven).bind fun _ _ ↦ (safe_readWord hw).bind fun _ _ ↦
      (safe_readWord hw').bind fun _ _ ↦ (safe_writeWord hw _).bind fun _ _ ↦
        (safe_writeWord hw' _).bind fun _ _ ↦ (safe_readReg _).bind fun _ _ ↦
          (safe_readWord hw).bind fun _ _ ↦ safe_writeReg _ _

theorem safe_step (x : Instr) : Safe (step x) fun _ ↦ True := by
  unfold step
  dsimp only
  split
  case h_13 | h_16 => exact safe_loadOp x _
  case h_14 | h_17 => exact safe_storeOp x _
  case h_15 | h_18 => exact safe_rmwOp x _ _ _ _
  case h_21 => exact safe_aesrOp x
  all_goals exact safe_regOp x _

/-- Whatever the program and the registers, the rounds do not panic and touch aligned addresses
within the scratchpad only. -/
theorem safe_rounds (prog : Program) : Safe (rounds prog) fun _ ↦ True := by
  have hround : ∀ lp, Safe (round prog.slots lp) fun _ ↦ True := fun _ ↦
    (safe_forM fun x _ ↦ safe_step x).bind fun _ _ ↦
      (safe_readReg _).bind fun _ _ ↦ safe_writeReg _ _
  exact safe_forM fun lp _ ↦ hround lp

theorem safe_interp (prog : Program) (seed : UInt64) : Safe (interp prog seed) fun _ ↦ True := by
  have hstart : Safe (modify fun m ↦ { m with r := startRegs seed } : Run PUnit) fun _ ↦ True :=
    ⟨fun _ hm ↦ ⟨trivial, hm.length, hm.touched⟩⟩
  have hget : Safe (get : Run Machine) fun _ ↦ True := ⟨fun _ hm ↦ ⟨trivial, hm⟩⟩
  exact hstart.bind fun _ _ ↦ (safe_rounds prog).bind fun _ _ ↦ hget.bind fun _ _ ↦ safe_pure trivial

end Rounds

end Plaine.Pow

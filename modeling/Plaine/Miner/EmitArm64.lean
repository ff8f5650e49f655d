import Plaine.Lib.Bytes
import Plaine.Miner.Sizes
import Plaine.Pow.Interp
import Mathlib.Algebra.BigOperators.Ring.List

/-!
# Emitting AArch64

`miner/src/emit_arm64.rs`.  Every encoder writes one word; the position counts words.
-/

namespace Plaine.Miner.EmitArm64

open Plaine.Lib Plaine.Pow

/-! ## The emitter -/

/-- `RMAP`. -/
def rmap : Fin 8 → UInt32 := ![19, 20, 21, 22, 23, 24, 25, 26]

def aSc : UInt32 := 27
def aMult : UInt32 := 28
def aMsk : UInt32 := 11
def aLmsk : UInt32 := 13
def aT0 : UInt32 := 9
def aT1 : UInt32 := 10
def aT2 : UInt32 := 14
def aLoop : UInt32 := 12
def aZr : UInt32 := 31

/-- `Emitter`. -/
structure Emitter where
  buf : Bytes
  pos : Nat

/-- What the emitter does, unless it panics. -/
abbrev Emit : Type → Type := EStateM Fault Emitter

/-- `e.at`. -/
def pos : Emit Nat := fun e ↦ .ok e.pos e

/-- `ei`. -/
def ei (w : UInt32) : Emit Unit := fun e ↦
  let b := e.pos * 4
  if b + 4 ≤ e.buf.length then
    .ok () { buf := e.buf.take b ++ leBytes 4 w.toNat ++ e.buf.drop (b + 4), pos := e.pos + 1 }
  else .error .outOfRange e

/-- An instruction with three registers. -/
def rrr (opc d n m : UInt32) : Emit Unit := ei (opc ||| (m <<< 16) ||| (n <<< 5) ||| d)

/-- An instruction with two registers. -/
def rr (opc d n : UInt32) : Emit Unit := ei (opc ||| (n <<< 5) ||| d)

/-- `a_and`. -/
def aAnd : UInt32 → UInt32 → UInt32 → Emit Unit := rrr 0x8A000000

/-- `a_bic`. -/
def aBic : UInt32 → UInt32 → UInt32 → Emit Unit := rrr 0x8A200000

/-- `a_orr`. -/
def aOrr : UInt32 → UInt32 → UInt32 → Emit Unit := rrr 0xAA000000

/-- `a_eor`. -/
def aEor : UInt32 → UInt32 → UInt32 → Emit Unit := rrr 0xCA000000

/-- `a_add`. -/
def aAdd : UInt32 → UInt32 → UInt32 → Emit Unit := rrr 0x8B000000

/-- `a_sub`. -/
def aSub : UInt32 → UInt32 → UInt32 → Emit Unit := rrr 0xCB000000

/-- `a_mov`. -/
def aMov (d m : UInt32) : Emit Unit := aOrr d aZr m

/-- `a_neg`. -/
def aNeg (d m : UInt32) : Emit Unit := aSub d aZr m

/-- `a_addi`. -/
def aAddi (d n imm12 : UInt32) : Emit Unit :=
  ei ((0x91000000 : UInt32) ||| ((imm12 &&& 0xFFF) <<< 10) ||| (n <<< 5) ||| d)

/-- `a_cmpi`. -/
def aCmpi (n imm12 : UInt32) : Emit Unit :=
  ei ((0xF1000000 : UInt32) ||| ((imm12 &&& 0xFFF) <<< 10) ||| (n <<< 5) ||| aZr)

/-- `a_movz`. -/
def aMovz (d : UInt32) (v : UInt16) (hw : UInt32) : Emit Unit :=
  ei ((0xD2800000 : UInt32) ||| (hw <<< 21) ||| (v.toUInt32 <<< 5) ||| d)

/-- `a_movk`. -/
def aMovk (d : UInt32) (v : UInt16) (hw : UInt32) : Emit Unit :=
  ei ((0xF2800000 : UInt32) ||| (hw <<< 21) ||| (v.toUInt32 <<< 5) ||| d)

/-- `a_imm32`. -/
def aImm32 (d v : UInt32) : Emit Unit := do
  aMovz d v.toUInt16 0
  aMovk d (v >>> 16).toUInt16 1

/-- `a_imm64`. -/
def aImm64 (d : UInt32) (v : UInt64) : Emit Unit := do
  aMovz d v.toUInt16 0
  aMovk d (v >>> 16).toUInt16 1
  aMovk d (v >>> 32).toUInt16 2
  aMovk d (v >>> 48).toUInt16 3

/-- `a_ror_i`. -/
def aRorI (d n k : UInt32) : Emit Unit :=
  ei ((0x93C00000 : UInt32) ||| (n <<< 16) ||| ((k &&& 63) <<< 10) ||| (n <<< 5) ||| d)

/-- `a_ror_r`. -/
def aRorR : UInt32 → UInt32 → UInt32 → Emit Unit := rrr 0x9AC02C00

/-- `a_lsr_i`. -/
def aLsrI (d n k : UInt32) : Emit Unit :=
  ei ((0xD3400000 : UInt32) ||| ((k &&& 63) <<< 16) ||| ((63 : UInt32) <<< 10) ||| (n <<< 5) ||| d)

/-- `a_mul`. -/
def aMul : UInt32 → UInt32 → UInt32 → Emit Unit := rrr 0x9B007C00

/-- `a_umulh`. -/
def aUmulh : UInt32 → UInt32 → UInt32 → Emit Unit := rrr 0x9BC07C00

/-- `a_orr1`. -/
def aOrr1 : UInt32 → UInt32 → Emit Unit := rr 0xB2400000

/-- `a_umov_d0`. -/
def aUmovD0 : UInt32 → UInt32 → Emit Unit := rr 0x4E083C00

/-- `a_ldr`. -/
def aLdr (t base idx : UInt32) : Emit Unit := rrr 0xF8606800 t base idx

/-- `a_str`. -/
def aStr (t base idx : UInt32) : Emit Unit := rrr 0xF8206800 t base idx

/-- `a_ldr_q`. -/
def aLdrQ (t base idx : UInt32) : Emit Unit := rrr 0x3CE06800 t base idx

/-- `a_str_q`. -/
def aStrQ (t base idx : UInt32) : Emit Unit := rrr 0x3CA06800 t base idx

/-- `a_ldr_q_off`. -/
def aLdrQOff (t base imm12 : UInt32) : Emit Unit :=
  ei ((0x3DC00000 : UInt32) ||| (imm12 <<< 10) ||| (base <<< 5) ||| t)

/-- `a_aese`. -/
def aAese : UInt32 → UInt32 → Emit Unit := rr 0x4E284800

/-- `a_aesmc`. -/
def aAesmc : UInt32 → UInt32 → Emit Unit := rr 0x4E286800

/-- `a_veor`. -/
def aVeor : UInt32 → UInt32 → UInt32 → Emit Unit := rrr 0x6E201C00

/-- `a_movi0`. -/
def aMovi0 (d : UInt32) : Emit Unit := ei ((0x4F000400 : UInt32) ||| d)

/-- `a_stp_pre`. -/
def aStpPre (t1 t2 : UInt32) : Emit Unit :=
  ei ((0xA9800000 : UInt32) ||| ((0x7E : UInt32) <<< 15) ||| (t2 <<< 10) ||| ((31 : UInt32) <<< 5) ||| t1)

/-- `a_ldp_post`. -/
def aLdpPost (t1 t2 : UInt32) : Emit Unit :=
  ei ((0xA8C00000 : UInt32) ||| ((0x02 : UInt32) <<< 15) ||| (t2 <<< 10) ||| ((31 : UInt32) <<< 5) ||| t1)

/-- `a_addr`. -/
def aAddr (src k maskreg tmp : UInt32) : Emit Unit := do
  debugAssert (src ≠ tmp)
  debugAssert (src ≠ aT0)
  aImm32 tmp k
  aEor aT0 src tmp
  aMul aT0 aT0 aMult
  aLsrI aT0 aT0 40
  aAnd aT0 aT0 maskreg

/-- `emit_one`. -/
def emitOne (x : Instr) : Emit Unit :=
  let d := rmap x.d
  let s := rmap x.s
  let imm := x.imm
  let k := (imm &&& 63) ||| 1
  match x.op with
  | .add => do
    aAdd d d s
    aImm32 aT0 imm
    aEor d d aT0
  | .sub => do
    aSub d d s
    aImm32 aT0 imm
    aEor d d aT0
  | .xor => do
    aEor d d s
    aImm32 aT0 imm
    aAdd d d aT0
  | .or => do
    aRorI d d (64 - 17)
    aImm32 aT0 imm
    aOrr aT0 s aT0
    aEor d d aT0
  | .and => do
    aRorI d d (64 - 23)
    aImm32 aT0 imm
    aAnd aT0 s aT0
    aEor d d aT0
  | .andn => do
    aRorI d d (64 - 29)
    aImm32 aT0 imm
    aBic aT0 aT0 s
    aEor d d aT0
  | .rolx => do
    aRorI d d (64 - k)
    aEor d d s
  | .rola => do
    aRorI d d (64 - k)
    aAdd d d s
  | .rorx => do
    aRorI d d k
    aEor d d s
  | .rora => do
    aRorI d d k
    aAdd d d s
  | .vrol => do
    aNeg aT0 s
    aRorR d d aT0
    aImm32 aT1 imm
    aEor d d aT1
  | .vror => do
    aRorR d d s
    aImm32 aT1 imm
    aAdd d d aT1
  | .load => do
    aAddr s (imm ^^^ c1) aMsk aT1
    aLdr aT1 aSc aT0
    aEor d d aT1
  | .loadb => do
    aAddr s (imm ^^^ c2) aMsk aT1
    aLdr aT1 aSc aT0
    aEor d d aT1
  | .store => do
    aAddr d (imm ^^^ c1) aMsk aT1
    aLdr aT1 aSc aT0
    aAdd aT1 aT1 s
    aStr aT1 aSc aT0
  | .storeb => do
    aAddr d (imm ^^^ c2) aMsk aT1
    aLdr aT1 aSc aT0
    aAdd aT1 aT1 s
    aStr aT1 aSc aT0
  | .rmw => do
    aAddr s (imm ^^^ c1) aMsk aT1
    aLdr aT1 aSc aT0
    aAdd aT1 aT1 d
    aStr aT1 aSc aT0
    aAddr aT1 c2 aMsk aT2
    aLdr aT1 aSc aT0
    aEor d d aT1
  | .rmwb => do
    aAddr s (imm ^^^ c2) aMsk aT1
    aLdr aT1 aSc aT0
    aEor aT1 aT1 d
    aStr aT1 aSc aT0
    aAddr aT1 c1 aMsk aT2
    aLdr aT1 aSc aT0
    aAdd d d aT1
  | .mullo => do
    aOrr1 aT0 s
    aMul d d aT0
  | .mulhi => do
    aOrr1 aT0 s
    aUmulh d d aT0
    aImm32 aT1 imm
    aEor d d aT1
  | .aesr => do
    aAddr s (imm ^^^ c1) aLmsk aT1
    aLdrQ 1 aSc aT0
    aAese 1 2
    aAesmc 1 1
    aVeor 1 1 0
    aStrQ 1 aSc aT0
    aUmovD0 aT1 1
    aEor d d aT1

/-- The code before the loop. -/
def emitPrologue : Emit Unit := do
  aStpPre 19 20
  aStpPre 21 22
  aStpPre 23 24
  aStpPre 25 26
  aStpPre 27 28
  aMov aSc 0
  aLdrQOff 0 2 0
  aMovi0 2
  aImm64 aMult mult
  aImm32 aMsk scratchMask.toUInt32
  aImm32 aLmsk lineMask.toUInt32
  (List.finRange 8).forM fun i ↦ do
    aImm32 aT0 (UInt32.ofNat (2 * i + 1))
    aMul (rmap i) 1 aT0
    if i ≠ 0 then
      aAddi (rmap i) (rmap i) (UInt32.ofNat i)
  aMovz aLoop 0 0
  assertEq ((← pos) * 4) arm64Prologue

/-- A slot of the loop. -/
def emitSlot (slot : Instr) : Emit Unit := do
  let before ← pos
  emitOne slot
  let n := ((← pos) - before) * 4
  assertEq n (lenOf arm64Len slot.op)

/-- The end of the loop and the code after it. -/
def emitEpilogue (loopTop : Nat) : Emit Unit := do
  let epi ← pos
  aEor (rmap 0) (rmap 0) aLoop
  aAddi aLoop aLoop 1
  aCmpi aLoop (UInt32.ofNat loops)
  let off : Int := loopTop - (← pos)
  let imm19 := UInt32.ofInt off &&& 0x7FFFF
  ei ((0x54000000 : UInt32) ||| (imm19 <<< 5) ||| 11)
  aMov 0 (rmap 0)
  ((List.finRange 8).drop 1).forM fun i ↦ aEor 0 0 (rmap i)
  aLdpPost 27 28
  aLdpPost 25 26
  aLdpPost 23 24
  aLdpPost 21 22
  aLdpPost 19 20
  ei 0xD65F03C0
  assertEq (((← pos) - epi) * 4) arm64Epilogue

/-- `emit_aarch64_into`. -/
def emitAarch64Into (prog : Program) : Emit Nat := do
  emitPrologue
  let loopTop ← pos
  prog.slots.forM emitSlot
  emitEpilogue loopTop
  let want := arm64Prologue + (prog.slots.map fun slot ↦ lenOf arm64Len slot.op).sum + arm64Epilogue
  assertEq ((← pos) * 4) want
  return (← pos) * 4

/-- `emit_aarch64`. -/
def emitAarch64 (prog : Program) : Emit Unit := do
  let n ← emitAarch64Into prog
  assertEq n isoCodeBytesAarch64

/-! ## Lengths -/

/-- The emitter as a cursor, in words. -/
def cursor : Cursor Emitter := ⟨4, Emitter.pos, fun e ↦ e.buf.length⟩

/-- The command writes `n` words. -/
abbrev Writes (n : Nat) (u : Emit Unit) : Prop := cursor.Writes n u

variable {p c n : Nat}

theorem advances_pos (h : p = n) : cursor.Advances p 0 c pos (· = n) :=
  Cursor.advances_read (fun _ ↦ rfl) h

/-- What follows a look at the position knows it. -/
theorem pos_bind {β : Type} {f : Nat → Emit β} {R : β → Prop} (h : cursor.Advances p n c (f p) R) :
    cursor.Advances p n c (pos >>= f) R := Cursor.Advances.read (fun _ ↦ rfl) h

theorem writes_ei (w : UInt32) : Writes 1 (ei w) := by
  intro p c
  constructor
  rintro e rfl rfl hle
  have hle' : 4 * (e.pos + 1) ≤ e.buf.length := hle
  have hroom : e.pos * 4 + 4 ≤ e.buf.length := by omega
  have hput : ei w e = .ok () ⟨e.buf.take (e.pos * 4) ++ leBytes 4 w.toNat ++
      e.buf.drop (e.pos * 4 + 4), e.pos + 1⟩ := if_pos hroom
  refine (ends_ok hput).mpr ⟨trivial, rfl, ?_⟩
  change (e.buf.take (e.pos * 4) ++ leBytes 4 w.toNat ++ e.buf.drop (e.pos * 4 + 4)).length =
    e.buf.length
  rw [List.length_append, List.length_append, List.length_take_of_le (by omega), length_leBytes,
    List.length_drop]
  omega

theorem writes_aImm32 (d v : UInt32) : Writes 2 (aImm32 d v) := (writes_ei _).seq (writes_ei _)

theorem writes_aImm64 (d : UInt32) (v : UInt64) : Writes 4 (aImm64 d v) :=
  (writes_ei _).seq ((writes_ei _).seq ((writes_ei _).seq (writes_ei _)))

theorem writes_aAddr {src tmp : UInt32} (h : src ≠ tmp) (h' : src ≠ aT0) (k maskreg : UInt32) :
    Writes 6 (aAddr src k maskreg tmp) :=
  (writes_debugAssert h).seq ((writes_debugAssert h').seq ((writes_aImm32 _ _).seq
    ((writes_ei _).seq ((writes_ei _).seq ((writes_ei _).seq (writes_ei _))))))

theorem rmap_ne (r : Fin 8) : rmap r ≠ aT1 ∧ rmap r ≠ aT0 := by
  revert r
  decide

/-- The address in a register of the program. -/
theorem writes_aAddr_rmap (r : Fin 8) (k maskreg : UInt32) :
    Writes 6 (aAddr (rmap r) k maskreg aT1) :=
  writes_aAddr (rmap_ne r).1 (rmap_ne r).2 k maskreg

/-- The second address of a read, change and write. -/
theorem writes_aAddr_aT1 (k maskreg : UInt32) : Writes 6 (aAddr aT1 k maskreg aT2) :=
  writes_aAddr (by decide) (by decide) k maskreg

/-- How many words the code of an instruction has. -/
def wordsOf : Op → Nat
  | .rolx | .rola | .rorx | .rora | .mullo => 2
  | .add | .sub | .xor | .vror => 4
  | .or | .and | .andn | .vrol | .mulhi => 5
  | .load | .loadb => 8
  | .store | .storeb => 9
  | .rmw | .rmwb => 17
  | .aesr => 13

theorem wordsOf_mul (op : Op) : wordsOf op * 4 = lenOf arm64Len op := by cases op <;> decide

/-- Every instruction has its length, whatever its registers and its immediate. -/
theorem writes_emitOne (x : Instr) : Writes (wordsOf x.op) (emitOne x) := by
  obtain ⟨op, d, s, imm⟩ := x
  cases op
  case add | sub | xor => exact (writes_ei _).seq ((writes_aImm32 _ _).seq (writes_ei _))
  case or | and | andn =>
    exact (writes_ei _).seq ((writes_aImm32 _ _).seq ((writes_ei _).seq (writes_ei _)))
  case rolx | rola | rorx | rora | mullo => exact (writes_ei _).seq (writes_ei _)
  case vrol | mulhi =>
    exact (writes_ei _).seq ((writes_ei _).seq ((writes_aImm32 _ _).seq (writes_ei _)))
  case vror => exact (writes_ei _).seq ((writes_aImm32 _ _).seq (writes_ei _))
  case load | loadb => exact (writes_aAddr_rmap _ _ _).seq ((writes_ei _).seq (writes_ei _))
  case store | storeb =>
    exact (writes_aAddr_rmap _ _ _).seq ((writes_ei _).seq ((writes_ei _).seq (writes_ei _)))
  case rmw | rmwb =>
    exact (writes_aAddr_rmap _ _ _).seq ((writes_ei _).seq ((writes_ei _).seq ((writes_ei _).seq
      ((writes_aAddr_aT1 _ _).seq ((writes_ei _).seq (writes_ei _))))))
  case aesr =>
    exact (writes_aAddr_rmap _ _ _).seq ((writes_ei _).seq ((writes_ei _).seq ((writes_ei _).seq
      ((writes_ei _).seq ((writes_ei _).seq ((writes_ei _).seq (writes_ei _)))))))

/-- The assertion on the length of a slot holds. -/
theorem writes_emitSlot (slot : Instr) : Writes (wordsOf slot.op) (emitSlot slot) := by
  intro p c
  refine pos_bind ?_
  refine (writes_emitOne slot).bind (k := 0) ?_
  refine pos_bind ?_
  refine writes_assertEq ?_ _ _
  rw [Nat.add_sub_cancel_left, wordsOf_mul]

/-- The code before the loop, at the start of the buffer. -/
theorem advances_emitPrologue : cursor.Advances 0 48 c emitPrologue fun _ ↦ True := by
  have hregs : Writes 31 ((List.finRange 8).forM fun i ↦ do
      aImm32 aT0 (UInt32.ofNat (2 * i + 1))
      aMul (rmap i) 1 aT0
      if i ≠ 0 then
        aAddi (rmap i) (rmap i) (UInt32.ofNat i)) :=
    (Cursor.writes_forM fun i _ ↦ (writes_aImm32 aT0 _).seq ((writes_ei _).seq
      (Cursor.writes_ite (P := i ≠ 0) (writes_ei _) Cursor.writes_pure))).cast (by decide)
  exact Cursor.Advances.cast ((writes_ei _).bind ((writes_ei _).bind ((writes_ei _).bind
    ((writes_ei _).bind ((writes_ei _).bind ((writes_ei _).bind ((writes_ei _).bind
      ((writes_ei _).bind ((writes_aImm64 _ _).bind ((writes_aImm32 _ _).bind
        ((writes_aImm32 _ _).bind (hregs.bind ((writes_ei _).bind
          (pos_bind (writes_assertEq (by decide) _ _))))))))))))))) rfl

/-- The code after the slots. -/
theorem writes_emitEpilogue (loopTop : Nat) : Writes 18 (emitEpilogue loopTop) := by
  have hregs : Writes 7 (((List.finRange 8).drop 1).forM fun i ↦ aEor 0 0 (rmap i)) :=
    (Cursor.writes_forM fun i _ ↦ writes_ei _).cast (by decide)
  intro p c
  exact Cursor.Advances.cast (pos_bind ((writes_ei _).bind ((writes_ei _).bind ((writes_ei _).bind
    (pos_bind ((writes_ei _).bind ((writes_ei _).bind (hregs.bind ((writes_ei _).bind
      ((writes_ei _).bind ((writes_ei _).bind ((writes_ei _).bind ((writes_ei _).bind
        ((writes_ei _).bind (pos_bind (writes_assertEq
          (by simp only [arm64Epilogue]; omega) _ _)))))))))))))))) rfl

/-- How many words the table of lengths has for a program. -/
def codeWords (prog : Program) : Nat := 48 + (prog.slots.map fun slot ↦ wordsOf slot.op).sum + 18

theorem codeWords_mul (prog : Program) : codeWords prog * 4 =
    arm64Prologue + (prog.slots.map fun slot ↦ lenOf arm64Len slot.op).sum + arm64Epilogue := by
  have hsum : (prog.slots.map fun slot ↦ wordsOf slot.op).sum * 4 =
      (prog.slots.map fun slot ↦ lenOf arm64Len slot.op).sum := by
    rw [← List.sum_map_mul_right]
    simp only [wordsOf_mul]
  rw [← hsum, codeWords, Nat.add_mul, Nat.add_mul]
  rfl

/-- No assertion fails, whatever the program. -/
theorem advances_emitAarch64Into (prog : Program) : cursor.Advances 0 (codeWords prog) c
    (emitAarch64Into prog) (· = codeWords prog * 4) := by
  have hslots := Cursor.writes_forM fun slot (_ : slot ∈ prog.slots) ↦ writes_emitSlot slot
  have hwant := codeWords_mul prog
  rw [codeWords] at hwant ⊢
  exact Cursor.Advances.cast (advances_emitPrologue.bind fun _ _ ↦ pos_bind (hslots.bind
    ((writes_emitEpilogue _).bind (pos_bind ((writes_assertEq (by omega)).bind
      (pos_bind (Cursor.advances_pure (by omega)))))))) rfl

/-- The code of a seed fills its buffer. -/
theorem emitAarch64_fills (seed : UInt64) {out : Bytes} (h : out.length = isoCodeBytesAarch64) :
    ∃ e, emitAarch64 (buildProgram seed) ⟨out, 0⟩ = .ok () e ∧ e.pos * 4 = isoCodeBytesAarch64 ∧
      e.buf.length = isoCodeBytesAarch64 := by
  have hlen : codeWords (buildProgram seed) * 4 = isoCodeBytesAarch64 := by
    rw [codeWords_mul, sum_slots, isoCodeBytesAarch64]
  have hall : cursor.Advances 0 (codeWords (buildProgram seed)) isoCodeBytesAarch64
      (emitAarch64 (buildProgram seed)) fun _ ↦ True :=
    ((advances_emitAarch64Into (buildProgram seed)).bind fun _ hn ↦
      writes_assertEq (hn.trans hlen) _ _).cast (Nat.add_zero _)
  obtain ⟨_, e, hok, -, hpos, hroom⟩ :=
    hall.fills (s := ⟨out, 0⟩) rfl h ((Nat.mul_comm _ _).trans hlen)
  refine ⟨e, hok, ?_, hroom⟩
  change e.pos = _ at hpos
  rw [hpos, hlen]

end Plaine.Miner.EmitArm64

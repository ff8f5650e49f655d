import Plaine.Lib.Bytes
import Plaine.Miner.Sizes
import Plaine.Pow.Interp

/-!
# Emitting x86-64

`miner/src/emit_x86.rs`.  Each encoder writes a fixed number of bytes, whatever its registers: the
REX prefix is always there.  So does each instruction, and the assertions of the emitter hold.
-/

namespace Plaine.Miner.EmitX86

open Plaine.Lib Plaine.Pow

/-! ## The emitter -/

def rax : UInt8 := 0
def rcx : UInt8 := 1
def rdx : UInt8 := 2
def rsi : UInt8 := 6
def r10 : UInt8 := 10
def r11 : UInt8 := 11

/-- `RMAP`. -/
def rmap : Fin 8 → UInt8 := ![3, 5, 12, 13, 14, 15, 8, 9]

/-- `Emitter`. -/
structure Emitter where
  buf : Bytes
  pos : Nat

/-- What the emitter does, unless it panics. -/
abbrev Emit : Type → Type := EStateM Fault Emitter

/-- `e.pos`. -/
def pos : Emit Nat := fun e ↦ .ok e.pos e

/-- `ebytes`. -/
def ebytes (b : Bytes) : Emit Unit := fun e ↦
  if e.pos + b.length ≤ e.buf.length then
    .ok () { buf := e.buf.take e.pos ++ b ++ e.buf.drop (e.pos + b.length)
             pos := e.pos + b.length }
  else .error .outOfRange e

/-- `e8`. -/
def e8 (b : UInt8) : Emit Unit := ebytes [b]

/-- `e32`. -/
def e32 (v : UInt32) : Emit Unit := ebytes (leBytes 4 v.toNat)

/-- `e64`. -/
def e64 (v : UInt64) : Emit Unit := ebytes (leBytes 8 v.toNat)

/-- `u8::from` of a register that needs its bit in the prefix. -/
def high (r : UInt8) : UInt8 := if 8 ≤ r then 1 else 0

/-- `alu_rr`. -/
def aluRr (opc dst src : UInt8) : Emit Unit := do
  e8 ((0x48 : UInt8) ||| (high src <<< 2) ||| high dst)
  e8 opc
  e8 ((0xC0 : UInt8) ||| ((src &&& 7) <<< 3) ||| (dst &&& 7))

/-- `alu_ri`. -/
def aluRi (digit dst : UInt8) (imm : UInt32) : Emit Unit := do
  e8 ((0x48 : UInt8) ||| high dst)
  e8 0x81
  e8 ((0xC0 : UInt8) ||| (digit <<< 3) ||| (dst &&& 7))
  e32 imm

/-- `alu_ri8`. -/
def aluRi8 (digit dst imm : UInt8) : Emit Unit := do
  e8 ((0x48 : UInt8) ||| high dst)
  e8 0x83
  e8 ((0xC0 : UInt8) ||| (digit <<< 3) ||| (dst &&& 7))
  e8 imm

/-- `mov_ri64`. -/
def movRi64 (dst : UInt8) (imm : UInt64) : Emit Unit := do
  e8 ((0x48 : UInt8) ||| high dst)
  e8 ((0xB8 : UInt8) ||| (dst &&& 7))
  e64 imm

/-- `mov_ri32`. -/
def movRi32 (dst : UInt8) (imm : UInt32) : Emit Unit := do
  debugAssert (dst < 8)
  e8 ((0xB8 : UInt8) ||| (dst &&& 7))
  e32 imm

/-- `rot_ri`. -/
def rotRi (right : Bool) (dst k : UInt8) : Emit Unit := do
  e8 ((0x48 : UInt8) ||| high dst)
  e8 0xC1
  e8 ((0xC0 : UInt8) ||| ((if right then (1 : UInt8) else 0) <<< 3) ||| (dst &&& 7))
  e8 k

/-- `rot_rcl`. -/
def rotRcl (right : Bool) (dst : UInt8) : Emit Unit := do
  e8 ((0x48 : UInt8) ||| high dst)
  e8 0xD3
  e8 ((0xC0 : UInt8) ||| ((if right then (1 : UInt8) else 0) <<< 3) ||| (dst &&& 7))

/-- `shr_ri`. -/
def shrRi (dst k : UInt8) : Emit Unit := do
  e8 ((0x48 : UInt8) ||| high dst)
  e8 0xC1
  e8 ((0xC0 : UInt8) ||| ((5 : UInt8) <<< 3) ||| (dst &&& 7))
  e8 k

/-- `not_r`. -/
def notR (dst : UInt8) : Emit Unit := do
  e8 ((0x48 : UInt8) ||| high dst)
  e8 0xF7
  e8 ((0xC0 : UInt8) ||| ((2 : UInt8) <<< 3) ||| (dst &&& 7))

/-- `imul_rr`. -/
def imulRr (dst src : UInt8) : Emit Unit := do
  e8 ((0x48 : UInt8) ||| (high dst <<< 2) ||| high src)
  e8 0x0F
  e8 0xAF
  e8 ((0xC0 : UInt8) ||| ((dst &&& 7) <<< 3) ||| (src &&& 7))

/-- `imul_rri`. -/
def imulRri (dst src : UInt8) (imm : UInt32) : Emit Unit := do
  e8 ((0x48 : UInt8) ||| (high dst <<< 2) ||| high src)
  e8 0x69
  e8 ((0xC0 : UInt8) ||| ((dst &&& 7) <<< 3) ||| (src &&& 7))
  e32 imm

/-- `mul_r`. -/
def mulR (src : UInt8) : Emit Unit := do
  e8 ((0x48 : UInt8) ||| high src)
  e8 0xF7
  e8 ((0xC0 : UInt8) ||| ((4 : UInt8) <<< 3) ||| (src &&& 7))

/-- `mem_rr`. -/
def memRr (opc reg : UInt8) : Emit Unit := do
  e8 ((0x48 : UInt8) ||| (high reg <<< 2))
  e8 opc
  e8 ((0x04 : UInt8) ||| ((reg &&& 7) <<< 3))
  e8 0x38

/-- `and_eax`. -/
def andEax (m : UInt32) : Emit Unit := do
  e8 0x25
  e32 m

/-- `emit_addr`. -/
def emitAddr (src : UInt8) (k mask : UInt32) (tmp : UInt8) : Emit Unit := do
  debugAssert (src ≠ rax)
  aluRr 0x89 rax src
  movRi32 tmp k
  aluRr 0x31 rax tmp
  imulRr rax r11
  shrRi rax 40
  andEax mask

/-- `imm_op`. -/
def immOp (opcRr dst : UInt8) (imm : UInt32) (tmp : UInt8) : Emit Unit := do
  movRi32 tmp imm
  aluRr opcRr dst tmp

/-- `emit_one`. -/
def emitOne (x : Instr) : Emit Unit :=
  let d := rmap x.d
  let s := rmap x.s
  let imm := x.imm
  let k := ((imm &&& 63) ||| 1).toUInt8
  match x.op with
  | .add => do
    aluRr 0x01 d s
    immOp 0x31 d imm rcx
  | .sub => do
    aluRr 0x29 d s
    immOp 0x31 d imm rcx
  | .xor => do
    aluRr 0x31 d s
    immOp 0x01 d imm rcx
  | .or => do
    rotRi false d 17
    movRi32 rcx imm
    aluRr 0x09 rcx s
    aluRr 0x31 d rcx
  | .and => do
    rotRi false d 23
    movRi32 rcx imm
    aluRr 0x21 rcx s
    aluRr 0x31 d rcx
  | .andn => do
    rotRi false d 29
    aluRr 0x89 rdx s
    notR rdx
    movRi32 rcx imm
    aluRr 0x21 rcx rdx
    aluRr 0x31 d rcx
  | .rolx => do
    rotRi false d k
    aluRr 0x31 d s
  | .rola => do
    rotRi false d k
    aluRr 0x01 d s
  | .rorx => do
    rotRi true d k
    aluRr 0x31 d s
  | .rora => do
    rotRi true d k
    aluRr 0x01 d s
  | .vrol => do
    aluRr 0x89 rcx s
    rotRcl false d
    immOp 0x31 d imm rcx
  | .vror => do
    aluRr 0x89 rcx s
    rotRcl true d
    immOp 0x01 d imm rcx
  | .load => do
    emitAddr s (imm ^^^ c1) scratchMask.toUInt32 rcx
    memRr 0x33 d
  | .loadb => do
    emitAddr s (imm ^^^ c2) scratchMask.toUInt32 rcx
    memRr 0x33 d
  | .store => do
    emitAddr d (imm ^^^ c1) scratchMask.toUInt32 rcx
    memRr 0x01 s
  | .storeb => do
    emitAddr d (imm ^^^ c2) scratchMask.toUInt32 rcx
    memRr 0x01 s
  | .rmw => do
    emitAddr s (imm ^^^ c1) scratchMask.toUInt32 rcx
    memRr 0x8B rcx
    aluRr 0x01 rcx d
    memRr 0x89 rcx
    emitAddr rcx c2 scratchMask.toUInt32 rdx
    memRr 0x33 d
  | .rmwb => do
    emitAddr s (imm ^^^ c2) scratchMask.toUInt32 rcx
    memRr 0x8B rcx
    aluRr 0x31 rcx d
    memRr 0x89 rcx
    emitAddr rcx c1 scratchMask.toUInt32 rdx
    memRr 0x03 d
  | .mullo => do
    aluRr 0x89 rcx s
    aluRi8 1 rcx 1
    imulRr d rcx
  | .mulhi => do
    aluRr 0x89 rcx s
    aluRi8 1 rcx 1
    aluRr 0x89 rax d
    mulR rcx
    aluRr 0x89 d rdx
    immOp 0x31 d imm rcx
  | .aesr => do
    emitAddr s (imm ^^^ c1) lineMask.toUInt32 rcx
    ebytes [0xF3, 0x0F, 0x6F, 0x0C, 0x38, 0x66, 0x0F, 0x38, 0xDC, 0xC8, 0xF3, 0x0F, 0x7F, 0x0C, 0x38]
    ebytes [0x66, 0x48, 0x0F, 0x7E, 0xC9]
    aluRr 0x31 d rcx

/-- The code before the loop. -/
def emitPrologue : Emit Unit := do
  ebytes [0x53, 0x55, 0x41, 0x54, 0x41, 0x55, 0x41, 0x56, 0x41, 0x57]
  movRi64 r11 mult
  ebytes [0xF3, 0x0F, 0x6F, 0x02]
  (List.finRange 8).forM fun i ↦ do
    imulRri (rmap i) rsi (UInt32.ofNat (2 * i + 1))
    if i ≠ 0 then
      aluRi 0 (rmap i) (UInt32.ofNat i)
  ebytes [0x45, 0x31, 0xD2]
  assertEq (← pos) x86Prologue

/-- A slot of the loop. -/
def emitSlot (slot : Instr) : Emit Unit := do
  let before ← pos
  emitOne slot
  let n := (← pos) - before
  assertEq n (lenOf x86Len slot.op)

/-- The end of the loop and the code after it. -/
def emitEpilogue (loopTop : Nat) : Emit Unit := do
  let epi ← pos
  aluRr 0x31 (rmap 0) r10
  ebytes [0x49, 0xFF, 0xC2]
  e8 0x49
  e8 0x81
  e8 0xFA
  e32 (UInt32.ofNat loops)
  e8 0x0F
  e8 0x8C
  let disp : Int := loopTop - ((← pos) + 4)
  e32 (UInt32.ofInt disp)
  aluRr 0x89 rax (rmap 0)
  ((List.finRange 8).drop 1).forM fun i ↦ aluRr 0x31 rax (rmap i)
  ebytes [0x41, 0x5F, 0x41, 0x5E, 0x41, 0x5D, 0x41, 0x5C, 0x5D, 0x5B, 0xC3]
  assertEq ((← pos) - epi) x86Epilogue

/-- `emit_x86_64_into`. -/
def emitX8664Into (prog : Program) : Emit Nat := do
  emitPrologue
  let loopTop ← pos
  prog.slots.forM emitSlot
  emitEpilogue loopTop
  let want := x86Prologue + (prog.slots.map fun slot ↦ lenOf x86Len slot.op).sum + x86Epilogue
  assertEq (← pos) want
  pos

/-- `emit_x86_64`. -/
def emitX8664 (prog : Program) : Emit Unit := do
  let n ← emitX8664Into prog
  assertEq n isoCodeBytes

/-! ## Lengths -/

/-- The emitter as a cursor. -/
def cursor : Cursor Emitter := ⟨1, Emitter.pos, fun e ↦ e.buf.length⟩

/-- The command writes `n` bytes. -/
abbrev Writes (n : Nat) (u : Emit Unit) : Prop := cursor.Writes n u

variable {p c n : Nat}

theorem advances_pos (h : p = n) : cursor.Advances p 0 c pos (· = n) :=
  Cursor.advances_read (fun _ ↦ rfl) h

/-- What follows a look at the position knows it. -/
theorem pos_bind {β : Type} {f : Nat → Emit β} {R : β → Prop} (h : cursor.Advances p n c (f p) R) :
    cursor.Advances p n c (pos >>= f) R := Cursor.Advances.read (fun _ ↦ rfl) h

theorem writes_ebytes (b : Bytes) : Writes b.length (ebytes b) := by
  intro p c
  constructor
  rintro e rfl rfl hle
  have hle' : 1 * (e.pos + b.length) ≤ e.buf.length := hle
  have hroom : e.pos + b.length ≤ e.buf.length := by rwa [Nat.one_mul] at hle'
  have hput : ebytes b e =
      .ok () ⟨e.buf.take e.pos ++ b ++ e.buf.drop (e.pos + b.length), e.pos + b.length⟩ :=
    if_pos hroom
  refine (ends_ok hput).mpr ⟨trivial, rfl, ?_⟩
  change (e.buf.take e.pos ++ b ++ e.buf.drop (e.pos + b.length)).length = e.buf.length
  rw [List.length_append, List.length_append, List.length_take_of_le (by omega), List.length_drop]
  omega

theorem writes_e8 (b : UInt8) : Writes 1 (e8 b) := writes_ebytes [b]

theorem writes_e32 (v : UInt32) : Writes 4 (e32 v) := (writes_ebytes _).cast (length_leBytes ..)

theorem writes_e64 (v : UInt64) : Writes 8 (e64 v) := (writes_ebytes _).cast (length_leBytes ..)

theorem writes_aluRr (opc dst src : UInt8) : Writes 3 (aluRr opc dst src) :=
  (writes_e8 _).seq ((writes_e8 _).seq (writes_e8 _))

theorem writes_aluRi (digit dst : UInt8) (imm : UInt32) : Writes 7 (aluRi digit dst imm) :=
  (writes_e8 _).seq ((writes_e8 _).seq ((writes_e8 _).seq (writes_e32 _)))

theorem writes_aluRi8 (digit dst imm : UInt8) : Writes 4 (aluRi8 digit dst imm) :=
  (writes_e8 _).seq ((writes_e8 _).seq ((writes_e8 _).seq (writes_e8 _)))

theorem writes_movRi64 (dst : UInt8) (imm : UInt64) : Writes 10 (movRi64 dst imm) :=
  (writes_e8 _).seq ((writes_e8 _).seq (writes_e64 _))

/-- Without a prefix, which no register below 8 needs. -/
theorem writes_movRi32 {dst : UInt8} (h : dst < 8) (imm : UInt32) : Writes 5 (movRi32 dst imm) :=
  (writes_debugAssert h).seq ((writes_e8 _).seq (writes_e32 _))

theorem writes_rotRi (right : Bool) (dst k : UInt8) : Writes 4 (rotRi right dst k) :=
  (writes_e8 _).seq ((writes_e8 _).seq ((writes_e8 _).seq (writes_e8 _)))

theorem writes_rotRcl (right : Bool) (dst : UInt8) : Writes 3 (rotRcl right dst) :=
  (writes_e8 _).seq ((writes_e8 _).seq (writes_e8 _))

theorem writes_shrRi (dst k : UInt8) : Writes 4 (shrRi dst k) :=
  (writes_e8 _).seq ((writes_e8 _).seq ((writes_e8 _).seq (writes_e8 _)))

theorem writes_notR (dst : UInt8) : Writes 3 (notR dst) :=
  (writes_e8 _).seq ((writes_e8 _).seq (writes_e8 _))

theorem writes_imulRr (dst src : UInt8) : Writes 4 (imulRr dst src) :=
  (writes_e8 _).seq ((writes_e8 _).seq ((writes_e8 _).seq (writes_e8 _)))

theorem writes_imulRri (dst src : UInt8) (imm : UInt32) : Writes 7 (imulRri dst src imm) :=
  (writes_e8 _).seq ((writes_e8 _).seq ((writes_e8 _).seq (writes_e32 _)))

theorem writes_mulR (src : UInt8) : Writes 3 (mulR src) :=
  (writes_e8 _).seq ((writes_e8 _).seq (writes_e8 _))

theorem writes_memRr (opc reg : UInt8) : Writes 4 (memRr opc reg) :=
  (writes_e8 _).seq ((writes_e8 _).seq ((writes_e8 _).seq (writes_e8 _)))

theorem writes_andEax (m : UInt32) : Writes 5 (andEax m) := (writes_e8 _).seq (writes_e32 _)

theorem writes_emitAddr {src tmp : UInt8} (hsrc : src ≠ rax) (htmp : tmp < 8) (k mask : UInt32) :
    Writes 24 (emitAddr src k mask tmp) :=
  (writes_debugAssert hsrc).seq ((writes_aluRr _ _ _).seq ((writes_movRi32 htmp _).seq
    ((writes_aluRr _ _ _).seq ((writes_imulRr _ _).seq ((writes_shrRi _ _).seq (writes_andEax _))))))

theorem writes_immOp (opcRr dst : UInt8) (imm : UInt32) : Writes 8 (immOp opcRr dst imm rcx) :=
  (writes_movRi32 (by decide) _).seq (writes_aluRr _ _ _)

theorem rmap_ne_rax (r : Fin 8) : rmap r ≠ rax := by
  revert r
  decide

/-- The address in a register of the program. -/
theorem writes_emitAddr_rmap (r : Fin 8) (k mask : UInt32) :
    Writes 24 (emitAddr (rmap r) k mask rcx) :=
  writes_emitAddr (rmap_ne_rax r) (by decide) k mask

/-- The second address of a read, change and write. -/
theorem writes_emitAddr_rcx (k mask : UInt32) : Writes 24 (emitAddr rcx k mask rdx) :=
  writes_emitAddr (by decide) (by decide) k mask

/-- Every instruction has its length, whatever its registers and its immediate. -/
theorem writes_emitOne (x : Instr) : Writes (lenOf x86Len x.op) (emitOne x) := by
  obtain ⟨op, d, s, imm⟩ := x
  cases op
  case add | sub | xor => exact (writes_aluRr _ _ _).seq (writes_immOp _ _ _)
  case or | and =>
    exact (writes_rotRi _ _ _).seq ((writes_movRi32 (by decide) _).seq
      ((writes_aluRr _ _ _).seq (writes_aluRr _ _ _)))
  case andn =>
    exact (writes_rotRi _ _ _).seq ((writes_aluRr _ _ _).seq ((writes_notR _).seq
      ((writes_movRi32 (by decide) _).seq ((writes_aluRr _ _ _).seq (writes_aluRr _ _ _)))))
  case rolx | rola | rorx | rora => exact (writes_rotRi _ _ _).seq (writes_aluRr _ _ _)
  case vrol | vror =>
    exact (writes_aluRr _ _ _).seq ((writes_rotRcl _ _).seq (writes_immOp _ _ _))
  case load | loadb | store | storeb =>
    exact (writes_emitAddr_rmap _ _ _).seq (writes_memRr _ _)
  case rmw | rmwb =>
    exact (writes_emitAddr_rmap _ _ _).seq ((writes_memRr _ _).seq ((writes_aluRr _ _ _).seq
      ((writes_memRr _ _).seq ((writes_emitAddr_rcx _ _).seq (writes_memRr _ _)))))
  case mullo => exact (writes_aluRr _ _ _).seq ((writes_aluRi8 _ _ _).seq (writes_imulRr _ _))
  case mulhi =>
    exact (writes_aluRr _ _ _).seq ((writes_aluRi8 _ _ _).seq ((writes_aluRr _ _ _).seq
      ((writes_mulR _).seq ((writes_aluRr _ _ _).seq (writes_immOp _ _ _)))))
  case aesr =>
    exact Cursor.Writes.cast ((writes_emitAddr_rmap _ _ _).seq ((writes_ebytes _).seq
      ((writes_ebytes _).seq (writes_aluRr _ _ _)))) rfl

/-- The assertion on the length of a slot holds. -/
theorem writes_emitSlot (slot : Instr) : Writes (lenOf x86Len slot.op) (emitSlot slot) := by
  intro p c
  refine pos_bind ?_
  refine (writes_emitOne slot).bind (k := 0) ?_
  refine pos_bind ?_
  exact writes_assertEq (by omega) _ _

/-- The code before the loop, at the start of the buffer. -/
theorem advances_emitPrologue : cursor.Advances 0 x86Prologue c emitPrologue fun _ ↦ True := by
  have hregs : Writes 105 ((List.finRange 8).forM fun i ↦ do
      imulRri (rmap i) rsi (UInt32.ofNat (2 * i + 1))
      if i ≠ 0 then
        aluRi 0 (rmap i) (UInt32.ofNat i)) :=
    (Cursor.writes_forM fun i _ ↦ (writes_imulRri (rmap i) rsi _).seq
      (Cursor.writes_ite (P := i ≠ 0) (writes_aluRi _ _ _) Cursor.writes_pure)).cast (by decide)
  exact Cursor.Advances.cast ((writes_ebytes _).bind ((writes_movRi64 _ _).bind
    ((writes_ebytes _).bind (hregs.bind ((writes_ebytes _).bind
      (pos_bind (writes_assertEq (by decide) _ _))))))) rfl

/-- The code after the slots. -/
theorem writes_emitEpilogue (loopTop : Nat) : Writes x86Epilogue (emitEpilogue loopTop) := by
  have hregs : Writes 21 (((List.finRange 8).drop 1).forM fun i ↦ aluRr 0x31 rax (rmap i)) :=
    (Cursor.writes_forM fun i _ ↦ writes_aluRr 0x31 rax (rmap i)).cast (by decide)
  intro p c
  exact Cursor.Advances.cast (pos_bind ((writes_aluRr _ _ _).bind ((writes_ebytes _).bind
    ((writes_e8 _).bind ((writes_e8 _).bind ((writes_e8 _).bind ((writes_e32 _).bind
      ((writes_e8 _).bind ((writes_e8 _).bind (pos_bind ((writes_e32 _).bind
        ((writes_aluRr _ _ _).bind (hregs.bind ((writes_ebytes _).bind
          (pos_bind (writes_assertEq (by simp only [x86Epilogue, List.length]; omega) _ _)))))))))))))))) rfl

/-- The length the table of lengths has for a program. -/
def codeLen (prog : Program) : Nat :=
  x86Prologue + (prog.slots.map fun slot ↦ lenOf x86Len slot.op).sum + x86Epilogue

/-- No assertion fails, whatever the program. -/
theorem advances_emitX8664Into (prog : Program) :
    cursor.Advances 0 (codeLen prog) c (emitX8664Into prog) (· = codeLen prog) := by
  have hslots := Cursor.writes_forM fun slot (_ : slot ∈ prog.slots) ↦ writes_emitSlot slot
  rw [codeLen]
  exact Cursor.Advances.cast (advances_emitPrologue.bind fun _ _ ↦ pos_bind (hslots.bind
    ((writes_emitEpilogue _).bind (pos_bind ((writes_assertEq (by omega)).bind
      (advances_pos (by omega))))))) rfl

/-- The code of a seed fills its buffer. -/
theorem emitX8664_fills (seed : UInt64) {out : Bytes} (h : out.length = isoCodeBytes) :
    ∃ e, emitX8664 (buildProgram seed) ⟨out, 0⟩ = .ok () e ∧ e.pos = isoCodeBytes ∧
      e.buf.length = isoCodeBytes := by
  have hlen : codeLen (buildProgram seed) = isoCodeBytes := by
    rw [codeLen, sum_slots, isoCodeBytes]
  have hinto := advances_emitX8664Into (c := isoCodeBytes) (buildProgram seed)
  rw [hlen] at hinto
  have hall : cursor.Advances 0 isoCodeBytes isoCodeBytes (emitX8664 (buildProgram seed))
      fun _ ↦ True :=
    (hinto.bind fun _ hn ↦ writes_assertEq hn _ _).cast (Nat.add_zero _)
  obtain ⟨_, e, hok, -, hpos, hroom⟩ := hall.fills (s := ⟨out, 0⟩) rfl h (Nat.one_mul _)
  exact ⟨e, hok, hpos, hroom⟩

end Plaine.Miner.EmitX86

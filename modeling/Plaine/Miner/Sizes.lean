import Plaine.Lib.Cursor
import Plaine.Pow.Program
import Mathlib.Algebra.BigOperators.Group.List.Basic
import Mathlib.Algebra.GroupWithZero.Nat

/-!
# Sizes of code

`miner/src/sizes.rs`: how many bytes the code of each instruction has, on x86-64 and on AArch64, and
how many a program has.  A seed has no say in the instructions of a program, so it has none in the
size of the code.
-/

namespace Plaine.Miner

open Plaine.Lib Plaine.Pow

theorem index_lt (op : Op) : op.index < opCount := by cases op <;> decide

/-- What a table of lengths has for an instruction. -/
def lenOf (len : Fin opCount → Nat) (op : Op) : Nat := len ⟨op.index, index_lt op⟩

/-- `weighted`. -/
def weighted (len : Fin opCount → Nat) : Nat :=
  (List.finRange opCount).foldl (fun acc i ↦ acc + hist.getD i.val 0 * len i) 0

/-- `X86_LEN`. -/
def x86Len : Fin opCount → Nat :=
  ![11, 11, 11, 15, 15, 21, 7, 7, 7, 7, 14, 14, 28, 28, 63, 28, 28, 63, 11, 24, 47]

/-- `X86_PROLOGUE`. -/
def x86Prologue : Nat := 10 + 10 + 4 + (8 * 7 + 7 * 7) + 3

/-- `X86_EPILOGUE`. -/
def x86Epilogue : Nat := 3 + 3 + 7 + 6 + 3 + 21 + 11

/-- `ISO_CODE_BYTES`. -/
def isoCodeBytes : Nat := x86Prologue + weighted x86Len + x86Epilogue

/-- `ARM64_LEN`. -/
def arm64Len : Fin opCount → Nat :=
  ![16, 16, 16, 20, 20, 20, 8, 8, 8, 8, 20, 16, 32, 36, 68, 32, 36, 68, 8, 20, 52]

/-- `ARM64_PROLOGUE`. -/
def arm64Prologue : Nat := 20 + 4 + 4 + 4 + 16 + 16 + (8 * 12 + 7 * 4) + 4

/-- `ARM64_EPILOGUE`. -/
def arm64Epilogue : Nat := 16 + 32 + 20 + 4

/-- `ISO_CODE_BYTES_AARCH64`. -/
def isoCodeBytesAarch64 : Nat := arm64Prologue + weighted arm64Len + arm64Epilogue

/-- The assertions on the constants. -/
theorem isoCodeBytes_eq : isoCodeBytes = 13449 ∧ isoCodeBytesAarch64 = 15568 := by
  constructor <;> decide

/-! ## The size of a program -/

/-- A sum over slots, instruction by instruction. -/
theorem sum_map_op (slots : List Instr) (f : Op → Nat) :
    (slots.map fun x ↦ f x.op).sum = (allOps.map fun op ↦ slots.countP (·.op = op) * f op).sum := by
  induction slots with
  | nil => simp
  | cons x slots ih =>
    have hone : f x.op = (allOps.map fun op ↦ (if x.op = op then 1 else 0) * f op).sum := by
      generalize x.op = o
      cases o <;> simp [allOps]
    have hsplit : ∀ op, (x :: slots).countP (·.op = op) * f op =
        (if x.op = op then 1 else 0) * f op + slots.countP (·.op = op) * f op := by
      intro op
      rw [List.countP_cons, ← Nat.add_mul, Nat.add_comm]
      simp only [decide_eq_true_eq]
    rw [List.map_cons, List.sum_cons, ih, hone, ← List.sum_map_add]
    simp only [hsplit]

/-- The code of the slots has the same size for every seed. -/
theorem sum_slots (seed : UInt64) (len : Fin opCount → Nat) :
    ((buildProgram seed).slots.map fun x ↦ lenOf len x.op).sum = weighted len := by
  have hcount : ∀ op, (buildProgram seed).slots.countP (·.op = op) = hist.getD op.index 0 := by
    intro op
    rw [List.getD_eq_getElem?_getD, buildProgram_hist seed op, Option.getD_some]
  rw [sum_map_op _ (lenOf len)]
  simp only [hcount]
  have hfold : weighted len = (allOps.map fun op ↦ hist.getD op.index 0 * lenOf len op).sum := by
    have hrange : List.finRange opCount = allOps.map fun op ↦ ⟨op.index, index_lt op⟩ := by decide
    rw [weighted, ← List.foldl_map, hrange, List.map_map, List.sum_eq_foldl]
    rfl
  exact hfold.symm

/-! ## Assertions -/

/-- What stops an emitter: no room for what it writes, or a failed assertion. -/
inductive Fault where
  | outOfRange
  | debugAssert
  | assertEq (got want : Nat)
deriving DecidableEq

/-- `debug_assert!`. -/
def debugAssert {σ : Type} (P : Prop) [Decidable P] : EStateM Fault σ PUnit :=
  if P then pure ⟨⟩ else throw .debugAssert

/-- `assert_eq!`. -/
def assertEq {σ : Type} (got want : Nat) : EStateM Fault σ PUnit :=
  if got = want then pure ⟨⟩ else throw (.assertEq got want)

section Assertions

variable {σ : Type} {cur : Cursor σ} {P : Prop} [Decidable P] {got want : Nat}

theorem writes_debugAssert (h : P) : cur.Writes 0 (debugAssert P) := by
  rw [debugAssert, if_pos h]
  exact Cursor.writes_pure

theorem writes_assertEq (h : got = want) : cur.Writes 0 (assertEq got want) := by
  rw [assertEq, if_pos h]
  exact Cursor.writes_pure

end Assertions

end Plaine.Miner

import Plaine.Miner.EmitArm64
import Plaine.Miner.EmitX86

/-!
# Programs of one cost

Whatever the seed, a program has the same instructions, the same mix in each of its blocks, and code
of the same length.
-/

namespace Plaine.Miner

open Plaine.Lib Plaine.Pow

/-- The mix of a program and the length of its code do not depend on the seed: the number of each
instruction is that of `HIST`, a block has the classes of `PER_BLOCK`, each register is written by two
of its slots and by none that reads it, and both emitters return with their buffer full. -/
theorem isocost (seed : UInt64) :
    (∀ op : Op, hist[op.index]? = some ((buildProgram seed).slots.countP (·.op = op))) ∧
    (∀ b < blocks,
      (((buildProgram seed).block b).map (·.op.class.index)).Perm ((List.finRange 16).map perBlock) ∧
      (∀ r, ((buildProgram seed).block b).countP (·.d = r) = 2) ∧
      ∀ x ∈ (buildProgram seed).block b, x.d ≠ x.s) ∧
    (∀ out : Arr isoCodeBytes, ∃ e,
      EmitX86.emitX8664 (buildProgram seed) ⟨out.bytes, 0⟩ = .ok () e ∧
        e.pos = isoCodeBytes ∧ e.buf.length = isoCodeBytes) ∧
    (∀ out : Arr isoCodeBytesAarch64, ∃ e,
      EmitArm64.emitAarch64 (buildProgram seed) ⟨out.bytes, 0⟩ = .ok () e ∧
        e.pos * 4 = isoCodeBytesAarch64 ∧ e.buf.length = isoCodeBytesAarch64) ∧
    isoCodeBytes = 13449 ∧ isoCodeBytesAarch64 = 15568 := by
  refine ⟨buildProgram_hist seed, fun b hb ↦ ?_, fun out ↦ ?_, fun out ↦ ?_, isoCodeBytes_eq⟩
  · exact ⟨block_classes seed hb, block_dests seed hb, block_ne seed hb⟩
  · exact EmitX86.emitX8664_fills seed out.length_eq
  · exact EmitArm64.emitAarch64_fills seed out.length_eq

theorem isocost_sample : ((buildProgram 7).block 3).countP (·.d = 5) = 2 :=
  ((isocost 7).2.1 3 (by decide)).2.1 5

end Plaine.Miner

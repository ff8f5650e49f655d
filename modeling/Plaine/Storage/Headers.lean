import Plaine.Storage.Upkeep

/-!
# Headers

Where the headers are in the header files: each has bytes of its own.
-/

namespace Plaine.Storage

open Plaine.Lib Plaine.Consensus

namespace Disk

variable {d : Disk} {h k : Nat} {x : RawHeader}

theorem readHeader_eq_some :
    d.readHeader h = some x ↔ pread d.hdr (segOf h) (hdrOffset h) headerBytes = x.bytes := by
  unfold readHeader
  dsimp only
  constructor
  · intro heq
    split at heq
    case isTrue => exact Option.some.inj heq ▸ rfl
    case isFalse => cases heq
  · intro heq
    rw [dif_pos (by rw [heq]; exact x.length_eq)]
    exact congrArg some (Arr.ext heq)

/-- Headers of different heights lie apart. -/
theorem hdrOffset_disjoint (hne : h ≠ k) (hseg : segOf h = segOf k) :
    hdrOffset h + headerBytes ≤ hdrOffset k ∨ hdrOffset k + headerBytes ≤ hdrOffset h := by
  have hslot : slotOf h ≠ slotOf k := by
    intro hslot
    refine hne ?_
    rw [← segFirstHeight_add_slotOf h, ← segFirstHeight_add_slotOf k, hseg, hslot]
  unfold hdrOffset
  rcases Nat.lt_or_gt_of_ne hslot with hlt | hlt
  · refine .inl ?_
    rw [← Nat.succ_mul]
    exact Nat.mul_le_mul_right _ hlt
  · refine .inr ?_
    rw [← Nat.succ_mul]
    exact Nat.mul_le_mul_right _ hlt

end Disk

end Plaine.Storage

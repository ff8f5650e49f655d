import Plaine.Consensus.Constants
import Plaine.Lib.Result

/-!
# Difficulty

`asert.rs`.  A target is a number below `2 ^ 256`; the source keeps it in four limbs and
the intermediate product in five, none of which overflows, so the limbs are not modelled.
-/

namespace Plaine.Consensus

/-- `AsertError`. -/
inductive AsertError where
  | negativeCompact
  | overflowCompact
  | parentBelowAnchor
deriving DecidableEq

/-- `Target::bit_len` and `bit_len_320`. -/
def bitLen (n : Nat) : Nat := if n = 0 then 0 else n.log2 + 1

/-- `Target::from_compact`. -/
def Target.fromCompact (bits : UInt32) : Except AsertError Nat := do
  let size := bits.toNat / 2 ^ 24
  let word := bits.toNat % 2 ^ 23
  Except.require (¬(word ≠ 0 ∧ bits.toNat / 2 ^ 23 % 2 = 1)) .negativeCompact
  if word = 0 then
    return 0
  Except.require (¬(34 < size ∨ (0xff < word ∧ 33 < size) ∨ (0xffff < word ∧ 32 < size)))
    .overflowCompact
  return if size ≤ 3 then word / 2 ^ (8 * (3 - size)) else word * 2 ^ (8 * (size - 3))

/-- `Target::to_compact`. -/
def Target.toCompact (t : Nat) : UInt32 :=
  let size := (bitLen t + 7) / 8
  let compact := if size ≤ 3 then t % 2 ^ 64 * 2 ^ (8 * (3 - size))
    else t / 2 ^ (8 * (size - 3)) % 2 ^ 64
  if compact / 2 ^ 23 % 2 = 1 then UInt32.ofNat (compact / 2 ^ 8 + (size + 1) * 2 ^ 24)
  else UInt32.ofNat (compact + size * 2 ^ 24)

def radix : Nat := 2 ^ 16

/-- The factor `2 ^ x` of a 16-bit fraction `x`, by the cubic fit of `aserti3-2d`. -/
def asertFactor (f : Nat) : Nat :=
  radix + (195766423245049 * f + 971821376 * f * f + 5127 * f * f * f + 2 ^ 47) / 2 ^ 48

/-- `asert_next_target_from_ref`.  The division is truncating, the shift by whole halvings
rounds down, and only the final target is clamped. -/
def asertNextTargetFromRef (refTarget heightDiff : Nat) (timeDiff : Int) (powLimit : Nat) : Nat :=
  let ideal : Int := asertTargetSpacingSecs * (heightDiff + 1)
  let exponent : Int := ((timeDiff - ideal) * radix).tdiv asertHalfLifeSecs
  let shifts : Int := exponent / radix - 16
  let wide := refTarget * asertFactor (exponent % radix).toNat
  let clamp (wide : Nat) : Nat :=
    if 2 ^ 256 ≤ wide then powLimit
    else if wide = 0 then 1
    else if powLimit < wide then powLimit
    else wide
  if shifts ≤ 0 then clamp (wide / 2 ^ min (-shifts).toNat 320)
  else if bitLen wide ≠ 0 ∧ 256 < bitLen wide + shifts.toNat then powLimit
  else clamp (wide * 2 ^ shifts.toNat)

/-- `asert_next_target`. -/
def asertNextTarget (anchorBits : UInt32) (anchorHeight anchorParentTime parentHeight
    parentTime powLimit : Nat) : Except AsertError Nat := do
  Except.require (anchorHeight ≤ parentHeight) .parentBelowAnchor
  let refTarget ← Target.fromCompact anchorBits
  return asertNextTargetFromRef refTarget (parentHeight - anchorHeight)
    ((parentTime : Int) - anchorParentTime) powLimit

/-- `asert_next_bits`. -/
def asertNextBits (anchorBits : UInt32) (anchorHeight anchorParentTime parentHeight
    parentTime powLimit : Nat) : Except AsertError UInt32 :=
  Target.toCompact <$>
    asertNextTarget anchorBits anchorHeight anchorParentTime parentHeight parentTime powLimit

/-- `work::expand_bits` of the chain crate. -/
def expandBits (bits : UInt32) (powLimit : Nat) : Option Nat :=
  match Target.fromCompact bits with
  | .error _ => none
  | .ok t => if t = 0 ∨ powLimit < t then none else some t

/-- `work::anchor_height_for` of the chain crate. -/
def anchorHeightFor (parentHeight interval : Nat) : Nat :=
  let interval := if interval = 0 then asertAnchorInterval else interval
  parentHeight / interval * interval

end Plaine.Consensus

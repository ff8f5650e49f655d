import Mathlib.Init

/-!
# Random numbers

`rng.rs`: a xorshift generator.
-/

namespace Plaine.P2p

/-- `Rng`. -/
structure Rng where
  s : UInt64
deriving DecidableEq

namespace Rng

/-- `Rng::new`. -/
def new (seed : UInt64) : Rng := { s := if seed = 0 then 0x9E3779B97F4A7C15 else seed }

/-- `Rng::next_u64`. -/
def nextU64 (r : Rng) : UInt64 × Rng :=
  let x := r.s ^^^ (r.s >>> 12)
  let x := x ^^^ (x <<< 25)
  let x := x ^^^ (x >>> 27)
  (x * 0x2545F4914F6CDD1D, { s := x })

/-- `Rng::below`. -/
def below (r : Rng) (n : Nat) : Nat × Rng :=
  if n = 0 then (0, r) else (r.nextU64.1.toNat % n, r.nextU64.2)

theorem below_lt (r : Rng) {n : Nat} (h : 0 < n) : (r.below n).1 < n := by
  rw [below, if_neg (Nat.ne_of_gt h)]
  exact Nat.mod_lt _ h

end Rng

end Plaine.P2p

import Mathlib.Algebra.Group.Nat.Defs

/-!
# Timestamps

`NowDefault` on Windows. The reading of the performance counter is an argument here, and the static
variables are a structure. The assertions, which are gone in a release build, are left out.
-/

namespace Wpi

/-- `zerotime_val`, `offset_val` and `frequency_val`. -/
structure Clock where
  zerotimeVal : UInt64
  offsetVal : UInt64
  frequencyVal : UInt64
  /-- `update_frequency` terminates the program otherwise. -/
  frequency_pos : 0 < frequencyVal

namespace Clock

/-- `NowDefault`, when `timestamp()` returns this. -/
def nowDefault (c : Clock) (timestamp : UInt64) : UInt64 :=
  let delta := timestamp - c.offsetVal
  let deltaInUs := delta * 1000000 / c.frequencyVal
  deltaInUs + c.zerotimeVal

/-- What the counter has counted from the start to a reading. -/
def elapsed (c : Clock) (timestamp : UInt64) : Nat := timestamp.toNat - c.offsetVal.toNat

/-- The time since the start, in microseconds and together with the zero time, is a 64-bit number. -/
def Expressible (c : Clock) (timestamp : UInt64) : Prop :=
  c.elapsed timestamp * 1000000 / c.frequencyVal.toNat + c.zerotimeVal.toNat < 2 ^ 64

instance (c : Clock) : DecidablePred c.Expressible := fun timestamp =>
  inferInstanceAs
    (Decidable (c.elapsed timestamp * 1000000 / c.frequencyVal.toNat + c.zerotimeVal.toNat < 2 ^ 64))

/-- Timestamps do not run backwards up to the reading `last`. -/
def Monotonic (c : Clock) (last : UInt64) : Prop :=
  ∀ t₁ t₂, c.offsetVal ≤ t₁ → t₁ ≤ t₂ → t₂ ≤ last → c.nowDefault t₁ ≤ c.nowDefault t₂

/-- The product with 1000000 does not wrap around up to the reading `last`, or the frequency is above
the product before every wrap. -/
def WrapsUnseen (c : Clock) (last : UInt64) : Prop :=
  ∀ k, 0 < k → k * 2 ^ 64 ≤ c.elapsed last * 1000000 →
    2 ^ 64 ≤ c.frequencyVal.toNat + (k * 2 ^ 64 - 1) % 1000000

end Clock

end Wpi

import Mathlib.Algebra.Group.Int.Defs
import Mathlib.Algebra.Group.Nat.Defs
import Mathlib.Data.Nat.Log

/-!
# Double-precision numbers

The 64-bit pattern of the double nearest to a rational number, ties going to the even significand.
-/

namespace Foundations.Binary64

/-- The pattern of positive infinity. -/
def infinity : ℕ := 0x7ff0000000000000

/-- The integer nearest to `num / den`, ties to even. -/
def roundHalfEven (num den : ℕ) : ℕ :=
  let q := num / den
  let r := num % den
  if 2 * r < den then q else if den < 2 * r then q + 1 else q + q % 2

/-- `num / den / 2 ^ e` as a fraction. -/
def scale (num den : ℕ) (e : ℤ) : ℕ × ℕ :=
  if 0 ≤ e then (num, den * 2 ^ e.toNat) else (num * 2 ^ (-e).toNat, den)

/-- The exponent for which the significand of `num / den` has 53 bits, or the least exponent. -/
def exponent (num den : ℕ) : ℤ :=
  let e : ℤ := (Nat.log2 num : ℤ) - Nat.log2 den - 52
  let (n, d) := scale num den e
  max (if n / d < 2 ^ 52 then e - 1 else e) (-1074)

/-- The pattern for `num / den`, without the sign. A significand that is rounded up to 54 bits moves
on to the next exponent by itself. -/
def magnitude (num den : ℕ) : ℕ :=
  if num = 0 then 0
  else
    let e := exponent num den
    let (n, d) := scale num den e
    min ((e + 1074).toNat * 2 ^ 52 + roundHalfEven n d) infinity

/-- The double nearest to `num / den`, or to its negative. -/
def round (negative : Bool) (num den : ℕ) : UInt64 :=
  UInt64.ofNat ((if negative then 2 ^ 63 else 0) + magnitude num den)

/-- The double is neither infinite nor a NaN. -/
def isFinite (bits : UInt64) : Bool := bits.toNat % 2 ^ 63 < infinity

def isNaN (bits : UInt64) : Bool := infinity < bits.toNat % 2 ^ 63

/-- Zeros of either sign are equal, and NaNs are equal to nothing. -/
def eq (x y : UInt64) : Bool :=
  !isNaN x && !isNaN y && (x == y || x.toNat % 2 ^ 63 == 0 && y.toNat % 2 ^ 63 == 0)

/-- The order of the magnitudes and the signs; NaNs are not less than anything. -/
def lt (x y : UInt64) : Bool :=
  let signed (bits : UInt64) : ℤ :=
    if bits.toNat < 2 ^ 63 then bits.toNat else -((bits.toNat : ℤ) - 2 ^ 63)
  !isNaN x && !isNaN y && signed x < signed y

/-- The double nearest to `m * 2 ^ e`. -/
def ldexp (negative : Bool) (m : ℕ) (e : ℤ) : UInt64 :=
  let (n, d) := scale m 1 (-e)
  round negative n d

/-- The double with the value of a half-precision number. -/
def ofHalf (half : ℕ) : UInt64 :=
  let negative := half / 0x8000 % 2 == 1
  let exp : ℕ := half / 0x400 % 0x20
  let mant := half % 0x400
  if exp = 0 then ldexp negative mant (-24)
  else if exp ≠ 31 then ldexp negative (mant + 1024) ((exp : ℤ) - 25)
  else
    UInt64.ofNat ((if negative then 2 ^ 63 else 0) + infinity + if mant = 0 then 0 else 2 ^ 51)

/-- The double with the value of a single-precision number; a NaN becomes a quiet one. -/
def ofSingle (single : ℕ) : UInt64 :=
  let negative := single / 2 ^ 31 % 2 == 1
  let exp : ℕ := single / 2 ^ 23 % 2 ^ 8
  let mant := single % 2 ^ 23
  if exp = 0 then ldexp negative mant (-149)
  else if exp ≠ 255 then ldexp negative (mant + 2 ^ 23) ((exp : ℤ) - 150)
  else
    UInt64.ofNat ((if negative then 2 ^ 63 else 0) + infinity +
      if mant = 0 then 0 else (mant * 2 ^ 29) ||| 2 ^ 51)

/-- The magnitude of a finite double, as a fraction. -/
def toFraction (bits : UInt64) : ℕ × ℕ :=
  let m := bits.toNat % 2 ^ 63
  let exp : ℕ := m / 2 ^ 52
  let mant := m % 2 ^ 52
  if exp = 0 then scale mant 1 1074 else scale (mant + 2 ^ 52) 1 (1075 - exp)

/-- The double nearest to an integer. -/
def ofInt (n : ℤ) : UInt64 := round (n < 0) n.natAbs 1

/-- The double nearest to `mantissa * 10 ^ e`, or to its negative. -/
def ofScientific (negative : Bool) (mantissa : ℕ) (e : ℤ) : UInt64 :=
  if 0 ≤ e then round negative (mantissa * 10 ^ e.toNat) 1
  else round negative mantissa (10 ^ (-e).toNat)

end Foundations.Binary64

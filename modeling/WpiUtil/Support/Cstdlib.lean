import Mathlib.Data.List.DropRight
import Mathlib.Data.List.TakeWhile
import WpiUtil.Foundations.Binary64
import WpiUtil.Foundations.Decimal
import WpiUtil.Support.RawIstream

/-!
# Conversions of the C library

What `stoi`, `strtoull`, `strtoll` and `strtod` make of a text, and what `snprintf` makes of a
double, in the C locale.
-/

namespace Wpi

open Foundations

/-- `isspace`. -/
def isspace (c : Byte) : Bool := c == 0x20 || (0x09 ≤ c && c ≤ 0x0d)

/-- Whether there is a minus sign, and what comes after the sign. -/
def takeSign : List Byte → Bool × List Byte
  | 0x2d :: s => (true, s)
  | 0x2b :: s => (false, s)
  | s => (false, s)

/-- The exceptions of the standard library. -/
inductive StdException where
  | invalidArgument
  | outOfRange
  | lengthError
deriving DecidableEq, Repr

/-- `std::stoi`: white space, a sign and digits, and nothing is said about what follows. -/
def stoi (s : List Byte) : Except StdException Int :=
  let (negative, s) := takeSign (s.dropWhile isspace)
  let digits := s.takeWhile isDigit
  if digits = [] then .error .invalidArgument
  else
    let n : Int := if negative then -ofDecimal 0 digits else ofDecimal 0 digits
    if n < -2 ^ 31 ∨ 2 ^ 31 ≤ n then .error .outOfRange else .ok n

/-- `strtoull` in base ten of a text that starts with a digit, `none` when it sets `errno`. -/
def strtoull (s : List Byte) : Option UInt64 :=
  let n := ofDecimal 0 (s.takeWhile isDigit)
  if n < 2 ^ 64 then some (UInt64.ofNat n) else none

/-- `strtoll` in base ten of a text that starts with a sign or a digit, `none` when it sets
`errno`. -/
def strtoll (s : List Byte) : Option Int64 :=
  let (negative, s) := takeSign s
  let n : Int := ofDecimal 0 (s.takeWhile isDigit)
  let n := if negative then -n else n
  if -2 ^ 63 ≤ n ∧ n < 2 ^ 63 then some (Int64.ofInt n) else none

/-- The exponent at the front of `s`, zero if there is none. -/
def scanExponentPart (s : List Byte) : Int :=
  match s with
  | [] => 0
  | c :: s =>
    if c = 0x65 ∨ c = 0x45 then
      let (negative, s) := takeSign s
      let n : Int := ofDecimal 0 (s.takeWhile isDigit)
      if negative then -n else n
    else 0

/-- The digits after the decimal point at the front of `s`, and what comes after them. -/
def scanFraction (s : List Byte) : List Byte × List Byte :=
  match s with
  | [] => ([], [])
  | c :: s =>
    if c = 0x2e then (s.takeWhile isDigit, s.dropWhile isDigit) else ([], c :: s)

/-- `strtod` of a decimal number: the result is rounded correctly. -/
def strtod (s : List Byte) : UInt64 :=
  let (negative, s) := takeSign s
  let int := s.takeWhile isDigit
  let (frac, s) := scanFraction (s.dropWhile isDigit)
  Binary64.ofScientific negative (ofDecimal 0 (int ++ frac)) (scanExponentPart s - frac.length)

/-! ## Printing -/

/-- `num / den / 10 ^ e` as a fraction. -/
def scaleDecimal (num den : Nat) (e : Int) : Nat × Nat :=
  if 0 ≤ e then (num, den * 10 ^ e.toNat) else (num * 10 ^ (-e).toNat, den)

/-- `num / den` with the given number of significant digits, and the exponent of the first digit. -/
def significantDigits (precision num den : Nat) : List Byte × Int :=
  let e : Int := (Nat.log 10 num : Int) - Nat.log 10 den
  let (n, d) := scaleDecimal num den e
  let e := if n < d then e - 1 else e
  let (n, d) := scaleDecimal num den (e - (precision - 1))
  let m := Binary64.roundHalfEven n d
  if m < 10 ^ precision then (Foundations.decimal m, e)
  else (Foundations.decimal (m / 10), e + 1)

/-- A decimal point and the digits without the zeros at the end, if there are other digits. -/
def fractionText (digits : List Byte) : List Byte :=
  let digits := digits.rdropWhile (· == 0x30)
  if digits = [] then [] else 0x2e :: digits

/-- `snprintf` with `"%.*g"` for a finite number that is not zero. -/
def snprintfG (precision : Nat) (bits : UInt64) : List Byte :=
  let (num, den) := Binary64.toFraction bits
  let (digits, e) := significantDigits precision num den
  (if 2 ^ 63 ≤ bits.toNat then [0x2d] else []) ++
    if e < -4 ∨ (precision : Int) ≤ e then
      digits.take 1 ++ fractionText (digits.drop 1) ++ [0x65, if e < 0 then 0x2d else 0x2b] ++
        (if e.natAbs < 10 then [0x30] else []) ++
        Foundations.decimal e.natAbs
    else if e < 0 then 0x30 :: fractionText (List.replicate (-e - 1).toNat 0x30 ++ digits)
    else digits.take (e.toNat + 1) ++ fractionText (digits.drop (e.toNat + 1))

end Wpi

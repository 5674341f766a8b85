import WpiUtil.Foundations.Numerals
import WpiUtil.Llvm.StringRef

/-!
# Integers in a `StringRef`

The integer parsers with a radix of zero, which stands for the one that the text asks for.
-/

namespace Wpi.StringRef

open Foundations

/-- `GetAutoSenseRadix`: the radix, and the text without its prefix. -/
def getAutoSenseRadix (str : List Byte) : UInt64 × List Byte :=
  if startswith str [0x30, 0x78] || startswith str [0x30, 0x58] then (16, str.drop 2)
  else if startswith str [0x30, 0x62] || startswith str [0x30, 0x42] then (2, str.drop 2)
  else if startswith str [0x30, 0x6f] then (8, str.drop 2)
  else if startswith str [0x30] then (8, str)
  else (10, str)

/-- `getAsUnsignedInteger`, for any radix. -/
def parseUnsigned (str : List Byte) (radix : UInt64) : Option UInt64 :=
  if radix = 0 then getAsUnsignedInteger (getAutoSenseRadix str).2 (getAutoSenseRadix str).1
  else getAsUnsignedInteger str radix

/-- `getAsSignedInteger`, for any radix. -/
def parseSigned (str : List Byte) (radix : UInt64) : Option Int64 :=
  if str.head? ≠ some 0x2d then
    match parseUnsigned str radix with
    | none => none
    | some value => if value.toInt64 < 0 then none else some value.toInt64
  else
    match parseUnsigned str.tail radix with
    | none => none
    | some value => if 0 < (-value).toInt64 then none else some (-value).toInt64

/-- The base that a text without a given radix asks for, and its digits. -/
inductive AsksFor : List Byte → Nat → List Byte → Prop
  /-- `0x` or `0X` -/
  | hexadecimal {x : Byte} (hx : x = 0x78 ∨ x = 0x58) (digits : List Byte) :
    AsksFor (0x30 :: x :: digits) 16 digits
  /-- `0b` or `0B` -/
  | binary {x : Byte} (hx : x = 0x62 ∨ x = 0x42) (digits : List Byte) :
    AsksFor (0x30 :: x :: digits) 2 digits
  /-- `0o` -/
  | octal (digits : List Byte) : AsksFor (0x30 :: 0x6f :: digits) 8 digits
  /-- `0` without one of these letters -/
  | zero {digits : List Byte}
    (hletter : ∀ x ∈ digits.head?, x ∉ ([0x78, 0x58, 0x62, 0x42, 0x6f] : List Byte)) :
    AsksFor (0x30 :: digits) 8 (0x30 :: digits)
  | decimal {digits : List Byte} (hzero : digits.head? ≠ some 0x30) : AsksFor digits 10 digits

/-- The numeral in `str` has the value `v`, in the given radix or, if that is zero, in the one that its
prefix asks for. -/
def HasValue (str : List Byte) (radix : UInt64) (v : Nat) : Prop :=
  ∃ base digits, (if radix = 0 then AsksFor str base digits else base = radix.toNat ∧ digits = str) ∧
    digits ≠ [] ∧ readNumeral base 0 digits = some v

end Wpi.StringRef

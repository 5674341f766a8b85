import Mathlib.Algebra.Group.Nat.Defs
import WpiUtil.Llvm.RawOstream

/-!
# Formatted output

The operators of `raw_ostream` for numbers, escaped strings, padding and the objects of `Format.h`. A
number buffer that overflows has the result `none`.
-/

namespace Wpi

/-- `std::isprint`, in the C locale. -/
def isprint (c : Byte) : Bool := 0x20 ≤ c && c ≤ 0x7e

/-- `countLeadingZeros`, for 64 bits. -/
def countLeadingZeros (n : UInt64) : Nat := if n = 0 then 64 else 63 - n.toNat.log2

/-- What `snprintf` makes of the format and values of a `format_object`. -/
structure FormatObject where
  /-- The text, when there is enough room for it and a null character. -/
  text : List Byte
  /-- Whether the length is reported for a buffer of this size that is too small. Some
  implementations report a negative number. -/
  reportsLength : UInt32 → Bool

namespace FormatObject

/-- `snprint`: what is returned, and what is stored. The length of the text is an `int`. -/
def snprint (fmt : FormatObject) (bufferSize : UInt32) : Int × List Byte :=
  (if fmt.text.length < 2 ^ 31 ∧
      (fmt.text.length < bufferSize.toNat ∨ fmt.reportsLength bufferSize) then
      (fmt.text.length : Int)
    else -1,
    fmt.text.take (bufferSize.toNat - 1) ++ [0])

/-- `print`. -/
def print (fmt : FormatObject) (bufferSize : UInt32) : Option (UInt32 × List Byte) :=
  if bufferSize = 0 then none
  else
    let (n, stored) := fmt.snprint bufferSize
    if n < 0 then some (bufferSize * 2, stored)
    else if bufferSize ≤ UInt32.ofNat n.toNat then some (UInt32.ofNat n.toNat + 1, stored)
    else some (UInt32.ofNat n.toNat, stored)

end FormatObject

/-- `left_justify` and `right_justify`. -/
structure FormattedString where
  str : List Byte
  width : UInt32
  rightJustify : Bool

/-- `format_hex`, `format_hex_no_prefix` and `format_decimal`. -/
structure FormattedNumber where
  hexValue : UInt64
  decValue : Int64
  width : UInt32
  hex : Bool
  upper : Bool
  hexPrefix : Bool

/-- `format_hex`. -/
def FormattedNumber.formatHex (n : UInt64) (width : UInt32) (upper : Bool) :
    Option FormattedNumber :=
  if width ≤ 18 then some ⟨n, 0, width, true, upper, true⟩ else none

/-- `format_hex_no_prefix`. -/
def FormattedNumber.formatHexNoPrefix (n : UInt64) (width : UInt32) (upper : Bool) :
    Option FormattedNumber :=
  if width ≤ 16 then some ⟨n, 0, width, true, upper, false⟩ else none

/-- `format_decimal`. -/
def FormattedNumber.formatDecimal (n : Int64) (width : UInt32) : FormattedNumber :=
  ⟨0, n, width, false, false, false⟩

namespace RawOstream

/-- `hexdigit`. -/
def hexdigit (x : Byte) (lowerCase : Bool) : Byte :=
  if x < 10 then 0x30 + x else (if lowerCase then 0x61 else 0x41) + x - 10

/-- The loops that write the digits of `n` from the end of a number buffer, in front of `digits`, when
there is `room` left. -/
def writeDigits (base : UInt64) (digit : UInt64 → Byte) : Nat → UInt64 → List Byte →
    Option (List Byte)
  | 0, n, digits => if n = 0 then some digits else none
  | room + 1, n, digits =>
    if n = 0 then some digits else writeDigits base digit room (n / base) (digit n :: digits)

/-- `'0' + char(N % 10)` -/
def decimalDigit (n : UInt64) : Byte := 0x30 + (n % 10).toUInt8

/-- The hexadecimal digit of `static_cast<unsigned char>(N) % 16`. -/
def hexadecimalDigit (lowerCase : Bool) (n : UInt64) : Byte := hexdigit (n.toUInt8 % 16) lowerCase

variable {σ : Type} [RawOstreamImpl σ]

/-- `operator<<(unsigned long)`. -/
def putUnsignedLong (os : RawOstream σ) (n : UInt64) : Option (RawOstream σ) :=
  if n = 0 then os.putChar 0x30
  else (writeDigits 10 decimalDigit 20 n []).bind os.write

/-- `operator<<(long)`. -/
def putLong (os : RawOstream σ) (n : Int64) : Option (RawOstream σ) :=
  if n < 0 then (os.putChar 0x2d).bind fun os => os.putUnsignedLong (-n.toUInt64)
  else os.putUnsignedLong n.toUInt64

/-- `operator<<(unsigned long long)`, where an `unsigned long` has `longBits` bits. -/
def putUnsignedLongLong (longBits : Nat) (os : RawOstream σ) (n : UInt64) : Option (RawOstream σ) :=
  if n.toNat = n.toNat % 2 ^ longBits then os.putUnsignedLong n
  else (writeDigits 10 decimalDigit 20 n []).bind os.write

/-- `operator<<(long long)`. -/
def putLongLong (longBits : Nat) (os : RawOstream σ) (n : Int64) : Option (RawOstream σ) :=
  if n < 0 then (os.putChar 0x2d).bind fun os => os.putUnsignedLongLong longBits (-n.toUInt64)
  else os.putUnsignedLongLong longBits n.toUInt64

/-- `write_hex`. -/
def writeHex (os : RawOstream σ) (n : UInt64) : Option (RawOstream σ) :=
  if n = 0 then os.putChar 0x30
  else (writeDigits 16 (hexadecimalDigit true) 16 n []).bind os.write

/-- `operator<<(const void*)`. -/
def putPointer (os : RawOstream σ) (p : UInt64) : Option (RawOstream σ) :=
  (os.putChar 0x30).bind fun os => (os.putChar 0x78).bind fun os => os.writeHex p

/-- A chain of `<<` on single characters. -/
def putChars (os : RawOstream σ) : List Byte → Option (RawOstream σ)
  | [] => some os
  | c :: cs => (os.putChar c).bind fun os => os.putChars cs

/-- `char('0' + (c & 7))` -/
def octalDigit (c : Byte) : Byte := 0x30 + (c &&& 7)

/-- What `write_escaped` writes for one character. -/
def escapeChar (useHexEscapes : Bool) (c : Byte) : List Byte :=
  if c = 0x5c then [0x5c, 0x5c]
  else if c = 0x09 then [0x5c, 0x74]
  else if c = 0x0a then [0x5c, 0x6e]
  else if c = 0x22 then [0x5c, 0x22]
  else if isprint c then [c]
  else if useHexEscapes then
    [0x5c, 0x78, hexdigit (c >>> 4 &&& 0xf) false, hexdigit (c &&& 0xf) false]
  else [0x5c, octalDigit (c >>> 6), octalDigit (c >>> 3), octalDigit c]

/-- `write_escaped`. -/
def writeEscaped (useHexEscapes : Bool) (os : RawOstream σ) : List Byte → Option (RawOstream σ)
  | [] => some os
  | c :: str => (os.putChars (escapeChar useHexEscapes c)).bind fun os =>
    os.writeEscaped useHexEscapes str

/-- `indent`: the spaces are taken from an array of 80. -/
def indent (os : RawOstream σ) (numSpaces : Nat) : Option (RawOstream σ) :=
  if numSpaces ≤ 80 then os.write (List.replicate numSpaces 0x20)
  else (os.write (List.replicate 80 0x20)).bind fun os => os.indent (numSpaces - 80)

/-- The loop of `operator<<(const format_object_base&)`. -/
def putFormatLoop (os : RawOstream σ) (fmt : FormatObject) (nextBufferSize : Nat) :
    Option (RawOstream σ) :=
  match fmt.print (UInt32.ofNat nextBufferSize) with
  | none => none
  | some (bytesUsed, stored) =>
    if bytesUsed.toNat ≤ nextBufferSize then os.write (stored.take bytesUsed.toNat)
    else os.putFormatLoop fmt bytesUsed.toNat
termination_by 2 ^ 32 - nextBufferSize
decreasing_by
  have hlt := bytesUsed.toNat_lt
  omega

/-- `operator<<(const format_object_base&)`, which passes the room as an `unsigned`. -/
def putFormat (os : RawOstream σ) (fmt : FormatObject) : Option (RawOstream σ) :=
  if 3 < os.room then
    match fmt.print (UInt32.ofNat os.room) with
    | none => none
    | some (bytesUsed, stored) =>
      if bytesUsed.toNat ≤ os.room then os.copyToBuffer (stored.take bytesUsed.toNat)
      else os.putFormatLoop fmt bytesUsed.toNat
  else os.putFormatLoop fmt 127

/-- `operator<<(const FormattedString&)`. -/
def putFormattedString (os : RawOstream σ) (fs : FormattedString) : Option (RawOstream σ) :=
  let len := UInt32.ofNat fs.str.length
  let padAmount := (fs.width - len).toInt32.toInt
  (if fs.rightJustify ∧ 0 < padAmount then os.indent padAmount.toNat else some os).bind fun os =>
    (os.put fs.str).bind fun os =>
      if ¬ fs.rightJustify ∧ 0 < padAmount then os.indent padAmount.toNat else some os

/-- The `NumberBuffer` of the hexadecimal case before the digits are written. -/
def numberBuffer (hexPrefix : Bool) : List Byte :=
  [0x30, if hexPrefix then 0x78 else 0x30] ++ List.replicate 16 0x30 ++ [0, 0]

/-- `operator<<(const FormattedNumber&)`. -/
def putFormattedNumber (os : RawOstream σ) (fn : FormattedNumber) : Option (RawOstream σ) :=
  if fn.hex then
    let nibbles := (64 - countLeadingZeros fn.hexValue + 3) / 4
    let prefixChars := if fn.hexPrefix then 2 else 0
    let width := max fn.width.toNat (nibbles + prefixChars)
    if (numberBuffer fn.hexPrefix).length < width then none
    else
      (writeDigits 16 (hexadecimalDigit !fn.upper) width fn.hexValue []).bind fun digits =>
        os.write ((numberBuffer fn.hexPrefix).take (width - digits.length) ++ digits)
  else if fn.decValue = 0 then
    (os.indent (fn.width - 1).toNat).bind fun os => os.putChar 0x30
  else
    let neg := fn.decValue < 0
    let n := if neg then -fn.decValue.toUInt64 else fn.decValue.toUInt64
    (writeDigits 10 decimalDigit 32 n []).bind fun digits =>
      let pad := (fn.width - UInt32.ofNat digits.length).toInt32.toInt
      let pad := if neg then pad - 1 else pad
      (if 0 < pad then os.indent pad.toNat else some os).bind fun os =>
        (if neg then os.putChar 0x2d else some os).bind fun os => os.write digits

end RawOstream

end Wpi

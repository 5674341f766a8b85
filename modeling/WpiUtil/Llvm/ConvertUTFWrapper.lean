import Mathlib.Algebra.Group.Nat.Defs
import WpiUtil.Llvm.ConvertUTF

/-!
# `ConvertUTFWrapper`

The conversions of whole strings. A result of `none` is a failed assertion.
-/

namespace Wpi.ConvertUTF

open ConversionResult ConversionFlags

/-- `ConvertCodePointToUTF8`, with the bytes between the two positions of `ResultPtr`. -/
def convertCodePointToUTF8 (source : UInt32) : Option (List UInt8) :=
  let c := convertUTF32toUTF8 [source] 4 strictConversion
  if c.result ≠ conversionOK then none else some c.target

def uniUtf16ByteOrderMarkNative : UInt16 := 0xfeff
def uniUtf16ByteOrderMarkSwapped : UInt16 := 0xfffe
def uniMaxUtf8BytesPerCodePoint : Nat := 4

def swapBytes (unit : UInt16) : UInt16 := (unit <<< 8) ||| (unit >>> 8)

/-- The loop over `ByteSwapped`, whose counter has 32 bits. -/
def byteSwapped (src : List UInt16) : List UInt16 :=
  let e := src.length % 2 ^ 32
  (src.take e).map swapBytes ++ src.drop e

/-- The source in the byte order of the machine. -/
def nativeOrder (src : List UInt16) : List UInt16 :=
  if src.head? = some uniUtf16ByteOrderMarkSwapped then byteSwapped src else src

/-- `Src` and what is behind it, where the conversion starts. -/
def skipByteOrderMark (src : List UInt16) : List UInt16 :=
  if (nativeOrder src).head? = some uniUtf16ByteOrderMarkNative then (nativeOrder src).tail
  else nativeOrder src

/-- What a string conversion makes of the result of the call in it. -/
def stringResult {α β : Type} (c : Conversion α β) : Option (Bool × List β) :=
  if c.result = targetExhausted then none
  else if c.result ≠ conversionOK then some (false, [])
  else some (true, c.target)

/-- The result with what is in `DstUTF8` afterwards. -/
def convertUTF16ToUTF8String (srcUTF16 : List UInt16) : Option (Bool × List UInt8) :=
  if srcUTF16.isEmpty then some (true, [])
  else
    stringResult (convertUTF16toUTF8 (skipByteOrderMark srcUTF16)
      (srcUTF16.length * uniMaxUtf8BytesPerCodePoint + 1) strictConversion)

/-- The result with what is in `DstUTF16` afterwards. -/
def convertUTF8ToUTF16String (srcUTF8 : List UInt8) : Option (Bool × List UInt16) :=
  if srcUTF8.isEmpty then some (true, [])
  else stringResult (convertUTF8toUTF16 srcUTF8 (srcUTF8.length + 1) strictConversion)

/-! ## What UTF-16 stands for -/

/-- The unit with its bytes in the other order. -/
def otherOrder (unit : UInt16) : UInt16 := UInt16.ofNat (unit.toNat % 256 * 256 + unit.toNat / 256)

/-- `src` stands for the units `v`: it has no byte order mark, or one in front, or one in front and
all of it in the other byte order. -/
inductive StandsFor (v : List UInt16) : List UInt16 → Prop where
  | plain (hnative : v.head? ≠ some 0xfeff) (hswapped : v.head? ≠ some 0xfffe) : StandsFor v v
  | marked : StandsFor v (0xfeff :: v)
  | swapped (hlength : v.length + 1 < 2 ^ 32) : StandsFor v ((0xfeff :: v).map otherOrder)

end Wpi.ConvertUTF

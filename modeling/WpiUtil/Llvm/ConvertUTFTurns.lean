import WpiUtil.Foundations.UnicodeForms
import WpiUtil.Llvm.ConvertUTF

/-!
# The turns of the loops of `ConvertUTF`

What each loop does with the source at the start of a turn, apart from the state of the target.
-/

namespace Wpi.ConvertUTF

open Foundations ConversionResult ConversionFlags

def turnUTF32toUTF16 (flags : ConversionFlags) (ch : UInt32) : Turn UInt16 ConversionResult :=
  if ch ≤ uniMaxBmp then
    if isSurrogate ch then
      if flags = strictConversion then .stop 1 sourceIllegal
      else .go 1 0 [uniReplacementChar.toUInt16] none
    else .go 1 0 [ch.toUInt16] none
  else if uniMaxLegalUtf32 < ch then
    if flags = strictConversion then .go 1 0 [] (some sourceIllegal)
    else .go 1 0 [uniReplacementChar.toUInt16] none
  else .go 2 0 (surrogatePair ch) none

def utf32toUTF16 (flags : ConversionFlags) : Converter UInt32 UInt16 ConversionResult :=
  ⟨fun ch _ => turnUTF32toUTF16 flags ch, targetExhausted⟩

/-- The loops that read UTF-16 differ in how they write a character. -/
def turnFromUTF16 {β : Type} (write : UInt32 → List β) (flags : ConversionFlags) (unit : UInt16)
    (units : List UInt16) : Turn β ConversionResult :=
  match readUTF16 flags (unit :: units) with
  | .error result => .stop 0 result
  | .ok (ch, rest) => .go (write ch).length (units.length - rest.length) (write ch) none

def utf16toUTF32 (flags : ConversionFlags) : Converter UInt16 UInt32 ConversionResult :=
  ⟨turnFromUTF16 (fun ch => [ch]) flags, targetExhausted⟩

/-- The bytes that a character is written as. -/
def bytesOf (ch : UInt32) : List UInt8 :=
  writeUTF8 (firstByteMark (bytesToWrite ch).1) ((bytesToWrite ch).1 - 1) (bytesToWrite ch).2 []

def utf16toUTF8 (flags : ConversionFlags) : Converter UInt16 UInt8 ConversionResult :=
  ⟨turnFromUTF16 bytesOf flags, targetExhausted⟩

def turnUTF32toUTF8 (flags : ConversionFlags) (ch : UInt32) : Turn UInt8 ConversionResult :=
  if flags = strictConversion ∧ isSurrogate ch then .stop 0 sourceIllegal
  else
    .go (bytesOf ch).length 0 (bytesOf ch)
      (if ch ≤ uniMaxLegalUtf32 then none else some sourceIllegal)

def utf32toUTF8 (flags : ConversionFlags) : Converter UInt32 UInt8 ConversionResult :=
  ⟨fun ch _ => turnUTF32toUTF8 flags ch, targetExhausted⟩

/-- The character that a legal sequence stands for. -/
def charOf (source : List UInt8) (extraBytesToRead : Nat) : UInt32 :=
  readUTF8 extraBytesToRead 0 source - offsetsFromUTF8 extraBytesToRead

/-- What the conversion to UTF-16 does with a character, and how many bytes are behind the first
one. -/
def turnOfChar16 (flags : ConversionFlags) (extra : Nat) (ch : UInt32) :
    Turn UInt16 ConversionResult :=
  if ch ≤ uniMaxBmp then
    if isSurrogate ch then
      if flags = strictConversion then .stop 1 sourceIllegal
      else .go 1 extra [uniReplacementChar.toUInt16] none
    else .go 1 extra [ch.toUInt16] none
  else if uniMaxUtf16 < ch then
    if flags = strictConversion then .stop 1 sourceIllegal
    else .go 1 extra [uniReplacementChar.toUInt16] none
  else .go 2 extra (surrogatePair ch) none

def turnUTF8toUTF16 (flags : ConversionFlags) (first : UInt8) (rest : List UInt8) :
    Turn UInt16 ConversionResult :=
  if (first :: rest).length ≤ trailingBytesForUTF8 first then .stop 0 sourceExhausted
  else if !isLegalUTF8 (first :: rest) (trailingBytesForUTF8 first + 1) then .stop 0 sourceIllegal
  else
    turnOfChar16 flags (trailingBytesForUTF8 first)
      (charOf (first :: rest) (trailingBytesForUTF8 first))

def utf8toUTF16 (flags : ConversionFlags) : Converter UInt8 UInt16 ConversionResult :=
  ⟨turnUTF8toUTF16 flags, targetExhausted⟩

/-- What the conversion to UTF-32 does with a character. -/
def turnOfChar32 (flags : ConversionFlags) (extra : Nat) (ch : UInt32) :
    Turn UInt32 ConversionResult :=
  if ch ≤ uniMaxLegalUtf32 then
    if isSurrogate ch then
      if flags = strictConversion then .stop 1 sourceIllegal
      else .go 1 extra [uniReplacementChar] none
    else .go 1 extra [ch] none
  else .go 1 extra [uniReplacementChar] (some sourceIllegal)

def turnUTF8toUTF32 (flags : ConversionFlags) (inputIsPartial : Bool) (first : UInt8)
    (rest : List UInt8) : Turn UInt32 ConversionResult :=
  if (first :: rest).length ≤ trailingBytesForUTF8 first then
    if flags = strictConversion ∨ inputIsPartial then .stop 0 sourceExhausted
    else
      .go 0 (findMaximalSubpartOfIllFormedUTF8Sequence (first :: rest) - 1) [uniReplacementChar]
        (some sourceIllegal)
  else if !isLegalUTF8 (first :: rest) (trailingBytesForUTF8 first + 1) then
    if flags = strictConversion then .stop 1 sourceIllegal
    else
      .go 1 (findMaximalSubpartOfIllFormedUTF8Sequence (first :: rest) - 1) [uniReplacementChar]
        (some sourceIllegal)
  else
    turnOfChar32 flags (trailingBytesForUTF8 first)
      (charOf (first :: rest) (trailingBytesForUTF8 first))

def utf8toUTF32 (flags : ConversionFlags) (inputIsPartial : Bool) :
    Converter UInt8 UInt32 ConversionResult :=
  ⟨turnUTF8toUTF32 flags inputIsPartial, targetExhausted⟩

end Wpi.ConvertUTF

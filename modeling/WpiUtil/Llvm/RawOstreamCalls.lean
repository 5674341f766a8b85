import WpiUtil.Foundations.BufferedOutput
import WpiUtil.Foundations.Numerals
import WpiUtil.Foundations.StringLiteral
import WpiUtil.Foundations.Transitions
import WpiUtil.Llvm.RawOstreamFormat

/-!
# What a `raw_ostream` is for

The public calls of an output stream, the text that each of them stands for, and what it means that a
function of the stream writes a text.
-/

namespace Wpi.RawOstream

open Foundations

variable {σ : Type}

/-- The three states of the buffer that the class documents, with less than `2 ^ 32` bytes. -/
structure Valid (os : RawOstream σ) : Prop where
  unbuffered : os.bufferMode = .unbuffered → os.outBuf = none
  buffered : ∀ b ∈ os.outBuf, b.size ≠ 0 ∧ b.size < 2 ^ 32 ∧ b.bytes.length ≤ b.size

section

variable [RawOstreamImpl σ]

/-- What a piece makes of the members of the subclass. -/
def push (sub : σ) (piece : List Byte) : σ := (RawOstreamImpl.writeImpl sub piece).1

/-- `text` has gone through the stream: from `os` it has become `os'`. -/
structure PassedOn (os : RawOstream σ) (text : List Byte) (os' : RawOstream σ) : Prop where
  valid : os'.Valid
  passes : Passes push os.sub os.held text os'.sub os'.held

/-- `text` has been written, and a stream without a buffer is still without one if the subclass has
not installed any. -/
structure Wrote (os : RawOstream σ) (text : List Byte) (os' : RawOstream σ) : Prop extends
    os.PassedOn text os' where
  stays : (∀ (sub : σ) piece, (RawOstreamImpl.writeImpl sub piece).2 = none) →
    os.bufferMode = .unbuffered → os'.bufferMode = .unbuffered

/-- In every valid state `f` writes `text`, and no assertion fails. -/
def Writes (f : RawOstream σ → Option (RawOstream σ)) (text : List Byte) : Prop :=
  ∀ os, os.Valid → ∃ os', f os = some os' ∧ os.Wrote text os'

/-! ## The public calls -/

/-- The public calls that have to do with what is written. -/
inductive Call where
  | flush
  | setBuffered
  | setBufferSize (size : Nat)
  | setUnbuffered
  | char (c : Byte)
  | writeChar (c : Byte)
  | string (str : List Byte)
  | write (data : List Byte)
  | indent (numSpaces : UInt32)
  | unsignedLong (n : UInt64)
  | long (n : Int64)
  | unsignedLongLong (longBits : Nat) (n : UInt64)
  | longLong (longBits : Nat) (n : Int64)
  | hex (n : UInt64)
  | pointer (p : UInt64)
  | escaped (useHexEscapes : Bool) (str : List Byte)
  | format (fmt : FormatObject)
  | formattedString (fs : FormattedString)
  | formattedNumber (fn : FormattedNumber)

namespace Call

def perform (call : Call) (os : RawOstream σ) : Option (RawOstream σ) :=
  match call with
  | flush => os.flush
  | setBuffered => os.setBuffered
  | setBufferSize size => os.setBufferSize size
  | setUnbuffered => os.setUnbuffered
  | char c => os.putChar c
  | writeChar c => os.writeChar c
  | string str => os.put str
  | write data => os.write data
  | indent numSpaces => os.indent numSpaces.toNat
  | unsignedLong n => os.putUnsignedLong n
  | long n => os.putLong n
  | unsignedLongLong longBits n => os.putUnsignedLongLong longBits n
  | longLong longBits n => os.putLongLong longBits n
  | hex n => os.writeHex n
  | pointer p => os.putPointer p
  | escaped useHexEscapes str => os.writeEscaped useHexEscapes str
  | format fmt => os.putFormat fmt
  | formattedString fs => os.putFormattedString fs
  | formattedNumber fn => os.putFormattedNumber fn

/-- The buffer is not set up anew. -/
def KeepsBuffer : Call → Prop
  | setBuffered | setBufferSize _ | setUnbuffered => False
  | _ => True

end Call

end

/-- An integer with its sign. -/
def integerText (n : Int) : List Byte := (if n < 0 then [0x2d] else []) ++ decimal n.natAbs

/-- Spaces before or after a text, up to a width. -/
def justified (right : Bool) (width : Nat) (text : List Byte) : List Byte :=
  let spaces := List.replicate (width - text.length) 0x20
  if right then spaces ++ text else text ++ spaces

/-- Hexadecimal digits with zeros before them, up to a width. -/
def hexText (upper hexPrefix : Bool) (width n : Nat) : List Byte :=
  let digits := numeral (digitByte !upper) 16 n
  let start : List Byte := if hexPrefix then [0x30, 0x78] else []
  start ++ List.replicate (width - (start.length + digits.length)) 0x30 ++ digits

/-- The text of a number of `Format.h`. -/
def FormattedNumber.text (fn : FormattedNumber) : List Byte :=
  if fn.hex then hexText fn.upper fn.hexPrefix fn.width.toNat fn.hexValue.toNat
  else justified true fn.width.toNat (integerText fn.decValue.toInt)

namespace Call

/-- The text that a call stands for. -/
def text : Call → List Byte
  | flush | setBuffered | setBufferSize _ | setUnbuffered => []
  | char c | writeChar c => [c]
  | string str | write str => str
  | indent numSpaces => List.replicate numSpaces.toNat 0x20
  | unsignedLong n | unsignedLongLong _ n => decimal n.toNat
  | long n | longLong _ n => integerText n.toInt
  | hex n => number true 16 n.toNat
  | pointer p => [0x30, 0x78] ++ number true 16 p.toNat
  | escaped useHexEscapes str => str.flatMap (escapeChar useHexEscapes)
  | format fmt => fmt.text
  | formattedString fs => justified fs.rightJustify fs.width.toNat fs.str
  | formattedNumber fn => FormattedNumber.text fn

/-- What the caller has to see to. A buffer is not empty and shorter than what `unsigned` can express,
and what `snprintf` writes is shorter than what `int` can express with one byte more. A width is an
`int` in the end, `format_hex` and `format_hex_no_prefix` bound it further, and a zero is not to be
written in a width of zero. -/
def Allowed : Call → Prop
  | setBufferSize size => size ≠ 0 ∧ size < 2 ^ 32
  | format fmt => fmt.text.length < 2 ^ 31 - 1
  | formattedString fs => fs.str.length < 2 ^ 31 ∧ fs.width.toNat < 2 ^ 31
  | formattedNumber fn =>
    if fn.hex then fn.width.toNat ≤ 18
    else fn.width.toNat < 2 ^ 31 ∧ (fn.decValue ≠ 0 ∨ fn.width ≠ 0)
  | _ => True

end Call

/-! ## String literals -/

/-- A character that `write_escaped` writes as the number that it is. -/
def escapedByCode (c : Byte) : Bool := c != 0x09 && c != 0x0a && !isprint c

/-- A character escaped by its code has a hexadecimal digit behind it. -/
def digitAfterCode : List Byte → Bool
  | [] => false
  | c :: str => escapedByCode c && str.head?.any (isDigitIn 16) || digitAfterCode str

end Wpi.RawOstream

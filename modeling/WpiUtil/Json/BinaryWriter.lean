import WpiUtil.Foundations.BigEndian
import WpiUtil.Json.Json

/-!
# Writing CBOR and MessagePack

The class `json::binary_writer`. What is written to the stream is the result.
-/

namespace Wpi.BinaryWriter

open Foundations

/-- `write_number<T>` for a `T` of `width` bytes. A conversion of `n` to `T` before the call keeps
these bytes. -/
def writeNumber (width n : Nat) : List Byte := bigEndian width n

/-! ## CBOR -/

/-- An argument with one, two, four or eight bytes, after the byte that announces its width. -/
def writeCborArgument (code8 code16 code32 code64 : Byte) (n : Nat) : List Byte :=
  if n ≤ 0xff then code8 :: writeNumber 1 n
  else if n ≤ 0xffff then code16 :: writeNumber 2 n
  else if n ≤ 0xffffffff then code32 :: writeNumber 4 n
  else code64 :: writeNumber 8 n

/-- A small argument is part of the first byte. -/
def writeCborHead (base : Nat) (code8 code16 code32 code64 : Byte) (n : Nat) : List Byte :=
  if n ≤ 0x17 then writeNumber 1 (base + n) else writeCborArgument code8 code16 code32 code64 n

/-- `write_cbor_string`. -/
def writeCborString (str : List Byte) : List Byte :=
  writeCborHead 0x60 0x78 0x79 0x7a 0x7b str.length ++ str

/-- The case `number_integer` of `write_cbor`. -/
def writeCborInteger (n : Int) : List Byte :=
  if 0 ≤ n then writeCborHead 0x00 0x18 0x19 0x1a 0x1b n.toNat
  else
    let positiveNumber := (-1 - n).toNat
    if -24 ≤ n then writeNumber 1 (0x20 + positiveNumber)
    else writeCborArgument 0x38 0x39 0x3a 0x3b positiveNumber

mutual

/-- `write_cbor`. -/
def writeCbor : Json → List Byte
  | .null => [0xf6]
  | .boolean b => [if b then 0xf5 else 0xf4]
  | .numberInteger n => writeCborInteger n.toInt
  | .numberUnsigned n => writeCborHead 0x00 0x18 0x19 0x1a 0x1b n.toNat
  | .numberFloat bits => 0xfb :: writeNumber 8 bits.toNat
  | .string s => writeCborString s
  | .array xs => writeCborHead 0x80 0x98 0x99 0x9a 0x9b xs.length ++ writeCborElements xs
  | .object ⟨table, items, _⟩ =>
    writeCborHead 0xa0 0xb8 0xb9 0xba 0xbb items ++ writeCborMembers table
  | .discarded => []

def writeCborElements : List Json → List Byte
  | [] => []
  | x :: xs => writeCbor x ++ writeCborElements xs

def writeCborMembers : List (Bucket Json) → List Byte
  | [] => []
  | .item _ key value :: bs => writeCborString key ++ writeCbor value ++ writeCborMembers bs
  | .empty :: bs => writeCborMembers bs
  | .tombstone :: bs => writeCborMembers bs

end

/-! ## MessagePack -/

/-- `write_msgpack_string`. -/
def writeMsgpackString (str : List Byte) : List Byte :=
  let n := str.length
  (if n ≤ 31 then writeNumber 1 (0xa0 ||| n)
    else if n ≤ 255 then 0xd9 :: writeNumber 1 n
    else if n ≤ 65535 then 0xda :: writeNumber 2 n
    else if n ≤ 4294967295 then 0xdb :: writeNumber 4 n
    else []) ++ str

/-- The case `number_unsigned` of `write_msgpack`, which the non-negative numbers of the case
`number_integer` share. -/
def writeMsgpackUnsigned (n : Nat) : List Byte :=
  if n < 128 then writeNumber 1 n
  else if n ≤ 0xff then 0xcc :: writeNumber 1 n
  else if n ≤ 0xffff then 0xcd :: writeNumber 2 n
  else if n ≤ 0xffffffff then 0xce :: writeNumber 4 n
  else 0xcf :: writeNumber 8 n

/-- The case `number_integer` of `write_msgpack`. -/
def writeMsgpackInteger (n : Int64) : List Byte :=
  if 0 ≤ n.toInt then writeMsgpackUnsigned n.toUInt64.toNat
  else if -32 ≤ n.toInt then writeNumber 1 n.toUInt64.toNat
  else if -2 ^ 7 ≤ n.toInt ∧ n.toInt < 2 ^ 7 then 0xd0 :: writeNumber 1 n.toUInt64.toNat
  else if -2 ^ 15 ≤ n.toInt ∧ n.toInt < 2 ^ 15 then 0xd1 :: writeNumber 2 n.toUInt64.toNat
  else if -2 ^ 31 ≤ n.toInt ∧ n.toInt < 2 ^ 31 then 0xd2 :: writeNumber 4 n.toUInt64.toNat
  else 0xd3 :: writeNumber 8 n.toUInt64.toNat

/-- The first bytes of an array. -/
def writeMsgpackArrayHead (n : Nat) : List Byte :=
  if n ≤ 15 then writeNumber 1 (0x90 ||| n)
  else if n ≤ 0xffff then 0xdc :: writeNumber 2 n
  else if n ≤ 0xffffffff then 0xdd :: writeNumber 4 n
  else []

/-- The first bytes of an object. -/
def writeMsgpackObjectHead (n : Nat) : List Byte :=
  if n ≤ 15 then writeNumber 1 (0x80 ||| (n &&& 0xf))
  else if n ≤ 65535 then 0xde :: writeNumber 2 n
  else if n ≤ 4294967295 then 0xdf :: writeNumber 4 n
  else []

mutual

/-- `write_msgpack`. -/
def writeMsgpack : Json → List Byte
  | .null => [0xc0]
  | .boolean b => [if b then 0xc3 else 0xc2]
  | .numberInteger n => writeMsgpackInteger n
  | .numberUnsigned n => writeMsgpackUnsigned n.toNat
  | .numberFloat bits => 0xcb :: writeNumber 8 bits.toNat
  | .string s => writeMsgpackString s
  | .array xs => writeMsgpackArrayHead xs.length ++ writeMsgpackElements xs
  | .object ⟨table, items, _⟩ => writeMsgpackObjectHead items ++ writeMsgpackMembers table
  | .discarded => []

def writeMsgpackElements : List Json → List Byte
  | [] => []
  | x :: xs => writeMsgpack x ++ writeMsgpackElements xs

def writeMsgpackMembers : List (Bucket Json) → List Byte
  | [] => []
  | .item _ key value :: bs =>
    writeMsgpackString key ++ writeMsgpack value ++ writeMsgpackMembers bs
  | .empty :: bs => writeMsgpackMembers bs
  | .tombstone :: bs => writeMsgpackMembers bs

end

end Wpi.BinaryWriter

namespace Wpi

namespace Json

/-- `to_cbor`. -/
def toCbor (j : Json) : List Byte := BinaryWriter.writeCbor j

/-- `to_msgpack`. -/
def toMsgpack (j : Json) : List Byte := BinaryWriter.writeMsgpack j

end Json

end Wpi

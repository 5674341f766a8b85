import WpiUtil.Foundations.BigEndian
import WpiUtil.Foundations.Binary64
import WpiUtil.Json.Exceptions
import WpiUtil.Json.Json

/-!
# Reading CBOR and MessagePack

The class `binary_reader`. A `result[key] = parse_cbor()` is an assignment after the value has been
read: nothing is left of `result` when the reader throws.
-/

namespace Wpi

open Foundations

/-- A `binary_reader`: `current` is `none` at the end of the input. -/
structure BinaryReader (σ : Type) where
  is : σ
  current : Option Byte
  charsRead : Nat

namespace BinaryReader

variable {σ : Type} [ByteSource σ]

/-- A member function: it returns a value or throws, and changes the reader either way. -/
abbrev Action (σ α : Type) := ExceptT Failure (StateM (BinaryReader σ)) α

def new (is : σ) : BinaryReader σ := ⟨is, none, 0⟩

/-- `get`. -/
def get : Action σ (Option Byte) := do
  let br : BinaryReader σ ← MonadState.get
  let (data, is) := RawIstream.read br.is 1
  let current := if RawIstream.hasError is then none else data.head?
  set ({ is := is, current := current, charsRead := br.charsRead + 1 } : BinaryReader σ)
  return current

def getCurrent : Action σ (Option Byte) := do
  let br : BinaryReader σ ← MonadState.get
  return br.current

def throwParseError (id : Nat) (whatArg : List Byte) : Action σ α := do
  let br : BinaryReader σ ← MonadState.get
  throw (.thrown (parseError id br.charsRead whatArg))

/-- `check_eof`: the current character, if there is one. -/
def checkEof : Action σ Byte := do
  let br : BinaryReader σ ← MonadState.get
  match br.current with
  | none => throwParseError 110 (bytes "unexpected end of input")
  | some c => return c

/-- `get_number<T>` for a `T` of `width` bytes: they arrive most significant byte first, after those
that make up `acc`. -/
def getBytes : Nat → Nat → Action σ Nat
  | 0, acc => return acc
  | width + 1, acc => do
    let _ ← get
    let c ← checkEof
    getBytes width (acc * 256 + c.toNat)

def getNumber (width : Nat) : Action σ Nat := getBytes width 0

/-- The loop of `get_string`. -/
def getStringLoop : Nat → List Byte → Action σ (List Byte)
  | 0, result => return result
  | len + 1, result => do
    let _ ← get
    let c ← checkEof
    getStringLoop len (result ++ [c])

/-- `get_string`. -/
def getString (len : Nat) : Action σ (List Byte) := getStringLoop len []

/-! ## The loops that fill containers -/

/-- `for (size_t i = 0; i < len; ++i) result.push_back(…)`. -/
def readElements (item : Action σ Json) : Nat → List Json → Action σ Json
  | 0, result => return .array result
  | len + 1, result => do
    let j ← item
    readElements item len (result ++ [j])

/-- `for (size_t i = 0; i < len; ++i) { get(); auto key = …; result[key] = …; }`. -/
def readMembers (key : Action σ (List Byte)) (item : Action σ Json) :
    Nat → StringMap Json → Action σ Json
  | 0, result => return .object result
  | len + 1, result => do
    let _ ← get
    let k ← key
    let j ← item
    readMembers key item len (Json.assign result k j)

/-- `while (get() != 0xff) result.push_back(…)`. -/
def readElementsUntil (item : Action σ Json) : Nat → List Json → Action σ Json
  | 0, _ => throw .outOfFuel
  | fuel + 1, result => do
    let c ← get
    if c = some 0xff then return .array result
    else
      let j ← item
      readElementsUntil item fuel (result ++ [j])

/-- `while (get() != 0xff) { auto key = …; result[key] = …; }`. -/
def readMembersUntil (key : Action σ (List Byte)) (item : Action σ Json) :
    Nat → StringMap Json → Action σ Json
  | 0, _ => throw .outOfFuel
  | fuel + 1, result => do
    let c ← get
    if c = some 0xff then return .object result
    else
      let k ← key
      let j ← item
      readMembersUntil key item fuel (Json.assign result k j)

/-! ## CBOR -/

/-- The loop of `get_cbor_string` over the bytes of a string of indefinite length. -/
def getStringUntil : Nat → List Byte → Action σ (List Byte)
  | 0, _ => throw .outOfFuel
  | fuel + 1, result => do
    let c ← get
    if c = some 0xff then return result
    else
      let c ← checkEof
      getStringUntil fuel (result ++ [c])

/-- `get_cbor_string`. -/
def getCborString (fuel : Nat) : Action σ (List Byte) := do
  let current ← checkEof
  let c := current.toNat
  if 0x60 ≤ c ∧ c ≤ 0x77 then getString (c &&& 0x1f)
  else if c = 0x78 then do getString (← getNumber 1)
  else if c = 0x79 then do getString (← getNumber 2)
  else if c = 0x7a then do getString (← getNumber 4)
  else if c = 0x7b then do getString (← getNumber 8)
  else if c = 0x7f then getStringUntil fuel []
  else throwParseError 113 (bytes "expected a CBOR string; last byte: " ++ formatHex c)

/-- `-1 - n` in `int64_t`. -/
def negative (n : Nat) : Json := .numberInteger (-1 - Int64.ofNat n)

/-- The `switch` of `parse_cbor` for the character `c`, with `parse` for the recursive calls. -/
def parseCborItem (fuel : Nat) (parse : Bool → Action σ Json) (c : Nat) : Action σ Json :=
  let elements := readElements (parse true)
  let members := readMembers (getCborString fuel) (parse true)
  if c ≤ 0x17 then return .numberUnsigned (UInt64.ofNat c)
  else if c = 0x18 then do return .numberUnsigned (UInt64.ofNat (← getNumber 1))
  else if c = 0x19 then do return .numberUnsigned (UInt64.ofNat (← getNumber 2))
  else if c = 0x1a then do return .numberUnsigned (UInt64.ofNat (← getNumber 4))
  else if c = 0x1b then do return .numberUnsigned (UInt64.ofNat (← getNumber 8))
  else if 0x20 ≤ c ∧ c ≤ 0x37 then
    return .numberInteger (Int8.ofInt (0x20 - 1 - (c : Int))).toInt64
  else if c = 0x38 then do return negative (← getNumber 1)
  else if c = 0x39 then do return negative (← getNumber 2)
  else if c = 0x3a then do return negative (← getNumber 4)
  else if c = 0x3b then do return negative (← getNumber 8)
  else if 0x60 ≤ c ∧ c ≤ 0x7b ∨ c = 0x7f then do return .string (← getCborString fuel)
  else if 0x80 ≤ c ∧ c ≤ 0x97 then elements (c &&& 0x1f) []
  else if c = 0x98 then do elements (← getNumber 1) []
  else if c = 0x99 then do elements (← getNumber 2) []
  else if c = 0x9a then do elements (← getNumber 4) []
  else if c = 0x9b then do elements (← getNumber 8) []
  else if c = 0x9f then readElementsUntil (parse false) fuel []
  else if 0xa0 ≤ c ∧ c ≤ 0xb7 then members (c &&& 0x1f) .empty
  else if c = 0xb8 then do members (← getNumber 1) .empty
  else if c = 0xb9 then do members (← getNumber 2) .empty
  else if c = 0xba then do members (← getNumber 4) .empty
  else if c = 0xbb then do members (← getNumber 8) .empty
  else if c = 0xbf then
    readMembersUntil (getCborString fuel) (parse true) fuel .empty
  else if c = 0xf4 then return .boolean false
  else if c = 0xf5 then return .boolean true
  else if c = 0xf6 then return .null
  else if c = 0xf9 then do return .numberFloat (Binary64.ofHalf (← getNumber 2))
  else if c = 0xfa then do return .numberFloat (Binary64.ofSingle (← getNumber 4))
  else if c = 0xfb then do return .numberFloat (UInt64.ofNat (← getNumber 8))
  else throwParseError 112 (bytes "error reading CBOR; last byte: " ++ formatHex c)

/-- `parse_cbor`. Every nested call and every round of a loop over a container of indefinite length
reads a byte, so `fuel` bounds both. -/
def parseCbor : Nat → Bool → Action σ Json
  | 0, _ => throw .outOfFuel
  | fuel + 1, getChar => do
    let current ← if getChar then get else getCurrent
    match current with
    | none => throwParseError 110 (bytes "unexpected end of input")
    | some c => parseCborItem fuel (parseCbor fuel) c.toNat

/-! ## MessagePack -/

/-- `get_msgpack_string`. -/
def getMsgpackString : Action σ (List Byte) := do
  let current ← checkEof
  let c := current.toNat
  if 0xa0 ≤ c ∧ c ≤ 0xbf then getString (c &&& 0x1f)
  else if c = 0xd9 then do getString (← getNumber 1)
  else if c = 0xda then do getString (← getNumber 2)
  else if c = 0xdb then do getString (← getNumber 4)
  else throwParseError 113 (bytes "expected a MessagePack string; last byte: " ++ formatHex c)

/-- The `switch` of `parse_msgpack` for the character `c`. -/
def parseMsgpackItem (parse : Action σ Json) (c : Nat) : Action σ Json :=
  let elements := readElements parse
  let members := readMembers getMsgpackString parse
  if c ≤ 0x7f then return .numberUnsigned (UInt64.ofNat c)
  else if c ≤ 0x8f then members (c &&& 0x0f) .empty
  else if c ≤ 0x9f then elements (c &&& 0x0f) []
  else if c ≤ 0xbf then do return .string (← getMsgpackString)
  else if c = 0xc0 then return .null
  else if c = 0xc2 then return .boolean false
  else if c = 0xc3 then return .boolean true
  else if c = 0xca then do return .numberFloat (Binary64.ofSingle (← getNumber 4))
  else if c = 0xcb then do return .numberFloat (UInt64.ofNat (← getNumber 8))
  else if c = 0xcc then do return .numberUnsigned (UInt64.ofNat (← getNumber 1))
  else if c = 0xcd then do return .numberUnsigned (UInt64.ofNat (← getNumber 2))
  else if c = 0xce then do return .numberUnsigned (UInt64.ofNat (← getNumber 4))
  else if c = 0xcf then do return .numberUnsigned (UInt64.ofNat (← getNumber 8))
  else if c = 0xd0 then do return .numberInteger (Int8.ofNat (← getNumber 1)).toInt64
  else if c = 0xd1 then do return .numberInteger (Int16.ofNat (← getNumber 2)).toInt64
  else if c = 0xd2 then do return .numberInteger (Int32.ofNat (← getNumber 4)).toInt64
  else if c = 0xd3 then do return .numberInteger (Int64.ofNat (← getNumber 8))
  else if 0xd9 ≤ c ∧ c ≤ 0xdb then do return .string (← getMsgpackString)
  else if c = 0xdc then do elements (← getNumber 2) []
  else if c = 0xdd then do elements (← getNumber 4) []
  else if c = 0xde then do members (← getNumber 2) .empty
  else if c = 0xdf then do members (← getNumber 4) .empty
  else if 0xe0 ≤ c then return .numberInteger (Int8.ofNat c).toInt64
  else throwParseError 112 (bytes "error reading MessagePack; last byte: " ++ formatHex c)

/-- `parse_msgpack`, with `fuel` for the nested calls. -/
def parseMsgpack : Nat → Action σ Json
  | 0 => throw .outOfFuel
  | fuel + 1 => do
    match ← get with
    | none => throwParseError 110 (bytes "unexpected end of input")
    | some c => parseMsgpackItem (parseMsgpack fuel) c.toNat

end BinaryReader

namespace Json

variable {σ : Type} [ByteSource σ]

/-- `from_cbor`: the value or the exception, and the stream afterwards. -/
def fromCbor (is : σ) : Except Failure Json × σ :=
  let (result, br) := (BinaryReader.parseCbor ((ByteSource.content is).length + 1) true).run.run
    (BinaryReader.new is)
  (result, br.is)

/-- `from_msgpack`. -/
def fromMsgpack (is : σ) : Except Failure Json × σ :=
  let (result, br) := (BinaryReader.parseMsgpack ((ByteSource.content is).length + 1)).run.run
    (BinaryReader.new is)
  (result, br.is)

/-- `from_msgpack(llvm::StringRef)`. -/
def fromMsgpackString (s : List Byte) : Except Failure Json :=
  (fromMsgpack (RawMemIstream.ofBytes s)).1

end Json

end Wpi

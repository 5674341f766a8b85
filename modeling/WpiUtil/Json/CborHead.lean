import WpiUtil.Json.BinaryReader

/-!
# The heads of CBOR

An item of CBOR begins with a major type and an argument: the argument is part of the first byte, or
one, two, four or eight bytes follow for it.
-/

namespace Wpi

namespace Cbor

open Foundations

/-- The major types that `parse_cbor` accepts, without those of the simple values and floats. -/
inductive MajorType where
  | unsigned
  | negative
  | text
  | array
  | map
  deriving DecidableEq

def MajorType.code : MajorType → Nat
  | unsigned => 0
  | negative => 1
  | text => 3
  | array => 4
  | map => 5

/-- How many bytes follow the first one. -/
inductive HeadWidth where
  | immediate
  | one
  | two
  | four
  | eight
  deriving DecidableEq

namespace HeadWidth

def length : HeadWidth → Nat
  | immediate => 0
  | one => 1
  | two => 2
  | four => 4
  | eight => 8

/-- What the first byte has next to the major type. -/
def info : HeadWidth → Nat → Nat
  | immediate, n => n
  | one, _ => 0x18
  | two, _ => 0x19
  | four, _ => 0x1a
  | eight, _ => 0x1b

/-- The head can express the argument `n`. -/
def Fits : HeadWidth → Nat → Prop
  | immediate, n => n ≤ 0x17
  | one, n => n < 2 ^ 8
  | two, n => n < 2 ^ 16
  | four, n => n < 2 ^ 32
  | eight, n => n < 2 ^ 64

end HeadWidth

/-- The head with the argument `n`. -/
def head (major : MajorType) (width : HeadWidth) (n : Nat) : List Byte :=
  UInt8.ofNat (0x20 * major.code + width.info n) :: bigEndian width.length n

end Cbor

namespace BinaryReader

open Cbor

variable {σ : Type} [ByteSource σ]

/-- What is left of `parse_cbor` after a head. -/
def afterHead (fuel : Nat) : MajorType → Nat → Action σ Json
  | .unsigned, n => return .numberUnsigned (UInt64.ofNat n)
  | .negative, n => return negative n
  | .text, n => do return .string (← getString n)
  | .array, n => readElements (parseCbor fuel true) n []
  | .map, n => readMembers (getCborString fuel) (parseCbor fuel true) n .empty

end BinaryReader

namespace Json

open Cbor

/-- `from_cbor(llvm::StringRef)`. -/
def fromCborString (s : List Byte) : Except Failure Json := (fromCbor (RawMemIstream.ofBytes s)).1

/-- An item that begins with the head is read as the integer `n`. -/
def ReadsUnsigned (width : HeadWidth) (n : Nat) : Prop :=
  ∀ rest, ∃ j, fromCborString (head .unsigned width n ++ rest) = .ok j ∧ j.denote = .integer n

/-- An item that begins with the head is read as the integer `-1 - n`, or not at all when no
`int64_t` has this value. -/
def ReadsNegative (width : HeadWidth) (n : Nat) : Prop :=
  ∀ rest, if -2 ^ 63 ≤ -1 - (n : Int) then
      ∃ j, fromCborString (head .negative width n ++ rest) = .ok j ∧ j.denote = .integer (-1 - n)
    else
      ∃ e, fromCborString (head .negative width n ++ rest) = .error (.thrown e) ∧
        e.type = .parseError

/-- The width of the head does not matter for a string, an array or a map of length `n`. -/
def ReadsAlike (n : Nat) : Prop :=
  ∀ major ∈ [MajorType.text, .array, .map], ∀ width width' : HeadWidth, width.Fits n →
    width'.Fits n → ∀ rest j, fromCborString (head major width n ++ rest) = .ok j ↔
      fromCborString (head major width' n ++ rest) = .ok j

end Json

end Wpi

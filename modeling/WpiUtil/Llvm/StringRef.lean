import Mathlib.Data.List.DropRight
import WpiUtil.Support.RawIstream

/-!
# `StringRef`

The operations on strings that the parsers use.
-/

namespace Wpi.StringRef

/-- `find(C)`. -/
def find (s : List Byte) (c : Byte) : Option Nat := s.findIdx? (· == c)

/-- `rfind(C)`. -/
def rfind (s : List Byte) (c : Byte) : Option Nat := (find s.reverse c).map (s.length - 1 - ·)

/-- `split(Separator)`, around the first separator. Without one, the second part is empty. -/
def split (s : List Byte) (separator : Byte) : List Byte × List Byte :=
  match find s separator with
  | none => (s, [])
  | some idx => (s.take idx, s.drop (idx + 1))

/-- `rsplit(Separator)`, around the last separator. -/
def rsplit (s : List Byte) (separator : Byte) : List Byte × List Byte :=
  match rfind s separator with
  | none => (s, [])
  | some idx => (s.take idx, s.drop (idx + 1))

/-- `" \t\n\v\f\r"`, what the trimming functions remove. -/
def whitespace : List Byte := [0x20, 0x09, 0x0a, 0x0b, 0x0c, 0x0d]

def ltrim (s : List Byte) : List Byte := s.dropWhile whitespace.contains

def rtrim (s : List Byte) : List Byte := s.rdropWhile whitespace.contains

/-- `ascii_tolower`. -/
def asciiTolower (x : Byte) : Byte := if 0x41 ≤ x ∧ x ≤ 0x5a then x - 0x41 + 0x61 else x

/-- `equals_lower`. -/
def equalsLower (s rhs : List Byte) : Bool := s.map asciiTolower == rhs.map asciiTolower

/-- `startswith`. -/
def startswith (s pre : List Byte) : Bool := pre.isPrefixOf s

/-- The value of a digit or letter as a digit of `getAsUnsignedInteger`. -/
def charVal (c : Byte) : Option UInt64 :=
  if 0x30 ≤ c ∧ c ≤ 0x39 then some (c - 0x30).toUInt64
  else if 0x61 ≤ c ∧ c ≤ 0x7a then some ((c - 0x61).toUInt64 + 10)
  else if 0x41 ≤ c ∧ c ≤ 0x5a then some ((c - 0x41).toUInt64 + 10)
  else none

/-- The loop of `getAsUnsignedInteger`, which checks for overflow by shifting back. -/
def getAsUnsignedLoop (radix : UInt64) : List Byte → UInt64 → Option UInt64
  | [], result => some result
  | c :: str, prevResult =>
    match charVal c with
    | none => none
    | some charVal =>
      if radix ≤ charVal then none
      else
        let result := prevResult * radix + charVal
        if result / radix < prevResult then none else getAsUnsignedLoop radix str result

/-- `getAsUnsignedInteger`, for a radix that is not zero. -/
def getAsUnsignedInteger (str : List Byte) (radix : UInt64) : Option UInt64 :=
  if str = [] then none else getAsUnsignedLoop radix str 0

/-- `getAsSignedInteger`. -/
def getAsSignedInteger (str : List Byte) (radix : UInt64) : Option Int64 :=
  if str.head? ≠ some 0x2d then
    match getAsUnsignedInteger str radix with
    | none => none
    | some value => if value.toInt64 < 0 then none else some value.toInt64
  else
    match getAsUnsignedInteger str.tail radix with
    | none => none
    | some value => if 0 < (-value).toInt64 then none else some (-value).toInt64

/-- `getAsInteger` for an `int`. -/
def getAsInteger (str : List Byte) (radix : UInt64) : Option Int32 :=
  match getAsSignedInteger str radix with
  | none => none
  | some value => if value.toInt32.toInt64 ≠ value then none else some value.toInt32

end Wpi.StringRef

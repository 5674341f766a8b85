import WpiUtil.Json.Exceptions
import WpiUtil.Json.Json
import WpiUtil.Support.Cstdlib

/-!
# Writing JSON texts

The class `json::serializer`. What is written to the stream is the result.
-/

namespace Wpi

open Foundations

/-- `llvm::hexdigit`. -/
def hexdigit (x : Nat) (lowerCase : Bool) : Byte :=
  let hexChar := if lowerCase then 0x61 else 0x41
  UInt8.ofNat (if x < 10 then 0x30 + x else hexChar + x - 10)

namespace Serializer

/-! ## Strings -/

/-- What the loop of `dump_escaped` writes for one character. -/
def escape (c : Byte) : List Byte :=
  if c = 0x22 then [0x5c, 0x22]
  else if c = 0x5c then [0x5c, 0x5c]
  else if c = 0x08 then [0x5c, 0x62]
  else if c = 0x0c then [0x5c, 0x66]
  else if c = 0x0a then [0x5c, 0x6e]
  else if c = 0x0d then [0x5c, 0x72]
  else if c = 0x09 then [0x5c, 0x74]
  else if c ≤ 0x1f then
    [0x5c, 0x75, 0x30, 0x30, hexdigit (c.toNat / 16) true, hexdigit (c.toNat % 16) true]
  else [c]

/-- `dump_escaped`. -/
def dumpEscaped (s : List Byte) : List Byte := s.flatMap escape

/-! ## Numbers -/

/-- `operator<<` for `unsigned long long`. -/
def dumpUnsigned (n : Nat) : List Byte := Foundations.decimal n

/-- `operator<<` for `long long`. -/
def dumpInteger (n : Int) : List Byte := (if n < 0 then [0x2d] else []) ++ dumpUnsigned n.natAbs

/-- `dump_float`. -/
def dumpFloat (x : UInt64) : List Byte :=
  if !Binary64.isFinite x || Binary64.isNaN x then bytes "null"
  else if Binary64.eq x 0 then
    if 2 ^ 63 ≤ x.toNat then bytes "-0.0" else bytes "0.0"
  else
    let numberBuffer := snprintfG 15 x
    let valueIsIntLike := numberBuffer.all fun c => c != 0x2e && c != 0x65
    numberBuffer ++ if valueIsIntLike then bytes ".0" else []

/-! ## Values -/

/-- `raw_ostream::indent`. -/
def indent (numSpaces : UInt32) : List Byte := List.replicate numSpaces.toNat 0x20

/-- The first `n - 1` texts with a separator after each, and the last one. -/
def separated (n : Nat) (separator : List Byte) (texts : List (List Byte)) : List Byte :=
  ((texts.take (n - 1)).flatMap fun text => text ++ separator) ++ texts.getD (n - 1) []

/-- The indentation at the start of a line. -/
def lineStart (prettyPrint : Bool) (currentIndent : UInt32) : List Byte :=
  if prettyPrint then indent currentIndent else []

mutual

def dump (prettyPrint : Bool) (indentStep currentIndent : UInt32) : Json → List Byte
  | .object ⟨table, items, _⟩ =>
    if items = 0 then bytes "\x7b\x7d"
    else if prettyPrint then
      let newIndent := currentIndent + indentStep
      bytes "\x7b\n" ++ separated items (bytes ",\n") (dumpMembers true indentStep newIndent table) ++
        bytes "\n" ++ indent currentIndent ++ bytes "\x7d"
    else
      bytes "\x7b" ++
        separated items (bytes ",") (dumpMembers false indentStep currentIndent table) ++
        bytes "\x7d"
  | .array xs =>
    if xs = [] then bytes "[]"
    else if prettyPrint then
      let newIndent := currentIndent + indentStep
      bytes "[\n" ++
        separated xs.length (bytes ",\n") (dumpElements true indentStep newIndent xs) ++
        bytes "\n" ++ indent currentIndent ++ bytes "]"
    else
      bytes "[" ++
        separated xs.length (bytes ",") (dumpElements false indentStep currentIndent xs) ++
        bytes "]"
  | .string s => bytes "\"" ++ dumpEscaped s ++ bytes "\""
  | .boolean b => if b then bytes "true" else bytes "false"
  | .numberInteger n => dumpInteger n.toInt
  | .numberUnsigned n => dumpUnsigned n.toNat
  | .numberFloat x => dumpFloat x
  | .discarded => bytes "<discarded>"
  | .null => bytes "null"

/-- What is written for each element, without the separators. -/
def dumpElements (prettyPrint : Bool) (indentStep currentIndent : UInt32) :
    List Json → List (List Byte)
  | [] => []
  | x :: xs =>
    (lineStart prettyPrint currentIndent ++ dump prettyPrint indentStep currentIndent x) ::
      dumpElements prettyPrint indentStep currentIndent xs

/-- What is written for each member, without the separators. -/
def dumpMembers (prettyPrint : Bool) (indentStep currentIndent : UInt32) :
    List (Bucket Json) → List (List Byte)
  | [] => []
  | .item _ key value :: bs =>
    (lineStart prettyPrint currentIndent ++ bytes "\"" ++ dumpEscaped key ++
      (if prettyPrint then bytes "\": " else bytes "\":") ++
      dump prettyPrint indentStep currentIndent value) ::
        dumpMembers prettyPrint indentStep currentIndent bs
  | .empty :: bs => dumpMembers prettyPrint indentStep currentIndent bs
  | .tombstone :: bs => dumpMembers prettyPrint indentStep currentIndent bs

end

end Serializer

/-- `json::dump`. -/
def Json.dump (j : Json) (indent : Int32) : List Byte :=
  if 0 ≤ indent then Serializer.dump true indent.toUInt32 0 j else Serializer.dump false 0 0 j

end Wpi

import WpiUtil.Foundations.JsonText
import WpiUtil.Json.Parser

/-!
# What a JSON text stands for

The value of a syntax tree, and what a parser with a callback makes of the tree.
-/

namespace Wpi

open Foundations
open Foundations.JsonText (Numeral Tree)

namespace ParseTree

/-! ## Values -/

/-- The number is an integer that one of the two integer types can hold. -/
def fits (n : Numeral) : Bool := n.isInteger && decide (-2 ^ 63 ≤ n.toInt ∧ n.toInt < 2 ^ 64)

def numberValue (n : Numeral) : Value :=
  if fits n then .integer n.toInt else .float n.toDouble

/-- The number as a `json`. -/
def numberJson (n : Numeral) : Json :=
  if fits n then
    if n.negative then .numberInteger (Int64.ofInt n.toInt)
    else .numberUnsigned (UInt64.ofNat n.toInt.toNat)
  else .numberFloat n.toDouble

mutual

def value : Tree → Value
  | .null => .null
  | .boolean b => .boolean b
  | .number n => numberValue n
  | .string cs => .string (Utf8.encode cs)
  | .array ts => .array (elements ts)
  | .object ms => .object (members ms)

def elements : List Tree → List Value
  | [] => []
  | t :: ts => value t :: elements ts

/-- The last member with a name counts. -/
def members : List (List Char × Tree) → Key → Option Value
  | [], _ => none
  | (cs, t) :: ms, key =>
    match members ms key with
    | some x => some x
    | none => if key = Utf8.encode cs then some (value t) else none

end

mutual

/-- Every number that is not held as an integer is a finite double. -/
def Finite : Tree → Prop
  | .null => True
  | .boolean _ => True
  | .number n => fits n = false → Binary64.isFinite n.toDouble = true
  | .string _ => True
  | .array ts => FiniteElements ts
  | .object ms => FiniteMembers ms

def FiniteElements : List Tree → Prop
  | [] => True
  | t :: ts => Finite t ∧ FiniteElements ts

def FiniteMembers : List (List Char × Tree) → Prop
  | [] => True
  | (_, t) :: ms => Finite t ∧ FiniteMembers ms

end

mutual

/-- `P` holds of the names of all members. -/
def Names (P : Key → Prop) : Tree → Prop
  | .null => True
  | .boolean _ => True
  | .number _ => True
  | .string _ => True
  | .array ts => NamesElements P ts
  | .object ms => NamesMembers P ms

def NamesElements (P : Key → Prop) : List Tree → Prop
  | [] => True
  | t :: ts => Names P t ∧ NamesElements P ts

def NamesMembers (P : Key → Prop) : List (List Char × Tree) → Prop
  | [] => True
  | (cs, t) :: ms => P (Utf8.encode cs) ∧ Names P t ∧ NamesMembers P ms

end

/-- The names have lengths that `unsigned` can express. -/
abbrev ShortNames : Tree → Prop := Names fun key => key.length < 2 ^ 32

/-- The text up to its first zero byte, where the lexer sees the end of the input. -/
def untilNul (s : List Byte) : List Byte := s.takeWhile (· ≠ 0)

/-- A `StringMap` has room for the members of an object in the text, whether or not the text is a
JSON text: there are not too many colons, and an entry has room for every string in front of one. -/
def TextFits (s : List Byte) : Prop :=
  s.count 0x3a ≤ StringMap.maxItems ∧
    ∀ k cs k' x, 0x22 :: k <:+ s → JsonText.Characters k cs k' → JsonText.Blanks k' (0x3a :: x) →
      Json.EntryFits (Utf8.encode cs)

/-! ## Parsing with a callback -/

open Wpi.Parser (pushBack assignMember)

mutual

/-- What `parse_internal` does for the text of a tree. -/
def eval (cb : Option ParserCallback) (keep : Bool) : Tree → StateM Calls Json
  | .null => Calls.endValue cb keep .null
  | .boolean b => Calls.endValue cb keep (.boolean b)
  | .number n => Calls.endValue cb keep (numberJson n)
  | .string cs => Calls.endValue cb keep (.string (Utf8.encode cs))
  | .array ts => do
    let (keep, result) ← Calls.startContainer cb .arrayStart Json.emptyArray keep
    let result ← evalElements cb keep result ts
    Calls.endContainer cb .arrayEnd (keep || ts.isEmpty) result
  | .object ms => do
    let (keep, result) ← Calls.startContainer cb .objectStart Json.emptyObject keep
    let result ← evalMembers cb keep result ms
    Calls.endContainer cb .objectEnd keep result

def evalElements (cb : Option ParserCallback) (keep : Bool) (result : Json) :
    List Tree → StateM Calls Json
  | [] => return result
  | t :: ts => do
    let value ← eval cb keep t
    evalElements cb keep (if keep && !value.isDiscarded then pushBack result value else result) ts

def evalMembers (cb : Option ParserCallback) (keep : Bool) (result : Json) :
    List (List Char × Tree) → StateM Calls Json
  | [] => return result
  | (cs, t) :: ms => do
    let keepTag ← Calls.keepTag cb keep (Utf8.encode cs)
    let value ← eval cb keep t
    evalMembers cb keep (if keep && keepTag && !value.isDiscarded then
      assignMember result (Utf8.encode cs) value else result) ms

end

end ParseTree

end Wpi

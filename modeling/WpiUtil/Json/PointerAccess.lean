import WpiUtil.Json.JsonPointer

/-!
# Access through JSON pointers

The loops of `json_pointer` behind `at` and `operator[]`. A reference to an element is its location
in the document. An access through a `pointer` may change the document, one through a
`const_pointer` does not.
-/

namespace Wpi

open Foundations

/-- From a value to one of its elements. -/
inductive Step where
  | index (i : Nat)
  | key (k : Key)
deriving DecidableEq

abbrev Location := List Step

namespace Json

/-- The element that a step leads to. -/
def element : Json → Step → Json
  | .array xs, .index i => xs.getD i .null
  | .object m, .key k => (m.lookup? k).getD .null
  | _, _ => .null

/-- The value after the element has become `x`. -/
def setElement : Json → Step → Json → Json
  | .array xs, .index i, x => .array (xs.set i x)
  | .object m, .key k, x => .object (assign m k x)
  | j, _, _ => j

/-! ## Exceptions -/

def pastTheEnd (xs : List Json) : Failure :=
  .thrown <| outOfRange 402
    (bytes "array index '-' (" ++ Wpi.decimal xs.length ++ bytes ") is out of range")

def leadingZero (referenceToken : Key) : Failure :=
  .thrown <| parseError 106 0
    (bytes "array index '" ++ referenceToken ++ bytes "' must not begin with '0'")

def unresolved (referenceToken : Key) : Failure :=
  .thrown (outOfRange 404 (bytes "unresolved reference token '" ++ referenceToken ++ bytes "'"))

/-! ## Checked access -/

/-- `at(size_type)` of an array. -/
def atIndex (xs : List Json) (idx : Nat) : Except Failure Step :=
  if idx < xs.length then .ok (.index idx)
  else .error <| .thrown <|
    outOfRange 401 (bytes "array index " ++ Wpi.decimal idx ++ bytes " is out of range")

/-- `at(llvm::StringRef)` of an object. -/
def atKey (m : StringMap Json) (key : Key) : Except Failure Step :=
  match m.lookup? key with
  | none => .error (.thrown (outOfRange 403 (bytes "key '" ++ key ++ bytes "' not found")))
  | some _ => .ok (.key key)

/-- The array index of a token where `-` is out of range. -/
def checkedIndex (referenceToken : Key) (xs : List Json) : Except Failure Nat :=
  if referenceToken = bytes "-" then .error (pastTheEnd xs)
  else if 1 < referenceToken.length ∧ referenceToken.head? = some 0x30 then
    .error (leadingZero referenceToken)
  else arrayIndex referenceToken

/-- The bodies of the loops of both versions of `get_checked`. -/
def checkedStep (referenceToken : Key) : Json → Except Failure Step
  | .object m => atKey m referenceToken
  | .array xs => do
    let idx ← checkedIndex referenceToken xs
    atIndex xs idx
  | _ => .error (unresolved referenceToken)

/-- `get_checked(const_pointer)`. -/
def getCheckedConst : JsonPointer → Json → Except Failure Location
  | [], _ => .ok []
  | referenceToken :: tokens, j => do
    let step ← checkedStep referenceToken j
    let location ← getCheckedConst tokens (j.element step)
    return step :: location

/-- A loop over the tokens that may change the value: the location, and what becomes of the value
even if there is an exception. -/
def pointerLoop (body : Key → Json → Except Failure Step × Json) :
    JsonPointer → Json → Except Failure Location × Json
  | [], j => (.ok [], j)
  | referenceToken :: tokens, j =>
    match body referenceToken j with
    | (.error e, j) => (.error e, j)
    | (.ok step, j) =>
      let (location, x) := pointerLoop body tokens (j.element step)
      (location.map (step :: ·), j.setElement step x)

/-- `get_checked(pointer)`. -/
def getChecked : JsonPointer → Json → Except Failure Location × Json :=
  pointerLoop fun referenceToken j => (checkedStep referenceToken j, j)

/-! ## Unchecked access -/

/-- The body of the loop of `get_unchecked(const_pointer)`. It is not checked whether there is such
an element: `none` stands for undefined behaviour. -/
def constStep (referenceToken : Key) : Json → Except Failure (Option Step)
  | .object m => .ok ((m.lookup? referenceToken).map fun _ => .key referenceToken)
  | .array xs => do
    let idx ← checkedIndex referenceToken xs
    return if idx < xs.length then some (.index idx) else none
  | _ => .error (unresolved referenceToken)

/-- `get_unchecked(const_pointer)`. -/
def getUncheckedConst : JsonPointer → Json → Except Failure (Option Location)
  | [], _ => .ok (some [])
  | referenceToken :: tokens, j => do
    match ← constStep referenceToken j with
    | none => return none
    | some step => do
      let location ← getUncheckedConst tokens (j.element step)
      return location.map (step :: ·)

/-- A null value becomes an array or an object first. -/
def convertNull (referenceToken : Key) : Json → Json
  | .null =>
    if referenceToken.all isDigit = true ∨ referenceToken = bytes "-" then emptyArray
    else emptyObject
  | j => j

/-- `operator[](size_type)` of an array. -/
def subscriptIndex (xs : List Json) (idx : Nat) : Except Failure Step × Json :=
  match fillUp xs idx with
  | .error e => (.error e, .array xs)
  | .ok xs => (.ok (.index idx), .array xs)

/-- `operator[](llvm::StringRef)` of an object. Where a new item is not what is asked for, its entry
is written past its end, the key in it has been cut off, or the table is not as long as it has to be.
Nothing is said here about what happens then. -/
def subscriptKey (m : StringMap Json) (key : Key) : Except Failure Step × Json :=
  if (m.lookup? key).isNone ∧ ¬CanInsert m key then (.error .undefined, .object m)
  else (.ok (.key key), .object (m.emplaceSecond key .null).1)

/-- The body of the loop of `get_unchecked(pointer)`. -/
def uncheckedStep (referenceToken : Key) (j : Json) : Except Failure Step × Json :=
  match convertNull referenceToken j with
  | .object m => subscriptKey m referenceToken
  | .array xs =>
    if 1 < referenceToken.length ∧ referenceToken.head? = some 0x30 then
      (.error (leadingZero referenceToken), .array xs)
    else if referenceToken = bytes "-" then subscriptIndex xs xs.length
    else
      match arrayIndex referenceToken with
      | .error e => (.error e, .array xs)
      | .ok idx => subscriptIndex xs idx
  | j => (.error (unresolved referenceToken), j)

/-- `get_unchecked(pointer)`. -/
def getUnchecked : JsonPointer → Json → Except Failure Location × Json := pointerLoop uncheckedStep

/-! ## The functions of the class `json` -/

/-- `at(const json_pointer&)`. -/
def atPointer (j : Json) (ptr : JsonPointer) : Except Failure Location × Json := getChecked ptr j

/-- `at(const json_pointer&) const`. -/
def atPointerConst (j : Json) (ptr : JsonPointer) : Except Failure Location := getCheckedConst ptr j

/-- `operator[](const json_pointer&)`. -/
def subscriptPointer (j : Json) (ptr : JsonPointer) : Except Failure Location × Json :=
  getUnchecked ptr j

/-- `operator[](const json_pointer&) const`. -/
def subscriptPointerConst (j : Json) (ptr : JsonPointer) : Except Failure (Option Location) :=
  getUncheckedConst ptr j

end Json

end Wpi

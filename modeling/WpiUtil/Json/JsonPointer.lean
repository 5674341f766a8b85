import Mathlib.Data.List.Sort
import WpiUtil.Json.Exceptions
import WpiUtil.Json.Json

/-!
# JSON pointers

The class `json_pointer` as far as `flatten` and `unflatten` use it.
-/

namespace Wpi

open Foundations

/-! ## Reference tokens -/

/-- The loop of `replace_substring`: `skip` bytes belong to the occurrence replaced last. -/
def replaceLoop (f t : List Byte) : Nat → List Byte → List Byte
  | _, [] => []
  | skip + 1, _ :: s => replaceLoop f t skip s
  | 0, c :: s =>
    if f.isPrefixOf (c :: s) then t ++ replaceLoop f t (f.length - 1) s
    else c :: replaceLoop f t 0 s

/-- `replace_substring`, for a search string that is not empty. -/
def replaceSubstring (s f t : List Byte) : List Byte := replaceLoop f t 0 s

def escape (s : Key) : Key :=
  replaceSubstring (replaceSubstring s (bytes "~") (bytes "~0")) (bytes "/") (bytes "~1")

def unescape (s : Key) : Key :=
  replaceSubstring (replaceSubstring s (bytes "~1") (bytes "/")) (bytes "~0") (bytes "~")

/-- Every `~` is followed by `0` or `1`. -/
def properlyEscaped : Key → Bool
  | [] => true
  | c :: s =>
    (c != 0x7e || s.head? == some 0x30 || s.head? == some 0x31) && properlyEscaped s

/-- The body of the loop of `split`: one reference token is checked and unescaped. -/
def splitToken (referenceToken : Key) : Except Failure Key :=
  if properlyEscaped referenceToken then .ok (unescape referenceToken)
  else .error <| .thrown <|
    parseError 108 0 (bytes "escape character '~' must be followed with '0' or '1'")

/-- `split`. -/
def split (referenceString : Key) : Except Failure (List Key) :=
  match referenceString with
  | [] => .ok []
  | c :: s =>
    if c ≠ 0x2f then
      .error <| .thrown <| parseError 107 1
        (bytes "JSON pointer must be empty or begin with '/' - was: '" ++ (c :: s) ++ bytes "'")
    else (s.splitOn 0x2f).mapM splitToken

/-! The loop of `split` works with positions, and ends when `npos + 1` wraps around. -/

def npos : Nat := 2 ^ 64 - 1

/-- `find_first_of(c, pos)`. -/
def findFirstOf (s : Key) (c : Byte) (pos : Nat) : Nat :=
  match (s.drop pos).findIdx? (· == c) with
  | none => npos
  | some i => pos + i

/-- `substr(pos, n)`, for a position that is not past the end. -/
def substr (s : Key) (pos n : Nat) : Key := (s.drop pos).take n

/-- The loop of `split`, which is in front of its condition. -/
def splitLoop (referenceString : Key) : Nat → Nat → Nat → Except Failure (List Key)
  | 0, _, _ => .error .outOfFuel
  | fuel + 1, slash, start =>
    if start = 0 then .ok []
    else do
      let referenceToken ←
        splitToken (substr referenceString start ((slash + 2 ^ 64 - start) % 2 ^ 64))
      let start := (slash + 1) % 2 ^ 64
      let result ← splitLoop referenceString fuel (findFirstOf referenceString 0x2f start) start
      return referenceToken :: result

/-- A `json_pointer`: its reference tokens. -/
abbrev JsonPointer := List Key

/-- `json_pointer::to_string`. -/
def JsonPointer.toString (referenceTokens : JsonPointer) : Key :=
  referenceTokens.foldl (fun a b => a ++ bytes "/" ++ escape b) []

/-- In the text of a pointer, every `~` is followed by `0` or `1`. -/
def TildesEscaped (s : List Byte) : Prop :=
  ∀ i : Nat, s[i]? = some (0x7e : Byte) →
    s[i + 1]? = some (0x30 : Byte) ∨ s[i + 1]? = some (0x31 : Byte)

/-! ## Array indices -/

/-- `static_cast<size_type>(std::stoi(reference_token))`. -/
def arrayIndex (referenceToken : Key) : Except Failure Nat :=
  match stoi referenceToken with
  | .ok n => .ok (n % 2 ^ 64).toNat
  | .error .invalidArgument =>
    .error <| .thrown <|
      parseError 109 0 (bytes "array index '" ++ referenceToken ++ bytes "' is not a number")
  | .error e => .error (.std e)

/-! ## Element access -/

namespace Json

/-- `std::vector<json>::max_size()`: a `json` has 16 bytes. -/
def maxSize : Nat := (2 ^ 63 - 1) / 16

/-- What `operator[](size_type)` makes of an array: null values up to the index. The number of values
wraps around to zero for the last index there is and an empty array; the access after it is
undefined. -/
def fillUp (xs : List Json) (idx : Nat) : Except Failure (List Json) :=
  if xs.length ≤ idx then
    let n := (idx + 2 ^ 64 - xs.length + 1) % 2 ^ 64
    if maxSize - xs.length < n then .error (.std .lengthError)
    else if n = 0 then .error .undefined
    else .ok (xs ++ List.replicate n .null)
  else .ok xs

/-- `f` is applied to `operator[](idx)` of the array. -/
def modifyIndex (xs : List Json) (idx : Nat) (f : Json → Except Failure Json) :
    Except Failure Json := do
  let xs ← fillUp xs idx
  let x ← f (xs.getD idx .null)
  return .array (xs.set idx x)

/-- `f` is applied to `operator[](key)` of the object. -/
def modifyKey (m : StringMap Json) (key : Key) (f : Json → Except Failure Json) :
    Except Failure Json := do
  let x ← f ((m.lookup? key).getD .null)
  return .object (Json.assign m key x)

/-- `get_and_create(j) = value`: what becomes of `j`. -/
def getAndCreate (value : Json) : JsonPointer → Json → Except Failure Json
  | [], _ => .ok value
  | referenceToken :: tokens, .null =>
    if referenceToken = bytes "0" then modifyIndex [] 0 (getAndCreate value tokens)
    else modifyKey .empty referenceToken (getAndCreate value tokens)
  | referenceToken :: tokens, .object m => modifyKey m referenceToken (getAndCreate value tokens)
  | referenceToken :: tokens, .array xs => do
    let idx ← arrayIndex referenceToken
    modifyIndex xs idx (getAndCreate value tokens)
  | _ :: _, _ => .error (.thrown (typeError 313 (bytes "invalid value to unflatten")))

/-! ## Flattening -/

mutual

/-- `json_pointer::flatten`. -/
def flattenInto (referenceString : Key) : Json → StringMap Json → StringMap Json
  | .array xs, result =>
    if xs.length = 0 then assign result referenceString .null
    else flattenElements referenceString 0 xs result
  | .object ⟨table, items, _⟩, result =>
    if items = 0 then assign result referenceString .null
    else flattenMembers referenceString table result
  | .null, result => assign result referenceString .null
  | .string s, result => assign result referenceString (.string s)
  | .boolean b, result => assign result referenceString (.boolean b)
  | .numberInteger n, result => assign result referenceString (.numberInteger n)
  | .numberUnsigned n, result => assign result referenceString (.numberUnsigned n)
  | .numberFloat bits, result => assign result referenceString (.numberFloat bits)
  | .discarded, result => assign result referenceString .discarded

/-- The elements of an array from index `i` on. -/
def flattenElements (referenceString : Key) (i : Nat) :
    List Json → StringMap Json → StringMap Json
  | [], result => result
  | x :: xs, result =>
    flattenElements referenceString (i + 1) xs
      (flattenInto (referenceString ++ bytes "/" ++ Wpi.decimal i) x result)

/-- The members of an object, in the order of the buckets. -/
def flattenMembers (referenceString : Key) :
    List (Bucket Json) → StringMap Json → StringMap Json
  | [], result => result
  | .item _ key value :: bs, result =>
    flattenMembers referenceString bs
      (flattenInto (referenceString ++ bytes "/" ++ escape key) value result)
  | .empty :: bs, result => flattenMembers referenceString bs result
  | .tombstone :: bs, result => flattenMembers referenceString bs result

end

/-- `json::flatten`. -/
def flatten (j : Json) : Json := .object (flattenInto [] j .empty)

def isPrimitive : Json → Bool
  | null => true
  | string _ => true
  | boolean _ => true
  | numberInteger _ => true
  | numberUnsigned _ => true
  | numberFloat _ => true
  | _ => false

/-- The first loop of `unflatten`. -/
def checkPrimitive : List (Key × Json) → Except Failure Unit
  | [] => .ok ()
  | e :: es =>
    if e.2.isPrimitive then checkPrimitive es
    else .error (.thrown (typeError 315 (bytes "values in object must be primitive")))

/-- The second loop of `unflatten`, over the sorted elements. -/
def unflattenSorted : List (Key × Json) → Json → Except Failure Json
  | [], result => .ok result
  | e :: es, result => do
    let pointer ← split e.1
    let result ← getAndCreate e.2 pointer result
    unflattenSorted es result

/-- `json_pointer::unflatten`. -/
def unflatten (value : Json) : Except Failure Json :=
  match value with
  | .object m => do
    checkPrimitive m.toList
    unflattenSorted (m.toList.insertionSort fun a b => a.1 ≤ b.1) .null
  | _ => .error (.thrown (typeError 314 (bytes "only objects can be unflattened")))

end Json

end Wpi

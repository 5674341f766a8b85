import WpiUtil.Foundations.Parts
import WpiUtil.Json.PointerAccess

/-!
# Assignment through JSON pointers

The references that `at` and `operator[]` return are locations; here is what such a reference gives
access to, and what becomes of a document when a value is assigned through it.
-/

namespace Wpi.Json

open Foundations

/-- The element that a step leads to, if there is one. -/
def child? : Json → Step → Option Json
  | .array xs, .index i => xs[i]?
  | .object m, .key k => m.lookup? k
  | _, _ => none

def parts : Parts Json Step := ⟨child?, setElement⟩

/-- The value that a reference refers to. -/
def get? (j : Json) (location : Location) : Option Json := parts.get? location j

/-- A value is assigned to a reference. -/
def store (j : Json) (location : Location) (value : Json) : Json := parts.put location j value

/-- `j[ptr] = value`: whether there is an exception, and what becomes of `j`. -/
def assignPointer (j : Json) (ptr : JsonPointer) (value : Json) : Except Failure Unit × Json :=
  match j.subscriptPointer ptr with
  | (.error e, j) => (.error e, j)
  | (.ok location, j) => (.ok (), j.store location value)

/-- `j.at(ptr)` refers to `value`. -/
def ResolvesTo (j : Json) (ptr : JsonPointer) (value : Json) : Prop :=
  ∃ location, j.atPointer ptr = (.ok location, j) ∧ j.get? location = some value

/-- The tokens that a loop applies to arrays are numerals without leading zeros. -/
def IndexTokens (body : Key → Json → Except Failure Step × Json) : JsonPointer → Json → Prop
  | [], _ => True
  | referenceToken :: tokens, j =>
    (∀ xs, (body referenceToken j).2 = .array xs → ∃ i, referenceToken = Wpi.decimal i) ∧
      ∀ step, (body referenceToken j).1 = .ok step →
        IndexTokens body tokens ((body referenceToken j).2.element step)

/-- The tokens that `j[ptr]` applies to arrays. -/
def SubscriptTokens (j : Json) (ptr : JsonPointer) : Prop := IndexTokens uncheckedStep ptr j

/-- The tokens that `j.at(ptr)` applies to arrays. -/
def AtTokens (j : Json) (ptr : JsonPointer) : Prop :=
  IndexTokens (fun referenceToken j => (checkedStep referenceToken j, j)) ptr j

end Wpi.Json

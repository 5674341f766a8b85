import WpiUtil.Json.Flattening
import WpiUtil.Json.PointerAssignment

/-!
# The leaves of a value, by their locations

What the entries of a flattened value stand for.
-/

namespace Wpi

/-- The reference token of a step. -/
def Step.token : Step → Key
  | .index i => decimal i
  | .key k => k

namespace Json

/-- A primitive value or an empty container. -/
def IsLeaf (j : Json) : Prop := j.isContainer = false ∨ ¬NodeNonempty j

def LeafAt (j : Json) (location : Location) (leaf : Json) : Prop :=
  j.get? location = some leaf ∧ leaf.IsLeaf

/-- The entry has a JSON pointer that `at` resolves to the leaf, and the value of the leaf. -/
def EntryFor (j : Json) (entry : Key × Json) (location : Location) : Prop :=
  ∃ p leaf, split entry.1 = .ok p ∧ j.atPointer p = (.ok location, j) ∧ j.LeafAt location leaf ∧
    entry.2 = leafValue leaf

/-- The indices of an array are values of `int`. -/
def NodeIndexed : Json → Prop
  | .array xs => xs.length ≤ 2 ^ 31
  | _ => True

end Json

end Wpi

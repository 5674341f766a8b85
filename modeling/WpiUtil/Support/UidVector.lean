import Mathlib.Logic.Function.Basic

/-!
# `UidVector`

A vector whose elements are known by their indices, with a freelist of the indices that may be used
again. Sizes and counts are natural numbers here, where the source has `size_type`.
-/

namespace Wpi

/-- What the elements of a `UidVector` have to be: default-constructible, and false in boolean
context when they are empty. -/
class UidElement (T : Type) where
  /-- `T()` -/
  new : T
  /-- The element in boolean context. -/
  asBool : T → Bool
  asBool_new : asBool new = false

open UidElement

/-- A pointer to an object, or none. -/
instance (T : Type) : UidElement (Option T) := ⟨none, Option.isSome, rfl⟩

structure UidVector (T : Type) (reuseThreshold : Nat) where
  vector : List T := []
  free : List Nat := []
  activeCount : Nat := 0

namespace UidVector

variable {T : Type} {reuseThreshold : Nat} (v : UidVector T reuseThreshold)

def empty : Bool := v.activeCount == 0

def size : Nat := v.vector.length

/-- `operator[]`, which is undefined from `size()` on. -/
def get (i : Nat) : Option T := v.vector[i]?

/-- The uid of the new element and the vector with it. `front()` of an empty freelist is
undefined. -/
def emplaceBack (elem : T) : Option (Nat × UidVector T reuseThreshold) :=
  if v.free.length < reuseThreshold then
    some (v.vector.length,
      { v with vector := v.vector ++ [elem], activeCount := v.activeCount + 1 })
  else
    match v.free with
    | [] => none
    | uid :: free =>
      some (uid, { vector := v.vector.set uid elem, free, activeCount := v.activeCount + 1 })

def erase [UidElement T] (uid : Nat) : UidVector T reuseThreshold :=
  match v.vector[uid]? with
  | none => v
  | some elem =>
    if asBool elem then
      { vector := v.vector.set uid new
        free := v.free ++ [uid]
        activeCount := v.activeCount - 1 }
    else v

end UidVector

/-! ## The calls of a user -/

inductive UidVector.Call (T : Type) where
  | emplaceBack (elem : T)
  | erase (uid : Nat)

/-- The elements that are stored are not empty. -/
def UidVector.Call.Stores [UidElement T] : UidVector.Call T → Prop
  | .emplaceBack elem => asBool elem = true
  | .erase _ => True

instance [UidElement T] : DecidablePred (UidVector.Call.Stores (T := T))
  | .emplaceBack elem => inferInstanceAs (Decidable (asBool elem = true))
  | .erase _ => inferInstanceAs (Decidable True)

/-- A vector, and the live elements as the user knows them: what was stored when the uid was
returned, until it is erased. -/
structure UidVector.Use (T : Type) (reuseThreshold : Nat) where
  vector : UidVector T reuseThreshold := {}
  live : Nat → Option T := fun _ => none

namespace UidVector.Use

variable {T : Type} {reuseThreshold : Nat} [UidElement T]

def step (u : Use T reuseThreshold) : Call T → Option (Use T reuseThreshold)
  | .emplaceBack elem =>
    match u.vector.emplaceBack elem with
    | none => none
    | some (uid, vector) => some { vector, live := Function.update u.live uid (some elem) }
  | .erase uid =>
    some { vector := u.vector.erase uid, live := Function.update u.live uid none }

end UidVector.Use

end Wpi

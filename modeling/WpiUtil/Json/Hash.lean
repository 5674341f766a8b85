import WpiUtil.Json.Comparison
import WpiUtil.Json.Serializer

/-!
# Hashing JSON values
-/

namespace Wpi.Json

/-- `std::hash<wpi::json>`, with the hash function for strings. -/
def hash (h : List Byte → UInt64) (j : Json) : UInt64 := h (j.dump (-1))

mutual

/-- The values are held in the same way, except that it does not matter which of the integer types
a number has. -/
inductive Alike : Json → Json → Prop where
  | null : Alike null null
  | string (s : List Byte) : Alike (string s) (string s)
  | boolean (b : Bool) : Alike (boolean b) (boolean b)
  | integer (n : Int64) : Alike (numberInteger n) (numberInteger n)
  | unsigned (n : UInt64) : Alike (numberUnsigned n) (numberUnsigned n)
  | integerUnsigned {n : Int64} {n' : UInt64} (h : n.toInt = n'.toNat) :
      Alike (numberInteger n) (numberUnsigned n')
  | unsignedInteger {n : UInt64} {n' : Int64} (h : n'.toInt = n.toNat) :
      Alike (numberUnsigned n) (numberInteger n')
  | float (bits : UInt64) : Alike (numberFloat bits) (numberFloat bits)
  | array {xs ys : List Json} (h : AlikeElements xs ys) : Alike (array xs) (array ys)
  | object {m m' : StringMap Json} (h : AlikeMembers m.toList m'.toList) :
      Alike (object m) (object m')

inductive AlikeElements : List Json → List Json → Prop where
  | nil : AlikeElements [] []
  | cons {x y : Json} {xs ys : List Json} (h : Alike x y) (hs : AlikeElements xs ys) :
      AlikeElements (x :: xs) (y :: ys)

/-- The members are met in the same order. -/
inductive AlikeMembers : List (Key × Json) → List (Key × Json) → Prop where
  | nil : AlikeMembers [] []
  | cons {key : Key} {x y : Json} {es es' : List (Key × Json)} (h : Alike x y)
      (hs : AlikeMembers es es') : AlikeMembers ((key, x) :: es) ((key, y) :: es')

end

end Wpi.Json

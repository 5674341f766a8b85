import WpiUtil.Foundations.Binary64
import WpiUtil.Foundations.Codeword
import WpiUtil.Json.Json

/-!
# Comparison of JSON values

The operators, and what they compare: an unsigned number is cast to a signed one before it is
compared with a signed one, so that integers are compared modulo `2 ^ 64` there.
-/

namespace Wpi

open Foundations
open StringMap (equalItems keyLess sortItems)

namespace Value

mutual

/-- The value with every integer modulo `2 ^ 64`. -/
def wrap : Value → Value
  | null => null
  | object members => object fun key => wrapMember (members key)
  | array xs => array (wrapElements xs)
  | string s => string s
  | boolean b => boolean b
  | integer n => integer (n % 2 ^ 64)
  | float bits => float bits
  | discarded => discarded

def wrapMember : Option Value → Option Value
  | none => none
  | some v => some (wrap v)

def wrapElements : List Value → List Value
  | [] => []
  | v :: vs => wrap v :: wrapElements vs

end

/-- At some place the values hold two different integers that are the same modulo `2 ^ 64`. -/
inductive Aliases : Value → Value → Prop where
  | integer {m n : Int} (hne : m ≠ n) (h : m % 2 ^ 64 = n % 2 ^ 64) :
      Aliases (integer m) (integer n)
  | element {xs ys : List Value} {x y : Value} (i : Nat) (hx : xs[i]? = some x)
      (hy : ys[i]? = some y) (h : Aliases x y) : Aliases (array xs) (array ys)
  | member {f g : Key → Option Value} {x y : Value} (key : Key) (hx : f key = some x)
      (hy : g key = some y) (h : Aliases x y) : Aliases (object f) (object g)

end Value

namespace Json

mutual

/-- `operator==`. -/
def eq : Json → Json → Bool
  | array xs, array ys => eqElements xs ys
  | object ⟨table, items, _⟩, object m =>
    items == m.size && equalItems (sortItems (eqValues table)) (sortItems m.toList)
  | null, null => true
  | string s, string s' => s == s'
  | boolean b, boolean b' => b == b'
  | numberInteger n, numberInteger n' => n == n'
  | numberUnsigned n, numberUnsigned n' => n == n'
  | numberFloat x, numberFloat x' => Binary64.eq x x'
  | numberInteger n, numberFloat x => Binary64.eq (Binary64.ofInt n.toInt) x
  | numberFloat x, numberInteger n => Binary64.eq x (Binary64.ofInt n.toInt)
  | numberUnsigned n, numberFloat x => Binary64.eq (Binary64.ofInt n.toNat) x
  | numberFloat x, numberUnsigned n => Binary64.eq x (Binary64.ofInt n.toNat)
  | numberUnsigned n, numberInteger n' => n.toInt64 == n'
  | numberInteger n, numberUnsigned n' => n == n'.toInt64
  | _, _ => false

/-- `operator==` of `std::vector`. -/
def eqElements : List Json → List Json → Bool
  | [], [] => true
  | x :: xs, y :: ys => eq x y && eqElements xs ys
  | _, _ => false

/-- The items of a table, each with what its value is equal to. -/
def eqValues : List (Bucket Json) → List (Key × (Json → Bool))
  | [] => []
  | .item _ key value :: bs => (key, eq value) :: eqValues bs
  | .empty :: bs => eqValues bs
  | .tombstone :: bs => eqValues bs

end

/-! ## Order -/

/-- `order` of `operator<` of `value_t`. -/
def order : Json → Nat
  | null => 0
  | object _ => 3
  | array _ => 4
  | string _ => 5
  | boolean _ => 1
  | numberInteger _ => 2
  | numberUnsigned _ => 2
  | numberFloat _ => 2
  | discarded => 8

/-- `operator<` of `value_t`. -/
def typeLess (a b : Json) : Bool :=
  if a.isDiscarded || b.isDiscarded then false else order a < order b

/-- `operator<` of the vectors of keys. -/
def keysLess : List Key → List Key → Bool
  | _, [] => false
  | [], _ :: _ => true
  | key :: keys, key' :: keys' =>
    if keyLess key key' then true else if keyLess key' key then false else keysLess keys keys'

/-- The keys of a map, sorted. -/
def sortedKeys (m : StringMap Json) : List Key :=
  (m.toList.map Prod.fst).insertionSort fun a b => keyLess b a = false

mutual

/-- `operator<`. -/
def lt : Json → Json → Bool
  | array xs, array ys => ltElements xs ys
  | object m, object m' => keysLess (sortedKeys m) (sortedKeys m')
  | null, null => false
  | string s, string s' => keyLess s s'
  | boolean b, boolean b' => !b && b'
  | numberInteger n, numberInteger n' => n < n'
  | numberUnsigned n, numberUnsigned n' => n < n'
  | numberFloat x, numberFloat x' => Binary64.lt x x'
  | numberInteger n, numberFloat x => Binary64.lt (Binary64.ofInt n.toInt) x
  | numberFloat x, numberInteger n => Binary64.lt x (Binary64.ofInt n.toInt)
  | numberUnsigned n, numberFloat x => Binary64.lt (Binary64.ofInt n.toNat) x
  | numberFloat x, numberUnsigned n => Binary64.lt x (Binary64.ofInt n.toNat)
  | numberInteger n, numberUnsigned n' => n < n'.toInt64
  | numberUnsigned n, numberInteger n' => n.toInt64 < n'
  | a, b => typeLess a b
termination_by a b => sizeOf a + sizeOf b

/-- `operator<` of `std::vector`. -/
def ltElements : List Json → List Json → Bool
  | _, [] => false
  | [], _ :: _ => true
  | x :: xs, y :: ys => if lt x y then true else if lt y x then false else ltElements xs ys
termination_by xs ys => sizeOf xs + sizeOf ys

end

/-! ## The order that is meant -/

def keyWord (key : Key) : List Int := Codeword.seq (fun c : Byte => [(c.toNat : Int)]) key

mutual

/-- A word whose place in the lexicographic order is the place of the value among the values without
floating-point numbers, where `rank` gives the place of a `number_integer`. -/
def word (rank : Int64 → Int) : Json → List Int
  | null => [0]
  | boolean b => [1, if b then 1 else 0]
  | numberInteger n => [2, rank n]
  | numberUnsigned n => [2, n.toNat]
  | object m => 3 :: Codeword.seq keyWord (sortedKeys m)
  | array xs => 4 :: words rank xs
  | string s => 5 :: keyWord s
  | numberFloat _ => []
  | discarded => []

def words (rank : Int64 → Int) : List Json → List Int
  | [] => [0]
  | x :: xs => 1 :: (word rank x ++ words rank xs)

end

/-- Neither value is less than the other. -/
def Incomparable (a b : Json) : Prop := lt a b = false ∧ lt b a = false

/-- Every number is held as an integer, and nothing is discarded. -/
structure Integral (j : Json) : Prop where
  maps : j.All MapWF
  noFloat : j.NoFloat
  noDiscarded : j.NoDiscarded

/-- A number is one of those that are given. -/
def NumberAmong (signed : Int64 → Prop) (unsigned : UInt64 → Prop) : Json → Prop
  | numberInteger n => signed n
  | numberUnsigned n => unsigned n
  | _ => True

/-- The value is made of the numbers that are given. -/
structure MadeOf (signed : Int64 → Prop) (unsigned : UInt64 → Prop) (j : Json) : Prop where
  integral : j.Integral
  numbers : j.All (NumberAmong signed unsigned)

/-- `n` is not more than a number that can be cast as it is, and not less than what the cast makes of
one that cannot. -/
def Between (n : Int64) (small large : UInt64) : Prop :=
  small.toNat < 2 ^ 63 ∧ 2 ^ 63 ≤ large.toNat ∧ (large.toNat : Int) - 2 ^ 64 ≤ n.toInt ∧
    n.toInt ≤ small.toNat

/-- The laws of a strict weak order for three values. -/
def OrderLaws (a b c : Json) : Prop :=
  lt a a = false ∧ (lt a b = true → lt b c = true → lt a c = true) ∧
    (Incomparable a b → Incomparable b c → Incomparable a c)

end Json

end Wpi

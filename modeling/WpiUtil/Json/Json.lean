import WpiUtil.Llvm.StringMap

/-!
# JSON values

The class `json`, and the JSON values its objects stand for: a number is the same number whichever
of the two integer types holds it, and an object is a finite map.
-/

namespace Wpi

/-- A `json`: the type `m_type` and the member of `m_value` that goes with it. A `double` is given by
its 64-bit pattern. -/
inductive Json where
  | null
  | object (members : StringMap Json)
  | array (elements : List Json)
  | string (s : List Byte)
  | boolean (b : Bool)
  | numberInteger (n : Int64)
  | numberUnsigned (n : UInt64)
  | numberFloat (bits : UInt64)
  | discarded

/-- JSON values up to representation. -/
inductive Value where
  | null
  | object (members : Key → Option Value)
  | array (elements : List Value)
  | string (s : List Byte)
  | boolean (b : Bool)
  | integer (n : Int)
  | float (bits : UInt64)
  | discarded

namespace Json

mutual

/-- The value a `json` stands for. -/
def denote : Json → Value
  | null => .null
  | object ⟨table, _, _⟩ => .object fun key => (denoteTable table).lookup key
  | array xs => .array (denoteList xs)
  | string s => .string s
  | boolean b => .boolean b
  | numberInteger n => .integer n.toInt
  | numberUnsigned n => .integer n.toNat
  | numberFloat bits => .float bits
  | discarded => .discarded

def denoteList : List Json → List Value
  | [] => []
  | x :: xs => x.denote :: denoteList xs

def denoteTable : List (Bucket Json) → List (Key × Value)
  | [] => []
  | .item _ key value :: bs => (key, value.denote) :: denoteTable bs
  | .empty :: bs => denoteTable bs
  | .tombstone :: bs => denoteTable bs

end

mutual

/-- `P` holds of the value and of all values in it, at any depth. -/
def All (P : Json → Prop) : Json → Prop
  | object ⟨table, items, tombstones⟩ => P (object ⟨table, items, tombstones⟩) ∧ AllTable P table
  | array xs => P (array xs) ∧ AllList P xs
  | null => P null
  | string s => P (string s)
  | boolean b => P (boolean b)
  | numberInteger n => P (numberInteger n)
  | numberUnsigned n => P (numberUnsigned n)
  | numberFloat bits => P (numberFloat bits)
  | discarded => P discarded

def AllList (P : Json → Prop) : List Json → Prop
  | [] => True
  | x :: xs => All P x ∧ AllList P xs

def AllTable (P : Json → Prop) : List (Bucket Json) → Prop
  | [] => True
  | .item _ _ value :: bs => All P value ∧ AllTable P bs
  | .empty :: bs => AllTable P bs
  | .tombstone :: bs => AllTable P bs

end

/-- The containers are in order, and no longer than their size types can express. -/
def NodeWF : Json → Prop
  | object m => m.WF ∧ m.size < 2 ^ 32 ∧ ∀ e ∈ m.toList, e.1.length < 2 ^ 32
  | array xs => xs.length < 2 ^ 64
  | string s => s.length < 2 ^ 64
  | _ => True

/-- All containers in the value are so. -/
def WF : Json → Prop := All NodeWF

/-- `sizeof(StringMapEntry<json>)`. -/
def entrySize : UInt32 := 24

/-- `AllocSize` has not wrapped around: the entry for the key has room for all of it. -/
def EntryFits (key : Key) : Prop :=
  (allocSize entrySize key).toNat = entrySize.toNat + key.length + 1

instance (key : Key) : Decidable (EntryFits key) := inferInstanceAs (Decidable (_ = _))

def NodeKeysFit : Json → Prop
  | object m => ∀ e ∈ m.toList, EntryFits e.1
  | _ => True

/-- No entry in the value has been written past its end. -/
def KeysFit : Json → Prop := All NodeKeysFit

/-- A new item for the key is what is asked for: neither the size of its entry wraps around nor a
counter of the table. -/
def CanInsert (m : StringMap Json) (key : Key) : Prop := EntryFits key ∧ m.numBuckets ≤ 2 ^ 30

instance (m : StringMap Json) (key : Key) : Decidable (CanInsert m key) :=
  inferInstanceAs (Decidable (_ ∧ _))

def NodeCanGrow : Json → Prop
  | object m => m.numBuckets ≤ 2 ^ 30
  | _ => True

/-- The maps are in order. -/
def MapWF : Json → Prop
  | object m => m.WF
  | _ => True

/-- The maps know how many items they have, and have no key twice. -/
def Listed : Json → Prop
  | object m => m.size = m.toList.length ∧ (m.toList.map Prod.fst).Nodup
  | _ => True

def isDiscarded : Json → Bool
  | discarded => true
  | _ => false

def isFloat : Json → Bool
  | numberFloat _ => true
  | _ => false

/-- Nothing in the value has been discarded by a parser callback. -/
def NoDiscarded : Json → Prop := All fun j => j.isDiscarded = false

def NoFloat : Json → Prop := All fun j => j.isFloat = false

/-- Only negative numbers are held as `number_integer`. -/
def NonnegUnsigned : Json → Prop := All fun j => ∀ n, j = numberInteger n → n.toInt < 0

/-- `json result = value_t::object`. -/
def emptyObject : Json := object StringMap.empty

/-- `json result = value_t::array`. -/
def emptyArray : Json := array []

/-- `object[key] = value`: `operator[]` puts a null value under a new key first. -/
def assign (m : StringMap Json) (key : Key) (value : Json) : StringMap Json :=
  StringMap.assign null m key value

end Json

end Wpi

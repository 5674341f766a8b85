import WpiUtil.Json.BinaryWriter
import WpiUtil.Json.Serializer

/-!
# How objects come about

The documentation of `object_t` says that an object stores its members in the lexicographical order
of their keys, and that it is serialized in this order. The members are met in the order of the
buckets, which depends on what has been done to the object.
-/

namespace Wpi.Json

open StringMap

/-- What can be done to the members of an object. -/
inductive Edit where
  /-- `push_back`, `emplace` and `insert`, which do not change a value that is there. -/
  | insert (key : Key) (value : Json)
  /-- `object[key] = value`. -/
  | assign (key : Key) (value : Json)
  /-- `erase`. -/
  | erase (key : Key)

namespace Edit

def apply (m : StringMap Json) : Edit → StringMap Json
  | insert key value => (m.emplaceSecond key value).1
  | assign key value => Json.assign m key value
  | erase key => m.removeKey key

/-- The value that is put into the object is in order, and an entry has room for the key. -/
def WF : Edit → Prop
  | insert key value => EntryFits key ∧ value.All Json.MapWF
  | assign key value => EntryFits key ∧ value.All Json.MapWF
  | erase _ => True

/-- The members of an object after the edits. -/
def build (edits : List Edit) : StringMap Json := edits.foldl apply StringMap.empty

end Edit

/-- The buckets hold the members in the order of the keys. -/
def KeyOrdered : Json → Prop
  | object m => m.toList.Pairwise fun e e' => keyLess e.1 e'.1 = true
  | _ => True

mutual

/-- The value as the documentation has it: all objects in it hold their members in the order of the
keys. -/
def inKeyOrder : Json → Json
  | object ⟨table, items, _⟩ =>
    object ⟨(sortItems (tableInKeyOrder table)).map fun e => .item (hashString e.1) e.1 e.2,
      items, 0⟩
  | array xs => array (listInKeyOrder xs)
  | null => null
  | string s => string s
  | boolean b => boolean b
  | numberInteger n => numberInteger n
  | numberUnsigned n => numberUnsigned n
  | numberFloat bits => numberFloat bits
  | discarded => discarded

def listInKeyOrder : List Json → List Json
  | [] => []
  | x :: xs => x.inKeyOrder :: listInKeyOrder xs

def tableInKeyOrder : List (Bucket Json) → List (Key × Json)
  | [] => []
  | .item _ key value :: bs => (key, value.inKeyOrder) :: tableInKeyOrder bs
  | .empty :: bs => tableInKeyOrder bs
  | .tombstone :: bs => tableInKeyOrder bs

end

/-- The values are written with the same bytes. -/
structure SerializedAlike (a b : Json) : Prop where
  dump : ∀ indent, a.dump indent = b.dump indent
  toCbor : a.toCbor = b.toCbor
  toMsgpack : a.toMsgpack = b.toMsgpack

end Wpi.Json

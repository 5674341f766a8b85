import WpiUtil.Json.JsonPointer

/-!
# What flattening keeps of a value

The leaves of a value under their pointers, and the values whose containers can be told from the
pointers of their leaves.
-/

namespace Wpi.Json

/-- The values in a container, each with its reference token. -/
def children : Json → List (Key × Json)
  | .array xs => xs.zipIdx.map fun x => (decimal x.2, x.1)
  | .object m => m.toList
  | _ => []

/-- `t` is put in front of all pointers. -/
def graft (t : Key) (leaves : List (JsonPointer × Json)) : List (JsonPointer × Json) :=
  leaves.map fun e => (t :: e.1, e.2)

mutual

/-- The primitive values and the empty containers, in the order in which `flatten` gets to them. -/
def leaves : Json → List (JsonPointer × Json)
  | .array xs => if xs.length = 0 then [([], .array xs)] else leavesElements 0 xs
  | .object ⟨table, items, tombstones⟩ =>
    if items = 0 then [([], .object ⟨table, items, tombstones⟩)] else leavesMembers table
  | .null => [([], .null)]
  | .string s => [([], .string s)]
  | .boolean b => [([], .boolean b)]
  | .numberInteger n => [([], .numberInteger n)]
  | .numberUnsigned n => [([], .numberUnsigned n)]
  | .numberFloat bits => [([], .numberFloat bits)]
  | .discarded => [([], .discarded)]

def leavesElements (i : Nat) : List Json → List (JsonPointer × Json)
  | [] => []
  | x :: xs => graft (decimal i) (leaves x) ++ leavesElements (i + 1) xs

def leavesMembers : List (Bucket Json) → List (JsonPointer × Json)
  | [] => []
  | .item _ key value :: bs => graft key (leaves value) ++ leavesMembers bs
  | .empty :: bs => leavesMembers bs
  | .tombstone :: bs => leavesMembers bs

end

def isContainer : Json → Bool
  | .array _ => true
  | .object _ => true
  | _ => false

/-- A container is flattened to null when it is empty. -/
def leafValue (leaf : Json) : Json := if leaf.isContainer then .null else leaf

def NodeNonempty : Json → Prop
  | .array xs => xs.length ≠ 0
  | .object m => m.size ≠ 0
  | _ => True

/-- No array or object is empty. -/
def Nonempty : Json → Prop := All NodeNonempty

/-- The table that `flatten` makes has not outgrown `unsigned`, and no entry in it has been written
past its end. -/
def FlattensSafely (j : Json) : Prop :=
  ∃ m, j.flatten = .object m ∧ m.size ≤ StringMap.maxItems ∧ ∀ e ∈ m.toList, EntryFits e.1

/-- A table has room for the leaves, and an entry for the text of each pointer. -/
def LeavesFit (j : Json) : Prop :=
  j.leaves.length ≤ StringMap.maxItems ∧
    ∀ e ∈ j.leaves, EntryFits (JsonPointer.toString e.1)

/-- The pointers to what is under `key` sort before the pointers to what is under `"0"`, which is
`zero`. -/
def SortsBeforeZero (zero : Json) (key : Key) : Prop :=
  match key with
  | [] => True
  | c :: cs =>
    c < 0x2f ∨ c = 0x30 ∧ zero.isContainer = true ∧ ∃ d, cs.head? = some d ∧ d < 0x2f

/-- There is a member `"0"`, and no other member has pointers that sort before those to it. -/
def StartsAtZero (m : StringMap Json) : Prop :=
  ∃ zero, (bytes "0", zero) ∈ m.toList ∧
    ∀ e ∈ m.toList, e.1 ≠ bytes "0" → ¬SortsBeforeZero zero e.1

/-- The leaves below one reference token, with the rest of their pointers. -/
def under (t : Key) (leaves : List (JsonPointer × Json)) : List (JsonPointer × Json) :=
  leaves.filterMap fun e =>
    match e.1 with
    | [] => none
    | u :: p => if u = t then some (p, e.2) else none

/-- The loop of `unflatten` over leaves under their pointers. -/
def build : List (JsonPointer × Json) → Json → Except Failure Json
  | [], result => .ok result
  | e :: leaves, result => do
    let result ← getAndCreate e.2 e.1 result
    build leaves result

/-- The order in which `unflatten` takes leaves. -/
def Sorted (leaves : List (JsonPointer × Json)) : Prop :=
  leaves.Pairwise fun a b => JsonPointer.toString a.1 ≤ JsonPointer.toString b.1

/-- What `unflatten` needs of a container: an array has no indices beyond `int`, and an object is
not taken for an array at the first of the sorted pointers. -/
def NodeRebuilds : Json → Prop
  | .array xs => xs.length ≤ 2 ^ 31
  | .object m => ¬StartsAtZero m
  | _ => True

def Rebuilds : Json → Prop := All NodeRebuilds

end Wpi.Json

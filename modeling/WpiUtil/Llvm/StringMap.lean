import Mathlib.Data.List.Sort
import Mathlib.Tactic.Common
import WpiUtil.Foundations.QuadraticProbing
import WpiUtil.Support.RawIstream

/-!
# `StringMap`

The hash table from byte strings to values: open addressing with quadratic probing, and tombstones
for the keys that have been erased. The length of a key is an `unsigned`, as in the source. The
counters of a table are natural numbers here: the arithmetic of `unsigned` is exact until an item is
added to a table of `2 ^ 31` buckets, as a table with `maxItems` items is.
-/

namespace Wpi

abbrev Key := List Byte

/-- `KeyLength` of `StringMapEntry::Create`. -/
def keyLength (key : Key) : UInt32 := UInt32.ofNat key.length

/-- The key of the entry that `StringMapEntry::Create` makes: the first `KeyLength` bytes. -/
def createKey (key : Key) : Key := key.take (keyLength key).toNat

/-- `AllocSize` of `StringMapEntry::Create`, for an entry of the given size. -/
def allocSize (entrySize : UInt32) (key : Key) : UInt32 := entrySize + keyLength key + 1

/-- `HashString`, the Bernstein hash function. -/
def hashString (str : Key) : UInt32 :=
  str.foldl (fun result c => result * 33 + UInt32.ofNat c.toNat) 0

/-- One bucket of `TheTable`, with its entry of `HashTable`. -/
inductive Bucket (α : Type) where
  | empty
  | tombstone
  | item (hash : UInt32) (key : Key) (value : α)

namespace Bucket

variable {α : Type}

def isTombstone : Bucket α → Bool
  | tombstone => true
  | _ => false

def isEmpty : Bucket α → Bool
  | empty => true
  | _ => false

/-- What an iterator that points to the bucket gives access to. -/
def item? : Bucket α → Option (Key × α)
  | item _ key value => some (key, value)
  | _ => none

end Bucket

structure StringMap (α : Type) where
  theTable : List (Bucket α)
  numItems : Nat
  numTombstones : Nat

namespace StringMap

variable {α : Type}

def empty : StringMap α := ⟨[], 0, 0⟩

def numBuckets (m : StringMap α) : Nat := m.theTable.length

/-- How many items it takes to fill more than three quarters of `2 ^ 30` buckets. -/
def maxItems : Nat := 3 * 2 ^ 28 + 1

def size (m : StringMap α) : Nat := m.numItems

def init (initSize : Nat) : StringMap α :=
  ⟨List.replicate (if initSize = 0 then 16 else initSize) .empty, 0, 0⟩

/-- The entries of a table, in the order of the buckets. -/
def entries (table : List (Bucket α)) : List (Key × α) := table.filterMap Bucket.item?

/-- Iteration, from `begin()` to `end()`. -/
def toList (m : StringMap α) : List (Key × α) := entries m.theTable

/-- The loop of `FindKey`. -/
def findKeyLoop (table : List (Bucket α)) (fullHashValue : UInt32) (key : Key) :
    Nat → Nat → Nat → Option Nat
  | 0, _, _ => none
  | fuel + 1, bucketNo, probeAmt =>
    let next := (bucketNo + probeAmt) &&& (table.length - 1)
    match table.getD bucketNo .empty with
    | .empty => none
    | .tombstone => findKeyLoop table fullHashValue key fuel next (probeAmt + 1)
    | .item hash itemStr _ =>
      if hash = fullHashValue ∧ key = itemStr then some bucketNo
      else findKeyLoop table fullHashValue key fuel next (probeAmt + 1)

/-- `FindKey`. There is always an empty bucket, so the loop ends after at most `NumBuckets` rounds;
the same holds for the other two loops. -/
def findKey (m : StringMap α) (key : Key) : Option Nat :=
  let htSize := m.numBuckets
  if htSize = 0 then none
  else
    let fullHashValue := hashString key
    let bucketNo := fullHashValue.toNat &&& (htSize - 1)
    findKeyLoop m.theTable fullHashValue key htSize bucketNo 1

/-- The loop of `LookupBucketFor`. -/
def lookupLoop (table : List (Bucket α)) (fullHashValue : UInt32) (name : Key) :
    Nat → Nat → Nat → Option Nat → Option Nat
  | 0, _, _, _ => none
  | fuel + 1, bucketNo, probeAmt, firstTombstone =>
    let next := (bucketNo + probeAmt) &&& (table.length - 1)
    match table.getD bucketNo .empty with
    | .empty => some (firstTombstone.getD bucketNo)
    | .tombstone =>
      lookupLoop table fullHashValue name fuel next (probeAmt + 1)
        (firstTombstone <|> some bucketNo)
    | .item hash itemStr _ =>
      if hash = fullHashValue ∧ name = itemStr then some bucketNo
      else lookupLoop table fullHashValue name fuel next (probeAmt + 1) firstTombstone

/-- `LookupBucketFor`: the table, allocated if it was not, and the bucket. -/
def lookupBucketFor (m : StringMap α) (name : Key) : StringMap α × Nat :=
  let m := if m.numBuckets = 0 then init 16 else m
  let fullHashValue := hashString name
  let bucketNo := fullHashValue.toNat &&& (m.numBuckets - 1)
  (m, (lookupLoop m.theTable fullHashValue name m.numBuckets bucketNo 1 none).getD bucketNo)

/-- The probe of `RehashTable` for a free bucket in the new table. -/
def freeLoop (table : List (Bucket α)) : Nat → Nat → Nat → Option Nat
  | 0, _, _ => none
  | fuel + 1, newBucket, probeSize =>
    match table.getD newBucket .empty with
    | .empty => some newBucket
    | _ => freeLoop table fuel ((newBucket + probeSize) &&& (table.length - 1)) (probeSize + 1)

/-- One item of the old table goes into the new one. -/
def reinsert (newTable : List (Bucket α)) (fullHash : UInt32) (key : Key) (value : α) :
    List (Bucket α) × Nat :=
  let start := fullHash.toNat &&& (newTable.length - 1)
  let newBucket := (freeLoop newTable newTable.length start 1).getD start
  (newTable.set newBucket (.item fullHash key value), newBucket)

/-- The loop of `RehashTable` over the buckets from number `i` on. -/
def rehashLoop (bucketNo : Nat) : List (Bucket α) → Nat → List (Bucket α) → Nat →
    List (Bucket α) × Nat
  | [], _, newTable, newBucketNo => (newTable, newBucketNo)
  | .item fullHash key value :: bs, i, newTable, newBucketNo =>
    let (newTable, newBucket) := reinsert newTable fullHash key value
    rehashLoop bucketNo bs (i + 1) newTable (if i = bucketNo then newBucket else newBucketNo)
  | .empty :: bs, i, newTable, newBucketNo => rehashLoop bucketNo bs (i + 1) newTable newBucketNo
  | .tombstone :: bs, i, newTable, newBucketNo =>
    rehashLoop bucketNo bs (i + 1) newTable newBucketNo

/-- All items go into a new table of `newSize` buckets. -/
def rehashInto (m : StringMap α) (newSize bucketNo : Nat) : StringMap α × Nat :=
  let (newTable, newBucketNo) :=
    rehashLoop bucketNo m.theTable 0 (List.replicate newSize .empty) bucketNo
  (⟨newTable, m.numItems, 0⟩, newBucketNo)

/-- `RehashTable`: the table and the new number of the bucket. -/
def rehashTable (m : StringMap α) (bucketNo : Nat) : StringMap α × Nat :=
  if m.numItems * 4 > m.numBuckets * 3 then m.rehashInto (m.numBuckets * 2) bucketNo
  else if m.numBuckets - (m.numItems + m.numTombstones) ≤ m.numBuckets / 8 then
    m.rehashInto m.numBuckets bucketNo
  else (m, bucketNo)

/-- `emplace_second`: the map, the bucket of the key and whether the key is new. -/
def emplaceSecond (m : StringMap α) (key : Key) (value : α) : StringMap α × Nat × Bool :=
  let (m, bucketNo) := m.lookupBucketFor key
  match m.theTable.getD bucketNo .empty with
  | .item _ _ _ => (m, bucketNo, false)
  | bucket =>
    let numTombstones := if bucket.isTombstone then m.numTombstones - 1 else m.numTombstones
    let m : StringMap α :=
      ⟨m.theTable.set bucketNo (.item (hashString key) (createKey key) value), m.numItems + 1,
        numTombstones⟩
    let (m, bucketNo) := m.rehashTable bucketNo
    (m, bucketNo, true)

/-- The value of the entry in a bucket is changed in place. -/
def modifyAt (m : StringMap α) (bucketNo : Nat) (f : α → α) : StringMap α :=
  match m.theTable.getD bucketNo .empty with
  | .item hash key value => { m with theTable := m.theTable.set bucketNo (.item hash key (f value)) }
  | _ => m

/-- `(*this)[key] = value`, where `operator[]` puts `deflt` under a new key. -/
def assign (deflt : α) (m : StringMap α) (key : Key) (value : α) : StringMap α :=
  let (m, bucketNo, _) := m.emplaceSecond key deflt
  m.modifyAt bucketNo fun _ => value

/-- `find(key)->second`. -/
def lookup? (m : StringMap α) (key : Key) : Option α :=
  match m.findKey key with
  | none => none
  | some bucketNo => ((m.theTable.getD bucketNo .empty).item?).map Prod.snd

/-- `RemoveKey`, with which `erase` ends. -/
def removeKey (m : StringMap α) (key : Key) : StringMap α :=
  match m.findKey key with
  | none => m
  | some bucketNo =>
    ⟨m.theTable.set bucketNo .tombstone, m.numItems - 1, m.numTombstones + 1⟩

/-! ## Comparison -/

/-- `operator<` of `StringRef`. -/
def keyLess : Key → Key → Bool
  | _, [] => false
  | [], _ :: _ => true
  | a :: as, b :: bs => if a = b then keyLess as bs else a < b

/-- The items, sorted by key. -/
def sortItems (items : List (Key × α)) : List (Key × α) :=
  items.insertionSort fun a b => keyLess b.1 a.1 = false

/-- The loop of `operator==` over the sorted items. On the left, a value is given by what it is
equal to. -/
def equalItems : List (Key × (α → Bool)) → List (Key × α) → Bool
  | (key, equal) :: lhsItems, (key', value) :: rhsItems =>
    if key ≠ key' ∨ equal value = false then false else equalItems lhsItems rhsItems
  | _, _ => true

/-! ## The invariant -/

/-- The probes for a hash get to the bucket without meeting an empty one. -/
def Placed (table : List (Bucket α)) (hash : UInt32) (b : Nat) : Prop :=
  ∃ i, Foundations.probe table.length hash.toNat i = b ∧ i < table.length ∧
    ∀ j < i, (table.getD (Foundations.probe table.length hash.toNat j) .empty).isEmpty = false

structure TableWF (table : List (Bucket α)) : Prop where
  nodup : ((entries table).map Prod.fst).Nodup
  placed : ∀ b hash key value, table.getD b .empty = .item hash key value →
    hash = hashString key ∧ Placed table hash b

structure WF (m : StringMap α) : Prop where
  table : TableWF m.theTable
  pow : m.theTable = [] ∨ ∃ k, m.theTable.length = 2 ^ k
  numItems : m.numItems = (entries m.theTable).length
  numTombstones : m.numTombstones = m.theTable.countP Bucket.isTombstone
  free : m.theTable = [] ∨ m.numItems + m.numTombstones < m.theTable.length

end StringMap

end Wpi

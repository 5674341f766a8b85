import Mathlib.Data.List.GetD
import Mathlib.Logic.Function.Basic
import WpiUtil.Llvm.StringMap

/-!
# `StringMap` is a finite map

Every operation keeps the invariant, and what it does is stated on the list of the entries, up to
their order.
-/

namespace Wpi

open Foundations

namespace StringMap

variable {α : Type}

/-! ## Tables -/

theorem lt_of_getD_item {table : List (Bucket α)} {b : Nat} {hash : UInt32} {key : Key} {value : α}
    (h : table.getD b .empty = .item hash key value) : b < table.length := by
  by_contra hle
  rw [List.getD_eq_default _ _ (by omega)] at h
  cases h

theorem getD_set {table : List (Bucket α)} {b : Nat} (hb : b < table.length) (x : Bucket α)
    (i : Nat) : (table.set b x).getD i .empty = if i = b then x else table.getD i .empty := by
  simp only [List.getD_eq_getElem?_getD, List.getElem?_set]
  by_cases h : i = b
  · rw [if_pos h.symm, if_pos h, if_pos hb, Option.getD_some]
  · rw [if_neg (Ne.symm h), if_neg h]

theorem getD_replicate (n b : Nat) : (List.replicate n (Bucket.empty : Bucket α)).getD b .empty =
    .empty := by
  by_cases h : b < n
  · rw [List.getD_eq_getElem _ _ (by simpa using h), List.getElem_replicate]
  · rw [List.getD_eq_default _ _ (by simpa using h)]

theorem mem_entries {table : List (Bucket α)} {key : Key} {value : α} :
    (key, value) ∈ entries table ↔ ∃ b hash, table.getD b .empty = .item hash key value := by
  rw [entries, List.mem_filterMap]
  constructor
  · rintro ⟨bucket, hmem, he⟩
    obtain ⟨b, hb, rfl⟩ := List.getElem_of_mem hmem
    refine ⟨b, ?_⟩
    rw [List.getD_eq_getElem _ _ hb]
    cases hbucket : table[b] with
    | empty => rw [hbucket] at he; cases he
    | tombstone => rw [hbucket] at he; cases he
    | item hash k v =>
      rw [hbucket] at he
      cases he
      exact ⟨hash, rfl⟩
  · rintro ⟨b, hash, hb⟩
    have hlt := lt_of_getD_item hb
    rw [List.getD_eq_getElem _ _ hlt] at hb
    exact ⟨table[b], List.getElem_mem hlt, by rw [hb]; rfl⟩

/-- No key is in two buckets. -/
theorem TableWF.eq_of_key_eq {table : List (Bucket α)} (h : TableWF table) {b b' : Nat}
    {hash hash' : UInt32} {key : Key} {value value' : α}
    (hb : table.getD b .empty = .item hash key value)
    (hb' : table.getD b' .empty = .item hash' key value') : b = b' := by
  have hpair := h.nodup
  rw [entries, List.map_filterMap, List.Nodup, List.pairwise_filterMap,
    List.pairwise_iff_getElem] at hpair
  have hlt := lt_of_getD_item hb
  have hlt' := lt_of_getD_item hb'
  rw [List.getD_eq_getElem _ _ hlt] at hb
  rw [List.getD_eq_getElem _ _ hlt'] at hb'
  rcases Nat.lt_trichotomy b b' with hbb | hbb | hbb
  · exact absurd rfl (hpair b b' hlt hlt' hbb key (by rw [hb]; rfl) key (by rw [hb']; rfl))
  · exact hbb
  · exact absurd rfl (hpair b' b hlt' hlt hbb key (by rw [hb']; rfl) key (by rw [hb]; rfl))

/-- Only the entry of the bucket that is written changes. -/
theorem entries_set {table : List (Bucket α)} {b : Nat} (hb : b < table.length) (x : Bucket α) :
    ∃ before after, entries table = before ++ ((table.getD b .empty).item?.toList ++ after) ∧
      entries (table.set b x) = before ++ (x.item?.toList ++ after) := by
  have hsplit : ∀ y : Bucket α, entries (table.take b ++ y :: table.drop (b + 1)) =
      entries (table.take b) ++ (y.item?.toList ++ entries (table.drop (b + 1))) := by
    intro y
    rw [entries, List.filterMap_append, List.filterMap_cons]
    cases y.item? <;> rfl
  refine ⟨entries (table.take b), entries (table.drop (b + 1)), ?_, ?_⟩
  · rw [List.getD_eq_getElem _ _ hb, ← hsplit, List.getElem_cons_drop, List.take_append_drop]
  · rw [List.set_eq_take_append_cons_drop, if_pos hb, hsplit]

theorem entries_set_perm {table : List (Bucket α)} {b : Nat} (hb : b < table.length)
    (hfree : (table.getD b .empty).item? = none) (x : Bucket α) :
    (entries (table.set b x)).Perm (x.item?.toList ++ entries table) := by
  obtain ⟨before, after, hold, hnew⟩ := entries_set hb x
  rw [hfree, Option.toList_none, List.nil_append] at hold
  rw [hnew, hold, ← List.append_assoc, ← List.append_assoc]
  exact List.Perm.append_right _ List.perm_append_comm

/-- A bucket is empty, a tombstone, or holds an entry. -/
theorem countP_isEmpty (table : List (Bucket α)) :
    table.countP Bucket.isEmpty + table.countP Bucket.isTombstone + (entries table).length =
      table.length := by
  induction table with
  | nil => rfl
  | cons x xs ih =>
    rw [entries] at ih ⊢
    cases x <;>
      simp only [List.countP_cons, List.filterMap_cons, Bucket.isEmpty, Bucket.isTombstone,
        Bucket.item?, List.length_cons, Bool.false_eq_true, if_true, if_false] <;> omega

theorem exists_isEmpty {table : List (Bucket α)}
    (h : (entries table).length + table.countP Bucket.isTombstone < table.length) :
    ∃ b < table.length, (table.getD b .empty).isEmpty = true := by
  have hcount := countP_isEmpty table
  obtain ⟨x, hx, he⟩ := List.countP_pos_iff.1 (show 0 < table.countP Bucket.isEmpty by omega)
  obtain ⟨b, hb, rfl⟩ := List.getElem_of_mem hx
  exact ⟨b, hb, by rw [List.getD_eq_getElem _ _ hb]; exact he⟩

theorem countP_tombstone_set {table : List (Bucket α)} {b : Nat} (hb : b < table.length)
    (x : Bucket α) :
    (table.set b x).countP Bucket.isTombstone = table.countP Bucket.isTombstone -
      (if (table.getD b .empty).isTombstone = true then 1 else 0) +
      if x.isTombstone = true then 1 else 0 := by
  rw [List.countP_set hb, List.getD_eq_getElem _ _ hb]

/-- Filling a bucket keeps what is placed where it is. -/
theorem Placed.set {table : List (Bucket α)} {hash : UInt32} {b : Nat} (h : Placed table hash b)
    {c : Nat} (hc : c < table.length) {x : Bucket α} (hx : x.isEmpty = false) :
    Placed (table.set c x) hash b := by
  obtain ⟨i, hi, hlt, hbefore⟩ := h
  refine ⟨i, by rwa [List.length_set], by rwa [List.length_set], fun j hj => ?_⟩
  rw [List.length_set, getD_set hc]
  split
  · exact hx
  · exact hbefore j hj

/-! ## The three loops -/

theorem next_probe {table : List (Bucket α)} {k : Nat} (hk : table.length = 2 ^ k)
    (hash : UInt32) (i : Nat) :
    (probe table.length hash.toNat i + (i + 1)) &&& (table.length - 1) =
      probe table.length hash.toNat (i + 1) := by
  rw [probe_succ, hk, Nat.and_two_pow_sub_one_eq_mod]

theorem first_probe {table : List (Bucket α)} {k : Nat} (hk : table.length = 2 ^ k)
    (hash : UInt32) : hash.toNat &&& (table.length - 1) = probe table.length hash.toNat 0 := by
  rw [hk, Nat.and_two_pow_sub_one_eq_mod]
  rfl

theorem findKeyLoop_eq_some {table : List (Bucket α)} {hash : UInt32} {key : Key}
    {fuel bucketNo probeAmt b : Nat}
    (h : findKeyLoop table hash key fuel bucketNo probeAmt = some b) :
    ∃ value, table.getD b .empty = .item hash key value := by
  induction fuel generalizing bucketNo probeAmt with
  | zero => cases h
  | succ fuel ih =>
    rw [findKeyLoop] at h
    split at h
    · cases h
    · exact ih h
    · next hash' key' value hitem =>
      split at h
      · next heq =>
        cases h
        rw [hitem, heq.1, heq.2]
        exact ⟨value, rfl⟩
      · exact ih h

/-- A key that is there is found: the probes get to its bucket. -/
theorem findKeyLoop_of_item {table : List (Bucket α)} (hwf : TableWF table) {k : Nat}
    (hk : table.length = 2 ^ k) {hash : UInt32} {key : Key} {value : α} {last : Nat}
    (hlast : table.getD (probe table.length hash.toNat last) .empty = .item hash key value)
    (hbefore : ∀ j < last, (table.getD (probe table.length hash.toNat j) .empty).isEmpty = false)
    (i fuel : Nat) (hi : i ≤ last) (hfuel : last - i < fuel) :
    findKeyLoop table hash key fuel (probe table.length hash.toNat i) (i + 1) =
      some (probe table.length hash.toNat last) := by
  induction fuel generalizing i with
  | zero => exact absurd hfuel (Nat.not_lt_zero _)
  | succ fuel ih =>
    rw [findKeyLoop, next_probe hk]
    have hnext : i ≠ last → findKeyLoop table hash key fuel
        (probe table.length hash.toNat (i + 1)) (i + 1 + 1) =
          some (probe table.length hash.toNat last) :=
      fun hne => ih (i + 1) (by omega) (by omega)
    rcases Nat.eq_or_lt_of_le hi with rfl | hlt
    · rw [hlast]
      exact if_pos ⟨rfl, rfl⟩
    · have hne := hbefore i hlt
      cases hb : table.getD (probe table.length hash.toNat i) .empty with
      | empty => rw [hb] at hne; cases hne
      | tombstone => exact hnext hlt.ne
      | item hash' key' value' =>
        simp only
        split
        · next heq =>
          rw [heq.2] at hlast
          rw [hwf.eq_of_key_eq hb hlast]
        · exact hnext hlt.ne

/-- A table with a bucket has a size. -/
theorem WF.pow_of_lt {m : StringMap α} (hm : m.WF) {b : Nat} (hlt : b < m.theTable.length) :
    ∃ k, m.theTable.length = 2 ^ k := by
  refine hm.pow.resolve_left fun hnil => ?_
  rw [hnil] at hlt
  exact Nat.not_lt_zero b hlt

theorem WF.free_of_lt {m : StringMap α} (hm : m.WF) {b : Nat} (hlt : b < m.theTable.length) :
    m.numItems + m.numTombstones < m.theTable.length := by
  refine hm.free.resolve_left fun hnil => ?_
  rw [hnil] at hlt
  exact Nat.not_lt_zero b hlt

theorem findKey_eq_some_iff {m : StringMap α} (hm : m.WF) {key : Key} {b : Nat} :
    m.findKey key = some b ↔
      ∃ value, m.theTable.getD b .empty = .item (hashString key) key value := by
  rw [findKey, numBuckets]
  constructor
  · intro h
    split at h
    · cases h
    · exact findKeyLoop_eq_some h
  · rintro ⟨value, hb⟩
    obtain ⟨k, hk⟩ := hm.pow_of_lt (lt_of_getD_item hb)
    obtain ⟨-, last, hlast, hlen, hbefore⟩ := hm.table.placed b _ _ _ hb
    rw [if_neg (by omega)]
    simp only [first_probe hk]
    rw [← hlast] at hb ⊢
    exact findKeyLoop_of_item hm.table hk hb hbefore 0 _ (Nat.zero_le _) (by omega)

theorem lookupLoop_of_item {table : List (Bucket α)} (hwf : TableWF table) {k : Nat}
    (hk : table.length = 2 ^ k) {hash : UInt32} {key : Key} {value : α} {last : Nat}
    (hlast : table.getD (probe table.length hash.toNat last) .empty = .item hash key value)
    (hbefore : ∀ j < last, (table.getD (probe table.length hash.toNat j) .empty).isEmpty = false)
    (i fuel : Nat) (firstTombstone : Option Nat) (hi : i ≤ last) (hfuel : last - i < fuel) :
    lookupLoop table hash key fuel (probe table.length hash.toNat i) (i + 1) firstTombstone =
      some (probe table.length hash.toNat last) := by
  induction fuel generalizing i firstTombstone with
  | zero => exact absurd hfuel (Nat.not_lt_zero _)
  | succ fuel ih =>
    rw [lookupLoop, next_probe hk]
    rcases Nat.eq_or_lt_of_le hi with rfl | hlt
    · rw [hlast]
      exact if_pos ⟨rfl, rfl⟩
    · have hne := hbefore i hlt
      cases hb : table.getD (probe table.length hash.toNat i) .empty with
      | empty => rw [hb] at hne; cases hne
      | tombstone => exact ih (i + 1) _ (by omega) (by omega)
      | item hash' key' value' =>
        simp only
        split
        · next heq =>
          rw [heq.2] at hlast
          rw [hwf.eq_of_key_eq hb hlast]
        · exact ih (i + 1) _ (by omega) (by omega)

/-- For a key that is not there, the loop ends at a bucket without an entry to which the probes
get. -/
theorem lookupLoop_of_not_mem {table : List (Bucket α)} {k : Nat} (hk : table.length = 2 ^ k)
    {hash : UInt32} {key : Key} (hkey : ∀ value, (key, value) ∉ entries table) {last : Nat}
    (hlen : last < table.length)
    (hlast : (table.getD (probe table.length hash.toNat last) .empty).isEmpty = true)
    (i fuel : Nat) (firstTombstone : Option Nat) (hi : i ≤ last) (hfuel : last - i < fuel)
    (hbefore : ∀ j < i, (table.getD (probe table.length hash.toNat j) .empty).isEmpty = false)
    (hft : ∀ b, firstTombstone = some b →
      (table.getD b .empty).item? = none ∧ Placed table hash b) :
    ∃ b, lookupLoop table hash key fuel (probe table.length hash.toNat i) (i + 1) firstTombstone =
      some b ∧ (table.getD b .empty).item? = none ∧ Placed table hash b := by
  induction fuel generalizing i firstTombstone with
  | zero => exact absurd hfuel (Nat.not_lt_zero _)
  | succ fuel ih =>
    rw [lookupLoop, next_probe hk]
    have hplaced : Placed table hash (probe table.length hash.toNat i) :=
      ⟨i, rfl, by omega, hbefore⟩
    have hnext : (table.getD (probe table.length hash.toNat i) .empty).isEmpty = false →
        ∀ ft : Option Nat, (∀ b, ft = some b →
          (table.getD b .empty).item? = none ∧ Placed table hash b) →
        ∃ b, lookupLoop table hash key fuel (probe table.length hash.toNat (i + 1)) (i + 1 + 1) ft =
          some b ∧ (table.getD b .empty).item? = none ∧ Placed table hash b := by
      intro hne ft hft'
      have hlt : i ≠ last := by
        rintro rfl
        rw [hlast] at hne
        cases hne
      refine ih (i + 1) ft (by omega) (by omega) (fun j hj => ?_) hft'
      rcases Nat.lt_succ_iff_lt_or_eq.1 hj with hj' | rfl
      · exact hbefore j hj'
      · exact hne
    cases hb : table.getD (probe table.length hash.toNat i) .empty with
    | empty =>
      refine ⟨_, rfl, ?_⟩
      cases firstTombstone with
      | none => exact ⟨by rw [Option.getD_none, hb]; rfl, hplaced⟩
      | some t => exact hft t rfl
    | tombstone =>
      refine hnext (by rw [hb]; rfl) _ fun b hb' => ?_
      cases firstTombstone with
      | none =>
        cases hb'
        exact ⟨by rw [hb]; rfl, hplaced⟩
      | some _ =>
        cases hb'
        exact hft _ rfl
    | item hash' key' value' =>
      simp only
      rw [if_neg]
      · exact hnext (by rw [hb]; rfl) firstTombstone hft
      · rintro ⟨-, rfl⟩
        exact hkey value' (mem_entries.2 ⟨_, _, hb⟩)

theorem freeLoop_eq {table : List (Bucket α)} {k : Nat} (hk : table.length = 2 ^ k)
    {hash : UInt32} {last : Nat} (hlen : last < table.length)
    (hlast : (table.getD (probe table.length hash.toNat last) .empty).isEmpty = true)
    (i fuel : Nat) (hi : i ≤ last) (hfuel : last - i < fuel)
    (hbefore : ∀ j < i, (table.getD (probe table.length hash.toNat j) .empty).isEmpty = false) :
    ∃ b, freeLoop table fuel (probe table.length hash.toNat i) (i + 1) = some b ∧
      table.getD b .empty = .empty ∧ Placed table hash b := by
  induction fuel generalizing i with
  | zero => exact absurd hfuel (Nat.not_lt_zero _)
  | succ fuel ih =>
    rw [freeLoop, next_probe hk]
    split
    · next hb => exact ⟨_, rfl, hb, i, rfl, by omega, hbefore⟩
    · next hb =>
      have hne : (table.getD (probe table.length hash.toNat i) .empty).isEmpty = false := by
        cases hb' : table.getD (probe table.length hash.toNat i) .empty with
        | empty => exact absurd hb' hb
        | tombstone => rfl
        | item => rfl
      have hlt : i ≠ last := by
        rintro rfl
        rw [hlast] at hne
        cases hne
      refine ih (i + 1) (by omega) (by omega) fun j hj => ?_
      rcases Nat.lt_succ_iff_lt_or_eq.1 hj with hj' | rfl
      · exact hbefore j hj'
      · exact hne

/-! ## Filling a bucket -/

theorem Placed.lt {table : List (Bucket α)} {hash : UInt32} {b : Nat} (h : Placed table hash b) :
    b < table.length := by
  obtain ⟨i, rfl, hi, -⟩ := h
  exact probe_lt (by omega) _ _

theorem TableWF.fill {table : List (Bucket α)} (hwf : TableWF table) {key : Key} {b : Nat}
    (hfree : (table.getD b .empty).item? = none) (hplaced : Placed table (hashString key) b)
    (hkey : ∀ value, (key, value) ∉ entries table) (value : α) :
    TableWF (table.set b (.item (hashString key) key value)) := by
  refine ⟨?_, fun c hash k v hc => ?_⟩
  · have hperm := (entries_set_perm hplaced.lt hfree
      (.item (hashString key) key value)).map Prod.fst
    rw [hperm.nodup_iff]
    refine List.nodup_cons.2 ⟨?_, hwf.nodup⟩
    intro hmem
    obtain ⟨⟨k, v⟩, hentry, hk⟩ := List.mem_map.1 hmem
    obtain rfl : k = key := hk
    exact hkey v hentry
  · rw [getD_set hplaced.lt] at hc
    split at hc
    · next hcb =>
      cases hc
      rw [hcb]
      exact ⟨rfl, hplaced.set hplaced.lt rfl⟩
    · obtain ⟨hhash, hp⟩ := hwf.placed c hash k v hc
      exact ⟨hhash, hp.set hplaced.lt rfl⟩

theorem getD_fill {table : List (Bucket α)} {b : Nat} (hb : b < table.length)
    (hfree : (table.getD b .empty).item? = none) (x : Bucket α) {c : Nat} {hash : UInt32}
    {key : Key} {value : α} (hc : table.getD c .empty = .item hash key value) :
    (table.set b x).getD c .empty = .item hash key value := by
  rw [getD_set hb, if_neg, hc]
  rintro rfl
  rw [hc] at hfree
  cases hfree

theorem reinsert_spec {table : List (Bucket α)} {k : Nat} (hk : table.length = 2 ^ k)
    (htomb : table.countP Bucket.isTombstone = 0)
    (hroom : (entries table).length < table.length) (key : Key) (value : α) :
    ∃ b, reinsert table (hashString key) key value =
        (table.set b (.item (hashString key) key value), b) ∧
      table.getD b .empty = .empty ∧ Placed table (hashString key) b := by
  have hcount : (entries table).length + table.countP Bucket.isTombstone < table.length := by omega
  obtain ⟨b, hb, hempty⟩ := exists_isEmpty hcount
  obtain ⟨last, hlast, hprobe⟩ := exists_probe_eq k (hashString key).toNat (by rwa [hk] at hb)
  rw [← hk] at hlast hprobe
  rw [← hprobe] at hempty
  obtain ⟨c, hc, hfree, hplaced⟩ := freeLoop_eq hk hlast hempty 0 table.length (Nat.zero_le _)
    (by omega) fun j hj => absurd hj (Nat.not_lt_zero j)
  rw [Nat.zero_add] at hc
  refine ⟨c, ?_, hfree, hplaced⟩
  simp only [reinsert, first_probe hk, hc, Option.getD_some]

/-! ## Growing the table -/

theorem TableWF.replicate (n : Nat) : TableWF (List.replicate n (Bucket.empty : Bucket α)) := by
  refine ⟨?_, fun b hash key value h => ?_⟩
  · rw [entries, List.filterMap_replicate_of_none rfl]
    exact List.nodup_nil
  · rw [getD_replicate] at h
    cases h

/-- One entry is moved to a bucket that is free, and all others stay where they are. -/
theorem reinsert_item {newTable : List (Bucket α)} {k : Nat} (hwf : TableWF newTable)
    (hk : newTable.length = 2 ^ k) (htomb : newTable.countP Bucket.isTombstone = 0)
    (hroom : (entries newTable).length < newTable.length) {key : Key}
    (hkey : ∀ value, (key, value) ∉ entries newTable) (value : α) :
    ∃ table c, reinsert newTable (hashString key) key value = (table, c) ∧ TableWF table ∧
      table.length = newTable.length ∧ table.countP Bucket.isTombstone = 0 ∧
      (entries table).Perm ((key, value) :: entries newTable) ∧
      (∀ c' hash k' v, newTable.getD c' .empty = .item hash k' v →
        table.getD c' .empty = .item hash k' v) ∧
      table.getD c .empty = .item (hashString key) key value := by
  obtain ⟨c, hre, hfree, hplaced⟩ := reinsert_spec hk htomb hroom key value
  have hnone : (newTable.getD c .empty).item? = none := by rw [hfree]; rfl
  refine ⟨_, c, hre, hwf.fill hnone hplaced hkey value, List.length_set, ?_,
    entries_set_perm hplaced.lt hnone _, fun _ _ _ _ hc => getD_fill hplaced.lt hnone _ hc, ?_⟩
  · rw [countP_tombstone_set hplaced.lt, hfree, htomb]
    rfl
  · rw [getD_set hplaced.lt, if_pos rfl]

/-- The loop moves all entries, and those that have been moved stay where they are. -/
theorem rehashLoop_spec (bucketNo : Nat) {k : Nat} (bs : List (Bucket α)) (i : Nat)
    (newTable : List (Bucket α)) (newBucketNo : Nat) (hwf : TableWF newTable)
    (hk : newTable.length = 2 ^ k) (htomb : newTable.countP Bucket.isTombstone = 0)
    (hhash : ∀ hash key value, Bucket.item hash key value ∈ bs → hash = hashString key)
    (hnodup : ((entries newTable ++ entries bs).map Prod.fst).Nodup)
    (hroom : (entries newTable).length + (entries bs).length ≤ newTable.length) :
    ∃ table b, rehashLoop bucketNo bs i newTable newBucketNo = (table, b) ∧ TableWF table ∧
      table.length = newTable.length ∧ table.countP Bucket.isTombstone = 0 ∧
      (entries table).Perm (entries newTable ++ entries bs) ∧
      (∀ c hash key value, newTable.getD c .empty = .item hash key value →
        table.getD c .empty = .item hash key value) ∧
      (bucketNo < i → b = newBucketNo) ∧
      ∀ j hash key value, i + j = bucketNo → bs.getD j .empty = .item hash key value →
        table.getD b .empty = .item hash key value := by
  induction bs generalizing i newTable newBucketNo with
  | nil =>
    refine ⟨newTable, newBucketNo, rfl, hwf, rfl, htomb, ?_, fun _ _ _ _ h => h, fun _ => rfl, ?_⟩
    · exact List.Perm.of_eq (List.append_nil _).symm
    · intro j hash key value _ hj
      cases hj
  | cons x bs ih =>
    have hskip : x.item? = none → rehashLoop bucketNo (x :: bs) i newTable newBucketNo =
        rehashLoop bucketNo bs (i + 1) newTable newBucketNo := by
      intro hx
      cases x with
      | empty => rfl
      | tombstone => rfl
      | item => cases hx
    cases hx : x.item? with
    | none =>
      have hentries : entries (x :: bs) = entries bs := by rw [entries, List.filterMap_cons, hx]; rfl
      rw [hentries] at hnodup hroom ⊢
      obtain ⟨table, b, heq, hwf', hlen, htomb', hperm, hkeep, hold, hnew⟩ :=
        ih (i + 1) newTable newBucketNo hwf hk htomb
          (fun hash key value hmem => hhash hash key value (List.mem_cons_of_mem x hmem))
          hnodup hroom
      refine ⟨table, b, by rw [hskip hx, heq], hwf', hlen, htomb', hperm, hkeep,
        fun hlt => hold (by omega), fun j hash key value hij hj => ?_⟩
      cases j with
      | zero =>
        rw [List.getD_cons_zero] at hj
        rw [hj] at hx
        cases hx
      | succ j =>
        rw [List.getD_cons_succ] at hj
        exact hnew j hash key value (by omega) hj
    | some e =>
      cases x with
      | empty => cases hx
      | tombstone => cases hx
      | item hash key value =>
        obtain rfl := hhash hash key value List.mem_cons_self
        have hkey : ∀ v, (key, v) ∉ entries newTable := by
          intro v hmem
          rw [List.map_append, List.nodup_append] at hnodup
          exact hnodup.2.2 key (List.mem_map_of_mem hmem) key
            (List.mem_map_of_mem (f := Prod.fst) List.mem_cons_self) rfl
        have hlen : (entries (.item (hashString key) key value :: bs)).length =
            (entries bs).length + 1 := rfl
        obtain ⟨moved, c, hre, hmoved, hmovedLen, hmovedTomb, hmovedPerm, hmovedKeep, hc⟩ :=
          reinsert_item hwf hk htomb (by omega) hkey value
        have hmovedPerm' : (entries moved ++ entries bs).Perm
            (entries newTable ++ entries (.item (hashString key) key value :: bs)) :=
          (List.Perm.append_right _ hmovedPerm).trans List.perm_middle.symm
        obtain ⟨table, b, heq, hwf', hlen', htomb', hperm, hkeep, hold, hnew⟩ :=
          ih (i + 1) moved (if i = bucketNo then c else newBucketNo) hmoved
            (by rwa [hmovedLen]) hmovedTomb
            (fun hash key value hmem => hhash hash key value (List.mem_cons_of_mem _ hmem))
            ((hmovedPerm'.map Prod.fst).nodup_iff.2 hnodup)
            (by rw [← List.length_append, hmovedPerm'.length_eq, List.length_append, hmovedLen]
                exact hroom)
        refine ⟨table, b, ?_, hwf', hlen'.trans hmovedLen, htomb', hperm.trans hmovedPerm',
          fun c' h k' v' hc' => hkeep c' h k' v' (hmovedKeep c' h k' v' hc'),
          fun hlt => ?_, fun j h k' v' hij hj => ?_⟩
        · rw [rehashLoop, hre]
          exact heq
        · rw [hold (by omega), if_neg (by omega)]
        · cases j with
          | zero =>
            rw [hold (by omega), if_pos (by omega)]
            rw [List.getD_cons_zero] at hj
            rw [← hj]
            exact hkeep c _ _ _ hc
          | succ j =>
            rw [List.getD_cons_succ] at hj
            exact hnew j h k' v' (by omega) hj

theorem entries_replicate (n : Nat) : entries (List.replicate n (Bucket.empty : Bucket α)) = [] :=
  List.filterMap_replicate_of_none rfl

theorem rehashInto_spec {m : StringMap α} (hwf : TableWF m.theTable) {k newSize : Nat}
    (hk : newSize = 2 ^ k) (hitems : m.numItems = (entries m.theTable).length)
    (hroom : m.numItems < newSize) {b : Nat} {hash : UInt32} {key : Key} {value : α}
    (hb : m.theTable.getD b .empty = .item hash key value) :
    ∃ m' b', m.rehashInto newSize b = (m', b') ∧ m'.WF ∧ m'.toList.Perm m.toList ∧
      m'.theTable.getD b' .empty = .item hash key value := by
  obtain ⟨table, b', heq, hwf', hlen, htomb, hperm, -, -, hnew⟩ :=
    rehashLoop_spec (k := k) b m.theTable 0 (List.replicate newSize .empty) b
      (TableWF.replicate newSize) (by rw [List.length_replicate, hk])
      (List.countP_eq_zero.2 fun x hx => by rw [List.eq_of_mem_replicate hx]; exact Bool.noConfusion)
      (fun h k' v hmem => by
        obtain ⟨c, hc, hget⟩ := List.getElem_of_mem hmem
        exact (hwf.placed c h k' v (by rw [List.getD_eq_getElem _ _ hc, hget])).1)
      (by rw [entries_replicate]; exact hwf.nodup)
      (by rw [entries_replicate, List.length_replicate, ← hitems]; exact (by simpa using hroom.le))
  rw [entries_replicate, List.nil_append] at hperm
  rw [List.length_replicate] at hlen
  refine ⟨⟨table, m.numItems, 0⟩, b', by rw [rehashInto, heq], ⟨hwf', Or.inr ⟨k, ?_⟩, ?_, htomb.symm,
    Or.inr ?_⟩, hperm, hnew b hash key value (Nat.zero_add b) hb⟩
  · rw [hlen, hk]
  · rw [hperm.length_eq, hitems]
  · show m.numItems + 0 < table.length
    rw [hlen]
    exact hroom

/-- After `RehashTable` a bucket is empty again, and the entry that was followed is in the bucket
returned. -/
theorem rehashTable_spec {m : StringMap α} (hwf : TableWF m.theTable) {k : Nat}
    (hk : m.theTable.length = 2 ^ k) (hitems : m.numItems = (entries m.theTable).length)
    (htomb : m.numTombstones = m.theTable.countP Bucket.isTombstone) {b : Nat} {hash : UInt32}
    {key : Key} {value : α} (hb : m.theTable.getD b .empty = .item hash key value) :
    ∃ m' b', m.rehashTable b = (m', b') ∧ m'.WF ∧ m'.toList.Perm m.toList ∧
      m'.theTable.getD b' .empty = .item hash key value := by
  have hpos := Nat.two_pow_pos k
  have hcount := countP_isEmpty m.theTable
  rw [rehashTable]
  split
  · refine rehashInto_spec (k := k + 1) hwf ?_ hitems ?_ hb
    · rw [numBuckets, hk, pow_succ]
    · rw [numBuckets]
      omega
  · next hgrow =>
    rw [numBuckets] at hgrow
    split
    · have hlt : m.numItems < m.theTable.length := by omega
      exact rehashInto_spec hwf hk hitems hlt hb
    · next hfree =>
      rw [numBuckets] at hfree
      exact ⟨m, b, rfl, ⟨hwf, Or.inr ⟨k, hk⟩, hitems, htomb, Or.inr (by omega)⟩,
        List.Perm.refl _, hb⟩

/-! ## The operations -/

theorem WF.empty : (StringMap.empty : StringMap α).WF :=
  ⟨TableWF.replicate 0, Or.inl rfl, rfl, rfl, Or.inl rfl⟩

theorem WF.init16 : (init 16 : StringMap α).WF :=
  ⟨TableWF.replicate 16, Or.inr ⟨4, rfl⟩, rfl, rfl, Or.inr (by decide : 0 < 16)⟩

/-- `LookupBucketFor` gets to the entry of the key, or to a bucket where it can be put. -/
theorem lookupBucketFor_spec {m : StringMap α} (hm : m.WF) (key : Key) :
    (∃ b value, m.lookupBucketFor key = (m, b) ∧
      m.theTable.getD b .empty = .item (hashString key) key value) ∨
    (∀ value, (key, value) ∉ m.toList) ∧
      ∃ m' b k, m.lookupBucketFor key = (m', b) ∧ m'.WF ∧ m'.toList = m.toList ∧
        m'.theTable.length = 2 ^ k ∧ (m'.theTable.getD b .empty).item? = none ∧
        Placed m'.theTable (hashString key) b := by
  have hmain : ∀ m : StringMap α, m.WF → ∀ k, m.theTable.length = 2 ^ k →
      (∃ b value, lookupLoop m.theTable (hashString key) key m.numBuckets
          ((hashString key).toNat &&& (m.numBuckets - 1)) 1 none = some b ∧
        m.theTable.getD b .empty = .item (hashString key) key value) ∨
      (∀ value, (key, value) ∉ m.toList) ∧
        ∃ b, lookupLoop m.theTable (hashString key) key m.numBuckets
            ((hashString key).toNat &&& (m.numBuckets - 1)) 1 none = some b ∧
          (m.theTable.getD b .empty).item? = none ∧ Placed m.theTable (hashString key) b := by
    intro m hm k hk
    rw [show m.numBuckets = m.theTable.length from rfl, first_probe hk]
    by_cases hkey : ∃ value, (key, value) ∈ m.toList
    · left
      obtain ⟨value, hmem⟩ := hkey
      obtain ⟨b, hash, hb⟩ := mem_entries.1 hmem
      obtain ⟨rfl, last, rfl, hlen, hbefore⟩ := hm.table.placed b _ _ _ hb
      exact ⟨_, value, lookupLoop_of_item hm.table hk hb hbefore 0 _ none (Nat.zero_le _)
        (by omega), hb⟩
    · right
      have hkey' : ∀ value, (key, value) ∉ m.toList := fun v hv => hkey ⟨v, hv⟩
      have hroom : m.theTable ≠ [] := by
        intro hnil
        rw [hnil] at hk
        exact absurd hk (Nat.two_pow_pos k).ne
      have hfree := hm.free.resolve_left hroom
      rw [hm.numItems, hm.numTombstones] at hfree
      obtain ⟨b, hb, hempty⟩ := exists_isEmpty hfree
      obtain ⟨last, hlast, hprobe⟩ :=
        exists_probe_eq k (hashString key).toNat (by rwa [hk] at hb)
      rw [← hk] at hlast hprobe
      rw [← hprobe] at hempty
      obtain ⟨c, hc, hnone, hplaced⟩ := lookupLoop_of_not_mem hk hkey' hlast hempty 0
        m.theTable.length none (Nat.zero_le _) (by omega)
        (fun j hj => absurd hj (Nat.not_lt_zero j)) (fun t ht => by cases ht)
      exact ⟨hkey', c, hc, hnone, hplaced⟩
  rw [lookupBucketFor]
  by_cases hzero : m.numBuckets = 0
  · have hnil : m.theTable = [] := List.length_eq_zero_iff.1 hzero
    have hlist : m.toList = [] := by rw [toList, hnil]; rfl
    rw [if_pos hzero]
    rcases hmain (init 16) WF.init16 4 rfl with ⟨b, value, -, hb⟩ | ⟨-, b, hb, hnone, hplaced⟩
    · have hempty : (init 16 : StringMap α).theTable.getD b .empty = .empty := getD_replicate 16 b
      rw [hempty] at hb
      cases hb
    · refine Or.inr ⟨fun v hv => ?_, init 16, b, 4, ?_, WF.init16, ?_, rfl, hnone, hplaced⟩
      · rw [hlist] at hv
        cases hv
      · simp only [hb, Option.getD_some]
      · rw [hlist]
        exact entries_replicate 16
  · rw [if_neg hzero]
    obtain ⟨k, hk⟩ := hm.pow.resolve_left fun h => hzero (List.length_eq_zero_iff.2 h)
    rcases hmain m hm k hk with ⟨b, value, hb, hitem⟩ | ⟨hkey, b, hb, hnone, hplaced⟩
    · exact Or.inl ⟨b, value, by simp only [hb, Option.getD_some], hitem⟩
    · exact Or.inr ⟨hkey, m, b, k, by simp only [hb, Option.getD_some], hm, rfl, hk, hnone, hplaced⟩

/-- The whole key is stored when its length is an `unsigned`. -/
theorem createKey_of_lt {key : Key} (h : key.length < 2 ^ 32) : createKey key = key := by
  rw [createKey, keyLength, UInt32.toNat_ofNat_of_lt' h, List.take_length]

/-- The key is there, or it can be added as it is. -/
def Takes (m : StringMap α) (key : Key) : Prop :=
  (∀ v, (key, v) ∉ m.toList) → key.length < 2 ^ 32

theorem Takes.of_lt {m : StringMap α} {key : Key} (h : key.length < 2 ^ 32) : m.Takes key :=
  fun _ => h

theorem Takes.of_mem {m : StringMap α} {key : Key} {v : α} (h : (key, v) ∈ m.toList) :
    m.Takes key :=
  fun hnone => absurd h (hnone v)

/-- `emplace_second` finds the key or adds it. -/
theorem emplaceSecond_spec {m : StringMap α} (hm : m.WF) {key : Key} (htakes : m.Takes key)
    (value : α) :
    (∃ b v, m.emplaceSecond key value = (m, b, false) ∧
      m.theTable.getD b .empty = .item (hashString key) key v) ∨
    (∀ v, (key, v) ∉ m.toList) ∧
      ∃ m' b, m.emplaceSecond key value = (m', b, true) ∧ m'.WF ∧
        m'.toList.Perm ((key, value) :: m.toList) ∧
        m'.theTable.getD b .empty = .item (hashString key) key value := by
  rcases lookupBucketFor_spec hm key with
    ⟨b, v, hlook, hb⟩ | ⟨hkey, m', b, k, hlook, hm', hlist, hk, hnone, hplaced⟩
  · exact Or.inl ⟨b, v, by rw [emplaceSecond, hlook]; simp only [hb], hb⟩
  · refine Or.inr ⟨hkey, ?_⟩
    have hkey' : ∀ v, (key, v) ∉ entries m'.theTable := by
      intro v hv
      exact hkey v (hlist ▸ hv)
    have hperm := entries_set_perm hplaced.lt hnone (.item (hashString key) key value)
    obtain ⟨m'', b', heq, hwf, hlist', hb'⟩ := rehashTable_spec (m := ⟨m'.theTable.set b
        (.item (hashString key) key value), m'.numItems + 1,
        if (m'.theTable.getD b .empty).isTombstone = true then m'.numTombstones - 1
        else m'.numTombstones⟩) (hm'.table.fill hnone hplaced hkey' value)
      (by rwa [List.length_set])
      (by rw [hperm.length_eq, hm'.numItems]; rfl)
      (by
        rw [countP_tombstone_set hplaced.lt, hm'.numTombstones]
        split <;> rfl)
      (b := b) (by rw [getD_set hplaced.lt, if_pos rfl])
    refine ⟨m'', b', ?_, hwf, hlist'.trans ?_, hb'⟩
    · rw [emplaceSecond, hlook, createKey_of_lt (htakes hkey)]
      cases hbucket : m'.theTable.getD b .empty with
      | empty =>
        rw [hbucket] at heq
        simp only [hbucket]
        exact congrArg (fun r => (r.1, r.2, true)) heq
      | tombstone =>
        rw [hbucket] at heq
        simp only [hbucket]
        exact congrArg (fun r => (r.1, r.2, true)) heq
      | item => rw [hbucket] at hnone; cases hnone
    · rw [← hlist]
      exact hperm

theorem emplaceSecond_wf {m : StringMap α} (hm : m.WF) {key : Key} (htakes : m.Takes key)
    (value : α) : (m.emplaceSecond key value).1.WF := by
  rcases emplaceSecond_spec hm htakes value with ⟨b, v, heq, -⟩ | ⟨-, m', b, heq, hm', -⟩
  · rw [heq]
    exact hm
  · rw [heq]
    exact hm'

/-- The entry in bucket `b` gets another value. -/
theorem TableWF.setValue {table : List (Bucket α)} (hwf : TableWF table) {b : Nat} {hash : UInt32}
    {key : Key} {value : α} (hb : table.getD b .empty = .item hash key value) (value' : α) :
    TableWF (table.set b (.item hash key value')) ∧
      ∃ before after, entries table = before ++ (key, value) :: after ∧
        entries (table.set b (.item hash key value')) = before ++ (key, value') :: after := by
  have hlt := lt_of_getD_item hb
  obtain ⟨before, after, hold, hnew⟩ := entries_set hlt (.item hash key value')
  rw [hb] at hold
  refine ⟨⟨?_, fun c h k v hc => ?_⟩, before, after, hold, hnew⟩
  · have hnodup := hwf.nodup
    rw [hold] at hnodup
    rw [hnew]
    simpa [Bucket.item?] using hnodup
  · rw [getD_set hlt] at hc
    split at hc
    · next hcb =>
      cases hc
      obtain ⟨hhash, hp⟩ := hwf.placed b _ _ _ hb
      rw [hcb]
      exact ⟨hhash, hp.set hlt rfl⟩
    · obtain ⟨hhash, hp⟩ := hwf.placed c h k v hc
      exact ⟨hhash, hp.set hlt rfl⟩

theorem modifyAt_spec {m : StringMap α} (hm : m.WF) {b : Nat} {hash : UInt32} {key : Key}
    {value : α} (hb : m.theTable.getD b .empty = .item hash key value) (f : α → α) :
    (m.modifyAt b f).WF ∧ ∃ before after, m.toList = before ++ (key, value) :: after ∧
      (m.modifyAt b f).toList = before ++ (key, f value) :: after := by
  have hlt := lt_of_getD_item hb
  obtain ⟨hwf, before, after, hold, hnew⟩ := hm.table.setValue hb (f value)
  rw [modifyAt, hb]
  refine ⟨⟨hwf, ?_, ?_, ?_, ?_⟩, before, after, hold, hnew⟩
  · obtain ⟨k, hk⟩ := hm.pow_of_lt hlt
    exact Or.inr ⟨k, by rw [List.length_set, hk]⟩
  · rw [hnew, hm.numItems, hold]
    simp
  · rw [countP_tombstone_set hlt, hb, hm.numTombstones]
    rfl
  · rw [List.length_set]
    exact Or.inr (hm.free_of_lt hlt)

theorem eq_of_mem_of_nodup {l : List (Key × α)} (hl : (l.map Prod.fst).Nodup) {key : Key}
    {v v' : α} (h : (key, v) ∈ l) (h' : (key, v') ∈ l) : v = v' :=
  congrArg Prod.snd (List.inj_on_of_nodup_map hl h h' rfl)

/-- `find` gives the value of the entry with the key. -/
theorem lookup?_eq_some_iff {m : StringMap α} (hm : m.WF) {key : Key} {value : α} :
    m.lookup? key = some value ↔ (key, value) ∈ m.toList := by
  rw [lookup?]
  constructor
  · intro h
    split at h
    · cases h
    · next b hb =>
      obtain ⟨v, hitem⟩ := (findKey_eq_some_iff hm).1 hb
      rw [hitem] at h
      cases h
      exact mem_entries.2 ⟨b, _, hitem⟩
  · intro h
    obtain ⟨b, hash, hb⟩ := mem_entries.1 h
    obtain ⟨rfl, -⟩ := hm.table.placed b _ _ _ hb
    rw [(findKey_eq_some_iff hm).2 ⟨value, hb⟩]
    simp only [hb]
    rfl

theorem lookup_eq_some_iff {l : List (Key × α)} (hl : (l.map Prod.fst).Nodup)
    {key : Key} {value : α} : l.lookup key = some value ↔ (key, value) ∈ l := by
  induction l with
  | nil => simp
  | cons e l ih =>
    obtain ⟨k, v⟩ := e
    rw [List.map_cons, List.nodup_cons] at hl
    rw [List.lookup_cons]
    by_cases hk : key = k
    · subst hk
      have hnot : (key, value) ∉ l := fun h => hl.1 (List.mem_map.2 ⟨(key, value), h, rfl⟩)
      simp [hnot, eq_comm]
    · rw [beq_false_of_ne hk, ih hl.2]
      simp [hk]

theorem assign_spec (deflt : α) {m : StringMap α} (hm : m.WF) {key : Key} (htakes : m.Takes key)
    (value : α) :
    (assign deflt m key value).WF ∧
      ((∀ v, (key, v) ∉ m.toList) ∧
          (assign deflt m key value).toList.Perm ((key, value) :: m.toList) ∨
        ∃ before v after, m.toList = before ++ (key, v) :: after ∧
          (assign deflt m key value).toList = before ++ (key, value) :: after) := by
  rcases emplaceSecond_spec hm htakes deflt with
    ⟨b, v, heq, hb⟩ | ⟨hkey, m', b, heq, hm', hperm, hb⟩
  · obtain ⟨hwf, before, after, hold, hnew⟩ := modifyAt_spec hm hb fun _ => value
    rw [assign, heq]
    exact ⟨hwf, Or.inr ⟨before, v, after, hold, hnew⟩⟩
  · obtain ⟨hwf, before, after, hold, hnew⟩ := modifyAt_spec hm' hb fun _ => value
    rw [assign, heq]
    refine ⟨hwf, Or.inl ⟨hkey, ?_⟩⟩
    have hperm' : (before ++ after).Perm m.toList := by
      rw [hold] at hperm
      exact (List.perm_cons _).1 (List.perm_middle.symm.trans hperm)
    simp only
    rw [hnew]
    exact List.perm_middle.trans (hperm'.cons _)

/-- The first key of a table goes where its probes start. -/
theorem assign_empty (deflt : α) (key : Key) (value : α) : assign deflt .empty key value =
    ⟨(List.replicate 16 .empty).set ((hashString key).toNat &&& 15)
      (.item (hashString key) (createKey key) value), 1, 0⟩ := by
  have hlt : (hashString key).toNat &&& 15 < 16 := Nat.lt_succ_of_le Nat.and_le_right
  have hlook : (StringMap.empty : StringMap α).lookupBucketFor key =
      (init 16, (hashString key).toNat &&& 15) := by
    refine Prod.ext rfl ?_
    change (lookupLoop (List.replicate 16 .empty) _ _ 16 _ 1 none).getD _ = _
    rw [lookupLoop, getD_replicate]
    rfl
  have hemplace : (StringMap.empty : StringMap α).emplaceSecond key deflt =
      (⟨(List.replicate 16 .empty).set ((hashString key).toNat &&& 15)
        (.item (hashString key) (createKey key) deflt), 1, 0⟩,
        (hashString key).toNat &&& 15, true) := by
    rw [emplaceSecond, hlook]
    simp only [init, if_neg (Nat.succ_ne_zero 15), getD_replicate, Bucket.isTombstone,
      rehashTable, numBuckets, List.length_set, List.length_replicate]
    rfl
  rw [assign, hemplace]
  simp only [modifyAt, getD_set (hlt.trans_eq List.length_replicate.symm), if_true, List.set_set]

/-- An assignment changes what is found under its key, and nothing else. -/
theorem lookup?_assign (deflt : α) {m : StringMap α} (hm : m.WF) {key : Key} (htakes : m.Takes key)
    (value : α) :
    (assign deflt m key value).lookup? = Function.update m.lookup? key (some value) := by
  obtain ⟨hwf, hlist⟩ := assign_spec deflt hm htakes value
  funext k
  refine Option.ext fun v => ?_
  rw [lookup?_eq_some_iff hwf, Function.update_apply]
  by_cases hk : k = key
  · subst hk
    rw [if_pos rfl, Option.some.injEq]
    have hmem : (k, value) ∈ (assign deflt m k value).toList := by
      rcases hlist with ⟨-, hperm⟩ | ⟨before, v', after, -, hnew⟩
      · exact hperm.mem_iff.2 List.mem_cons_self
      · rw [hnew]
        exact List.mem_append_right _ List.mem_cons_self
    constructor
    · intro h
      exact eq_of_mem_of_nodup hwf.table.nodup hmem h
    · rintro rfl
      exact hmem
  · rw [if_neg hk, lookup?_eq_some_iff hm]
    rcases hlist with ⟨-, hperm⟩ | ⟨before, v', after, hold, hnew⟩
    · rw [hperm.mem_iff, List.mem_cons]
      constructor
      · rintro (h | h)
        · cases h
          exact absurd rfl hk
        · exact h
      · exact Or.inr
    · rw [hold, hnew]
      simp [hk]

theorem removeKey_spec {m : StringMap α} (hm : m.WF) (key : Key) :
    (m.removeKey key).WF ∧
      (m.removeKey key).toList.Perm (m.toList.filter fun e => e.1 ≠ key) := by
  rw [removeKey]
  cases hfind : m.findKey key with
  | none =>
    refine ⟨hm, List.Perm.of_eq (List.filter_eq_self.2 fun e he => ?_).symm⟩
    obtain ⟨k, v⟩ := e
    rw [decide_eq_true_iff]
    rintro rfl
    obtain ⟨b, hash, hb⟩ := mem_entries.1 he
    obtain ⟨rfl, -⟩ := hm.table.placed b _ _ _ hb
    rw [(findKey_eq_some_iff hm).2 ⟨v, hb⟩] at hfind
    cases hfind
  | some b =>
    obtain ⟨v, hb⟩ := (findKey_eq_some_iff hm).1 hfind
    have hlt := lt_of_getD_item hb
    obtain ⟨before, after, hold, hnew⟩ := entries_set hlt .tombstone
    rw [hb] at hold
    have hnodup := hm.table.nodup
    rw [hold, List.map_append] at hnodup
    have hkey : ∀ e ∈ before ++ after, e.1 ≠ key := by
      have hnot := (List.nodup_middle.1 hnodup).notMem
      rintro ⟨k, v'⟩ he hk
      refine hnot ?_
      rw [← List.map_append]
      exact List.mem_map.2 ⟨(k, v'), he, hk⟩
    refine ⟨⟨⟨?_, fun c h k v' hc => ?_⟩, ?_, ?_, ?_, ?_⟩, ?_⟩
    · rw [hnew, List.map_append]
      exact (List.nodup_middle.1 hnodup).of_cons
    · rw [getD_set hlt] at hc
      split at hc
      · cases hc
      · obtain ⟨hhash, hp⟩ := hm.table.placed c h k v' hc
        exact ⟨hhash, hp.set hlt rfl⟩
    · obtain ⟨k, hk⟩ := hm.pow_of_lt hlt
      exact Or.inr ⟨k, by rw [List.length_set, hk]⟩
    · rw [hnew, hm.numItems, hold]
      simp [Bucket.item?]
    · rw [countP_tombstone_set hlt, hb, hm.numTombstones]
      rfl
    · rw [List.length_set]
      have hfree := hm.free_of_lt hlt
      have hpos : 0 < m.numItems := by
        rw [hm.numItems, hold]
        simp [Bucket.item?]
      exact Or.inr (show m.numItems - 1 + (m.numTombstones + 1) < _ by omega)
    · have hfilter : (m.toList.filter fun e => e.1 ≠ key) = before ++ after := by
        rw [show m.toList = before ++ (key, v) :: after from hold, List.filter_append,
          List.filter_cons_of_neg (by simp), ← List.filter_append]
        exact List.filter_eq_self.2 fun e he => decide_eq_true (hkey e he)
      rw [hfilter]
      exact List.Perm.of_eq hnew

end StringMap

end Wpi

import WpiUtil.Json.Json
import WpiUtil.Llvm.Proofs.StringMapProofs

/-!
# Reasoning about `json` objects

An induction principle that gives the members of an object as the entries of its table, and what the
operations on objects do to the value denoted.
-/

namespace Wpi.Json

open StringMap

/-- Induction over a value: its elements, or the values under its keys. -/
@[elab_as_elim]
theorem induct {P : Json → Prop} (null : P null)
    (object : ∀ m : StringMap Json, (∀ e ∈ m.toList, P e.2) → P (object m))
    (array : ∀ xs : List Json, (∀ x ∈ xs, P x) → P (array xs)) (string : ∀ s, P (string s))
    (boolean : ∀ b, P (boolean b)) (numberInteger : ∀ n, P (numberInteger n))
    (numberUnsigned : ∀ n, P (numberUnsigned n)) (numberFloat : ∀ bits, P (numberFloat bits))
    (discarded : P discarded) (j : Json) : P j := by
  refine @Json.rec P (fun m => ∀ e ∈ m.toList, P e.2) (fun xs => ∀ x ∈ xs, P x)
    (fun table => ∀ e ∈ entries table, P e.2) (fun bucket => ∀ e, bucket.item? = some e → P e.2)
    null object array string boolean numberInteger numberUnsigned numberFloat discarded
    ?_ ?_ ?_ ?_ ?_ ?_ ?_ ?_ j
  · intro table _ _ h
    exact h
  · intro x hx
    cases hx
  · intro x xs hx hxs y hy
    rcases List.mem_cons.1 hy with rfl | hy
    · exact hx
    · exact hxs y hy
  · intro e he
    cases he
  · intro bucket table hbucket htable e he
    rw [entries, List.mem_filterMap] at he
    obtain ⟨b, hb, hbe⟩ := he
    rcases List.mem_cons.1 hb with rfl | hb
    · exact hbucket e hbe
    · exact htable e (List.mem_filterMap.2 ⟨b, hb, hbe⟩)
  · intro e he
    cases he
  · intro e he
    cases he
  · intro hash key value hvalue e he
    cases he
    exact hvalue

/-! ## Predicates on all nodes -/

theorem allList_iff {P : Json → Prop} (xs : List Json) : AllList P xs ↔ ∀ x ∈ xs, All P x := by
  induction xs with
  | nil => simp [AllList]
  | cons x xs ih => rw [AllList, ih, List.forall_mem_cons]

theorem allTable_iff {P : Json → Prop} (table : List (Bucket Json)) :
    AllTable P table ↔ ∀ e ∈ entries table, All P e.2 := by
  induction table with
  | nil => simp [AllTable, entries]
  | cons bucket table ih =>
    cases bucket with
    | empty => exact ih
    | tombstone => exact ih
    | item hash key value =>
      rw [AllTable, ih]
      exact (List.forall_mem_cons (p := fun e : Key × Json => All P e.2)
        (a := (key, value)) (l := entries table)).symm

@[simp] theorem all_array {P : Json → Prop} (xs : List Json) :
    All P (array xs) ↔ P (array xs) ∧ ∀ x ∈ xs, All P x := by
  rw [All, allList_iff]

@[simp] theorem all_object {P : Json → Prop} (m : StringMap Json) :
    All P (object m) ↔ P (object m) ∧ ∀ e ∈ m.toList, All P e.2 := by
  obtain ⟨table, items, tombstones⟩ := m
  rw [All, allTable_iff]
  rfl

theorem All.self {P : Json → Prop} {j : Json} (h : All P j) : P j := by
  cases j with
  | object m => exact ((all_object m).1 h).1
  | array xs => exact ((all_array xs).1 h).1
  | null => exact h
  | string => exact h
  | boolean => exact h
  | numberInteger => exact h
  | numberUnsigned => exact h
  | numberFloat => exact h
  | discarded => exact h

theorem All.imp {P Q : Json → Prop} (h : ∀ j, P j → Q j) {j : Json} (hj : All P j) : All Q j := by
  induction j using Json.induct with
  | object m ih =>
    rw [all_object] at hj ⊢
    exact ⟨h _ hj.1, fun e he => ih e he (hj.2 e he)⟩
  | array xs ih =>
    rw [all_array] at hj ⊢
    exact ⟨h _ hj.1, fun x hx => ih x hx (hj.2 x hx)⟩
  | null => exact h _ hj
  | string => exact h _ hj
  | boolean => exact h _ hj
  | numberInteger => exact h _ hj
  | numberUnsigned => exact h _ hj
  | numberFloat => exact h _ hj
  | discarded => exact h _ hj

theorem WF.maps {j : Json} (hj : j.WF) : j.All MapWF := by
  refine All.imp (fun j h => ?_) hj
  cases j with
  | object m => exact h.1
  | _ => trivial

theorem MapWF.listed {j : Json} (hj : j.MapWF) : j.Listed := by
  cases j with
  | object m => exact ⟨hj.numItems, hj.table.nodup⟩
  | _ => trivial

theorem All.listed {j : Json} (hj : j.All MapWF) : j.All Listed := All.imp (fun _ => MapWF.listed) hj

/-! ## The value denoted -/

theorem denoteList_eq (xs : List Json) : denoteList xs = xs.map denote := by
  induction xs with
  | nil => rfl
  | cons x xs ih => rw [denoteList, ih, List.map_cons]

theorem denoteTable_eq (table : List (Bucket Json)) :
    denoteTable table = (entries table).map fun e => (e.1, e.2.denote) := by
  induction table with
  | nil => rfl
  | cons bucket table ih =>
    cases bucket with
    | empty => exact ih
    | tombstone => exact ih
    | item hash key value =>
      rw [denoteTable, ih]
      rfl

@[simp] theorem denote_array (xs : List Json) : (array xs).denote = .array (xs.map denote) := by
  rw [denote, denoteList_eq]

theorem lookup_map_snd {α β : Type} (f : α → β) (l : List (Key × α)) (key : Key) :
    (l.map fun e => (e.1, f e.2)).lookup key = (l.lookup key).map f := by
  induction l with
  | nil => rfl
  | cons e l ih =>
    rw [List.map_cons, List.lookup_cons, List.lookup_cons]
    cases key == e.1 with
    | true => rfl
    | false => exact ih

theorem toList_lookup {α : Type} {m : StringMap α} (hm : m.WF) (key : Key) :
    m.toList.lookup key = m.lookup? key := by
  refine Option.ext fun v => ?_
  rw [lookup_eq_some_iff (l := m.toList) hm.table.nodup, lookup?_eq_some_iff hm]

/-- An object denotes the finite map from its keys to what is found under them. -/
theorem denote_object {m : StringMap Json} (hm : m.WF) :
    (object m).denote = .object fun key => (m.lookup? key).map denote := by
  obtain ⟨table, items, tombstones⟩ := m
  rw [denote, denoteTable_eq]
  congr 1
  funext key
  rw [lookup_map_snd, ← toList_lookup hm]
  rfl

/-! ## Assignments -/

theorem entryFits_iff {key : Key} : EntryFits key ↔ key.length + 25 < 2 ^ 32 := by
  have hlt := (allocSize entrySize key).toNat_lt
  have hsize : (allocSize entrySize key).toNat = (24 + key.length % 2 ^ 32 + 1) % 2 ^ 32 := by
    rw [allocSize, keyLength, UInt32.toNat_add, UInt32.toNat_add, UInt32.toNat_ofNat']
    rw [Nat.mod_add_mod]
    rfl
  have hentry : entrySize.toNat = 24 := rfl
  rw [EntryFits, hentry]
  constructor
  · intro h
    omega
  · intro h
    rw [hsize]
    omega

theorem EntryFits.lt {key : Key} (h : EntryFits key) : key.length < 2 ^ 32 := by
  have := entryFits_iff.1 h
  omega

/-- A name of `n` bytes. It is irreducible, as it is not meant to be computed. -/
@[irreducible] def longName (n : Nat) : Key := List.replicate n 0x61

theorem length_longName (n : Nat) : (longName n).length = n := by
  rw [longName, List.length_replicate]

theorem assign_wf {m : StringMap Json} (hm : m.WF) {key : Key} (hkey : m.Takes key)
    (value : Json) : (assign m key value).WF :=
  (assign_spec null hm hkey value).1

theorem lookup?_assign {m : StringMap Json} (hm : m.WF) {key : Key} (hkey : m.Takes key)
    (value : Json) : (assign m key value).lookup? = Function.update m.lookup? key (some value) :=
  StringMap.lookup?_assign null hm hkey value

/-- What is in the map after an assignment was there before, or is what was assigned. -/
theorem mem_assign {m : StringMap Json} (hm : m.WF) {key k : Key} (hkey : m.Takes key)
    {value v : Json} (h : (k, v) ∈ (assign m key value).toList) :
    (k, v) = (key, value) ∨ (k, v) ∈ m.toList := by
  rw [← lookup?_eq_some_iff (assign_wf hm hkey value), lookup?_assign hm hkey] at h
  rw [Function.update_apply] at h
  split at h
  · next hk =>
    cases h
    exact Or.inl (by rw [hk])
  · exact Or.inr ((lookup?_eq_some_iff hm).1 h)

theorem all_assign {P : Json → Prop} {m : StringMap Json} (hm : m.WF) (hall : (object m).All P)
    {key : Key} (hkey : m.Takes key) {value : Json} (hvalue : value.All P)
    (hself : P (object (assign m key value))) : (object (assign m key value)).All P := by
  refine (all_object _).2 ⟨hself, fun ⟨k, v⟩ he => ?_⟩
  rcases mem_assign hm hkey he with heq | he
  · rw [(Prod.mk.inj heq).2]
    exact hvalue
  · exact ((all_object m).1 hall).2 (k, v) he

/-- The maps are in order, and the keys have room in their entries. -/
def NodeFits (j : Json) : Prop := j.MapWF ∧ j.NodeKeysFit

theorem keysFit_of_all {j : Json} (hj : j.All NodeFits) : j.KeysFit := hj.imp fun _ h => h.2

theorem fits_empty : (object .empty).All NodeFits :=
  (all_object _).2 ⟨⟨WF.empty, fun e he => by cases he⟩, fun e he => by cases he⟩

theorem fits_array {xs : List Json} (hxs : ∀ x ∈ xs, x.All NodeFits) :
    (array xs).All NodeFits :=
  (all_array xs).2 ⟨⟨trivial, trivial⟩, hxs⟩

theorem fits_assign {m : StringMap Json} (hm : (object m).All NodeFits) {key : Key}
    (hkey : EntryFits key) {value : Json} (hvalue : value.All NodeFits) :
    (object (assign m key value)).All NodeFits := by
  have hwf : m.WF := hm.self.1
  have htakes : m.Takes key := .of_lt hkey.lt
  refine all_assign hwf hm htakes hvalue ⟨assign_wf hwf htakes value, fun ⟨k, v⟩ he => ?_⟩
  rcases mem_assign hwf htakes he with heq | he
  · rw [(Prod.mk.inj heq).1]
    exact hkey
  · exact hm.self.2 (k, v) he

/-- Assignments to keys that are all new. -/
theorem foldl_assign_perm (es : List (Key × Json)) {m : StringMap Json} (hm : m.WF)
    (hkeys : ∀ e ∈ es, e.1.length < 2 ^ 32)
    (hnodup : ((es ++ m.toList).map Prod.fst).Nodup) :
    (es.foldl (fun m e => assign m e.1 e.2) m).WF ∧
      (es.foldl (fun m e => assign m e.1 e.2) m).toList.Perm (es ++ m.toList) := by
  induction es generalizing m with
  | nil => exact ⟨hm, List.Perm.refl _⟩
  | cons e es ih =>
    rw [List.forall_mem_cons] at hkeys
    have hperm : (assign m e.1 e.2).toList.Perm (e :: m.toList) := by
      rcases (assign_spec null hm (.of_lt hkeys.1) e.2).2 with ⟨-, hperm⟩ | ⟨before, v, after, hold, -⟩
      · exact hperm
      · rw [List.cons_append, List.map_cons, List.nodup_cons] at hnodup
        refine absurd ?_ hnodup.1
        rw [hold]
        simp
    have hmiddle : (es ++ (assign m e.1 e.2).toList).Perm (e :: es ++ m.toList) :=
      (hperm.append_left es).trans List.perm_middle
    obtain ⟨hwf, hfold⟩ :=
      ih (assign_wf hm (.of_lt hkeys.1) e.2) hkeys.2 ((hmiddle.map Prod.fst).nodup_iff.2 hnodup)
    exact ⟨hwf, hfold.trans hmiddle⟩

/-- The only entry of a table that was empty. -/
theorem toList_singleton (key : Key) (value : Json) :
    (assign .empty key value).toList = [(createKey key, value)] := by
  have hlt : (hashString key).toNat &&& 15 < 16 := Nat.lt_succ_of_le Nat.and_le_right
  have hperm := @entries_set_perm _ (List.replicate 16 Bucket.empty) _
    (hlt.trans_eq List.length_replicate.symm) (by rw [getD_replicate]; rfl)
    (.item (hashString key) (createKey key) value)
  rw [entries_replicate] at hperm
  rw [assign, assign_empty, StringMap.toList]
  exact List.perm_singleton.1 hperm

/-- A name that is cut off in the entry counts as it is there. -/
theorem denote_singleton (key : Key) (value : Json) : (object (assign .empty key value)).denote =
    .object fun k => if k = createKey key then some value.denote else none := by
  have hlist := toList_singleton key value
  generalize assign .empty key value = m at hlist ⊢
  obtain ⟨table, items, tombstones⟩ := m
  rw [denote, denoteTable_eq]
  congr 1
  funext k
  change entries table = _ at hlist
  rw [hlist, List.map_singleton, List.lookup_cons]
  by_cases hk : k = createKey key
  · rw [hk, if_pos rfl, beq_self_eq_true]
  · rw [if_neg hk, beq_false_of_ne hk]
    rfl

theorem createKey_longName : createKey (longName (2 ^ 32)) = [] := by
  rw [createKey, keyLength, length_longName]
  exact List.take_zero

theorem lookup?_singleton {key : Key} (hkey : key.length < 2 ^ 32) (value : Json) {k : Key}
    (hk : k ≠ key) : (assign .empty key value).lookup? k = none := by
  rw [lookup?_assign WF.empty (.of_lt hkey), Function.update_of_ne hk]
  rfl

theorem all_singleton {P : Json → Prop} (key : Key) (value : Json) :
    All P (object (assign .empty key value)) ↔
      P (object (assign .empty key value)) ∧ All P value := by
  rw [all_object, toList_singleton]
  simp

theorem wf_singleton {key : Key} {value : Json} (hkey : key.length < 2 ^ 32) (hvalue : value.WF) :
    (object (assign .empty key value)).WF := by
  have hm := assign_wf WF.empty (.of_lt hkey) value
  have hlist := toList_singleton key value
  rw [createKey_of_lt hkey] at hlist
  refine (all_singleton key value).2 ⟨⟨hm, ?_, ?_⟩, hvalue⟩
  · rw [StringMap.size, hm.numItems, show entries _ = [(key, value)] from hlist]
    simp
  · rw [hlist]
    simpa using hkey

/-- What is found under a key depends on the entries only. -/
theorem lookup?_of_perm {m : StringMap Json} (hm : m.WF) {es : List (Key × Json)}
    (h : m.toList.Perm es) (key : Key) : m.lookup? key = es.lookup key := by
  have hnodup : (es.map Prod.fst).Nodup := (h.map Prod.fst).nodup_iff.1 hm.table.nodup
  refine Option.ext fun v => ?_
  rw [lookup?_eq_some_iff hm, lookup_eq_some_iff hnodup, h.mem_iff]

end Wpi.Json

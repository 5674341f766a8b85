import WpiUtil.Json.FlattenedLeaves
import WpiUtil.Json.Proofs.PointerAssignmentProofs
import WpiUtil.Json.Proofs.RebuildProofs

/-!
# The entries of a flattened value are its leaves
-/

namespace Wpi.Json

open Foundations StringMap

variable {t : Key} {j x y : Json} {step : Step} {location : Location}

/-! ## Pointers and locations -/

theorem child?_eq_none (h : j.IsLeaf) (hj : j.All MapWF) (step : Step) : j.child? step = none := by
  rw [Option.eq_none_iff_forall_ne_some]
  intro x hx
  rcases child?_eq_some hx with ⟨xs, i, rfl, rfl, hi⟩ | ⟨m, key, rfl, rfl, hkey⟩
  · have hempty : ¬xs.length ≠ 0 := h.resolve_left (by simp [isContainer])
    have hlt := (List.getElem?_eq_some_iff.1 hi).1
    omega
  · have hempty : ¬m.size ≠ 0 := h.resolve_left (by simp [isContainer])
    have hm : m.WF := hj.self
    have hlength : m.size = m.toList.length := hm.numItems
    have hmem := (lookup?_eq_some_iff hm).1 hkey
    have hpos := List.length_pos_of_mem hmem
    omega

/-- What is in a container is what its steps lead to. -/
theorem mem_children_iff (hj : j.All MapWF) :
    (t, x) ∈ j.children ↔ ∃ step, t = Step.token step ∧ j.child? step = some x := by
  cases j with
  | array xs =>
    rw [mem_children_array]
    constructor
    · rintro ⟨i, rfl, hi⟩
      exact ⟨.index i, rfl, hi⟩
    · rintro ⟨step, rfl, hstep⟩
      cases step with
      | index i => exact ⟨i, rfl, hstep⟩
      | key key => cases hstep
  | object m =>
    have hm : m.WF := hj.self
    have hkey : (t, x) ∈ (object m).children ↔ m.lookup? t = some x :=
      (lookup?_eq_some_iff hm).symm
    rw [hkey]
    constructor
    · intro h
      exact ⟨.key t, rfl, h⟩
    · rintro ⟨step, rfl, hstep⟩
      cases step with
      | index i => cases hstep
      | key key => exact hstep
  | null | string | boolean | numberInteger | numberUnsigned | numberFloat | discarded =>
    simp [children, child?]

/-- The leaves, with the tokens on the way to them as their pointers. -/
theorem mem_leaves_iff (hj : j.All MapWF) {p : JsonPointer} :
    (p, x) ∈ j.leaves ↔ ∃ location : Location, p = location.map Step.token ∧ j.LeafAt location x := by
  induction j using children_induction generalizing p x with
  | h j ih =>
    by_cases hleaf : j.IsLeaf
    · rw [leaves_leaf hleaf, List.mem_singleton, Prod.mk.injEq]
      constructor
      · rintro ⟨rfl, rfl⟩
        exact ⟨[], rfl, rfl, hleaf⟩
      · rintro ⟨location, rfl, hget, -⟩
        cases location with
        | nil =>
          cases hget
          exact ⟨rfl, rfl⟩
        | cons step rest =>
          obtain ⟨y, hy, -⟩ := get?_cons_eq_some_iff.1 hget
          rw [child?_eq_none hleaf hj] at hy
          cases hy
    · have hnode := hleaf
      rw [IsLeaf, not_or, Bool.not_eq_false, not_not] at hnode
      constructor
      · intro h
        obtain ⟨t, q, y, hp, hy, hq⟩ := exists_of_mem_leaves hnode.1 hnode.2 h
        have hp' : p = t :: q := hp
        subst hp'
        obtain ⟨step, rfl, hstep⟩ := (mem_children_iff hj).1 hy
        obtain ⟨rest, rfl, hget, hx⟩ := (ih _ hy (all_child? hj hstep)).1 hq
        exact ⟨step :: rest, rfl, get?_cons_eq_some_iff.2 ⟨y, hstep, hget⟩, hx⟩
      · rintro ⟨location, rfl, hget, hx⟩
        cases location with
        | nil =>
          cases hget
          exact absurd hx hleaf
        | cons step rest =>
          obtain ⟨y, hy, hrest⟩ := get?_cons_eq_some_iff.1 hget
          have hmem := (mem_children_iff hj).2 ⟨step, rfl, hy⟩
          have htail := (ih _ hmem (all_child? hj hy)).2 ⟨rest, rfl, hrest, hx⟩
          exact (mem_leaves hnode.1 hnode.2).2 ⟨y, hmem, htail⟩

/-- `at` follows the tokens of a location that is there. -/
theorem getCheckedConst_map_token (hj : j.All MapWF) (hindexed : j.All NodeIndexed)
    (h : j.get? location = some x) :
    getCheckedConst (location.map Step.token) j = .ok location := by
  induction location generalizing j with
  | nil => rfl
  | cons step rest ih =>
    obtain ⟨y, hy, hrest⟩ := get?_cons_eq_some_iff.1 h
    have hstep : checkedStep (Step.token step) j = .ok step ∧ y.All NodeIndexed := by
      rcases child?_eq_some hy with ⟨xs, i, rfl, rfl, hi⟩ | ⟨m, key, rfl, rfl, hkey⟩
      · have hlt := (List.getElem?_eq_some_iff.1 hi).1
        have hlength : xs.length ≤ 2 ^ 31 := hindexed.self
        obtain ⟨hdash, hzero⟩ := decimal_refused (i := i)
        refine ⟨checkedStep_index ?_ hlt, ((all_array xs).1 hindexed).2 y (List.mem_of_getElem? hi)⟩
        rw [checkedIndex, Step.token, if_neg hdash, if_neg hzero, arrayIndex_decimal (by omega)]
      · have hmem := (lookup?_eq_some_iff hj.self).1 hkey
        exact ⟨checkedStep_key hkey, ((all_object m).1 hindexed).2 (key, y) hmem⟩
    have htail := ih (all_child? hj hy) hstep.2 hrest
    exact getCheckedConst_cons_iff.2 ⟨step, y, rest, hstep.1, hy, htail, rfl⟩

/-- Different locations have different pointers. -/
theorem eq_of_map_token_eq (hj : j.All MapWF) (hindexed : j.All NodeIndexed)
    {location' : Location} (hx : j.get? location = some x) (hy : j.get? location' = some y)
    (h : location.map Step.token = location'.map Step.token) : location = location' := by
  have hat := getCheckedConst_map_token hj hindexed hx
  rw [h, getCheckedConst_map_token hj hindexed hy, Except.ok.injEq] at hat
  exact hat.symm

/-! ## Entries -/

/-- The entries of a flattened value, each at the location of its leaf. -/
theorem mem_flatten_iff (hj : j.WF) {m : StringMap Json}
    (hm : m.toList.Perm (j.leaves.map fun e => (JsonPointer.toString e.1, leafValue e.2)))
    {entry : Key × Json} : entry ∈ m.toList ↔ ∃ location leaf, j.LeafAt location leaf ∧
      entry = (JsonPointer.toString (location.map Step.token), leafValue leaf) := by
  rw [hm.mem_iff, List.mem_map]
  constructor
  · rintro ⟨⟨p, leaf⟩, hleaf, rfl⟩
    obtain ⟨location, rfl, hat⟩ := (mem_leaves_iff hj.maps).1 hleaf
    exact ⟨location, leaf, hat, rfl⟩
  · rintro ⟨location, leaf, hat, rfl⟩
    exact ⟨(location.map Step.token, leaf), (mem_leaves_iff hj.maps).2 ⟨location, rfl, hat⟩, rfl⟩

theorem entryFor_of_leafAt (hj : j.WF) (hindexed : j.All NodeIndexed) {leaf : Json}
    (h : j.LeafAt location leaf) :
    EntryFor j (JsonPointer.toString (location.map Step.token), leafValue leaf) location := by
  have hat := getCheckedConst_map_token hj.maps hindexed h.1
  have hpointer : j.atPointer (location.map Step.token) = (.ok location, j) :=
    Prod.ext ((getChecked_fst _ j).trans hat) (getChecked_snd _ hj.maps)
  exact ⟨_, leaf, split_toString _, hpointer, h, rfl⟩

/-- The entries of a flattened value correspond to the leaves of the value one to one, and the JSON
pointer of each leads to its leaf. -/
theorem flatten_bijective (hj : j.WF) (hindexed : j.All NodeIndexed) (hfits : j.LeavesFit) :
    ∃ m, j.flatten = object m ∧
      ∃ f : {entry // entry ∈ m.toList} → {location // ∃ leaf, j.LeafAt location leaf},
        Function.Bijective f ∧ ∀ entry, EntryFor j entry.1 (f entry).1 := by
  obtain ⟨m, hflatten, hm, hperm⟩ := flatten_spec hj fun e he => (hfits.2 e he).lt
  have hentries : ∀ entry : {entry // entry ∈ m.toList}, ∃ location leaf, j.LeafAt location leaf ∧
      entry.1 = (JsonPointer.toString (location.map Step.token), leafValue leaf) :=
    fun entry => (mem_flatten_iff hj hperm).1 entry.2
  choose location leaf hleaf hentry using hentries
  have hkey : ∀ entry, entry.1.1 = JsonPointer.toString ((location entry).map Step.token) :=
    fun entry => congrArg Prod.fst (hentry entry)
  refine ⟨m, hflatten, fun entry => ⟨location entry, leaf entry, hleaf entry⟩, ⟨?_, ?_⟩, ?_⟩
  · rintro ⟨⟨k, v⟩, he⟩ ⟨⟨k', v'⟩, he'⟩ heq
    have hlocation := congrArg Subtype.val heq
    have hkk' : k = k' := by
      have hk := hkey ⟨(k, v), he⟩
      have hk' := hkey ⟨(k', v'), he'⟩
      dsimp only at hk hk' hlocation
      rw [hk, hk', hlocation]
    subst hkk'
    have hvv' : v = v' := eq_of_mem_of_nodup hm.table.nodup he he'
    subst hvv'
    rfl
  · rintro ⟨l, x, hx⟩
    have hmem := (mem_flatten_iff hj hperm).2 ⟨l, x, hx, rfl⟩
    refine ⟨⟨_, hmem⟩, Subtype.ext ?_⟩
    have htokens := toString_injective (hkey ⟨_, hmem⟩)
    exact (eq_of_map_token_eq hj.maps hindexed hx.1 (hleaf ⟨_, hmem⟩).1 htokens).symm
  · intro entry
    have hfor := entryFor_of_leafAt hj hindexed (hleaf entry)
    rw [← hentry entry] at hfor
    exact hfor

/-- `[[], null]` -/
theorem flatten_bijective_array : ∃ m, (array [array [], null]).flatten = object m ∧
    ∃ f : {entry // entry ∈ m.toList} →
        {location // ∃ leaf, (array [array [], null]).LeafAt location leaf},
      Function.Bijective f ∧ ∀ entry, EntryFor (array [array [], null]) entry.1 (f entry).1 := by
  have hzero : 0 < 2 ^ 64 := by omega
  have htwo : 2 < 2 ^ 64 := by omega
  have hwf : (array [array [], null]).WF := ⟨htwo, ⟨hzero, trivial⟩, trivial, trivial⟩
  have hindexed : (array [array [], null]).All NodeIndexed :=
    ⟨show 2 ≤ 2 ^ 31 by omega, ⟨Nat.zero_le _, trivial⟩, trivial, trivial⟩
  have hfits : (array [array [], null]).LeavesFit :=
    ⟨show 2 ≤ StringMap.maxItems by decide, by decide⟩
  exact flatten_bijective hwf hindexed hfits

/-- An object in an object, each with one member. -/
def longNames : Json :=
  object (assign .empty (longName (2 ^ 31)) (object (assign .empty (longName (2 ^ 31)) null)))

theorem escape_replicate (n : Nat) :
    escape (List.replicate n (0x61 : Byte)) = List.replicate n (0x61 : Byte) := by
  induction n with
  | zero => rfl
  | succ n ih =>
    rw [List.replicate_succ, escape_cons, ih]
    rfl

/-- The pointer to the null value has `2 ^ 32 + 2` bytes, and is cut off after two. -/
theorem createKey_longNames :
    createKey (JsonPointer.toString [longName (2 ^ 31), longName (2 ^ 31)]) = bytes "/a" := by
  have htext : JsonPointer.toString [longName (2 ^ 31), longName (2 ^ 31)] =
      0x2f :: (longName (2 ^ 31) ++ 0x2f :: longName (2 ^ 31)) := by
    have hescape : escape (longName (2 ^ 31)) = longName (2 ^ 31) := by
      rw [longName, escape_replicate]
    rw [toString_cons, toString_cons, toString_nil, hescape, List.append_nil]
  have hlength : (0x2f :: (longName (2 ^ 31) ++ 0x2f :: longName (2 ^ 31))).length = 2 ^ 32 + 2 := by
    rw [List.length_cons, List.length_append, List.length_cons, length_longName]
    omega
  have htwo : (keyLength (0x2f :: (longName (2 ^ 31) ++ 0x2f :: longName (2 ^ 31)))).toNat = 2 := by
    rw [keyLength, hlength, UInt32.toNat_ofNat']
    omega
  have hcons : longName (2 ^ 31) = 0x61 :: List.replicate (2 ^ 31 - 1) 0x61 := by
    rw [← List.replicate_succ, Nat.sub_add_cancel (by omega), longName]
  rw [htext, createKey, htwo, hcons, List.cons_append, List.take_succ_cons, List.take_succ_cons,
    List.take_zero]
  rfl

theorem flatten_longNames :
    longNames.flatten = object
      (assign .empty (JsonPointer.toString [longName (2 ^ 31), longName (2 ^ 31)]) null) := by
  have hshort : (longName (2 ^ 31)).length < 2 ^ 32 := by
    rw [length_longName]
    omega
  have hnull : null.leaves = [([], null)] := rfl
  rw [flatten, flattenInto_eq, longNames, leaves_singleton hshort, leaves_singleton hshort, hnull,
    graft, graft, List.map_cons, List.map_nil, List.map_cons, List.map_nil, List.foldl_cons,
    List.foldl_nil, List.nil_append]
  rfl

/-- No member of the outer object has the name `a`. -/
theorem not_flatten_bijective_longNames :
    longNames.WF ∧ longNames.NoDiscarded ∧ longNames.All NodeIndexed ∧
      ¬∃ m, longNames.flatten = object m ∧
        ∃ f : {entry // entry ∈ m.toList} → {location // ∃ leaf, longNames.LeafAt location leaf},
          Function.Bijective f ∧ ∀ entry, EntryFor longNames entry.1 (f entry).1 := by
  have hshort : (longName (2 ^ 31)).length < 2 ^ 32 := by
    rw [length_longName]
    omega
  refine ⟨wf_singleton hshort (wf_singleton hshort trivial), ?_, ?_, ?_⟩
  · exact (all_singleton _ _).2 ⟨rfl, (all_singleton _ _).2 ⟨rfl, rfl⟩⟩
  · exact (all_singleton _ _).2 ⟨trivial, (all_singleton _ _).2 ⟨trivial, trivial⟩⟩
  · rintro ⟨m, hm, f, -, hf⟩
    rw [flatten_longNames, object.injEq] at hm
    have hmem : (bytes "/a", null) ∈ m.toList := by
      rw [← hm, toList_singleton, createKey_longNames]
      exact List.mem_singleton_self _
    obtain ⟨p, leaf, hp, hat, -⟩ := hf ⟨_, hmem⟩
    obtain rfl : [bytes "a"] = p := Except.ok.inj hp
    have hne : bytes "a" ≠ longName (2 ^ 31) := by
      intro h
      have hlength := congrArg List.length h
      rw [length_longName] at hlength
      exact absurd hlength (by decide)
    obtain ⟨location, hchecked⟩ : ∃ location,
        getCheckedConst [bytes "a"] longNames = .ok location :=
      ⟨_, (getChecked_fst _ _).symm.trans (congrArg Prod.fst hat)⟩
    have hstep : checkedStep (bytes "a") longNames =
        .error (.thrown (outOfRange 403 (bytes "key '" ++ bytes "a" ++ bytes "' not found"))) := by
      change atKey _ _ = _
      rw [atKey, lookup?_singleton hshort _ hne]
    rw [getCheckedConst_cons, hstep] at hchecked
    cases hchecked

end Wpi.Json

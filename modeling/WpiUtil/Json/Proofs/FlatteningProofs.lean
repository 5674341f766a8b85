import WpiUtil.Json.Flattening
import WpiUtil.Json.Proofs.JsonPointerProofs
import WpiUtil.Json.Proofs.JsonProofs

/-!
# Flattening and back

`flatten` lists the leaves of a value under the texts of their pointers. `unflatten` puts them back
one by one in the order of these texts, and each container gets what is put back below each of its
reference tokens, whatever comes between.
-/

namespace Wpi.Json

open StringMap

/-! ## Leaves -/

theorem isContainer_cases {j : Json} (h : j.isContainer = true) :
    (∃ xs, j = array xs) ∨ ∃ m, j = object m := by
  cases j with
  | array xs => exact Or.inl ⟨xs, rfl⟩
  | object m => exact Or.inr ⟨m, rfl⟩
  | _ => cases h

theorem leavesElements_eq (i : Nat) (xs : List Json) :
    leavesElements i xs = (xs.zipIdx i).flatMap fun x => graft (decimal x.2) x.1.leaves := by
  induction xs generalizing i with
  | nil => rfl
  | cons x xs ih => rw [leavesElements, ih, List.zipIdx_cons, List.flatMap_cons]

theorem leavesMembers_eq (table : List (Bucket Json)) :
    leavesMembers table = (entries table).flatMap fun e => graft e.1 e.2.leaves := by
  induction table with
  | nil => rfl
  | cons bucket table ih =>
    cases bucket with
    | empty => exact ih
    | tombstone => exact ih
    | item hash key value =>
      rw [leavesMembers, ih]
      rfl

/-- The leaves of a container are those of what is in it. -/
theorem leaves_eq {j : Json} (hj : j.isContainer = true) (hne : NodeNonempty j) :
    j.leaves = j.children.flatMap fun e => graft e.1 e.2.leaves := by
  rcases isContainer_cases hj with ⟨xs, rfl⟩ | ⟨m, rfl⟩
  · unfold NodeNonempty at hne
    rw [leaves, if_neg hne, leavesElements_eq, children, List.flatMap_map]
  · obtain ⟨table, items, tombstones⟩ := m
    have hitems : items ≠ 0 := hne
    rw [leaves, if_neg hitems, leavesMembers_eq]
    rfl

/-- Primitive values and empty containers. -/
theorem leaves_leaf {j : Json} (h : j.isContainer = false ∨ ¬NodeNonempty j) :
    j.leaves = [([], j)] := by
  cases j with
  | array xs =>
    rcases h with h | h
    · cases h
    · rw [leaves, if_pos (not_not.1 h)]
  | object m =>
    rcases h with h | h
    · cases h
    · have hitems : m.numItems = 0 := not_not.1 h
      rw [leaves, if_pos hitems]
  | _ => rfl

theorem leaves_singleton {key : Key} (hkey : key.length < 2 ^ 32) (value : Json) :
    (object (assign .empty key value)).leaves = graft key value.leaves := by
  have hsize : (assign .empty key value).size = 1 := by
    rw [assign, assign_empty]
    rfl
  have hne : NodeNonempty (object (assign .empty key value)) := by
    rw [NodeNonempty, hsize]
    decide
  rw [leaves_eq rfl hne, children, toList_singleton, createKey_of_lt hkey, List.flatMap_singleton]

theorem flattenElements_eq (ref : Key) (i : Nat) (xs : List Json) (result : StringMap Json) :
    flattenElements ref i xs result = (xs.zipIdx i).foldl
      (fun result x => flattenInto (ref ++ bytes "/" ++ decimal x.2) x.1 result) result := by
  induction xs generalizing i result with
  | nil => rfl
  | cons x xs ih => rw [flattenElements, ih, List.zipIdx_cons, List.foldl_cons]

theorem flattenMembers_eq (ref : Key) (table : List (Bucket Json)) (result : StringMap Json) :
    flattenMembers ref table result = (entries table).foldl
      (fun result e => flattenInto (ref ++ bytes "/" ++ escape e.1) e.2 result) result := by
  induction table generalizing result with
  | nil => rfl
  | cons bucket table ih =>
    cases bucket with
    | empty => exact ih result
    | tombstone => exact ih result
    | item hash key value =>
      rw [flattenMembers, ih]
      rfl

theorem flattenInto_leaf {j : Json} (h : j.isContainer = false ∨ ¬NodeNonempty j) (ref : Key)
    (result : StringMap Json) : flattenInto ref j result = assign result ref (leafValue j) := by
  cases j with
  | array xs =>
    rcases h with h | h
    · cases h
    · rw [flattenInto, if_pos (not_not.1 h)]
      rfl
  | object m =>
    rcases h with h | h
    · cases h
    · have hitems : m.numItems = 0 := not_not.1 h
      rw [flattenInto, if_pos hitems]
      rfl
  | _ => rfl

theorem foldl_graft (t : Key) (leaves : List (JsonPointer × Json)) (ref : Key)
    (result : StringMap Json) :
    (graft t leaves).foldl
        (fun result e => assign result (ref ++ JsonPointer.toString e.1) (leafValue e.2)) result =
      leaves.foldl (fun result e =>
        assign result (ref ++ bytes "/" ++ escape t ++ JsonPointer.toString e.1) (leafValue e.2))
        result := by
  rw [graft, List.foldl_map]
  congr 1
  funext result e
  rw [toString_cons, List.append_assoc, List.append_assoc]
  rfl

/-- `flatten` makes one entry for each leaf. -/
theorem flattenInto_eq (j : Json) (ref : Key) (result : StringMap Json) :
    flattenInto ref j result = j.leaves.foldl
      (fun result e => assign result (ref ++ JsonPointer.toString e.1) (leafValue e.2)) result := by
  induction j using Json.induct generalizing ref result with
  | array xs ih =>
    by_cases hne : NodeNonempty (array xs)
    · have hlen : xs.length ≠ 0 := hne
      rw [flattenInto, if_neg hlen, flattenElements_eq, leaves, if_neg hlen, leavesElements_eq,
        List.foldl_flatMap]
      refine List.foldl_ext _ _ _ fun result x hx => ?_
      rw [foldl_graft, escape_decimal, ih x.1 (List.fst_mem_of_mem_zipIdx hx)]
    · rw [flattenInto_leaf (Or.inr hne), leaves_leaf (Or.inr hne)]
      simp
  | object m ih =>
    by_cases hne : NodeNonempty (object m)
    · have hitems : m.numItems ≠ 0 := hne
      rw [flattenInto, if_neg hitems, flattenMembers_eq, leaves, if_neg hitems, leavesMembers_eq,
        List.foldl_flatMap]
      refine List.foldl_ext _ _ _ fun result e he => ?_
      rw [foldl_graft, ih e he]
    · rw [flattenInto_leaf (Or.inr hne), leaves_leaf (Or.inr hne)]
      simp
  | _ => simp [flattenInto, leaves, leafValue, isContainer]

/-! ## The entries -/

theorem children_nodup {j : Json} (hj : j.WF) : (j.children.map Prod.fst).Nodup := by
  cases j with
  | array xs =>
    rw [children, List.map_map]
    have hindices : (xs.zipIdx.map Prod.snd).Nodup := by
      rw [List.zipIdx_map_snd]
      exact List.nodup_range'
    have hmap := hindices.map decimal_injective
    rwa [List.map_map] at hmap
  | object m => exact (All.self hj).1.table.nodup
  | _ => exact List.nodup_nil

theorem wf_of_mem_children {P : Json → Prop} {j : Json} (hj : All P j) {e : Key × Json}
    (he : e ∈ j.children) : All P e.2 := by
  cases j with
  | array xs =>
    obtain ⟨x, hx, rfl⟩ := List.mem_map.1 he
    exact ((all_array xs).1 hj).2 x.1 (List.fst_mem_of_mem_zipIdx hx)
  | object m => exact ((all_object m).1 hj).2 e he
  | _ => cases he

/-- Induction over a value: what is in a container, each value under its reference token. -/
theorem children_induction {P : Json → Prop} (h : ∀ j : Json, (∀ e ∈ j.children, P e.2) → P j)
    (j : Json) : P j := by
  induction j using Json.induct with
  | array xs ih =>
    refine h _ fun e he => ?_
    obtain ⟨x, hx, rfl⟩ := List.mem_map.1 he
    exact ih x.1 (List.fst_mem_of_mem_zipIdx hx)
  | object m ih => exact h _ ih
  | _ => exact h _ fun e he => by cases he

theorem map_fst_graft (t : Key) (leaves : List (JsonPointer × Json)) :
    (graft t leaves).map Prod.fst = (leaves.map Prod.fst).map (t :: ·) := by
  rw [graft, List.map_map, List.map_map]
  rfl

/-- Different leaves have different pointers. -/
theorem leaves_nodup {j : Json} (hj : j.WF) : (j.leaves.map Prod.fst).Nodup := by
  induction j using children_induction with
  | h j ih =>
    by_cases hleaf : j.isContainer = false ∨ ¬NodeNonempty j
    · rw [leaves_leaf hleaf]
      exact List.nodup_singleton _
    · rw [not_or, Bool.not_eq_false, not_not] at hleaf
      rw [leaves_eq hleaf.1 hleaf.2, List.map_flatMap, List.nodup_flatMap]
      constructor
      · intro e he
        rw [map_fst_graft]
        exact (ih e he (wf_of_mem_children hj he)).map (List.cons_injective)
      · refine (List.pairwise_map.1 (children_nodup hj)).imp fun {a b} hab => ?_
        change ((graft a.1 a.2.leaves).map Prod.fst).Disjoint ((graft b.1 b.2.leaves).map Prod.fst)
        rw [map_fst_graft, map_fst_graft, List.disjoint_left]
        intro p ha hb
        obtain ⟨q, -, rfl⟩ := List.mem_map.1 ha
        obtain ⟨q', -, hq⟩ := List.mem_map.1 hb
        exact hab (List.cons.inj hq).1.symm

/-- What `flatten` makes of a value: its leaves, each under the text of its pointer. -/
theorem flatten_spec {j : Json} (hj : j.WF)
    (hfits : ∀ e ∈ j.leaves, (JsonPointer.toString e.1).length < 2 ^ 32) :
    ∃ m, j.flatten = object m ∧ m.WF ∧
      m.toList.Perm (j.leaves.map fun e => (JsonPointer.toString e.1, leafValue e.2)) := by
  have hnodup : ((j.leaves.map fun e => (JsonPointer.toString e.1, leafValue e.2)).map
      Prod.fst).Nodup := by
    have hmap := (leaves_nodup hj).map toString_injective
    rwa [List.map_map] at hmap ⊢
  have hempty : StringMap.toList (.empty : StringMap Json) = [] := rfl
  have hfold := foldl_assign_perm
    (j.leaves.map fun e => (JsonPointer.toString e.1, leafValue e.2)) WF.empty
    (by rwa [List.forall_mem_map]) (by rw [hempty, List.append_nil]; exact hnodup)
  rw [hempty, List.append_nil, List.foldl_map] at hfold
  refine ⟨_, rfl, ?_⟩
  rw [flattenInto_eq]
  exact hfold

end Wpi.Json

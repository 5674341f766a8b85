import WpiUtil.Json.FlattenedLeaves
import WpiUtil.Json.Proofs.ArrayIndexProofs
import WpiUtil.Json.Proofs.RebuildProofs

/-!
# Flattening and unflattening

What `unflatten` builds has no pointer that is longer than all the keys it was built from. So a value
with a pointer that has been cut off in the table does not come back.
-/

namespace Wpi.Json

open StringMap

/-! ## How long the pointers in a value are -/

/-- No pointer in the value is longer than `n` bytes after the `d` bytes that lead to the value. -/
def PointersWithin (n d : Nat) (j : Json) : Prop :=
  ∀ e ∈ j.leaves, d + (JsonPointer.toString e.1).length ≤ n

theorem length_le_escape (t : Key) : t.length ≤ (escape t).length := by
  induction t with
  | nil => exact Nat.le_refl _
  | cons c t ih =>
    have hbyte : 1 ≤ (escapeByte c).length := by
      unfold escapeByte
      split_ifs <;> simp
    rw [escape_cons, List.length_append, List.length_cons]
    omega

theorem length_toString_cons (t : Key) (p : JsonPointer) :
    (JsonPointer.toString (t :: p)).length =
      1 + (escape t).length + (JsonPointer.toString p).length := by
  rw [toString_cons, List.length_cons, List.length_append]
  omega

theorem pointersWithin_leaf {n d : Nat} {j : Json} (h : j.isContainer = false ∨ ¬NodeNonempty j)
    (hd : d ≤ n) : PointersWithin n d j := by
  intro e he
  rw [leaves_leaf h, List.mem_singleton] at he
  rw [he]
  exact hd

theorem pointersWithin_container {n d : Nat} {j : Json} (hc : j.isContainer = true)
    (hne : NodeNonempty j) : PointersWithin n d j ↔
      ∀ t c, (t, c) ∈ j.children → PointersWithin n (d + 1 + (escape t).length) c := by
  constructor
  · rintro h t c ht ⟨p, v⟩ hp
    have hle := h _ ((mem_leaves hc hne).2 ⟨c, ht, hp⟩)
    rw [length_toString_cons] at hle
    change _ + (JsonPointer.toString p).length ≤ n
    omega
  · intro h e he
    obtain ⟨t, p, c, hp, ht, hleaf⟩ := exists_of_mem_leaves hc hne he
    have hle := h t c ht _ hleaf
    change _ + (JsonPointer.toString p).length ≤ n at hle
    rw [hp, length_toString_cons]
    omega

/-! ## What `unflatten` builds -/

/-- A value in the making: its tables are in order, its arrays have no indices beyond `int`, and its
pointers are not too long. -/
structure Made (n d : Nat) (j : Json) : Prop where
  maps : j.All MapWF
  indexed : j.All NodeIndexed
  within : PointersWithin n d j

theorem made_primitive {n d : Nat} {v : Json} (hv : v.isContainer = false) (hd : d ≤ n) :
    Made n d v := by
  refine ⟨?_, ?_, pointersWithin_leaf (Or.inl hv) hd⟩ <;>
  · cases v with
    | array => cases hv
    | object => cases hv
    | _ => trivial

/-- The index that a token stands for is written with no more bytes, or it is the last but a few. -/
theorem arrayIndex_eq_ok {t : Key} {idx : Nat} (h : arrayIndex t = .ok idx) :
    idx < 2 ^ 31 ∧ (decimal idx).length ≤ t.length ∨ 2 ^ 64 - 2 ^ 31 ≤ idx ∧ idx < 2 ^ 64 := by
  rcases stoi_cases t with herror | ⟨blanks, sign, digits, rest, n, hbegins⟩
  · rw [arrayIndex, herror] at h
    cases h
  · have hstoi := hbegins.stoi_eq
    rw [arrayIndex, hstoi] at h
    split at h
    · next heq =>
      split at heq
      · cases heq
      · next hint =>
        cases heq
        cases h
        by_cases hneg : n < 0
        · right
          omega
        · left
          refine ⟨by omega, ?_⟩
          have hvalue := hbegins.value_eq
          have hdigits := Foundations.length_decimal_ofDecimal_le hbegins.digits_isDigit
            hbegins.digits_ne_nil
          have htext := congrArg List.length hbegins.text_eq
          simp only [List.length_append] at htext
          have hidx : (n % 2 ^ 64).toNat = Foundations.ofDecimal 0 digits := by
            split at hvalue <;> omega
          rw [hidx]
          exact hdigits.trans (by omega)
    · cases h
    · cases h

theorem nonempty_of_mem {m : StringMap Json} (hm : m.WF) {e : Key × Json} (he : e ∈ m.toList) :
    NodeNonempty (object m) := by
  have hlist : m.size = m.toList.length := hm.numItems
  have hpos := List.length_pos_of_mem he
  exact Nat.ne_of_gt (by omega)

theorem Made.member {n d : Nat} {m : StringMap Json} (h : Made n d (object m)) {t : Key}
    (ht : d + 1 + (escape t).length ≤ n) :
    Made n (d + 1 + (escape t).length) ((m.lookup? t).getD null) := by
  have hm : m.WF := h.maps.self
  cases hc : m.lookup? t with
  | none => exact made_primitive rfl ht
  | some c =>
    have hmem := (lookup?_eq_some_iff hm).1 hc
    exact ⟨((all_object m).1 h.maps).2 (t, c) hmem, ((all_object m).1 h.indexed).2 (t, c) hmem,
      (pointersWithin_container rfl (nonempty_of_mem hm hmem)).1 h.within t c hmem⟩

theorem Made.assign {n d : Nat} {m : StringMap Json} (h : Made n d (object m)) {t : Key}
    (ht : d + 1 + (escape t).length ≤ n) (hn : n < 2 ^ 32) {x : Json}
    (hx : Made n (d + 1 + (escape t).length) x) : Made n d (object (Json.assign m t x)) := by
  have hm : m.WF := h.maps.self
  have hlength := length_le_escape t
  have htakes : m.Takes t := .of_lt (by omega)
  have hwf := assign_wf hm htakes x
  have hmem : ∀ e ∈ (Json.assign m t x).toList, e = (t, x) ∨ e ∈ m.toList :=
    fun e => mem_assign hm htakes
  have hself : (t, x) ∈ (Json.assign m t x).toList := by
    rw [← lookup?_eq_some_iff hwf, lookup?_assign hm htakes, Function.update_self]
  refine ⟨(all_object _).2 ⟨hwf, fun e he => ?_⟩, (all_object _).2 ⟨trivial, fun e he => ?_⟩,
    (pointersWithin_container rfl (nonempty_of_mem hwf hself)).2 fun k c hk => ?_⟩
  · rcases hmem e he with rfl | he
    · exact hx.maps
    · exact ((all_object m).1 h.maps).2 e he
  · rcases hmem e he with rfl | he
    · exact hx.indexed
    · exact ((all_object m).1 h.indexed).2 e he
  · rcases hmem _ hk with heq | hk
    · cases heq
      exact hx.within
    · exact (pointersWithin_container rfl (nonempty_of_mem hm hk)).1 h.within k c hk

theorem Made.of_getElem? {n d : Nat} {xs : List Json} (h : Made n d (array xs)) {i : Nat} {x : Json}
    (hx : xs[i]? = some x) : Made n (d + 1 + (decimal i).length) x := by
  have hmem := List.mem_of_getElem? hx
  have hnode : NodeNonempty (array xs) := (List.length_pos_of_mem hmem).ne'
  have hwithin := (pointersWithin_container rfl hnode).1 h.within _ x
    (mem_children_array.2 ⟨i, rfl, hx⟩)
  rw [escape_decimal] at hwithin
  exact ⟨((all_array xs).1 h.maps).2 x hmem, ((all_array xs).1 h.indexed).2 x hmem, hwithin⟩

theorem Made.element {n d : Nat} {xs : List Json} (h : Made n d (array xs)) {i : Nat}
    (hi : d + 1 + (decimal i).length ≤ n) : Made n (d + 1 + (decimal i).length) (xs.getD i null) := by
  rw [List.getD_eq_getElem?_getD]
  cases hx : xs[i]? with
  | none => exact made_primitive rfl hi
  | some x => exact h.of_getElem? hx

/-- The null values that an array is filled up with have smaller indices. -/
theorem Made.put {n d : Nat} {xs : List Json} (h : Made n d (array xs)) {i : Nat} (hi : i < 2 ^ 31)
    (hd : d + 1 + (decimal i).length ≤ n) {x : Json} (hx : Made n (d + 1 + (decimal i).length) x) :
    Made n d (array (put xs i x)) := by
  have hlength : xs.length ≤ 2 ^ 31 := h.indexed.self
  have hput := length_put xs i x
  have hmade : ∀ k y, (Json.put xs i x)[k]? = some y → Made n (d + 1 + (decimal k).length) y := by
    intro k y hy
    have hget := getD_put xs i x k
    rw [List.getD_eq_getElem?_getD, hy, Option.getD_some] at hget
    have hk := (List.getElem?_eq_some_iff.1 hy).1
    rw [hget]
    split
    · next heq =>
      rw [heq]
      exact hx
    · next hne =>
      by_cases hlt : k < xs.length
      · rw [List.getD_eq_getElem _ _ hlt]
        exact h.of_getElem? (List.getElem?_eq_getElem hlt)
      · have hle : (decimal k).length ≤ (decimal i).length :=
          Foundations.length_decimal_mono (by omega)
        rw [List.getD_eq_default _ _ (by omega)]
        exact made_primitive rfl (by omega)
  have hnode : NodeNonempty (array (Json.put xs i x)) := by
    show (Json.put xs i x).length ≠ 0
    omega
  refine ⟨(all_array _).2 ⟨trivial, fun y hy => ?_⟩, (all_array _).2 ⟨?_, fun y hy => ?_⟩,
    (pointersWithin_container rfl hnode).2 fun t c ht => ?_⟩
  · obtain ⟨k, hk⟩ := List.getElem?_of_mem hy
    exact (hmade k y hk).maps
  · show (Json.put xs i x).length ≤ 2 ^ 31
    omega
  · obtain ⟨k, hk⟩ := List.getElem?_of_mem hy
    exact (hmade k y hk).indexed
  · obtain ⟨k, rfl, hk⟩ := mem_children_array.1 ht
    rw [escape_decimal]
    exact (hmade k c hk).within

/-- An index that `int` cannot hold needs more null values than an array can have. -/
theorem fillUp_eq_error {xs ys : List Json} {idx : Nat} (hxs : xs.length ≤ 2 ^ 31)
    (hidx : 2 ^ 64 - 2 ^ 31 ≤ idx) (hlt : idx < 2 ^ 64) : fillUp xs idx ≠ .ok ys := by
  have hmax : maxSize < 2 ^ 60 := by decide
  unfold fillUp
  rw [if_pos (by omega)]
  dsimp only
  by_cases hzero : (idx + 2 ^ 64 - xs.length + 1) % 2 ^ 64 = 0
  · rw [hzero, if_neg (Nat.not_lt_zero _), if_pos rfl]
    exact fun h => by cases h
  · rw [if_pos (by omega)]
    exact fun h => by cases h

/-- What one leaf is put into stays in the making. -/
theorem made_getAndCreate {n : Nat} (hn : n < 2 ^ 32) {v : Json} (hv : v.isContainer = false)
    (p : JsonPointer) {d : Nat} {j r : Json} (hp : d + (JsonPointer.toString p).length ≤ n)
    (hj : Made n d j) (h : getAndCreate v p j = .ok r) : Made n d r := by
  induction p generalizing d j r with
  | nil =>
    cases h
    exact made_primitive hv hp
  | cons t p ih =>
    rw [length_toString_cons] at hp
    have hobject : ∀ m, Made n d (object m) → getAndCreate v (t :: p) (object m) = .ok r →
        Made n d r := by
      intro m hm h
      rw [getAndCreate_object, bind_eq_ok] at h
      obtain ⟨x, hx, h⟩ := h
      cases h
      exact hm.assign (by omega) hn (ih (by omega) (hm.member (by omega)) hx)
    have harray : ∀ xs, Made n d (array xs) → getAndCreate v (t :: p) (array xs) = .ok r →
        Made n d r := by
      intro xs hxs h
      have hlength : xs.length ≤ 2 ^ 31 := hxs.indexed.self
      rw [getAndCreate, bind_eq_ok] at h
      obtain ⟨idx, hidx, h⟩ := h
      rcases arrayIndex_eq_ok hidx with ⟨hlt, hle⟩ | ⟨hle, hlt⟩
      · have hescape := length_le_escape t
        rw [modifyIndex_eq hlength hlt, bind_eq_ok] at h
        obtain ⟨x, hx, h⟩ := h
        cases h
        exact hxs.put hlt (by omega) (ih (by omega) (hxs.element (by omega)) hx)
      · rw [modifyIndex, bind_eq_ok] at h
        obtain ⟨ys, hys, -⟩ := h
        exact absurd hys (fillUp_eq_error hlength hle hlt)
    cases j with
    | object m => exact hobject m hj h
    | array xs => exact harray xs hj h
    | null =>
      have hd : d ≤ n := by omega
      by_cases ht : t = bytes "0"
      · subst ht
        rw [getAndCreate_null_zero] at h
        refine harray [] ⟨⟨trivial, trivial⟩, ⟨Nat.zero_le _, trivial⟩, ?_⟩ h
        exact pointersWithin_leaf (Or.inr fun hne => hne rfl) hd
      · rw [getAndCreate_null_of_ne v ht] at h
        refine hobject .empty ⟨⟨WF.empty, trivial⟩, ⟨trivial, trivial⟩, ?_⟩ h
        exact pointersWithin_leaf (Or.inr fun hne => hne rfl) hd
    | _ => cases h

theorem made_unflattenSorted {n : Nat} (hn : n < 2 ^ 32) {es : List (Key × Json)}
    (hes : ∀ e ∈ es, e.1.length ≤ n ∧ e.2.isContainer = false) {j r : Json} (hj : Made n 0 j)
    (h : unflattenSorted es j = .ok r) : Made n 0 r := by
  induction es generalizing j with
  | nil =>
    cases h
    exact hj
  | cons e es ih =>
    rw [List.forall_mem_cons] at hes
    obtain ⟨⟨hkey, hvalue⟩, hrest⟩ := hes
    rw [unflattenSorted, bind_eq_ok] at h
    obtain ⟨p, hp, h⟩ := h
    rw [bind_eq_ok] at h
    obtain ⟨x, hx, h⟩ := h
    have htext : (JsonPointer.toString p).length ≤ n := by rwa [toString_of_split hp]
    exact ih hrest (made_getAndCreate hn hvalue p (by omega) hj hx) h

theorem isPrimitive_of_checkPrimitive {es : List (Key × Json)} (h : checkPrimitive es = .ok ()) :
    ∀ e ∈ es, e.2.isPrimitive = true := by
  induction es with
  | nil =>
    intro e he
    cases he
  | cons e es ih =>
    rw [checkPrimitive] at h
    split at h
    · next hprimitive => exact List.forall_mem_cons.2 ⟨hprimitive, ih h⟩
    · cases h

theorem isContainer_of_isPrimitive {j : Json} (h : j.isPrimitive = true) :
    j.isContainer = false := by
  cases j with
  | array => cases h
  | object => cases h
  | _ => rfl

/-- What comes out of `unflatten` has no pointer that is longer than the keys. -/
theorem made_unflatten {n : Nat} (hn : n < 2 ^ 32) {m : StringMap Json}
    (hm : ∀ e ∈ m.toList, e.1.length ≤ n) {r : Json} (h : unflatten (object m) = .ok r) :
    Made n 0 r := by
  rw [unflatten, bind_eq_ok] at h
  obtain ⟨_, hprimitive, h⟩ := h
  have hvalues := isPrimitive_of_checkPrimitive hprimitive
  refine made_unflattenSorted hn (fun e he => ?_) (made_primitive rfl (Nat.zero_le n)) h
  rw [List.mem_insertionSort] at he
  exact ⟨hm e he, isContainer_of_isPrimitive (hvalues e he)⟩

/-! ## The pointers in equal values -/

theorem isContainer_of_denote_eq {j r : Json} (h : r.denote = j.denote) :
    r.isContainer = j.isContainer := by
  cases j <;> cases r <;> first | rfl | (simp [denote] at h)

theorem nodeNonempty_of_mem_children {j : Json} (hj : j.All MapWF) {e : Key × Json}
    (he : e ∈ j.children) : NodeNonempty j := by
  cases j with
  | array xs =>
    obtain ⟨i, -, hi⟩ := mem_children_array.1 he
    exact Nat.ne_of_gt (Nat.zero_lt_of_lt (List.getElem?_eq_some_iff.1 hi).1)
  | object m => exact nonempty_of_mem hj.self he
  | _ => cases he

/-- Equal values have equal values under the same tokens. -/
theorem exists_mem_children_of_denote_eq {j r : Json} (hj : j.All MapWF) (hr : r.All MapWF)
    (h : r.denote = j.denote) {t : Key} {c : Json} (ht : (t, c) ∈ j.children) :
    ∃ c', (t, c') ∈ r.children ∧ c'.denote = c.denote := by
  have hsame := isContainer_of_denote_eq h
  cases j with
  | array xs =>
    rcases isContainer_cases hsame with ⟨ys, rfl⟩ | ⟨m, rfl⟩
    · obtain ⟨i, rfl, hi⟩ := mem_children_array.1 ht
      rw [denote_array, denote_array, Value.array.injEq] at h
      have hget := congrArg (·[i]?) h
      simp only [List.getElem?_map, hi, Option.map_some, Option.map_eq_some_iff] at hget
      obtain ⟨c', hc', hdenote⟩ := hget
      exact ⟨c', mem_children_array.2 ⟨i, rfl, hc'⟩, hdenote⟩
    · rw [denote_object hr.self, denote_array] at h
      cases h
  | object m =>
    rcases isContainer_cases hsame with ⟨ys, rfl⟩ | ⟨m', rfl⟩
    · rw [denote_object hj.self, denote_array] at h
      cases h
    · have hlookup := (denote_object_eq_iff hj.self hr.self).1 h t
      rw [(lookup?_eq_some_iff hj.self).2 ht, Option.map_some, Option.map_eq_some_iff] at hlookup
      obtain ⟨c', hc', hdenote⟩ := hlookup
      exact ⟨c', (lookup?_eq_some_iff hr.self).1 hc', hdenote⟩
  | _ => cases ht

/-- Where a value has a leaf, an equal value has one. -/
theorem exists_mem_leaves_of_denote_eq {j : Json} (hj : j.WF) (hne : j.Nonempty) {r : Json}
    (hr : r.All MapWF) (h : r.denote = j.denote) {p : JsonPointer} {v : Json}
    (hp : (p, v) ∈ j.leaves) : ∃ w, (p, w) ∈ r.leaves := by
  induction j using children_induction generalizing r p v with
  | h j ih =>
    have hsame := isContainer_of_denote_eq h
    cases hc : j.isContainer with
    | false =>
      rw [hc] at hsame
      rw [leaves_leaf (Or.inl hc), List.mem_singleton] at hp
      cases hp
      exact ⟨r, by rw [leaves_leaf (Or.inl hsame)]; exact List.mem_singleton_self _⟩
    | true =>
      rw [hc] at hsame
      obtain ⟨t, q, c, hpt, ht, hq⟩ := exists_of_mem_leaves hc hne.self hp
      obtain rfl : p = t :: q := hpt
      obtain ⟨c', ht', hdenote⟩ := exists_mem_children_of_denote_eq hj.maps hr h ht
      obtain ⟨w, hw⟩ := ih _ ht (wf_of_mem_children hj ht) (wf_of_mem_children hne ht)
        (wf_of_mem_children hr ht') hdenote hq
      exact ⟨w, (mem_leaves hsame (nodeNonempty_of_mem_children hr ht')).2 ⟨c', ht', hw⟩⟩

/-! ## There and back -/

/-- A value whose pointers are not cut off comes back just when no array in it has indices beyond
`int` and no object in it starts like an array. -/
theorem comesBack_flatten_iff {j : Json} (hwf : j.WF) (hne : j.Nonempty) (hd : j.NoDiscarded)
    (hshort : ∀ e ∈ j.leaves, (JsonPointer.toString e.1).length < 2 ^ 32) :
    (∃ j', unflatten j.flatten = .ok j' ∧ j'.denote = j.denote) ↔ j.Rebuilds := by
  obtain ⟨m, hm, -, hperm⟩ := flatten_spec hwf hshort
  have hentry : j.leaves.map (fun e => (JsonPointer.toString e.1, leafValue e.2)) =
      j.leaves.map entry := by
    refine List.map_congr_left fun e he => ?_
    have hleaf : e.2.leafValue = e.2 := if_neg (by simp [(isPrimitive_of_mem_leaves hne hd he).2])
    rw [hleaf, entry]
  rw [hentry] at hperm
  have hprimitive : ∀ e ∈ m.toList, e.2.isPrimitive = true := by
    intro e he
    obtain ⟨a, ha, rfl⟩ := List.mem_map.1 (hperm.mem_iff.1 he)
    exact (isPrimitive_of_mem_leaves hne hd ha).1
  obtain ⟨sorted, hleaves, hsorted, heq⟩ := exists_sorted_leaves (leaves_nodup hwf) hperm
  have hunflatten : unflatten j.flatten = build sorted null := by
    rw [hm, unflatten, checkPrimitive_eq hprimitive, ← unflattenSorted_map_entry, ← heq]
    rfl
  rw [hunflatten]
  exact comesBack_iff hwf hne hleaves hsorted

/-- A value without empty containers comes back from `flatten` and `unflatten` just when no array in
it has indices beyond `int`, no object in it starts like an array, and there is room for its leaves
and their pointers in a table. -/
theorem unflatten_flatten_iff {j : Json} (hwf : j.WF) (hne : j.Nonempty) (hd : j.NoDiscarded) :
    (j.FlattensSafely ∧ ∃ j', unflatten j.flatten = .ok j' ∧ j'.denote = j.denote) ↔
      j.Rebuilds ∧ j.LeavesFit := by
  have hsize : (∀ e ∈ j.leaves, EntryFits (JsonPointer.toString e.1)) →
      (j.FlattensSafely ↔ j.leaves.length ≤ StringMap.maxItems) := by
    intro hfits
    obtain ⟨m, hflatten, hm, hperm⟩ := flatten_spec hwf fun e he => (hfits e he).lt
    have hcount : m.size = j.leaves.length := by
      rw [StringMap.size, hm.numItems]
      exact hperm.length_eq.trans (List.length_map _)
    have hkeys : ∀ e ∈ m.toList, EntryFits e.1 := by
      intro e he
      obtain ⟨a, ha, rfl⟩ := List.mem_map.1 (hperm.mem_iff.1 he)
      exact hfits a ha
    constructor
    · rintro ⟨m', hm', hle, -⟩
      rw [hflatten, object.injEq] at hm'
      rwa [← hm', hcount] at hle
    · intro hle
      exact ⟨m, hflatten, hcount.trans_le hle, hkeys⟩
  constructor
  · rintro ⟨hsafe, j', hj', hdenote⟩
    have hfits : ∀ e ∈ j.leaves, EntryFits (JsonPointer.toString e.1) := by
      obtain ⟨m, hflatten, -, hkeys⟩ := hsafe
      have hlt : 2 ^ 32 - 26 < 2 ^ 32 := by omega
      rw [hflatten] at hj'
      have hmade := made_unflatten hlt (fun e he => by
        have hkey := entryFits_iff.1 (hkeys e he)
        omega) hj'
      rintro ⟨p, v⟩ hp
      obtain ⟨w, hw⟩ := exists_mem_leaves_of_denote_eq hwf hne hmade.maps hdenote hp
      have hle := hmade.within _ hw
      change 0 + (JsonPointer.toString p).length ≤ _ at hle
      exact entryFits_iff.2 (by show (JsonPointer.toString p).length + 25 < _; omega)
    refine ⟨(comesBack_flatten_iff hwf hne hd fun e he => (hfits e he).lt).1 ⟨j', hj', hdenote⟩,
      (hsize hfits).1 hsafe, hfits⟩
  · rintro ⟨hrebuilds, hcount, hfits⟩
    exact ⟨(hsize hfits).2 hcount,
      (comesBack_flatten_iff hwf hne hd fun e he => (hfits e he).lt).2 hrebuilds⟩

theorem unflatten_flatten_iff_pair :
    ((array [null, boolean true]).FlattensSafely ∧
      ∃ j', unflatten (array [null, boolean true]).flatten = .ok j' ∧
        j'.denote = (array [null, boolean true]).denote) ↔
      (array [null, boolean true]).Rebuilds ∧ (array [null, boolean true]).LeavesFit := by
  refine unflatten_flatten_iff ?_ ?_ ?_
  · exact (all_array _).2 ⟨show 2 < 2 ^ 64 by decide, by simp [All, NodeWF]⟩
  · exact (all_array _).2 ⟨show 2 ≠ 0 by decide, by simp [All, NodeNonempty]⟩
  · exact (all_array _).2 ⟨rfl, by simp [All, isDiscarded]⟩

/-- `{"0": 1}`. -/
def zeroMember : Json := object (assign .empty (bytes "0") (numberInteger 1))

theorem not_unflatten_flatten_zeroMember :
    zeroMember.WF ∧ zeroMember.Nonempty ∧ zeroMember.NoDiscarded ∧
      unflatten zeroMember.flatten = .ok (array [numberInteger 1]) ∧
      ¬∃ j', unflatten zeroMember.flatten = .ok j' ∧ j'.denote = zeroMember.denote := by
  have harray : unflatten zeroMember.flatten = .ok (array [numberInteger 1]) := rfl
  refine ⟨wf_singleton (by decide) trivial, ?_, ?_, harray, ?_⟩
  · exact (all_singleton _ _).2 ⟨show 1 ≠ 0 by decide, trivial⟩
  · exact (all_singleton _ _).2 ⟨rfl, rfl⟩
  · rintro ⟨j', hj', hdenote⟩
    rw [harray, Except.ok.injEq] at hj'
    rw [← hj', denote_array] at hdenote
    cases hdenote

end Wpi.Json

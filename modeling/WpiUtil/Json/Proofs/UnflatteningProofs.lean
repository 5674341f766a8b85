import WpiUtil.Json.Proofs.FlatteningProofs

/-!
# Putting leaves back

Each container gets what is put back below each of its reference tokens, whatever comes between.
So the value comes back level by level, as long as the first of the sorted pointers shows which kind
of container to start.
-/

namespace Wpi.Json

open StringMap

/-! ## The order of texts -/

theorem cons_lt_cons_self {c : Byte} {k l : Key} : c :: k < c :: l ↔ k < l := by
  rw [List.cons_lt_cons_iff]
  simp

theorem append_lt_append_self (k : Key) {l l' : Key} : k ++ l < k ++ l' ↔ l < l' := by
  induction k with
  | nil => rfl
  | cons c k ih => rw [List.cons_append, List.cons_append, cons_lt_cons_self, ih]

/-- The order of pointers with the same first token is that of the rest. -/
theorem toString_cons_lt (t : Key) {p q : JsonPointer} :
    JsonPointer.toString (t :: p) < JsonPointer.toString (t :: q) ↔
      JsonPointer.toString p < JsonPointer.toString q := by
  rw [toString_cons, toString_cons, cons_lt_cons_self, append_lt_append_self]

/-! ## The leaves below a token -/

@[simp] theorem under_nil (t : Key) : under t [] = [] := rfl

theorem under_cons (t u : Key) (p : JsonPointer) (v : Json) (leaves : List (JsonPointer × Json)) :
    under t ((u :: p, v) :: leaves) =
      if u = t then (p, v) :: under t leaves else under t leaves := by
  unfold under
  by_cases h : u = t
  · rw [List.filterMap_cons_some (b := (p, v)) (by simp [h]), if_pos h]
  · rw [List.filterMap_cons_none (by simp [h]), if_neg h]

theorem under_graft (t u : Key) (leaves : List (JsonPointer × Json)) :
    under t (graft u leaves) = if u = t then leaves else [] := by
  induction leaves with
  | nil => simp [graft]
  | cons e leaves ih =>
    rw [graft, List.map_cons, under_cons]
    unfold graft at ih
    rw [ih]
    split <;> rfl

theorem mem_under {t : Key} {leaves : List (JsonPointer × Json)} {e : JsonPointer × Json} :
    e ∈ under t leaves ↔ (t :: e.1, e.2) ∈ leaves := by
  unfold under
  rw [List.mem_filterMap]
  constructor
  · rintro ⟨⟨p, v⟩, ha, he⟩
    cases p with
    | nil => cases he
    | cons u p =>
      simp only [Option.ite_none_right_eq_some, Option.some.injEq] at he
      obtain ⟨rfl, rfl⟩ := he
      exact ha
  · intro h
    exact ⟨_, h, by simp⟩

theorem Sorted.under {leaves : List (JsonPointer × Json)} (h : Sorted leaves) (t : Key) :
    Sorted (under t leaves) := by
  induction leaves with
  | nil => exact List.Pairwise.nil
  | cons e leaves ih =>
    obtain ⟨p, v⟩ := e
    unfold Sorted at h
    rw [List.pairwise_cons] at h
    cases p with
    | nil => exact ih h.2
    | cons u p =>
      rw [under_cons]
      split
      · next hu =>
        refine List.Pairwise.cons ?_ (ih h.2)
        intro e he
        have hle := h.1 _ (mem_under.1 he)
        rw [hu, ← List.not_lt, toString_cons_lt, List.not_lt] at hle
        exact hle
      · exact ih h.2

theorem mem_graft {t u : Key} {p : JsonPointer} {v : Json} {leaves : List (JsonPointer × Json)} :
    (u :: p, v) ∈ graft t leaves ↔ t = u ∧ (p, v) ∈ leaves := by
  unfold graft
  constructor
  · intro h
    obtain ⟨⟨q, w⟩, hq, heq⟩ := List.mem_map.1 h
    cases heq
    exact ⟨rfl, hq⟩
  · rintro ⟨rfl, h⟩
    exact List.mem_map.2 ⟨(p, v), h, rfl⟩

theorem mem_leaves {j : Json} (hc : j.isContainer = true) (hne : NodeNonempty j) {t : Key}
    {p : JsonPointer} {v : Json} :
    (t :: p, v) ∈ j.leaves ↔ ∃ c, (t, c) ∈ j.children ∧ (p, v) ∈ c.leaves := by
  rw [leaves_eq hc hne, List.mem_flatMap]
  constructor
  · rintro ⟨⟨u, c⟩, hu, h⟩
    obtain ⟨rfl, hp⟩ := mem_graft.1 h
    exact ⟨c, hu, hp⟩
  · rintro ⟨c, hc, h⟩
    exact ⟨(t, c), hc, mem_graft.2 ⟨rfl, h⟩⟩

theorem under_append (t : Key) (leaves leaves' : List (JsonPointer × Json)) :
    under t (leaves ++ leaves') = under t leaves ++ under t leaves' :=
  List.filterMap_append

theorem under_flatMap_of_not_mem {t : Key} {es : List (Key × Json)} (h : t ∉ es.map Prod.fst) :
    under t (es.flatMap fun e => graft e.1 e.2.leaves) = [] := by
  induction es with
  | nil => rfl
  | cons e es ih =>
    rw [List.map_cons, List.mem_cons, not_or] at h
    rw [List.flatMap_cons, under_append, under_graft, if_neg (Ne.symm h.1), ih h.2,
      List.append_nil]

theorem under_flatMap {es : List (Key × Json)} (hes : (es.map Prod.fst).Nodup) {e : Key × Json}
    (he : e ∈ es) : under e.1 (es.flatMap fun e => graft e.1 e.2.leaves) = e.2.leaves := by
  induction es with
  | nil => cases he
  | cons a es ih =>
    rw [List.map_cons, List.nodup_cons] at hes
    rw [List.flatMap_cons, under_append, under_graft]
    rcases List.mem_cons.1 he with rfl | he
    · rw [if_pos rfl, under_flatMap_of_not_mem hes.1, List.append_nil]
    · have hne : a.1 ≠ e.1 := by
        intro h
        rw [h] at hes
        exact hes.1 (List.mem_map_of_mem he)
      rw [if_neg hne, ih hes.2 he, List.nil_append]

/-- Below a token of a container are the leaves of the value there. -/
theorem under_perm {j : Json} (hj : j.WF) (hc : j.isContainer = true) (hne : NodeNonempty j)
    {leaves : List (JsonPointer × Json)} (h : leaves.Perm j.leaves) {e : Key × Json}
    (he : e ∈ j.children) : (under e.1 leaves).Perm e.2.leaves := by
  have hperm : (under e.1 leaves).Perm (under e.1 j.leaves) := h.filterMap _
  rwa [leaves_eq hc hne, under_flatMap (children_nodup hj) he] at hperm

theorem children_ne_nil {j : Json} (hj : j.WF) (hc : j.isContainer = true)
    (hne : NodeNonempty j) : j.children ≠ [] := by
  intro h
  rcases isContainer_cases hc with ⟨xs, rfl⟩ | ⟨m, rfl⟩
  · cases xs with
    | nil => exact hne rfl
    | cons x xs => cases h
  · have hitems : m.numItems = m.toList.length := (All.self hj).1.numItems
    have hnil : m.toList = [] := h
    rw [hnil] at hitems
    exact hne hitems

/-- There is a leaf in every value. -/
theorem leaves_ne_nil {j : Json} (hj : j.WF) : j.leaves ≠ [] := by
  induction j using children_induction with
  | h j ih =>
    by_cases hleaf : j.isContainer = false ∨ ¬NodeNonempty j
    · rw [leaves_leaf hleaf]
      simp
    · rw [not_or, Bool.not_eq_false, not_not] at hleaf
      rw [leaves_eq hleaf.1 hleaf.2, Ne, List.flatMap_eq_nil_iff]
      intro h
      obtain ⟨e, he⟩ := List.exists_mem_of_ne_nil _ (children_ne_nil hj hleaf.1 hleaf.2)
      refine ih e he (wf_of_mem_children hj he) ?_
      have hgraft := h e he
      rwa [graft, List.map_eq_nil_iff] at hgraft

theorem under_eq_nil_iff {j : Json} (hj : j.WF) (hc : j.isContainer = true)
    (hne : NodeNonempty j) {leaves : List (JsonPointer × Json)} (h : leaves.Perm j.leaves)
    (t : Key) : under t leaves = [] ↔ t ∉ j.children.map Prod.fst := by
  constructor
  · intro hnil hmem
    obtain ⟨e, he, rfl⟩ := List.mem_map.1 hmem
    have hperm := under_perm hj hc hne h he
    rw [hnil] at hperm
    exact leaves_ne_nil (wf_of_mem_children hj he) (List.nil_perm.1 hperm)
  · intro hmem
    have hperm : (under t leaves).Perm (under t j.leaves) := h.filterMap _
    rw [leaves_eq hc hne, under_flatMap_of_not_mem hmem] at hperm
    exact List.perm_nil.1 hperm

/-! ## Objects -/

theorem build_cons (p : JsonPointer) (v : Json) (leaves : List (JsonPointer × Json))
    (result : Json) :
    build ((p, v) :: leaves) result = (getAndCreate v p result >>= fun r => build leaves r) := rfl

theorem getAndCreate_object (v : Json) (t : Key) (p : JsonPointer) (m : StringMap Json) :
    getAndCreate v (t :: p) (object m) = (getAndCreate v p ((m.lookup? t).getD null) >>= fun x =>
      .ok (object (Json.assign m t x))) := rfl

theorem bind_eq_ok {α β : Type} {x : Except Failure α} {f : α → Except Failure β} {b : β} :
    (x >>= f) = .ok b ↔ ∃ a, x = .ok a ∧ f a = .ok b := by
  cases x with
  | error e => simp [bind, Except.bind]
  | ok a => simp [bind, Except.bind]

/-- What an object gets: below each token, what is put back there. -/
theorem build_object {leaves : List (JsonPointer × Json)}
    (hleaves : ∀ e ∈ leaves, ∃ t p, e.1 = t :: p ∧ t.length < 2 ^ 32) {m : StringMap Json}
    (hm : m.WF) {r : Json} (h : build leaves (object m) = .ok r) :
    ∃ m', r = object m' ∧ m'.WF ∧ ∀ t,
      (under t leaves = [] ∧ m'.lookup? t = m.lookup? t) ∨
      (under t leaves ≠ [] ∧ ∃ c, build (under t leaves) ((m.lookup? t).getD null) = .ok c ∧
        m'.lookup? t = some c) := by
  induction leaves generalizing m with
  | nil =>
    cases h
    exact ⟨m, rfl, hm, fun t => Or.inl ⟨rfl, rfl⟩⟩
  | cons e leaves ih =>
    obtain ⟨u, p, he, hu⟩ := hleaves e List.mem_cons_self
    obtain ⟨q, v⟩ := e
    cases he
    have htakes : m.Takes u := .of_lt hu
    rw [build_cons, getAndCreate_object, bind_assoc, bind_eq_ok] at h
    obtain ⟨x, hx, h⟩ := h
    obtain ⟨m', hr, hm', hlookup⟩ := ih (fun e he => hleaves e (List.mem_cons_of_mem _ he))
      (assign_wf hm htakes x) h
    refine ⟨m', hr, hm', fun t => ?_⟩
    have ht := hlookup t
    rw [lookup?_assign hm htakes, Function.update_apply] at ht
    rw [under_cons]
    by_cases hu : u = t
    · subst hu
      rw [if_pos rfl] at ht
      rw [if_pos rfl, build_cons, hx]
      refine Or.inr ⟨List.cons_ne_nil _ _, ?_⟩
      rcases ht with ⟨hnil, heq⟩ | ⟨-, c, hc, heq⟩
      · rw [hnil]
        exact ⟨x, rfl, heq⟩
      · exact ⟨c, hc, heq⟩
    · rw [if_neg hu]
      rwa [if_neg (Ne.symm hu)] at ht

theorem exists_build_object {leaves : List (JsonPointer × Json)}
    (hleaves : ∀ e ∈ leaves, ∃ t p, e.1 = t :: p ∧ t.length < 2 ^ 32) {m : StringMap Json}
    (hm : m.WF)
    (h : ∀ t, ∃ c, build (under t leaves) ((m.lookup? t).getD null) = .ok c) :
    ∃ r, build leaves (object m) = .ok r := by
  induction leaves generalizing m with
  | nil => exact ⟨_, rfl⟩
  | cons e leaves ih =>
    obtain ⟨u, p, he, hshort⟩ := hleaves e List.mem_cons_self
    obtain ⟨q, v⟩ := e
    cases he
    have htakes : m.Takes u := .of_lt hshort
    have hu := h u
    rw [under_cons, if_pos rfl] at hu
    obtain ⟨c, hc⟩ := hu
    rw [build_cons, bind_eq_ok] at hc
    obtain ⟨x, hx, hc⟩ := hc
    rw [build_cons, getAndCreate_object, hx]
    apply ih (fun e he => hleaves e (List.mem_cons_of_mem _ he)) (assign_wf hm htakes x)
    intro t
    rw [lookup?_assign hm htakes, Function.update_apply]
    by_cases ht : t = u
    · subst ht
      rw [if_pos rfl]
      exact ⟨c, hc⟩
    · rw [if_neg ht]
      have ht' := h t
      rwa [under_cons, if_neg (Ne.symm ht)] at ht'

/-! ## Arrays -/

/-- An array after an assignment through `operator[]`. -/
def put (xs : List Json) (idx : Nat) (x : Json) : List Json :=
  (xs ++ List.replicate (idx + 1 - xs.length) null).set idx x

theorem length_put (xs : List Json) (idx : Nat) (x : Json) :
    (put xs idx x).length = max xs.length (idx + 1) := by
  unfold put
  rw [List.length_set, List.length_append, List.length_replicate]
  omega

theorem getD_put (xs : List Json) (idx : Nat) (x : Json) (k : Nat) :
    (put xs idx x).getD k null = if k = idx then x else xs.getD k null := by
  unfold put
  simp only [List.getD_eq_getElem?_getD, List.getElem?_set]
  by_cases hk : idx = k
  · subst hk
    rw [if_pos rfl, if_pos rfl, if_pos]
    · rfl
    · rw [List.length_append, List.length_replicate]
      omega
  · rw [if_neg hk, if_neg (Ne.symm hk), List.getElem?_append, List.getElem?_replicate]
    split
    · rfl
    · next hlen =>
      rw [List.getElem?_eq_none (by omega)]
      split <;> rfl

theorem fillUp_eq {xs : List Json} {idx : Nat} (hxs : xs.length ≤ 2 ^ 31) (hidx : idx < 2 ^ 31) :
    fillUp xs idx = .ok (xs ++ List.replicate (idx + 1 - xs.length) null) := by
  unfold fillUp
  by_cases h : xs.length ≤ idx
  · have hn : (idx + 2 ^ 64 - xs.length + 1) % 2 ^ 64 = idx + 1 - xs.length := by omega
    have hmax : 2 ^ 31 < maxSize := by decide
    rw [if_pos h]
    simp only [hn]
    rw [if_neg (by omega), if_neg (by omega)]
  · rw [if_neg h, show idx + 1 - xs.length = 0 by omega, List.replicate_zero, List.append_nil]

theorem modifyIndex_eq {xs : List Json} {idx : Nat} (hxs : xs.length ≤ 2 ^ 31)
    (hidx : idx < 2 ^ 31) (f : Json → Except Failure Json) :
    modifyIndex xs idx f = (f (xs.getD idx null) >>= fun x => pure (array (put xs idx x))) := by
  have hgetD : (xs ++ List.replicate (idx + 1 - xs.length) null).getD idx null =
      xs.getD idx null := by
    rw [List.getD_eq_getElem?_getD, List.getD_eq_getElem?_getD, List.getElem?_append,
      List.getElem?_replicate]
    split
    · rfl
    · next hlen =>
      rw [List.getElem?_eq_none (by omega)]
      split <;> rfl
  unfold modifyIndex
  rw [fillUp_eq hxs hidx]
  show (f ((xs ++ List.replicate (idx + 1 - xs.length) null).getD idx null) >>= _) = _
  rw [hgetD]
  rfl

theorem getAndCreate_array (v : Json) {i : Nat} (hi : i < 2 ^ 31) (p : JsonPointer)
    {xs : List Json} (hxs : xs.length ≤ 2 ^ 31) :
    getAndCreate v (decimal i :: p) (array xs) = (getAndCreate v p (xs.getD i null) >>= fun x =>
      .ok (array (put xs i x))) := by
  rw [getAndCreate, arrayIndex_decimal hi]
  exact modifyIndex_eq hxs hi _

theorem getAndCreate_array_of_le (v : Json) {i : Nat} (hi : 2 ^ 31 ≤ i) (p : JsonPointer)
    (xs : List Json) :
    getAndCreate v (decimal i :: p) (array xs) = .error (.std .outOfRange) := by
  rw [getAndCreate, arrayIndex_decimal_of_le hi]
  rfl

/-- What an array gets: at each index, what is put back below its numeral. -/
theorem build_array {leaves : List (JsonPointer × Json)}
    (hleaves : ∀ e ∈ leaves, ∃ i p, e.1 = decimal i :: p) {xs : List Json}
    (hxs : xs.length ≤ 2 ^ 31) {r : Json} (h : build leaves (array xs) = .ok r) :
    ∃ ys, r = array ys ∧
      (∀ k, build (under (decimal k) leaves) (xs.getD k null) = .ok (ys.getD k null)) ∧
      (∀ n, ys.length ≤ n ↔ xs.length ≤ n ∧ ∀ k, under (decimal k) leaves ≠ [] → k < n) ∧
      ∀ k, under (decimal k) leaves ≠ [] → k < 2 ^ 31 := by
  induction leaves generalizing xs with
  | nil =>
    cases h
    refine ⟨xs, rfl, fun k => rfl, fun n => ?_, fun k hk => absurd rfl hk⟩
    exact ⟨fun hn => ⟨hn, fun k hk => absurd rfl hk⟩, fun hn => hn.1⟩
  | cons e leaves ih =>
    obtain ⟨i, p, he⟩ := hleaves e List.mem_cons_self
    obtain ⟨q, v⟩ := e
    cases he
    have hhead : ∀ k, under (decimal k) ((decimal i :: p, v) :: leaves) =
        if i = k then (p, v) :: under (decimal k) leaves else under (decimal k) leaves := by
      intro k
      rw [under_cons]
      by_cases hk : i = k
      · rw [if_pos hk, if_pos (by rw [hk])]
      · rw [if_neg hk, if_neg fun hd => hk (decimal_injective hd)]
    by_cases hi : i < 2 ^ 31
    · rw [build_cons, getAndCreate_array v hi p hxs, bind_assoc, bind_eq_ok] at h
      obtain ⟨x, hx, h⟩ := h
      obtain ⟨ys, hr, hget, hlen, hbound⟩ :=
        ih (fun e he => hleaves e (List.mem_cons_of_mem _ he))
          (by rw [length_put]; omega) h
      refine ⟨ys, hr, fun k => ?_, fun n => ?_, fun k hk => ?_⟩
      · have hk := hget k
        rw [getD_put] at hk
        rw [hhead]
        by_cases hik : i = k
        · subst hik
          rw [if_pos rfl] at hk
          rw [if_pos rfl, build_cons, hx]
          exact hk
        · rw [if_neg (Ne.symm hik)] at hk
          rwa [if_neg hik]
      · rw [hlen, length_put, Nat.max_le]
        constructor
        · rintro ⟨⟨hxsn, hin⟩, hall⟩
          refine ⟨hxsn, fun k hk => ?_⟩
          rw [hhead] at hk
          split at hk
          · omega
          · exact hall k hk
        · rintro ⟨hxsn, hall⟩
          refine ⟨⟨hxsn, ?_⟩, fun k hk => hall k ?_⟩
          · exact hall i (by rw [hhead, if_pos rfl]; exact List.cons_ne_nil _ _)
          · rw [hhead]
            split
            · exact List.cons_ne_nil _ _
            · exact hk
      · rw [hhead] at hk
        split at hk
        · omega
        · exact hbound k hk
    · rw [build_cons, getAndCreate_array_of_le v (by omega)] at h
      cases h

theorem exists_build_array {leaves : List (JsonPointer × Json)}
    (hleaves : ∀ e ∈ leaves, ∃ i p, e.1 = decimal i :: p ∧ i < 2 ^ 31) {xs : List Json}
    (hxs : xs.length ≤ 2 ^ 31)
    (h : ∀ k, ∃ c, build (under (decimal k) leaves) (xs.getD k null) = .ok c) :
    ∃ r, build leaves (array xs) = .ok r := by
  induction leaves generalizing xs with
  | nil => exact ⟨_, rfl⟩
  | cons e leaves ih =>
    obtain ⟨i, p, he, hi⟩ := hleaves e List.mem_cons_self
    obtain ⟨q, v⟩ := e
    cases he
    have hik := h i
    rw [under_cons, if_pos rfl] at hik
    obtain ⟨c, hc⟩ := hik
    rw [build_cons, bind_eq_ok] at hc
    obtain ⟨x, hx, hc⟩ := hc
    rw [build_cons, getAndCreate_array v hi p hxs, hx]
    apply ih (fun e he => hleaves e (List.mem_cons_of_mem _ he))
    · rw [length_put]
      omega
    · intro k
      rw [getD_put]
      by_cases hk : k = i
      · subst hk
        rw [if_pos rfl]
        exact ⟨c, hc⟩
      · rw [if_neg hk]
        have hk' := h k
        rwa [under_cons, if_neg fun hd => hk (decimal_injective hd).symm] at hk'

end Wpi.Json

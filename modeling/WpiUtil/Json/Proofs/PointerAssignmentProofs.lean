import WpiUtil.Json.PointerAssignment
import WpiUtil.Json.Proofs.ArrayIndexProofs
import WpiUtil.Json.Proofs.PointerAccessProofs

/-!
# What an assignment through a pointer changes

A reference from `operator[]` is a location, and the values at other locations stay as they are. The
pointers that led to them before still do: what `operator[]` adds on its way never takes the place of
an element that is there.
-/

namespace Wpi

open Foundations

namespace StringMap

variable {α : Type}

/-- After `emplace_second` there is an entry for the key, and the others are as before. -/
theorem lookup?_emplaceSecond {m : StringMap α} (hm : m.WF) {key : Key} (htakes : m.Takes key)
    (value : α) :
    (m.emplaceSecond key value).1.WF ∧ (m.emplaceSecond key value).1.lookup? =
      Function.update m.lookup? key (some ((m.lookup? key).getD value)) := by
  refine ⟨emplaceSecond_wf hm htakes value, ?_⟩
  rcases emplaceSecond_spec hm htakes value with
    ⟨b, v, heq, hb⟩ | ⟨hnone, m', b, heq, hm', hperm, -⟩
  · have hv : m.lookup? key = some v :=
      (lookup?_eq_some_iff hm).2 (mem_entries.2 ⟨b, hashString key, hb⟩)
    rw [heq, hv, Option.getD_some, ← hv, Function.update_eq_self]
  · have hkey : m.lookup? key = none :=
      Option.eq_none_iff_forall_ne_some.2 fun v hv => hnone v ((lookup?_eq_some_iff hm).1 hv)
    rw [heq, hkey, Option.getD_none]
    funext k
    refine Option.ext fun v => ?_
    rw [lookup?_eq_some_iff hm', hperm.mem_iff, List.mem_cons, Function.update_apply]
    by_cases hk : k = key
    · subst hk
      rw [if_pos rfl, Option.some.injEq, or_iff_left (hnone v), Prod.mk.injEq]
      exact ⟨fun h => h.2.symm, fun h => ⟨rfl, h.symm⟩⟩
    · rw [if_neg hk, lookup?_eq_some_iff hm, Prod.mk.injEq]
      exact ⟨fun h => h.resolve_left fun he => hk he.1, Or.inr⟩

/-- The second of two assignments to a key that is there counts. -/
theorem assign_assign {m : StringMap α} (hm : m.WF) {key : Key} {u : α}
    (h : m.lookup? key = some u) (deflt v w : α) :
    assign deflt (assign deflt m key v) key w = assign deflt m key w := by
  have htakes : m.Takes key := .of_lookup? hm h
  obtain ⟨b, hemplace, hb⟩ := emplaceSecond_of_lookup? hm h deflt
  have hassign : ∀ x, assign deflt m key x =
      { m with theTable := m.theTable.set b (.item (hashString key) key x) } := by
    intro x
    rw [assign, hemplace]
    simp only [modifyAt, hb]
  have hfound : (assign deflt m key v).lookup? key = some v := by
    rw [lookup?_assign deflt hm htakes, Function.update_self]
  have hwf := (assign_spec deflt hm htakes v).1
  obtain ⟨b', hemplace', hb'⟩ := emplaceSecond_of_lookup? hwf hfound deflt
  have hset : (assign deflt m key v).theTable.getD b .empty = .item (hashString key) key v := by
    rw [hassign v, getD_set (lt_of_getD_item hb), if_pos rfl]
  have hbb' : b' = b := hwf.table.eq_of_key_eq hb' hset
  subst hbb'
  rw [assign, hemplace']
  simp only [modifyAt, hb']
  rw [hassign v, hassign w, List.set_set]

end StringMap

namespace Json

open StringMap

variable {t : Key} {j k x y : Json} {step : Step} {location : Location}

/-! ## Locations -/

theorem child?_eq_some (h : j.child? step = some x) :
    (∃ xs i, j = array xs ∧ step = .index i ∧ xs[i]? = some x) ∨
      ∃ m key, j = object m ∧ step = .key key ∧ m.lookup? key = some x := by
  unfold child? at h
  split at h
  · next xs i => exact Or.inl ⟨xs, i, rfl, rfl, h⟩
  · next m key => exact Or.inr ⟨m, key, rfl, rfl, h⟩
  · cases h

theorem element_of_child? (h : j.child? step = some x) : j.element step = x := by
  rcases child?_eq_some h with ⟨xs, i, rfl, rfl, hx⟩ | ⟨m, key, rfl, rfl, hx⟩
  · rw [element, List.getD_eq_getElem?_getD, hx, Option.getD_some]
  · rw [element, hx, Option.getD_some]

theorem all_object_lookup {P : Json → Prop} {m : StringMap Json} (hm : m.WF) :
    All P (object m) ↔ P (object m) ∧ ∀ key v, m.lookup? key = some v → All P v := by
  rw [all_object]
  refine and_congr_right fun _ => ⟨fun h key v hv => ?_, fun h e he => ?_⟩
  · exact h (key, v) ((lookup?_eq_some_iff hm).1 hv)
  · exact h e.1 e.2 ((lookup?_eq_some_iff hm).2 he)

/-- The elements of arrays and objects are parts that can be replaced one by one. -/
theorem lawful_parts : parts.Lawful (All MapWF) where
  valid_part := by
    intro j step x hj hx
    rcases child?_eq_some hx with ⟨xs, i, rfl, rfl, hi⟩ | ⟨m, key, rfl, rfl, hkey⟩
    · exact ((all_array xs).1 hj).2 x (List.mem_of_getElem? hi)
    · exact ((all_object_lookup hj.self).1 hj).2 key x hkey
  valid_replace := by
    intro j step x y hj hx hy
    rcases child?_eq_some hx with ⟨xs, i, rfl, rfl, hi⟩ | ⟨m, key, rfl, rfl, hkey⟩
    · refine (all_array _).2 ⟨trivial, fun z hz => ?_⟩
      rcases List.mem_or_eq_of_mem_set hz with hz | rfl
      · exact ((all_array xs).1 hj).2 z hz
      · exact hy
    · have hm : m.WF := hj.self
      have htakes : m.Takes key := .of_lookup? hm hkey
      exact all_assign hm hj htakes hy (assign_wf hm htakes y)
  part?_replace_self := by
    intro j step x hj hx y
    rcases child?_eq_some hx with ⟨xs, i, rfl, rfl, hi⟩ | ⟨m, key, rfl, rfl, hkey⟩
    · exact List.getElem?_set_self (List.getElem?_eq_some_iff.1 hi).1
    · change (assign m key y).lookup? key = some y
      rw [lookup?_assign hj.self (.of_lookup? hj.self hkey), Function.update_self]
  part?_replace_of_ne := by
    intro j step x step' hj hx hne y
    rcases child?_eq_some hx with ⟨xs, i, rfl, rfl, hi⟩ | ⟨m, key, rfl, rfl, hkey⟩
    · cases step' with
      | index i' => exact List.getElem?_set_ne fun h => hne (congrArg Step.index h.symm)
      | key _ => rfl
    · cases step' with
      | index _ => rfl
      | key key' =>
        change (assign m key y).lookup? key' = m.lookup? key'
        rw [lookup?_assign hj.self (.of_lookup? hj.self hkey),
          Function.update_of_ne fun h => hne (congrArg Step.key h)]
  replace_self := by
    intro j step x hj hx
    rcases child?_eq_some hx with ⟨xs, i, rfl, rfl, hi⟩ | ⟨m, key, rfl, rfl, hkey⟩
    · obtain ⟨hlt, rfl⟩ := List.getElem?_eq_some_iff.1 hi
      exact congrArg array (List.set_getElem_self hlt)
    · exact congrArg object (assign_lookup? hj.self hkey null)
  replace_replace := by
    intro j step x hj hx y z
    rcases child?_eq_some hx with ⟨xs, i, rfl, rfl, hi⟩ | ⟨m, key, rfl, rfl, hkey⟩
    · exact congrArg array (List.set_set ..)
    · exact congrArg object (assign_assign hj.self hkey null y z)

theorem get?_cons_eq_some_iff {rest : Location} :
    j.get? (step :: rest) = some y ↔ ∃ x, j.child? step = some x ∧ x.get? rest = some y :=
  Parts.get?_cons_eq_some_iff

theorem get?_cons (h : j.child? step = some x) (rest : Location) :
    j.get? (step :: rest) = x.get? rest :=
  congrArg (·.bind (parts.get? rest)) h

theorem child?_setElement_self (hj : j.All MapWF) (hx : j.child? step = some x) (y : Json) :
    (j.setElement step y).child? step = some y :=
  lawful_parts.part?_replace_self hj hx y

theorem child?_setElement_of_ne (hj : j.All MapWF) (hx : j.child? step = some x) {st : Step}
    (hne : st ≠ step) (y : Json) : (j.setElement step y).child? st = j.child? st :=
  lawful_parts.part?_replace_of_ne hj hx hne y

theorem all_child? (hj : j.All MapWF) (hx : j.child? step = some x) : x.All MapWF :=
  lawful_parts.valid_part hj hx

/-! ## One step of `at` -/

theorem child?_of_checkedStep (h : checkedStep t j = .ok step) : ∃ x, j.child? step = some x := by
  rcases checkedStep_eq_ok h with ⟨m, v, rfl, rfl, hv⟩ | ⟨xs, idx, rfl, rfl, hlt, -⟩
  · exact ⟨v, hv⟩
  · exact ⟨_, List.getElem?_eq_getElem hlt⟩

theorem getCheckedConst_cons_iff {ts : JsonPointer} :
    getCheckedConst (t :: ts) j = .ok location ↔ ∃ step x rest, checkedStep t j = .ok step ∧
      j.child? step = some x ∧ getCheckedConst ts x = .ok rest ∧ location = step :: rest := by
  constructor
  · intro h
    obtain ⟨step, rest, hstep, hrest, rfl⟩ := getCheckedConst_cons_eq_ok h
    obtain ⟨x, hx⟩ := child?_of_checkedStep hstep
    rw [element_of_child? hx] at hrest
    exact ⟨step, x, rest, hstep, hx, hrest, rfl⟩
  · rintro ⟨step, x, rest, hstep, hx, hrest, rfl⟩
    rw [getCheckedConst_cons, hstep, Except.bind, element_of_child? hx, hrest]
    rfl

/-! ## One step of `operator[]` -/

theorem convertNull_eq_self (h : j ≠ null) (t : Key) : convertNull t j = j := by
  unfold convertNull
  split
  · exact absurd rfl h
  · rfl

theorem all_convertNull (hj : j.All MapWF) (t : Key) : (convertNull t j).All MapWF := by
  by_cases h : j = null
  · subst h
    unfold convertNull
    dsimp only
    split
    · exact (all_array []).2 ⟨trivial, fun x hx => nomatch hx⟩
    · exact (all_object _).2 ⟨WF.empty, fun e he => nomatch he⟩
  · rw [convertNull_eq_self h]
    exact hj

/-- An array that has been filled up has the element. -/
theorem fillUp_eq_ok {xs ys : List Json} {idx : Nat} (hidx : idx < 2 ^ 64 ∨ idx = xs.length)
    (h : fillUp xs idx = .ok ys) :
    ∃ n, ys = xs ++ List.replicate n null ∧ idx < ys.length := by
  unfold fillUp at h
  split at h
  · next hle =>
    dsimp only at h
    split at h
    · cases h
    · next hmax =>
      split at h
      · cases h
      · next hn =>
        cases h
        refine ⟨_, rfl, ?_⟩
        rw [List.length_append, List.length_replicate]
        omega
  · next hlt =>
    cases h
    exact ⟨0, by simp, Nat.lt_of_not_le hlt⟩

theorem arrayIndex_lt {idx : Nat} (h : arrayIndex t = .ok idx) : idx < 2 ^ 64 := by
  unfold arrayIndex at h
  split at h
  · cases h
    omega
  · cases h
  · cases h

theorem subscriptIndex_eq_ok {xs : List Json} {idx : Nat} (hidx : idx < 2 ^ 64 ∨ idx = xs.length)
    (h : subscriptIndex xs idx = (.ok step, k)) :
    ∃ n, step = .index idx ∧ k = array (xs ++ List.replicate n null) ∧
      idx < (xs ++ List.replicate n null).length := by
  unfold subscriptIndex at h
  cases hfill : fillUp xs idx with
  | error e =>
    rw [hfill] at h
    cases h
  | ok ys =>
    rw [hfill] at h
    obtain ⟨n, rfl, hlt⟩ := fillUp_eq_ok hidx hfill
    cases h
    exact ⟨n, rfl, rfl, hlt⟩

theorem subscriptIndex_eq_error {xs : List Json} {idx : Nat} {e : Failure}
    (h : subscriptIndex xs idx = (.error e, k)) : k = array xs := by
  unfold subscriptIndex at h
  split at h
  · cases h
    rfl
  · cases h

theorem takes_of_canInsert {m : StringMap Json} (hm : m.WF)
    (h : m.lookup? t = none → CanInsert m t) : m.Takes t := by
  intro hnone
  refine (h (Option.eq_none_iff_forall_ne_some.2 fun v hv => ?_)).1.lt
  exact hnone v ((lookup?_eq_some_iff hm).1 hv)

/-- What `operator[]` does with a token: a key is looked up or added, an array is filled up. -/
theorem uncheckedStep_eq_ok (h : uncheckedStep t j = (.ok step, k)) :
    (∃ m, convertNull t j = object m ∧ (m.lookup? t = none → CanInsert m t) ∧ step = .key t ∧
        k = object (m.emplaceSecond t null).1) ∨
      ∃ xs idx n, convertNull t j = array xs ∧ step = .index idx ∧
        k = array (xs ++ List.replicate n null) ∧ idx < (xs ++ List.replicate n null).length ∧
        (t = bytes "-" → idx = xs.length) ∧ (t ≠ bytes "-" → checkedIndex t xs = .ok idx) := by
  unfold uncheckedStep at h
  split at h
  · next m hm =>
    unfold subscriptKey at h
    split at h
    · cases h
    · next hinsert =>
      cases h
      refine Or.inl ⟨m, hm, fun hnone => ?_, rfl, rfl⟩
      by_contra hfull
      exact hinsert ⟨by rw [hnone]; rfl, hfull⟩
  · next xs hxs =>
    split at h
    · cases h
    · next hzero =>
      split at h
      · next hdash =>
        obtain ⟨n, rfl, rfl, hlt⟩ := subscriptIndex_eq_ok (Or.inr rfl) h
        exact Or.inr ⟨xs, xs.length, n, hxs, rfl, rfl, hlt, fun _ => rfl, fun hne => absurd hdash hne⟩
      · next hdash =>
        split at h
        · cases h
        · next idx hidx =>
          obtain ⟨n, rfl, rfl, hlt⟩ := subscriptIndex_eq_ok (Or.inl (arrayIndex_lt hidx)) h
          refine Or.inr ⟨xs, idx, n, hxs, rfl, rfl, hlt, fun hdash' => absurd hdash' hdash, fun _ => ?_⟩
          rw [checkedIndex, if_neg hdash, if_neg hzero, hidx]
  · cases h

/-- When `operator[]` throws, nothing has been done but the conversion of a null value. -/
theorem uncheckedStep_eq_error {e : Failure} (h : uncheckedStep t j = (.error e, k)) :
    k = convertNull t j := by
  unfold uncheckedStep at h
  split at h
  · next m hm =>
    rw [hm]
    unfold subscriptKey at h
    split at h
    · cases h
      rfl
    · cases h
  · next xs hxs =>
    rw [hxs]
    split at h
    · cases h
      rfl
    · split at h
      · exact subscriptIndex_eq_error h
      · split at h
        · cases h
          rfl
        · exact subscriptIndex_eq_error h
  · next hobject harray =>
    cases h
    rfl

theorem checkedStep_key {m : StringMap Json} (h : m.lookup? t = some x) :
    checkedStep t (object m) = .ok (.key t) := by
  change atKey m t = _
  rw [atKey, h]

theorem checkedStep_index {xs : List Json} {idx : Nat} (h : checkedIndex t xs = .ok idx)
    (hlt : idx < xs.length) : checkedStep t (array xs) = .ok (.index idx) := by
  rw [checkedStep_array, h]
  exact if_pos hlt

/-- The index that a token stands for does not depend on the array. -/
theorem checkedIndex_of_eq_ok {xs : List Json} {idx : Nat} (h : checkedIndex t xs = .ok idx)
    (ys : List Json) : checkedIndex t ys = .ok idx := by
  obtain ⟨hdash, hzero, hidx⟩ := checkedIndex_eq_ok h
  rw [checkedIndex, if_neg hdash, if_neg hzero, hidx]

/-- The element is there, and every token that leads to an element before leads to it still. -/
theorem uncheckedStep_spec (hj : j.All MapWF) (h : uncheckedStep t j = (.ok step, k)) :
    k.All MapWF ∧ (∃ x, k.child? step = some x) ∧
      (t ≠ bytes "-" → checkedStep t k = .ok step) ∧
      ∀ s st, checkedStep s j = .ok st → checkedStep s k = .ok st ∧ k.child? st = j.child? st := by
  have hconvert := all_convertNull hj t
  have hself : ∀ s st, checkedStep s j = .ok st → convertNull t j = j := by
    rintro s st hst
    refine convertNull_eq_self ?_ t
    rintro rfl
    cases hst
  rcases uncheckedStep_eq_ok h with
    ⟨m, hm, hinsert, rfl, rfl⟩ | ⟨xs, idx, n, hxs, rfl, rfl, hlt, -, hidx⟩
  · rw [hm] at hconvert hself
    have hwf : m.WF := hconvert.self
    obtain ⟨hwf', hlookup⟩ := lookup?_emplaceSecond hwf (takes_of_canInsert hwf hinsert) null
    have hfound : (m.emplaceSecond t null).1.lookup? t = some ((m.lookup? t).getD null) := by
      rw [hlookup, Function.update_self]
    refine ⟨(all_object_lookup hwf').2 ⟨hwf', fun key v hv => ?_⟩, ⟨_, hfound⟩,
      fun _ => checkedStep_key hfound, fun s st hst => ?_⟩
    · rw [hlookup, Function.update_apply] at hv
      split at hv
      · cases hv
        cases hold : m.lookup? t with
        | none => exact trivial
        | some v => exact ((all_object_lookup hwf).1 hconvert).2 t v hold
      · exact ((all_object_lookup hwf).1 hconvert).2 key v hv
    · obtain rfl := hself s st hst
      rcases checkedStep_eq_ok hst with ⟨m', v, hm', rfl, hv⟩ | ⟨xs, idx, hxs, -⟩
      · cases hm'
        have hsame : (m.emplaceSecond t null).1.lookup? s = m.lookup? s := by
          rw [hlookup, Function.update_apply]
          split
          · next hs => rw [← hs, hv, Option.getD_some]
          · rfl
        exact ⟨checkedStep_key (hsame.trans hv), hsame⟩
      · cases hxs
  · rw [hxs] at hconvert hself
    refine ⟨(all_array _).2 ⟨trivial, fun y hy => ?_⟩,
      ⟨_, List.getElem?_eq_getElem hlt⟩,
      fun hdash => checkedStep_index (checkedIndex_of_eq_ok (hidx hdash) _) hlt,
      fun s st hst => ?_⟩
    · rcases List.mem_append.1 hy with hy | hy
      · exact ((all_array xs).1 hconvert).2 y hy
      · rw [(List.mem_replicate.1 hy).2]
        trivial
    · obtain rfl := hself s st hst
      rcases checkedStep_eq_ok hst with ⟨m, v, hm, -⟩ | ⟨xs', i, hxs', rfl, hi, hs⟩
      · cases hm
      · cases hxs'
        refine ⟨checkedStep_index (checkedIndex_of_eq_ok hs _) ?_, List.getElem?_append_left hi⟩
        rw [List.length_append]
        omega

/-- A token leads where it led before the value of an element was changed. -/
theorem checkedStep_setElement (hj : j.All MapWF) (hx : j.child? step = some x) (y : Json)
    {st : Step} (h : checkedStep t j = .ok st) : checkedStep t (j.setElement step y) = .ok st := by
  rcases child?_eq_some hx with ⟨xs, i, rfl, rfl, hi⟩ | ⟨m, key, rfl, rfl, hkey⟩
  · rcases checkedStep_eq_ok h with ⟨m, v, hm, -⟩ | ⟨xs', idx, hxs', rfl, hlt, hidx⟩
    · cases hm
    · cases hxs'
      exact checkedStep_index (checkedIndex_of_eq_ok hidx _) (by rwa [List.length_set])
  · rcases checkedStep_eq_ok h with ⟨m', v, hm', rfl, hv⟩ | ⟨xs, idx, hxs, -⟩
    · cases hm'
      change checkedStep t (object (assign m key y)) = _
      have hlookup := lookup?_assign (m := m) hj.self (.of_lookup? hj.self hkey) y
      by_cases ht : t = key
      · subst ht
        exact checkedStep_key (x := y) (by rw [hlookup, Function.update_self])
      · exact checkedStep_key (x := v) (by rw [hlookup, Function.update_of_ne ht, hv])
    · cases hxs

/-! ## Whole pointers -/

theorem getUnchecked_cons_eq_ok {ts : JsonPointer} (hj : j.All MapWF)
    (h : getUnchecked (t :: ts) j = (.ok location, k)) :
    ∃ step rest j₁ x x', uncheckedStep t j = (.ok step, j₁) ∧ j₁.All MapWF ∧
      j₁.child? step = some x ∧ getUnchecked ts x = (.ok rest, x') ∧ location = step :: rest ∧
      k = j₁.setElement step x' := by
  rw [getUnchecked, pointerLoop] at h
  split at h
  · cases h
  · next step j₁ hstep =>
    obtain ⟨hj₁, ⟨x, hx⟩, -⟩ := uncheckedStep_spec hj hstep
    rw [element_of_child? hx] at h
    cases hrest : getUnchecked ts x with
    | mk r x' =>
      rw [getUnchecked] at hrest
      rw [hrest] at h
      cases r with
      | error e => cases h
      | ok rest =>
        cases h
        exact ⟨step, rest, j₁, x, x', hstep, hj₁, hx, hrest, rfl, rfl⟩

/-- The reference that `operator[]` returns refers to a value. -/
theorem get?_of_getUnchecked {p : JsonPointer} (hj : j.All MapWF)
    (h : getUnchecked p j = (.ok location, k)) :
    k.All MapWF ∧ ∃ x, k.get? location = some x := by
  induction p generalizing j location k with
  | nil =>
    cases h
    exact ⟨hj, j, rfl⟩
  | cons t ts ih =>
    obtain ⟨step, rest, j₁, x, x', -, hj₁, hx, hrest, rfl, rfl⟩ := getUnchecked_cons_eq_ok hj h
    obtain ⟨hx', y, hy⟩ := ih (all_child? hj₁ hx) hrest
    exact ⟨lawful_parts.valid_replace hj₁ hx hx', y,
      get?_cons_eq_some_iff.2 ⟨x', child?_setElement_self hj₁ hx x', hy⟩⟩

/-- Without `-`, the same pointer leads `at` to the same element afterwards. -/
theorem getCheckedConst_of_getUnchecked {p : JsonPointer} (hj : j.All MapWF)
    (htokens : j.SubscriptTokens p) (h : getUnchecked p j = (.ok location, k)) :
    getCheckedConst p k = .ok location := by
  induction p generalizing j location k with
  | nil =>
    cases h
    rfl
  | cons t ts ih =>
    obtain ⟨step, rest, j₁, x, x', hstep, hj₁, hx, hrest, rfl, rfl⟩ := getUnchecked_cons_eq_ok hj h
    obtain ⟨-, -, hchecked, -⟩ := uncheckedStep_spec hj hstep
    obtain ⟨hindex, htail⟩ := htokens
    have hfirst : checkedStep t j₁ = .ok step := by
      rcases uncheckedStep_eq_ok hstep with ⟨m, -, -, rfl, rfl⟩ | ⟨xs, idx, n, -, -, hk, -⟩
      · obtain ⟨_, _, hm, hkey, hfound⟩ := (child?_eq_some hx).resolve_left (by simp)
        cases hm
        cases hkey
        exact checkedStep_key hfound
      · rw [hstep] at hindex
        obtain ⟨i, rfl⟩ := hindex _ hk
        exact hchecked decimal_refused.1
    have htail' := htail step (by rw [hstep])
    rw [hstep, element_of_child? hx] at htail'
    exact getCheckedConst_cons_iff.2 ⟨step, x', rest, checkedStep_setElement hj₁ hx x' hfirst,
      child?_setElement_self hj₁ hx x', ih (all_child? hj₁ hx) htail' hrest, rfl⟩

theorem eq_of_checkedIndex_decimal {xs : List Json} {i idx : Nat}
    (h : checkedIndex (Wpi.decimal i) xs = .ok idx) : idx = i := by
  obtain ⟨-, -, hidx⟩ := checkedIndex_eq_ok h
  by_cases hi : i < 2 ^ 31
  · rw [arrayIndex_decimal hi] at hidx
    cases hidx
    rfl
  · rw [arrayIndex_decimal_of_le (Nat.le_of_not_lt hi)] at hidx
    cases hidx

/-- Different tokens lead to different elements. -/
theorem step_ne {s : Key} {st : Step} (hstep : uncheckedStep s j = (.ok step, k))
    (hs : ∀ xs, k = array xs → ∃ i, s = Wpi.decimal i) (h : checkedStep t j = .ok st)
    (ht : ∀ xs, j = array xs → ∃ i, t = Wpi.decimal i) (hne : s ≠ t) : st ≠ step := by
  have hnull : j ≠ null := by
    rintro rfl
    cases h
  rcases uncheckedStep_eq_ok hstep with
    ⟨m, hm, -, rfl, -⟩ | ⟨xs, idx, n, hxs, rfl, hk, -, -, hidx⟩
  · rw [convertNull_eq_self hnull] at hm
    subst hm
    rcases checkedStep_eq_ok h with ⟨-, v, -, rfl, -⟩ | ⟨xs, idx, hxs, -⟩
    · exact fun heq => hne (Step.key.inj heq).symm
    · cases hxs
  · rw [convertNull_eq_self hnull] at hxs
    subst hxs
    obtain ⟨i, rfl⟩ := hs _ hk
    obtain ⟨i', rfl⟩ := ht xs rfl
    rcases checkedStep_eq_ok h with ⟨m, v, hm, -⟩ | ⟨ys, idx', -, rfl, -, hidx'⟩
    · cases hm
    · have hi := eq_of_checkedIndex_decimal (hidx decimal_refused.1)
      have hi' := eq_of_checkedIndex_decimal hidx'
      intro heq
      rw [hi, hi', Step.index.injEq] at heq
      exact hne (by rw [heq])

/-- What `operator[]` does on its way is not seen from elsewhere. -/
theorem getCheckedConst_of_apart {p q : JsonPointer} {location' : Location} (hj : j.All MapWF)
    (hp : j.SubscriptTokens p) (hq : j.AtTokens q) (hpq : Apart p q)
    (h : getUnchecked p j = (.ok location, k)) (h' : getCheckedConst q j = .ok location') :
    Apart location location' ∧ getCheckedConst q k = .ok location' ∧
      k.get? location' = j.get? location' := by
  induction p generalizing j q location location' k with
  | nil => exact absurd hpq (not_apart_nil q)
  | cons s ps ih =>
    cases q with
    | nil => exact absurd hpq.symm (not_apart_nil _)
    | cons t qs =>
      obtain ⟨step, rest, j₁, x, x', hstep, hj₁, hx, hrest, rfl, rfl⟩ :=
        getUnchecked_cons_eq_ok hj h
      obtain ⟨st, y, rest', hst, hy, hrest', rfl⟩ := getCheckedConst_cons_iff.1 h'
      obtain ⟨-, -, -, hkeeps⟩ := uncheckedStep_spec hj hstep
      obtain ⟨hst₁, hchild⟩ := hkeeps t st hst
      have hst₂ := checkedStep_setElement hj₁ hx x' hst₁
      have hpsteps := hp.2 step (by rw [hstep])
      have hpindex := hp.1
      rw [hstep] at hpindex hpsteps
      rw [element_of_child? hx] at hpsteps
      rw [apart_cons_iff]
      by_cases heq : s = t
      · -- The step is the same, and it changes nothing.
        subst heq
        obtain ⟨hsame, -⟩ := uncheckedStep_eq hj hst
        rw [hsame] at hstep
        cases hstep
        rw [hx] at hy
        cases hy
        have hqs := hq.2 step hst
        rw [element_of_child? hx] at hqs
        obtain ⟨hapart, hat, hget⟩ :=
          ih (all_child? hj hx) hpsteps hqs (apart_cons_iff.1 hpq rfl) hrest hrest'
        have hself := child?_setElement_self hj hx x'
        refine ⟨fun _ => hapart, getCheckedConst_cons_iff.2 ⟨step, x', rest', hst₂, hself, hat, rfl⟩,
          ?_⟩
        rw [get?_cons hself, get?_cons hx, hget]
      · have hne : st ≠ step := step_ne hstep hpindex hst hq.1 heq
        have hother : (j₁.setElement step x').child? st = some y := by
          rw [child?_setElement_of_ne hj₁ hx hne, hchild, hy]
        refine ⟨fun h => absurd h.symm hne,
          getCheckedConst_cons_iff.2 ⟨st, y, rest', hst₂, hother, hrest', rfl⟩, ?_⟩
        rw [get?_cons hother, get?_cons hy]

/-- A pointer leads where it led before a value was assigned there, or where it does not get to. -/
theorem getCheckedConst_store {q : JsonPointer} {location' : Location} (hj : j.All MapWF)
    (hx : j.get? location = some x) (h : getCheckedConst q j = .ok location')
    (hlocation : location <+: location' → location = location') (value : Json) :
    getCheckedConst q (j.store location value) = .ok location' := by
  induction location generalizing j q location' with
  | nil =>
    obtain rfl : [] = location' := hlocation location'.nil_prefix
    cases q with
    | nil => rfl
    | cons t ts =>
      obtain ⟨step, y, rest, -, -, -, hnil⟩ := getCheckedConst_cons_iff.1 h
      cases hnil
  | cons step rest ih =>
    obtain ⟨c, hc, hrest⟩ := get?_cons_eq_some_iff.1 hx
    have hstore : j.store (step :: rest) value = j.setElement step (c.store rest value) :=
      Parts.put_cons hc value
    rw [hstore]
    cases q with
    | nil => exact h
    | cons t ts =>
      obtain ⟨st, y, rest', hst, hy, hrest', rfl⟩ := getCheckedConst_cons_iff.1 h
      have hst' := checkedStep_setElement hj hc (c.store rest value) hst
      rw [List.cons_prefix_cons, List.cons.injEq] at hlocation
      by_cases heq : step = st
      · subst heq
        rw [hc] at hy
        cases hy
        exact getCheckedConst_cons_iff.2 ⟨step, _, rest', hst', child?_setElement_self hj hc _,
          ih (all_child? hj hc) hrest hrest' fun hle => (hlocation ⟨rfl, hle⟩).2, rfl⟩
      · have hother : (j.setElement step (c.store rest value)).child? st = some y := by
          rw [child?_setElement_of_ne hj hc (Ne.symm heq), hy]
        exact getCheckedConst_cons_iff.2 ⟨st, y, rest', hst', hother, hrest', rfl⟩

theorem resolvesTo_iff (hj : j.All MapWF) {p : JsonPointer} : j.ResolvesTo p x ↔
    ∃ location, getCheckedConst p j = .ok location ∧ j.get? location = some x := by
  unfold ResolvesTo atPointer
  refine exists_congr fun location => and_congr_left fun _ => ?_
  rw [← getChecked_fst p j]
  constructor
  · intro h
    rw [h]
  · intro h
    exact Prod.ext h (getChecked_snd p hj)

/-! ## What does not happen -/

/-- The number of values to be added wraps around for the last index only. -/
theorem isException_of_fillUp {xs : List Json} {idx : Nat} {e : Failure} (hidx : idx < 2 ^ 31)
    (h : fillUp xs idx = .error e) : e.isException = true := by
  unfold fillUp at h
  split at h
  · next hle =>
    dsimp only at h
    split at h
    · cases h
      rfl
    · split at h
      · next hzero =>
        have hne : (idx + 2 ^ 64 - xs.length + 1) % 2 ^ 64 ≠ 0 := by omega
        exact absurd hzero hne
      · cases h
  · cases h

theorem isException_of_subscriptIndex {xs : List Json} {idx : Nat} {e : Failure}
    (hidx : idx < 2 ^ 31) (h : (subscriptIndex xs idx).1 = .error e) : e.isException = true := by
  unfold subscriptIndex at h
  split at h
  · next hfill =>
    cases h
    exact isException_of_fillUp hidx hfill
  · cases h

/-- With a token that fits, `operator[]` takes its step or throws. -/
theorem isException_of_uncheckedStep {e : Failure} (hgrow : j.NodeCanGrow) (hfits : EntryFits t)
    (htoken : ∀ xs, (uncheckedStep t j).2 = array xs → ∃ i, t = Wpi.decimal i)
    (h : (uncheckedStep t j).1 = .error e) : e.isException = true := by
  have hstep : uncheckedStep t j = (.error e, convertNull t j) :=
    Prod.ext h (uncheckedStep_eq_error (Prod.ext h rfl))
  have hgrow' : (convertNull t j).NodeCanGrow := by
    by_cases hnull : j = null
    · subst hnull
      unfold convertNull
      dsimp only
      split
      · exact trivial
      · exact Nat.zero_le _
    · rwa [convertNull_eq_self hnull]
  rw [hstep] at htoken
  unfold uncheckedStep at h
  cases hk : convertNull t j with
  | object m =>
    rw [hk] at h hgrow'
    have hinsert : ¬((m.lookup? t).isNone ∧ ¬CanInsert m t) := fun hfull =>
      hfull.2 ⟨hfits, hgrow'⟩
    dsimp only at h
    rw [subscriptKey, if_neg hinsert] at h
    cases h
  | array xs =>
    obtain ⟨i, rfl⟩ := htoken xs hk
    obtain ⟨hdash, hzero⟩ := decimal_refused (i := i)
    rw [hk] at h
    dsimp only at h
    rw [if_neg hzero, if_neg hdash] at h
    by_cases hi : i < 2 ^ 31
    · rw [arrayIndex_decimal hi] at h
      exact isException_of_subscriptIndex hi h
    · rw [arrayIndex_decimal_of_le (Nat.le_of_not_lt hi)] at h
      cases h
      rfl
  | _ =>
    rw [hk] at h
    cases h
    rfl

/-- The element that `operator[]` steps to has been there before, or it is null. -/
theorem all_element_of_uncheckedStep {P : Json → Prop} (hnull : P null) (hj : j.All MapWF)
    (hall : j.All P) (h : uncheckedStep t j = (.ok step, k)) : (k.element step).All P := by
  have hconvert := all_convertNull hj t
  have hself : convertNull t j = j ∨ convertNull t j = emptyArray ∨ convertNull t j = emptyObject := by
    by_cases hj : j = null
    · subst hj
      unfold convertNull
      dsimp only
      split
      · exact Or.inr (Or.inl rfl)
      · exact Or.inr (Or.inr rfl)
    · exact Or.inl (convertNull_eq_self hj t)
  rcases uncheckedStep_eq_ok h with
    ⟨m, hm, hinsert, rfl, rfl⟩ | ⟨xs, idx, n, hxs, rfl, rfl, hlt, -, -⟩
  · rw [hm] at hconvert hself
    have hwf : m.WF := hconvert.self
    rw [element, (lookup?_emplaceSecond hwf (takes_of_canInsert hwf hinsert) null).2,
      Function.update_self, Option.getD_some]
    cases hold : m.lookup? t with
    | none => exact hnull
    | some v =>
      rcases hself with rfl | hempty | hempty
      · exact ((all_object_lookup hwf).1 hall).2 t v hold
      · cases hempty
      · cases hempty
        cases hold
  · rw [hxs] at hself
    rw [element, List.getD_eq_getElem _ _ hlt]
    rcases List.mem_append.1 (List.getElem_mem hlt) with hy | hy
    · rcases hself with rfl | hempty | hempty
      · exact ((all_array xs).1 hall).2 _ hy
      · cases hempty
        cases hy
      · cases hempty
    · rw [(List.mem_replicate.1 hy).2]
      exact hnull

/-- `operator[]` gives a reference or throws, if the new members have room. -/
theorem isException_of_getUnchecked {p : JsonPointer} {e : Failure} (hj : j.All MapWF)
    (hgrow : j.All NodeCanGrow) (hp : j.SubscriptTokens p) (hfits : ∀ t ∈ p, EntryFits t)
    (h : (getUnchecked p j).1 = .error e) : e.isException = true := by
  induction p generalizing j with
  | nil => cases h
  | cons t ts ih =>
    obtain ⟨htoken, htokens⟩ := hp
    rw [getUnchecked, pointerLoop] at h
    cases hstep : uncheckedStep t j with
    | mk r k =>
      cases r with
      | error e' =>
        rw [hstep] at h
        cases h
        exact isException_of_uncheckedStep hgrow.self (hfits t List.mem_cons_self) htoken
          (by rw [hstep])
      | ok step =>
        have htail := htokens step (by rw [hstep])
        rw [hstep] at h htail
        have hmaps := all_element_of_uncheckedStep trivial hj hj hstep
        have hgrow' := all_element_of_uncheckedStep trivial hj hgrow hstep
        refine ih hmaps hgrow' htail (fun t ht => hfits t (List.mem_cons_of_mem _ ht)) ?_
        change (getUnchecked ts (k.element step)).1.map (step :: ·) = _ at h
        cases hrest : (getUnchecked ts (k.element step)).1 with
        | error e' =>
          rw [hrest] at h
          cases h
          rfl
        | ok rest =>
          rw [hrest] at h
          cases h

/-- After an assignment that does not throw, its pointer leads to the value assigned, and pointers
that lead elsewhere lead to the values they led to before. -/
theorem assignPointer_frame {j value : Json} (hj : j.WF) (hgrow : j.All NodeCanGrow)
    (hvalue : value.WF) {p : JsonPointer} (hp : j.SubscriptTokens p)
    (hfits : ∀ t ∈ p, EntryFits t)
    (h : ∀ e, (j.assignPointer p value).1 = .error e → e.isException = false) :
    (j.assignPointer p value).2.ResolvesTo p value ∧
      ∀ q x, j.AtTokens q → ¬p <+: q → ¬q <+: p → j.ResolvesTo q x →
        (j.assignPointer p value).2.ResolvesTo q x := by
  have hmaps := hj.maps
  have hthrows : ∀ e, (j.subscriptPointer p).1 = .error e → e.isException = true := fun e he =>
    isException_of_getUnchecked hmaps hgrow hp hfits he
  unfold assignPointer at h ⊢
  cases hsubscript : j.subscriptPointer p with
  | mk r k =>
    rw [hsubscript] at h hthrows
    cases r with
    | error e =>
      have hfalse : e.isException = false := h e rfl
      have htrue : e.isException = true := hthrows e rfl
      rw [hfalse] at htrue
      cases htrue
    | ok location =>
      obtain ⟨hk, y, hy⟩ := get?_of_getUnchecked hmaps hsubscript
      have hstored : (k.store location value).All MapWF := lawful_parts.valid_put hk hy hvalue.maps
      have hp' := getCheckedConst_of_getUnchecked hmaps hp hsubscript
      constructor
      · exact (resolvesTo_iff hstored).2 ⟨location,
          getCheckedConst_store hk hy hp' (fun _ => rfl) value, lawful_parts.get?_put_self hk hy value⟩
      · intro q x hq hpq hqp hx
        obtain ⟨location', hat, hget⟩ := (resolvesTo_iff hmaps).1 hx
        obtain ⟨hapart, hat', hget'⟩ :=
          getCheckedConst_of_apart hmaps hp hq ⟨hpq, hqp⟩ hsubscript hat
        refine (resolvesTo_iff hstored).2 ⟨location',
          getCheckedConst_store hk hy hat' (fun hle => absurd hle hapart.1) value, ?_⟩
        exact (lawful_parts.get?_put_of_apart hk hy hapart value).trans (hget'.trans hget)

/-- `/0/2` in `[[null], true]`. -/
theorem assignPointer_frame_padded :
    let j := (array [array [null], boolean true]).assignPointer [bytes "0", bytes "2"] (boolean false)
    j.2.ResolvesTo [bytes "0", bytes "2"] (boolean false) ∧
      j.2.ResolvesTo [bytes "1"] (boolean true) := by
  have hone : 1 < 2 ^ 64 := by omega
  have htwo : 2 < 2 ^ 64 := by omega
  have hwf : (array [array [null], boolean true]).WF :=
    ⟨htwo, ⟨hone, trivial, trivial⟩, trivial, trivial⟩
  have hgrow : (array [array [null], boolean true]).All NodeCanGrow :=
    ⟨trivial, ⟨trivial, trivial, trivial⟩, trivial, trivial⟩
  have hp : (array [array [null], boolean true]).SubscriptTokens [bytes "0", bytes "2"] := by
    refine ⟨fun _ _ => ⟨0, rfl⟩, fun step hstep => ⟨fun _ _ => ⟨2, rfl⟩, fun _ _ => trivial⟩⟩
  have hfits : ∀ t ∈ [bytes "0", bytes "2"], EntryFits t := by decide
  have hq : (array [array [null], boolean true]).AtTokens [bytes "1"] :=
    ⟨fun _ _ => ⟨1, rfl⟩, fun _ _ => trivial⟩
  have hvalue : (boolean false).WF := trivial
  obtain ⟨hself, hother⟩ := assignPointer_frame hwf hgrow hvalue hp hfits (fun e he => by cases he)
  refine ⟨hself, hother [bytes "1"] (boolean true) hq (by decide) (by decide) ?_⟩
  exact ⟨[.index 1], rfl, rfl⟩

/-! ## A key without room -/

theorem emptyObject_wf : emptyObject.WF :=
  (all_object _).2 ⟨⟨WF.empty, by decide, fun e he => by cases he⟩, fun e he => by cases he⟩

theorem uncheckedStep_of_not_entryFits (h : ¬EntryFits t) :
    uncheckedStep t emptyObject = (.error .undefined, emptyObject) := by
  have hnew : (StringMap.empty.lookup? t : Option Json).isNone ∧ ¬CanInsert .empty t :=
    ⟨rfl, fun hinsert => h hinsert.1⟩
  change subscriptKey .empty t = _
  rw [subscriptKey, if_pos hnew]
  rfl

theorem assignPointer_of_not_entryFits (h : ¬EntryFits t) (value : Json) :
    emptyObject.assignPointer [t] value = (.error .undefined, emptyObject) := by
  rw [assignPointer, subscriptPointer, getUnchecked, pointerLoop, uncheckedStep_of_not_entryFits h]

theorem subscriptTokens_of_not_entryFits (h : ¬EntryFits t) : emptyObject.SubscriptTokens [t] := by
  constructor
  · intro xs hxs
    rw [uncheckedStep_of_not_entryFits h] at hxs
    cases hxs
  · intro step hstep
    rw [uncheckedStep_of_not_entryFits h] at hstep
    cases hstep

theorem not_resolvesTo_emptyObject : ¬emptyObject.ResolvesTo [t] x := by
  intro h
  obtain ⟨location, hat, -⟩ := (resolvesTo_iff emptyObject_wf.maps).1 h
  cases hat

/-- The entry for a new key of `2 ^ 32 - 25` bytes is written past its end. -/
theorem not_assignPointer_frame_longName : ¬∀ (j value : Json) (p : JsonPointer), j.WF → value.WF →
    j.SubscriptTokens p →
    (∀ e, (j.assignPointer p value).1 = .error e → e.isException = false) →
    (j.assignPointer p value).2.ResolvesTo p value := by
  intro h
  have hlong : ¬EntryFits (longName (2 ^ 32 - 25)) := by
    rw [entryFits_iff, length_longName]
    omega
  have hassign := assignPointer_of_not_entryFits hlong null
  have hresolves := h emptyObject null _ emptyObject_wf trivial
    (subscriptTokens_of_not_entryFits hlong) (fun e he => by
      rw [hassign] at he
      obtain rfl := Except.error.inj he
      rfl)
  rw [hassign] at hresolves
  exact not_resolvesTo_emptyObject hresolves

end Json

end Wpi

import WpiUtil.Json.PointerAccess
import WpiUtil.Json.Proofs.JsonProofs

/-!
# Checked and unchecked access agree

Where `at` finds an element, every other access through the same pointer finds the same element, and
creates nothing on its way.
-/

namespace Wpi

namespace StringMap

variable {α : Type}

theorem Takes.of_lookup? {m : StringMap α} (hm : m.WF) {key : Key} {v : α}
    (h : m.lookup? key = some v) : m.Takes key :=
  .of_mem ((lookup?_eq_some_iff hm).1 h)

/-- An entry that is there is not created. -/
theorem emplaceSecond_of_lookup? {m : StringMap α} (hm : m.WF) {key : Key} {v : α}
    (h : m.lookup? key = some v) (deflt : α) : ∃ b, m.emplaceSecond key deflt = (m, b, false) ∧
      m.theTable.getD b .empty = .item (hashString key) key v := by
  have hmem : (key, v) ∈ m.toList := (lookup?_eq_some_iff hm).1 h
  rcases emplaceSecond_spec hm (.of_mem hmem) deflt with ⟨b, w, hemplace, hb⟩ | ⟨hnone, -⟩
  · have hw : (key, w) ∈ m.toList := mem_entries.2 ⟨b, hashString key, hb⟩
    obtain rfl : w = v := eq_of_mem_of_nodup hm.table.nodup hw hmem
    exact ⟨b, hemplace, hb⟩
  · exact absurd hmem (hnone v)

/-- The value that a key has is assigned to it. -/
theorem assign_lookup? {m : StringMap α} (hm : m.WF) {key : Key} {v : α}
    (h : m.lookup? key = some v) (deflt : α) : assign deflt m key v = m := by
  obtain ⟨b, hemplace, hb⟩ := emplaceSecond_of_lookup? hm h deflt
  have hset : m.theTable.set b (.item (hashString key) key v) = m.theTable := by
    have hlt := lt_of_getD_item hb
    rw [List.getD_eq_getElem _ _ hlt] at hb
    rw [← hb, List.set_getElem_self]
  rw [assign, hemplace]
  simp only [modifyAt, hb, hset]

end StringMap

namespace Json

variable {t : Key} {j : Json} {step : Step} {location : Location}

/-! ## One step -/

theorem atKey_eq_ok {m : StringMap Json} (h : atKey m t = .ok step) :
    step = .key t ∧ ∃ v, m.lookup? t = some v := by
  unfold atKey at h
  cases hv : m.lookup? t with
  | none =>
    rw [hv] at h
    cases h
  | some v =>
    rw [hv] at h
    cases h
    exact ⟨rfl, v, rfl⟩

theorem atIndex_eq_ok {xs : List Json} {idx : Nat} (h : atIndex xs idx = .ok step) :
    step = .index idx ∧ idx < xs.length := by
  unfold atIndex at h
  split at h
  · next hlt =>
    cases h
    exact ⟨rfl, hlt⟩
  · cases h

theorem checkedStep_array (t : Key) (xs : List Json) :
    checkedStep t (.array xs) = (checkedIndex t xs).bind (atIndex xs) := rfl

/-- What `at` does with a token when it finds an element. -/
theorem checkedStep_eq_ok (h : checkedStep t j = .ok step) :
    (∃ m v, j = .object m ∧ step = .key t ∧ m.lookup? t = some v) ∨
      ∃ xs idx, j = .array xs ∧ step = .index idx ∧ idx < xs.length ∧
        checkedIndex t xs = .ok idx := by
  cases j with
  | object m =>
    obtain ⟨hstep, v, hv⟩ := atKey_eq_ok h
    exact Or.inl ⟨m, v, rfl, hstep, hv⟩
  | array xs =>
    rw [checkedStep_array] at h
    cases hidx : checkedIndex t xs with
    | error e =>
      rw [hidx] at h
      cases h
    | ok idx =>
      rw [hidx] at h
      obtain ⟨hstep, hlt⟩ := atIndex_eq_ok h
      exact Or.inr ⟨xs, idx, rfl, hstep, hlt, hidx⟩
  | null | string | boolean | numberInteger | numberUnsigned | numberFloat | discarded => cases h

theorem setElement_element (hj : j.All MapWF) (h : checkedStep t j = .ok step) :
    j.setElement step (j.element step) = j := by
  rcases checkedStep_eq_ok h with ⟨m, v, rfl, rfl, hv⟩ | ⟨xs, idx, rfl, rfl, hlt, -⟩
  · have hm : m.WF := hj.self
    rw [element, hv, Option.getD_some, setElement, Json.assign, StringMap.assign_lookup? hm hv]
  · rw [element, List.getD_eq_getElem _ _ hlt, setElement, List.set_getElem_self]

theorem all_element (hj : j.All MapWF) (h : checkedStep t j = .ok step) :
    (j.element step).All MapWF := by
  rcases checkedStep_eq_ok h with ⟨m, v, rfl, rfl, hv⟩ | ⟨xs, idx, rfl, rfl, hlt, -⟩
  · obtain ⟨hm, hvalues⟩ := (all_object m).1 hj
    rw [element, hv, Option.getD_some]
    exact hvalues (t, v) ((StringMap.lookup?_eq_some_iff hm).1 hv)
  · rw [element, List.getD_eq_getElem _ _ hlt]
    exact ((all_array xs).1 hj).2 _ (List.getElem_mem hlt)

theorem checkedIndex_eq_ok {xs : List Json} {idx : Nat} (h : checkedIndex t xs = .ok idx) :
    t ≠ bytes "-" ∧ ¬(1 < t.length ∧ t.head? = some 0x30) ∧ arrayIndex t = .ok idx := by
  unfold checkedIndex at h
  split at h
  · cases h
  · next hdash =>
    split at h
    · cases h
    · next hzero => exact ⟨hdash, hzero, h⟩

/-- The unchecked accesses take the same step. -/
theorem uncheckedStep_eq (hj : j.All MapWF) (h : checkedStep t j = .ok step) :
    uncheckedStep t j = (.ok step, j) ∧ constStep t j = .ok (some step) := by
  rcases checkedStep_eq_ok h with ⟨m, v, rfl, rfl, hv⟩ | ⟨xs, idx, rfl, rfl, hlt, hidx⟩
  · obtain ⟨b, hemplace, -⟩ := StringMap.emplaceSecond_of_lookup? hj.self hv .null
    constructor
    · change subscriptKey m t = _
      rw [subscriptKey, hv, if_neg (by simp), hemplace]
    · rw [constStep, hv, Option.map_some]
  · obtain ⟨hdash, hzero, harray⟩ := checkedIndex_eq_ok hidx
    constructor
    · have hfill : fillUp xs idx = .ok xs := by
        rw [fillUp, if_neg (Nat.not_le.2 hlt)]
      unfold uncheckedStep convertNull
      simp only [if_neg hzero, if_neg hdash, harray, subscriptIndex, hfill]
    · have hconst : constStep t (.array xs) =
          (checkedIndex t xs >>= fun idx =>
            pure (if idx < xs.length then some (.index idx) else none)) := rfl
      rw [hconst, hidx]
      change Except.ok (if idx < xs.length then some (Step.index idx) else none) = _
      rw [if_pos hlt]

/-! ## Whole pointers -/

theorem getCheckedConst_cons (t : Key) (ts : JsonPointer) (j : Json) :
    getCheckedConst (t :: ts) j = (checkedStep t j).bind fun step =>
      (getCheckedConst ts (j.element step)).map (step :: ·) := by
  rw [getCheckedConst]
  cases checkedStep t j with
  | error e => rfl
  | ok step =>
    cases h : getCheckedConst ts (j.element step) with
    | error e => simp [bind, Except.bind, Except.map, h]
    | ok location => simp [bind, Except.bind, Except.map, h, pure, Except.pure]

theorem getChecked_cons (t : Key) (ts : JsonPointer) (j : Json) :
    getChecked (t :: ts) j = match checkedStep t j with
      | .error e => (.error e, j)
      | .ok step => ((getChecked ts (j.element step)).1.map (step :: ·),
          j.setElement step (getChecked ts (j.element step)).2) := by
  rw [getChecked, pointerLoop]
  cases checkedStep t j with
  | error e => rfl
  | ok step => rfl

theorem getChecked_fst (p : JsonPointer) (j : Json) :
    (getChecked p j).1 = getCheckedConst p j := by
  induction p generalizing j with
  | nil => rfl
  | cons t ts ih =>
    rw [getChecked_cons, getCheckedConst_cons]
    cases checkedStep t j with
    | error e => rfl
    | ok step => exact congrArg (Except.map (step :: ·)) (ih (j.element step))

theorem getChecked_snd (p : JsonPointer) (hj : j.All MapWF) : (getChecked p j).2 = j := by
  induction p generalizing j with
  | nil => rfl
  | cons t ts ih =>
    rw [getChecked_cons]
    cases hstep : checkedStep t j with
    | error e => rfl
    | ok step =>
      have hrest := ih (all_element hj hstep)
      simp only [hrest]
      exact setElement_element hj hstep

theorem getCheckedConst_cons_eq_ok {ts : JsonPointer}
    (h : getCheckedConst (t :: ts) j = .ok location) :
    ∃ step rest, checkedStep t j = .ok step ∧
      getCheckedConst ts (j.element step) = .ok rest ∧ location = step :: rest := by
  rw [getCheckedConst_cons] at h
  cases hstep : checkedStep t j with
  | error e =>
    rw [hstep] at h
    cases h
  | ok step =>
    rw [hstep, Except.bind] at h
    cases hrest : getCheckedConst ts (j.element step) with
    | error e =>
      rw [hrest] at h
      cases h
    | ok rest =>
      rw [hrest] at h
      cases h
      exact ⟨step, rest, rfl, hrest, rfl⟩

/-- By induction on the tokens: every step is the same and changes nothing. -/
theorem getUnchecked_of_getChecked {p : JsonPointer} (hj : j.All MapWF)
    (h : getCheckedConst p j = .ok location) :
    getUnchecked p j = (.ok location, j) ∧ getUncheckedConst p j = .ok (some location) := by
  induction p generalizing j location with
  | nil =>
    cases h
    exact ⟨rfl, rfl⟩
  | cons t ts ih =>
    obtain ⟨step, rest, hstep, hrest, rfl⟩ := getCheckedConst_cons_eq_ok h
    obtain ⟨hunchecked, hconst⟩ := uncheckedStep_eq hj hstep
    obtain ⟨hrest₁, hrest₂⟩ := ih (all_element hj hstep) hrest
    constructor
    · rw [getUnchecked] at hrest₁ ⊢
      rw [pointerLoop, hunchecked]
      simp only [hrest₁, setElement_element hj hstep]
      rfl
    · rw [getUncheckedConst, hconst]
      simp only [bind, Except.bind, hrest₂]
      rfl

/-- The accesses agree wherever `at` finds an element, and both versions of `at` always do. -/
theorem access_agrees (j : Json) (hj : j.WF) (p : JsonPointer) :
    (∀ location, (j.atPointer p).1 = .ok location →
      j.subscriptPointer p = (.ok location, j) ∧
        j.subscriptPointerConst p = .ok (some location)) ∧
    j.atPointer p = (j.atPointerConst p, j) := by
  have hfst := getChecked_fst p j
  have hmaps := hj.maps
  constructor
  · intro location h
    exact getUnchecked_of_getChecked hmaps (hfst.symm.trans h)
  · exact Prod.ext hfst (getChecked_snd p hmaps)

/-- `/0/0` in `[[null]]`. -/
theorem access_agrees_nested :
    ((array [array [null]]).atPointer [bytes "0", bytes "0"]).1 = .ok [.index 0, .index 0] ∧
      (array [array [null]]).subscriptPointer [bytes "0", bytes "0"] =
        (.ok [.index 0, .index 0], array [array [null]]) ∧
      (array [array [null]]).subscriptPointerConst [bytes "0", bytes "0"] =
        .ok (some [.index 0, .index 0]) := by
  have hone : 1 < 2 ^ 64 := by omega
  have hwf : (array [array [null]]).WF := ⟨hone, ⟨hone, trivial, trivial⟩, trivial⟩
  have hat : ((array [array [null]]).atPointer [bytes "0", bytes "0"]).1 =
      .ok [.index 0, .index 0] := rfl
  exact ⟨hat, (access_agrees _ hwf _).1 _ hat⟩

end Json

end Wpi

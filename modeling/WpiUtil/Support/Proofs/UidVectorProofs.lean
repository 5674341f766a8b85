import Mathlib.Data.List.Nodup
import Mathlib.Tactic.Common
import WpiUtil.Foundations.Transitions
import WpiUtil.Support.UidVector

/-!
# What a `UidVector` keeps

A `UidVector` as a partial map from uids to elements: the slots that are true in boolean context are
the live elements, and the others are on the freelist.
-/

namespace Wpi

open Foundations UidElement

namespace UidVector

variable {T : Type} {reuseThreshold : Nat}

/-! ## Slots -/

theorem getElem?_push (l : List T) (elem : T) (i : Nat) :
    (l ++ [elem])[i]? = if i = l.length then some elem else l[i]? := by
  split_ifs with hi
  · rw [hi, List.getElem?_concat_length]
  · rcases Nat.lt_or_gt_of_ne hi with hlt | hgt
    · exact List.getElem?_append_left hlt
    · rw [List.getElem?_eq_none (by simp; omega), List.getElem?_eq_none (Nat.le_of_lt hgt)]

theorem getElem?_set_of_lt {l : List T} {uid : Nat} (huid : uid < l.length) (elem : T) (i : Nat) :
    (l.set uid elem)[i]? = if i = uid then some elem else l[i]? := by
  rw [List.getElem?_set, if_pos huid]
  simp only [eq_comm]

/-! ## The two operations -/

/-- A new element goes to the end, or to the front of the freelist. -/
theorem emplaceBack_cases {v v' : UidVector T reuseThreshold} {elem : T} {uid : Nat}
    (h : v.emplaceBack elem = some (uid, v')) :
    (v.free.length < reuseThreshold ∧ uid = v.size ∧
      v' = { v with vector := v.vector ++ [elem], activeCount := v.activeCount + 1 }) ∨
    (reuseThreshold ≤ v.free.length ∧ ∃ free, v.free = uid :: free ∧
      v' = { vector := v.vector.set uid elem, free, activeCount := v.activeCount + 1 }) := by
  rw [emplaceBack] at h
  split at h
  · next hlt =>
    cases h
    exact Or.inl ⟨hlt, rfl, rfl⟩
  · next hle =>
    split at h
    · cases h
    · next uid' free hfree =>
      cases h
      exact Or.inr ⟨Nat.le_of_not_lt hle, free, hfree, rfl⟩

/-- A freelist that is used is not empty. -/
theorem exists_emplaceBack_eq (hthreshold : 1 ≤ reuseThreshold) (v : UidVector T reuseThreshold)
    (elem : T) : ∃ uid v', v.emplaceBack elem = some (uid, v') := by
  rw [emplaceBack]
  split
  · exact ⟨_, _, rfl⟩
  · next hle =>
    have hpos : 0 < v.free.length := by omega
    obtain ⟨uid, free, hfree⟩ := List.exists_cons_of_length_pos hpos
    rw [hfree]
    exact ⟨_, _, rfl⟩

/-- An element is erased, or there is none. -/
theorem erase_cases [UidElement T] (v : UidVector T reuseThreshold) (uid : Nat) :
    (∃ elem, v.vector[uid]? = some elem ∧ asBool elem = true ∧
      v.erase uid = { vector := v.vector.set uid new, free := v.free ++ [uid],
                      activeCount := v.activeCount - 1 }) ∨
    ((∀ elem, v.vector[uid]? = some elem → asBool elem = false) ∧ v.erase uid = v) := by
  rw [erase]
  cases v.vector[uid]? with
  | none =>
    refine Or.inr ⟨fun elem helem => ?_, rfl⟩
    cases helem
  | some elem =>
    dsimp only
    split
    · next htrue => exact Or.inl ⟨elem, rfl, htrue, rfl⟩
    · next hfalse =>
      refine Or.inr ⟨fun elem' helem' => ?_, rfl⟩
      cases helem'
      exact eq_false_of_ne_true hfalse

end UidVector

namespace UidVector.Use

variable {T : Type} {reuseThreshold : Nat} [UidElement T]

/-! ## The invariant -/

/-- The live elements are the slots that are not empty, the freelist has the empty ones, and the
count is right. -/
structure Invariant (u : Use T reuseThreshold) : Prop where
  live : ∀ uid elem,
    u.live uid = some elem ↔ u.vector.vector[uid]? = some elem ∧ asBool elem = true
  mem_free : ∀ uid,
    uid ∈ u.vector.free ↔ ∃ elem, u.vector.vector[uid]? = some elem ∧ asBool elem = false
  nodup : u.vector.free.Nodup
  count : u.vector.activeCount = u.vector.vector.countP asBool

theorem invariant_init : Invariant ({} : Use T reuseThreshold) where
  live uid elem := by simp
  mem_free uid := by simp
  nodup := List.nodup_nil
  count := rfl

namespace Invariant

variable {u : Use T reuseThreshold}

/-- A uid that is not a full slot is not live. -/
theorem live_eq_none (h : Invariant u) {uid : Nat}
    (hempty : ∀ elem, u.vector.vector[uid]? = some elem → asBool elem = false) :
    u.live uid = none := by
  rw [Option.eq_none_iff_forall_ne_some]
  intro elem helem
  obtain ⟨hslot, htrue⟩ := (h.live uid elem).1 helem
  rw [hempty elem hslot] at htrue
  cases htrue

/-- The uid of a new element is not live. -/
theorem fresh (h : Invariant u) {elem : T} {uid : Nat} {v : UidVector T reuseThreshold}
    (hnew : u.vector.emplaceBack elem = some (uid, v)) : u.live uid = none := by
  apply h.live_eq_none
  intro old hold
  rcases emplaceBack_cases hnew with ⟨-, huid, -⟩ | ⟨-, free, hfree, -⟩
  · have hlt := (List.getElem?_eq_some_iff.1 hold).1
    rw [huid, size] at hlt
    exact absurd hlt (Nat.lt_irrefl _)
  · have hmem : uid ∈ u.vector.free := by
      rw [hfree]
      exact List.mem_cons_self
    obtain ⟨elem', helem', hfalse⟩ := (h.mem_free uid).1 hmem
    rw [hold] at helem'
    cases helem'
    exact hfalse

/-- The slot `uid` becomes `elem`, and the rest follows. -/
theorem replace (h : Invariant u) {u' : Use T reuseThreshold} {uid : Nat} {elem : T}
    (hslots : ∀ i, u'.vector.vector[i]? = if i = uid then some elem else u.vector.vector[i]?)
    (hlive : u'.live = Function.update u.live uid (if asBool elem then some elem else none))
    (hfree : ∀ i,
      i ∈ u'.vector.free ↔ if i = uid then asBool elem = false else i ∈ u.vector.free)
    (hnodup : u'.vector.free.Nodup)
    (hcount : u'.vector.activeCount = u'.vector.vector.countP asBool) : Invariant u' where
  live i elem' := by
    rw [hlive, Function.update_apply, hslots]
    by_cases hi : i = uid
    · rw [if_pos hi, if_pos hi, Option.ite_none_right_eq_some]
      constructor
      · rintro ⟨htrue, ⟨⟩⟩
        exact ⟨rfl, htrue⟩
      · rintro ⟨⟨⟩, htrue⟩
        exact ⟨htrue, rfl⟩
    · rw [if_neg hi, if_neg hi, h.live]
  mem_free i := by
    rw [hfree, hslots]
    by_cases hi : i = uid
    · simp [hi]
    · rw [if_neg hi, if_neg hi, h.mem_free]
  nodup := hnodup
  count := hcount

theorem emplaceBack (h : Invariant u) {elem : T} {uid : Nat} {v : UidVector T reuseThreshold}
    (htrue : asBool elem = true) (hnew : u.vector.emplaceBack elem = some (uid, v)) :
    Invariant { vector := v, live := Function.update u.live uid (some elem) } := by
  have hlive : Function.update u.live uid (some elem) =
      Function.update u.live uid (if asBool elem then some elem else none) := by
    rw [if_pos htrue]
  rcases emplaceBack_cases hnew with ⟨-, rfl, rfl⟩ | ⟨-, free, hfree, rfl⟩
  · refine h.replace (getElem?_push _ elem) hlive (fun i => ?_) h.nodup ?_
    · split_ifs with hi
      · rw [h.mem_free, hi, htrue]
        simp
      · rfl
    · rw [List.countP_append, List.countP_singleton, if_pos htrue, h.count]
  · have hnodup := h.nodup
    rw [hfree, List.nodup_cons] at hnodup
    have hmem : uid ∈ u.vector.free := by
      rw [hfree]
      exact List.mem_cons_self
    obtain ⟨old, hold, hfalse⟩ := (h.mem_free uid).1 hmem
    have hlt : uid < u.vector.vector.length := (List.getElem?_eq_some_iff.1 hold).1
    refine h.replace (getElem?_set_of_lt hlt elem) hlive (fun i => ?_) hnodup.2 ?_
    · split_ifs with hi
      · rw [hi, htrue]
        exact iff_of_false hnodup.1 (by simp)
      · rw [hfree, List.mem_cons, or_iff_right hi]
    · have hcount := countP_set_add hold elem asBool
      rw [hfalse, htrue] at hcount
      rw [h.count]
      exact hcount.symm

theorem erase (h : Invariant u) (uid : Nat) :
    Invariant { vector := u.vector.erase uid, live := Function.update u.live uid none } := by
  rcases erase_cases u.vector uid with ⟨elem, helem, htrue, herase⟩ | ⟨hempty, herase⟩
  · have hlt : uid < u.vector.vector.length := (List.getElem?_eq_some_iff.1 helem).1
    have hmem : uid ∉ u.vector.free := by
      intro hmem
      obtain ⟨elem', helem', hfalse⟩ := (h.mem_free uid).1 hmem
      rw [helem] at helem'
      cases helem'
      rw [htrue] at hfalse
      cases hfalse
    rw [herase]
    refine h.replace (getElem?_set_of_lt hlt new) ?_ (fun i => ?_) ?_ ?_
    · rw [asBool_new]
      rfl
    · rw [List.mem_append, List.mem_singleton]
      split_ifs with hi
      · exact iff_of_true (Or.inr hi) asBool_new
      · rw [or_iff_left hi]
    · exact List.Nodup.append h.nodup (List.nodup_singleton uid)
        (List.disjoint_singleton.2 hmem)
    · have hcount := countP_set_add helem new asBool
      rw [htrue, asBool_new] at hcount
      rw [h.count]
      exact (Nat.eq_sub_of_add_eq hcount).symm
  · have hlive : Function.update u.live uid none = u.live := by
      rw [← h.live_eq_none hempty, Function.update_eq_self]
    rw [herase, hlive]
    exact h

theorem step (h : Invariant u) {call : Call T} (hstores : call.Stores)
    {u' : Use T reuseThreshold} (hstep : u.step call = some u') : Invariant u' := by
  cases call with
  | emplaceBack elem =>
    rw [Use.step] at hstep
    split at hstep
    · cases hstep
    · next uid v hnew =>
      cases hstep
      exact h.emplaceBack hstores hnew
  | erase uid =>
    cases hstep
    exact h.erase uid

/-- `empty()` -/
theorem empty_iff (h : Invariant u) :
    u.vector.empty = true ↔ ∀ uid, u.live uid = none := by
  rw [UidVector.empty, beq_iff_eq, h.count, List.countP_eq_zero]
  constructor
  · intro hempty uid
    apply h.live_eq_none
    intro elem helem
    exact eq_false_of_ne_true (hempty elem (List.mem_of_getElem? helem))
  · intro hnone elem helem htrue
    obtain ⟨uid, huid⟩ := List.mem_iff_getElem?.1 helem
    have hlive := (h.live uid elem).2 ⟨huid, htrue⟩
    rw [hnone uid] at hlive
    cases hlive

end Invariant

/-! ## Runs -/

/-- With a threshold of at least one, every call can be made. -/
theorem exists_step_eq (hthreshold : 1 ≤ reuseThreshold) (u : Use T reuseThreshold)
    (call : Call T) : ∃ t, u.step call = some t := by
  cases call with
  | emplaceBack elem =>
    obtain ⟨uid, v, hnew⟩ := exists_emplaceBack_eq hthreshold u.vector elem
    exact ⟨_, by rw [step, hnew]⟩
  | erase uid => exact ⟨_, rfl⟩

theorem invariant_execute {u : Use T reuseThreshold} {calls : List (Call T)}
    (hstores : ∀ call ∈ calls, call.Stores) (hrun : execute step {} calls = some u) :
    Invariant u :=
  (along_of_forall_mem hstores _).invariant (fun h hcall hstep => h.step hcall hstep) hrun
    invariant_init

end UidVector.Use

/-! ## Uids in use -/

open UidVector in
/-- After any calls, a uid that is returned is not live, a live uid gives its element, the freelist
has the empty slots once each, and `empty` says whether there are live elements. -/
theorem UidVector.uids_of_execute {T : Type} [UidElement T] {reuseThreshold : Nat}
    (hthreshold : 1 ≤ reuseThreshold) (calls : List (Call T))
    (hstores : ∀ call ∈ calls, call.Stores) :
    ∃ u : Use T reuseThreshold, execute Use.step {} calls = some u ∧
      (∀ elem, ∃ uid v, u.vector.emplaceBack elem = some (uid, v) ∧ u.live uid = none) ∧
      (∀ uid elem, u.live uid = some elem → u.vector.get uid = some elem) ∧
      u.vector.free.Nodup ∧
      (∀ uid, uid ∈ u.vector.free ↔
        uid < u.vector.size ∧ ∀ elem ∈ u.vector.get uid, asBool elem = false) ∧
      (u.vector.empty = true ↔ ∀ uid, u.live uid = none) := by
  obtain ⟨u, hrun⟩ := exists_execute_eq (Use.exists_step_eq hthreshold) {} calls
  have hu := Use.invariant_execute hstores hrun
  refine ⟨u, hrun, fun elem => ?_, fun uid elem hlive => ((hu.live uid elem).1 hlive).1, hu.nodup,
    fun uid => ?_, hu.empty_iff⟩
  · obtain ⟨uid, v, hnew⟩ := exists_emplaceBack_eq hthreshold u.vector elem
    exact ⟨uid, v, hnew, hu.fresh hnew⟩
  · rw [hu.mem_free, get, size]
    constructor
    · rintro ⟨elem, helem, hfalse⟩
      refine ⟨(List.getElem?_eq_some_iff.1 helem).1, fun elem' helem' => ?_⟩
      rw [helem] at helem'
      cases helem'
      exact hfalse
    · rintro ⟨hlt, hfalse⟩
      have helem := List.getElem?_eq_getElem hlt
      exact ⟨_, helem, hfalse _ helem⟩

open UidVector in
theorem UidVector.uids_of_recycling :
    let calls := [.emplaceBack (some 1), .erase 0, .erase 0, .erase 7, .emplaceBack (some 2)]
    1 ≤ 1 ∧ (∀ call ∈ calls, call.Stores) ∧
    ∃ u : Use (Option Nat) 1, execute Use.step {} calls = some u ∧
      (∀ elem, ∃ uid v, u.vector.emplaceBack elem = some (uid, v) ∧ u.live uid = none) ∧
      (∀ uid elem, u.live uid = some elem → u.vector.get uid = some elem) ∧
      u.vector.free.Nodup ∧
      (∀ uid, uid ∈ u.vector.free ↔
        uid < u.vector.size ∧ ∀ elem ∈ u.vector.get uid, asBool elem = false) ∧
      (u.vector.empty = true ↔ ∀ uid, u.live uid = none) :=
  ⟨Nat.le_refl 1, by decide, UidVector.uids_of_execute (Nat.le_refl 1) _ (by decide)⟩

end Wpi

import WpiUtil.Support.Proofs.UidVectorProofs
import WpiUtil.Support.UidHistory

/-!
# Uids are recycled in the order of their erasures

The freelist is the line of the uids that wait to be returned, so a uid comes back when all that were
erased before it have, and as many others wait as the threshold wants.
-/

namespace Wpi.UidVector

open Foundations UidElement

variable {T : Type} {reuseThreshold : Nat} {events before after : List Event} {e : Event} {uid : Nat}

/-! ## The line -/

theorem waiting_emplaced (events : List Event) (uid : Nat) :
    waiting (events ++ [.emplaced uid]) = (waiting events).erase uid := by
  rw [waiting, Line.waiting_concat]
  exact Line.move_of_leaves rfl

theorem waiting_erased (events : List Event) (uid : Nat) :
    waiting (events ++ [.erased uid]) = waiting events ++ [uid] := by
  rw [waiting, Line.waiting_concat]
  exact Line.move_of_joins rfl rfl

theorem waiting_ignored (events : List Event) : waiting (events ++ [.ignored]) = waiting events := by
  rw [waiting, Line.waiting_concat]
  exact Line.move_of_none rfl rfl

/-- An event of a history with one more event is the last one, or it was there before. -/
theorem concat_eq_iff {last : Event} : events ++ [last] = before ++ e :: after ↔
    (after = [] ∧ events = before ∧ last = e) ∨
      ∃ after', after = after' ++ [last] ∧ events = before ++ e :: after' := by
  constructor
  · intro h
    rcases List.eq_nil_or_concat' after with rfl | ⟨after', last', rfl⟩
    · obtain ⟨hevents, hlast⟩ := List.append_inj' h rfl
      exact Or.inl ⟨rfl, hevents, (List.cons.inj hlast).1⟩
    · rw [← List.cons_append, ← List.append_assoc] at h
      obtain ⟨hevents, hlast⟩ := List.append_inj' h rfl
      obtain rfl := (List.cons.inj hlast).1
      exact Or.inr ⟨after', rfl, hevents⟩
  · rintro (⟨rfl, rfl, rfl⟩ | ⟨after', rfl, rfl⟩)
    · rfl
    · simp

/-! ## The invariant -/

namespace Log

variable [UidElement T] {l : Log T reuseThreshold}

/-- The freelist is the line, and a uid that was returned from the line was the first in it. -/
structure Invariant (l : Log T reuseThreshold) : Prop where
  use : ∃ live, Use.Invariant ⟨l.vector, live⟩
  free : l.vector.free = waiting l.events
  returned : ∀ before uid after, l.events = before ++ .emplaced uid :: after →
    (waiting before).Nodup ∧ (uid ∈ waiting before →
      reuseThreshold ≤ (waiting before).length ∧ (waiting before).head? = some uid)

theorem invariant_init : Invariant ({} : Log T reuseThreshold) where
  use := ⟨_, Use.invariant_init⟩
  free := rfl
  returned before uid after h := by simp at h

namespace Invariant

theorem nodup (h : Invariant l) : (waiting l.events).Nodup := by
  obtain ⟨live, huse⟩ := h.use
  rw [← h.free]
  exact huse.nodup

theorem lt_size (h : Invariant l) (huid : uid ∈ waiting l.events) : uid < l.vector.size := by
  obtain ⟨live, huse⟩ := h.use
  rw [← h.free] at huid
  obtain ⟨elem, helem, -⟩ := (huse.mem_free uid).1 huid
  exact (List.getElem?_eq_some_iff.1 helem).1

/-- The uid that is returned is the first in the line, or a new one. -/
theorem emplaceBack_cases (h : Invariant l) {elem : T} {v : UidVector T reuseThreshold}
    (hnew : l.vector.emplaceBack elem = some (uid, v)) :
    ((waiting l.events).length < reuseThreshold ∧ uid = l.vector.size ∧
      uid ∉ waiting l.events ∧ v.free = waiting l.events) ∨
    (reuseThreshold ≤ (waiting l.events).length ∧
      waiting l.events = uid :: v.free) := by
  have hfree := h.free
  rcases UidVector.emplaceBack_cases hnew with ⟨hlt, huid, rfl⟩ | ⟨hle, free, heq, rfl⟩
  · rw [hfree] at hlt
    refine Or.inl ⟨hlt, huid, fun hmem => ?_, hfree⟩
    have hsize := h.lt_size hmem
    omega
  · rw [hfree] at hle heq
    exact Or.inr ⟨hle, heq⟩

/-- One more event that is no return. -/
theorem returned_concat (h : Invariant l) (hlast : ∀ uid, e ≠ .emplaced uid) :
    ∀ before uid after, l.events ++ [e] = before ++ .emplaced uid :: after →
      (waiting before).Nodup ∧ (uid ∈ waiting before →
        reuseThreshold ≤ (waiting before).length ∧ (waiting before).head? = some uid) := by
  intro before uid after heq
  rcases concat_eq_iff.1 heq with ⟨-, -, he⟩ | ⟨after', -, hevents⟩
  · exact absurd he (hlast uid)
  · exact h.returned before uid after' hevents

theorem step (h : Invariant l) {call : Call T} (hstores : call.Stores) {l' : Log T reuseThreshold}
    (hstep : l.step call = some l') : Invariant l' := by
  obtain ⟨live, huse⟩ := h.use
  cases call with
  | emplaceBack elem =>
    rw [Log.step] at hstep
    split at hstep
    · cases hstep
    · next uid v hnew =>
      cases hstep
      refine ⟨⟨_, huse.emplaceBack hstores hnew⟩, ?_, fun before uid' after heq => ?_⟩
      · rw [waiting_emplaced]
        rcases h.emplaceBack_cases hnew with ⟨-, -, hmem, hfree⟩ | ⟨-, heq⟩
        · rw [List.erase_of_not_mem hmem, hfree]
        · rw [heq, List.erase_cons_head]
      · rcases concat_eq_iff.1 heq with ⟨-, rfl, he⟩ | ⟨after', -, hevents⟩
        · cases he
          refine ⟨h.nodup, fun hmem => ?_⟩
          rcases h.emplaceBack_cases hnew with ⟨-, -, hnot, -⟩ | ⟨hle, heq⟩
          · exact absurd hmem hnot
          · exact ⟨hle, by rw [heq, List.head?_cons]⟩
        · exact h.returned before uid' after' hevents
  | erase uid =>
    cases hstep
    rcases erase_cases l.vector uid with ⟨elem, helem, htrue, herase⟩ | ⟨hempty, herase⟩
    · have hholds : l.vector.holds uid = true := by
        rw [holds, helem]
        exact htrue
      refine ⟨⟨_, huse.erase uid⟩, ?_, h.returned_concat (by rw [hholds]; simp)⟩
      rw [hholds, if_pos rfl, waiting_erased, herase, ← h.free]
    · have hholds : l.vector.holds uid = false := by
        rw [holds]
        cases helem : l.vector.vector[uid]? with
        | none => rfl
        | some elem => exact hempty elem helem
      refine ⟨⟨_, huse.erase uid⟩, ?_, h.returned_concat (by rw [hholds]; simp)⟩
      rw [hholds, if_neg (by decide), waiting_ignored, herase]
      exact h.free

end Invariant

theorem invariant_execute {calls : List (Call T)} (hstores : ∀ call ∈ calls, call.Stores)
    (hrun : execute step {} calls = some l) : Invariant l :=
  (along_of_forall_mem hstores _).invariant (fun h hcall hstep => h.step hcall hstep) hrun
    invariant_init

theorem exists_step_eq (hthreshold : 1 ≤ reuseThreshold) (l : Log T reuseThreshold)
    (call : Call T) : ∃ r, l.step call = some r := by
  cases call with
  | emplaceBack elem =>
    obtain ⟨uid, v, hnew⟩ := exists_emplaceBack_eq hthreshold l.vector elem
    exact ⟨_, by rw [step, hnew]⟩
  | erase uid => exact ⟨_, rfl⟩

/-- Before anything is stored there is nothing to erase. -/
theorem execute_of_forall_erase {calls : List (Call T)}
    (h : ∀ call ∈ calls, ∀ elem, call ≠ .emplaceBack elem) (hempty : l.vector = {}) :
    ∃ l', execute step l calls = some l' ∧ l'.vector = {} := by
  induction calls generalizing l with
  | nil => exact ⟨l, rfl, hempty⟩
  | cons call calls ih =>
    rw [List.forall_mem_cons] at h
    cases call with
    | emplaceBack elem => exact absurd rfl (h.1 elem)
    | erase uid =>
      have hcall : ∃ r, l.step (.erase uid) = some r ∧ r.vector = {} := by
        refine ⟨_, rfl, ?_⟩
        rw [hempty]
        rfl
      obtain ⟨r, hr, hvector⟩ := hcall
      obtain ⟨l', hrun, hl'⟩ := ih h.2 hvector
      exact ⟨l', execute_cons_eq_some_iff.2 ⟨r, hr, hrun⟩, hl'⟩

end Log

/-! ## Recycling -/

/-- The first call that stores something. -/
theorem exists_first_emplaceBack {calls : List (Call T)}
    (h : ¬ ∀ call ∈ calls, ∀ elem, call ≠ .emplaceBack elem) : ∃ front elem back,
      calls = front ++ .emplaceBack elem :: back ∧
        ∀ call ∈ front, ∀ elem, call ≠ .emplaceBack elem := by
  induction calls with
  | nil => exact absurd (fun _ hcall => absurd hcall List.not_mem_nil) h
  | cons call calls ih =>
    cases call with
    | emplaceBack elem => exact ⟨[], elem, calls, rfl, fun _ hcall => absurd hcall List.not_mem_nil⟩
    | erase uid =>
      have herase : ∀ elem : T, Call.erase uid ≠ .emplaceBack elem := by simp
      obtain ⟨front, elem, back, rfl, hfront⟩ := ih fun hcalls =>
        h (List.forall_mem_cons.2 ⟨herase, hcalls⟩)
      exact ⟨.erase uid :: front, elem, back, rfl, List.forall_mem_cons.2 ⟨herase, hfront⟩⟩

/-- With a threshold of zero the first element would have to take the place of a free one. -/
theorem emplaceBack_empty_zero (elem : T) : ({} : UidVector T 0).emplaceBack elem = none := rfl

variable [UidElement T]

theorem Log.Invariant.rested {l : Log T reuseThreshold} (h : Log.Invariant l)
    {between : List Event}
    (hevents : l.events = before ++ .erased uid :: between ++ .emplaced uid :: after)
    (hbetween : .emplaced uid ∉ between) :
    reuseThreshold - 1 ≤ ((between.filterMap Event.erased?).toFinset.erase uid).card := by
  obtain ⟨hnodup, hfirst⟩ := h.returned _ uid after hevents
  have hstays : ∀ e ∈ between, freeLine.leaves e ≠ some uid := by
    rintro e he hleaves
    cases e with
    | emplaced uid' =>
      cases hleaves
      exact hbetween he
    | erased _ => cases hleaves
    | ignored => cases hleaves
  obtain ⟨front, back, hwaiting, -⟩ :=
    Line.exists_waiting_eq (L := freeLine) before (e := .erased uid) rfl rfl hstays
  have hmem : uid ∈ waiting (before ++ .erased uid :: between) := by
    rw [waiting, hwaiting]
    exact List.mem_append_right front List.mem_cons_self
  obtain ⟨hle, hhead⟩ := hfirst hmem
  exact Line.card_joined (L := freeLine) (e := .erased uid) rfl rfl hstays hnodup hhead hle

/-- Uids are recycled in order just when `front()` of an empty freelist is out of the question: with
a threshold of at least one, or without any `emplace_back`. -/
theorem recyclesInOrder_iff (reuseThreshold : Nat) (calls : List (Call T))
    (hstores : ∀ call ∈ calls, call.Stores) : RecyclesInOrder reuseThreshold calls ↔
      1 ≤ reuseThreshold ∨ ∀ call ∈ calls, ∀ elem, call ≠ .emplaceBack elem := by
  constructor
  · intro h
    by_contra hnot
    rw [not_or, Nat.not_le, Nat.lt_one_iff] at hnot
    obtain ⟨rfl, hnot⟩ := hnot
    obtain ⟨front, elem, back, hcalls, hfront⟩ := exists_first_emplaceBack hnot
    obtain ⟨l, hrun, uid, v, hnew, -⟩ := h.returned front elem back hcalls
    obtain ⟨l', hrun', hempty⟩ :=
      Log.execute_of_forall_erase hfront (rfl : ({} : Log T 0).vector = {})
    obtain rfl := Option.some.inj (hrun'.symm.trans hrun)
    rw [hempty, emplaceBack_empty_zero] at hnew
    cases hnew
  · intro h
    refine ⟨fun front elem back hcalls => ?_, fun l hrun before uid between after => ?_⟩
    · have hthreshold : 1 ≤ reuseThreshold := by
        rcases h with h | h
        · exact h
        · exact absurd rfl (h (.emplaceBack elem) (by rw [hcalls]; simp) elem)
      obtain ⟨l, hrun⟩ := exists_execute_eq (Log.exists_step_eq hthreshold) {} front
      have hfront : ∀ call ∈ front, call.Stores :=
        fun call hcall => hstores call (by rw [hcalls]; exact List.mem_append_left _ hcall)
      have hl := Log.invariant_execute hfront hrun
      obtain ⟨uid, v, hnew⟩ := exists_emplaceBack_eq hthreshold l.vector elem
      refine ⟨l, hrun, uid, v, hnew, ?_⟩
      rcases hl.emplaceBack_cases hnew with ⟨hlt, huid, -⟩ | ⟨hle, heq⟩
      · rw [if_neg (Nat.not_le.2 hlt)]
        exact huid
      · rw [if_pos hle, heq, List.head?_cons]
    · exact (Log.invariant_execute hstores hrun).rested

theorem recyclesInOrder_iff_pointers :
    let calls : List (Call (Option Nat)) := [.emplaceBack (some 1), .erase 0, .emplaceBack (some 2)]
    (∀ call ∈ calls, call.Stores) ∧ (RecyclesInOrder 1 calls ↔
      1 ≤ 1 ∨ ∀ call ∈ calls, ∀ elem, call ≠ .emplaceBack elem) :=
  ⟨by decide, recyclesInOrder_iff 1 _ (by decide)⟩

/-- With a threshold of zero already the first `emplace_back` takes an index from an empty
freelist. -/
theorem not_recyclesInOrder_zero :
    (∀ call ∈ [Call.emplaceBack (some 1)], call.Stores) ∧
      ¬ RecyclesInOrder 0 [Call.emplaceBack (some 1)] := by
  refine ⟨by decide, fun h => ?_⟩
  obtain ⟨l, hrun, uid, v, hnew, -⟩ := h.returned [] (some 1) [] rfl
  cases hrun
  cases hnew

end Wpi.UidVector

import Mathlib.Data.Finset.Card
import Mathlib.Data.Finset.Dedup
import Mathlib.Data.List.Nodup
import Mathlib.Tactic.Common

/-!
# A waiting line

Who waits after a history of events, the first to come in front, and what happens between the time
when someone joins the line and the time when he is the first in it.
-/

namespace Foundations

universe u v

/-- Who joins a line or leaves it at an event. -/
structure Line (ε : Type u) (α : Type v) where
  joins : ε → Option α
  leaves : ε → Option α

namespace Line

variable {ε : Type u} {α : Type v} [DecidableEq α] (L : Line ε α)

def move (line : List α) (e : ε) : List α :=
  match L.leaves e with
  | some a => line.erase a
  | none => line ++ (L.joins e).toList

/-- The line after the events, in the order in which those in it have joined. -/
def waiting (events : List ε) : List α := events.foldl L.move []

variable {L} {events between : List ε} {e : ε} {a : α} {line : List α}

theorem waiting_concat : L.waiting (events ++ [e]) = L.move (L.waiting events) e := by
  rw [waiting, List.foldl_append]
  rfl

theorem move_of_leaves (h : L.leaves e = some a) : L.move line e = line.erase a := by
  rw [move, h]

theorem move_of_joins (h : L.leaves e = none) (h' : L.joins e = some a) :
    L.move line e = line ++ [a] := by
  rw [move, h, h']
  rfl

theorem move_of_none (h : L.leaves e = none) (h' : L.joins e = none) : L.move line e = line := by
  rw [move, h, h']
  exact List.append_nil line

/-- Whoever leaves, the others stay in order. -/
theorem exists_move_eq (front back : List α) (h : L.leaves e ≠ some a) : ∃ front' back',
    L.move (front ++ a :: back) e = front' ++ a :: back' ∧
      ∀ b ∈ back', b ∈ back ∨ L.joins e = some b := by
  cases hleaves : L.leaves e with
  | some c =>
    have hne : a ≠ c := by
      rintro rfl
      exact h hleaves
    rw [move_of_leaves hleaves, List.erase_append]
    by_cases hc : c ∈ front
    · rw [if_pos hc]
      exact ⟨front.erase c, back, rfl, fun b hb => Or.inl hb⟩
    · rw [if_neg hc, List.erase_cons_tail (by simpa using hne)]
      exact ⟨front, back.erase c, rfl, fun b hb => Or.inl (List.mem_of_mem_erase hb)⟩
  | none =>
    rw [move, hleaves]
    refine ⟨front, back ++ (L.joins e).toList, by simp, fun b hb => ?_⟩
    rcases List.mem_append.1 hb with hb | hb
    · exact Or.inl hb
    · exact Or.inr (Option.mem_toList.1 hb)

/-- Those behind someone who stays have been behind him or joined since. -/
theorem exists_foldl_move_eq (front back : List α) (h : ∀ e ∈ between, L.leaves e ≠ some a) :
    ∃ front' back', between.foldl L.move (front ++ a :: back) = front' ++ a :: back' ∧
      ∀ b ∈ back', b ∈ back ∨ b ∈ between.filterMap L.joins := by
  induction between generalizing front back with
  | nil => exact ⟨front, back, rfl, fun b hb => Or.inl hb⟩
  | cons e between ih =>
    rw [List.forall_mem_cons] at h
    obtain ⟨front₁, back₁, hmove, hback₁⟩ := exists_move_eq front back h.1
    obtain ⟨front₂, back₂, hfoldl, hback₂⟩ := ih front₁ back₁ h.2
    refine ⟨front₂, back₂, by rw [List.foldl_cons, hmove, hfoldl], fun b hb => ?_⟩
    rcases hback₂ b hb with hb | hb
    · rcases hback₁ b hb with hb | hb
      · exact Or.inl hb
      · exact Or.inr (List.mem_filterMap.2 ⟨e, List.mem_cons_self, hb⟩)
    · obtain ⟨e', he', hjoins⟩ := List.mem_filterMap.1 hb
      exact Or.inr (List.mem_filterMap.2 ⟨e', List.mem_cons_of_mem e he', hjoins⟩)

theorem exists_waiting_eq (before : List ε) (hleaves : L.leaves e = none)
    (hjoins : L.joins e = some a) (hstays : ∀ e ∈ between, L.leaves e ≠ some a) : ∃ front back,
      L.waiting (before ++ e :: between) = front ++ a :: back ∧
        ∀ b ∈ back, b ∈ between.filterMap L.joins := by
  obtain ⟨front, back, hfoldl, hback⟩ := exists_foldl_move_eq (L.waiting before) [] hstays
  refine ⟨front, back, ?_, fun b hb => (hback b hb).resolve_left List.not_mem_nil⟩
  rw [waiting, List.foldl_append, List.foldl_cons, ← waiting, move_of_joins hleaves hjoins, hfoldl]

/-- When someone has come to the head of a line of `n`, the others have joined since he did. -/
theorem card_joined {before : List ε} {n : Nat} (hleaves : L.leaves e = none)
    (hjoins : L.joins e = some a) (hstays : ∀ e ∈ between, L.leaves e ≠ some a)
    (hnodup : (L.waiting (before ++ e :: between)).Nodup)
    (hhead : (L.waiting (before ++ e :: between)).head? = some a)
    (hn : n ≤ (L.waiting (before ++ e :: between)).length) :
    n - 1 ≤ ((between.filterMap L.joins).toFinset.erase a).card := by
  obtain ⟨front, back, hwaiting, hback⟩ := exists_waiting_eq before hleaves hjoins hstays
  rw [hwaiting] at hnodup hhead hn
  have hfront : front = [] := by
    cases front with
    | nil => rfl
    | cons c front =>
      cases hhead
      rw [List.cons_append, List.nodup_cons] at hnodup
      exact absurd (List.mem_append_right front List.mem_cons_self) hnodup.1
  subst hfront
  rw [List.nil_append, List.nodup_cons] at hnodup
  have hsubset : back.toFinset ⊆ (between.filterMap L.joins).toFinset.erase a := by
    intro b hb
    rw [List.mem_toFinset] at hb
    refine Finset.mem_erase.2 ⟨?_, List.mem_toFinset.2 (hback b hb)⟩
    rintro rfl
    exact hnodup.1 hb
  have hcard := Finset.card_le_card hsubset
  rw [List.toFinset_card_of_nodup hnodup.2] at hcard
  rw [List.nil_append, List.length_cons] at hn
  omega

end Line

end Foundations

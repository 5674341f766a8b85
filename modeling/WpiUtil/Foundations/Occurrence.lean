import Mathlib.Data.List.Infix
import Mathlib.Order.Basic
import Mathlib.Data.Nat.Find

/-!
# Occurrences of a pattern in a list

Where a pattern occurs, where it occurs first, and how the first occurrence moves when a part of the
list that holds none is cut off or put in front.
-/

namespace Foundations

variable {α : Type*} {pat s : List α} {i k : ℕ}

/-- The pattern occurs at position `i`. -/
def OccursAt (pat s : List α) (i : ℕ) : Prop := pat <+: s.drop i

/-- Position `i` is that of the first occurrence. -/
def FirstAt (pat s : List α) (i : ℕ) : Prop := OccursAt pat s i ∧ ∀ j < i, ¬ OccursAt pat s j

theorem occursAt_drop : OccursAt pat (s.drop k) i ↔ OccursAt pat s (k + i) := by
  rw [OccursAt, OccursAt, List.drop_drop]

theorem OccursAt.le_length (h : OccursAt pat s i) (hpat : pat ≠ []) : i + pat.length ≤ s.length := by
  have hle := h.length_le
  have hpos := List.length_pos_iff.2 hpat
  rw [List.length_drop] at hle
  omega

theorem exists_occursAt_iff_infix : (∃ i, OccursAt pat s i) ↔ pat <:+: s := by
  constructor
  · rintro ⟨i, t, ht⟩
    exact ⟨s.take i, t, by rw [List.append_assoc, ht, List.take_append_drop]⟩
  · rintro ⟨u, t, h⟩
    exact ⟨u.length, t, by rw [← h, List.append_assoc, List.drop_left]⟩

/-- The element at the start of an occurrence is the first one of the pattern. -/
theorem OccursAt.getElem?_eq {a : α} {as : List α} (h : OccursAt (a :: as) s i) :
    s[i]? = some a := by
  obtain ⟨t, ht⟩ := h
  have := congrArg (·[0]?) ht
  simpa using this.symm

theorem FirstAt.unique {j : ℕ} (hi : FirstAt pat s i) (hj : FirstAt pat s j) : i = j := by
  rcases Nat.lt_trichotomy i j with h | h | h
  · exact absurd hi.1 (hj.2 i h)
  · exact h
  · exact absurd hj.1 (hi.2 j h)

/-- Cutting off `k` elements before which nothing occurs. -/
theorem firstAt_drop_iff (h : ∀ j < k, ¬ OccursAt pat s j) :
    FirstAt pat (s.drop k) i ↔ FirstAt pat s (k + i) := by
  constructor
  · rintro ⟨hi, hmin⟩
    refine ⟨occursAt_drop.1 hi, fun j hj hocc => ?_⟩
    by_cases hjk : j < k
    · exact h j hjk hocc
    · refine hmin (j - k) (by omega) (occursAt_drop.2 ?_)
      rwa [show k + (j - k) = j by omega]
  · rintro ⟨hi, hmin⟩
    exact ⟨occursAt_drop.2 hi, fun j hj hocc => hmin (k + j) (by omega) (occursAt_drop.1 hocc)⟩

theorem FirstAt.le_of_forall_not (hi : FirstAt pat s i) (h : ∀ j < k, ¬ OccursAt pat s j) :
    k ≤ i := by
  by_contra hlt
  exact h i (by omega) hi.1

/-- Two lists that agree from some position on, with no occurrence before it: what occurs first in
one occurs first in the other. -/
theorem FirstAt.transfer {s' : List α} {k' : ℕ} (hi : FirstAt pat s' i)
    (hs : ∀ j < k, ¬ OccursAt pat s j) (hs' : ∀ j < k', ¬ OccursAt pat s' j)
    (h : s.drop k = s'.drop k') :
    ∃ j, FirstAt pat s j ∧ s.drop j = s'.drop i ∧ j + k' = i + k := by
  have hle := hi.le_of_forall_not hs'
  have hi' : FirstAt pat (s'.drop k') (i - k') := by
    rw [firstAt_drop_iff hs', show k' + (i - k') = i by omega]
    exact hi
  rw [← h, firstAt_drop_iff hs] at hi'
  refine ⟨k + (i - k'), hi', ?_, by omega⟩
  rw [← List.drop_drop, h, List.drop_drop, show k' + (i - k') = i by omega]

theorem not_occursAt_transfer {s' : List α} {k' : ℕ} (hnone : ¬ ∃ i, OccursAt pat s' i)
    (hs : ∀ j < k, ¬ OccursAt pat s j) (h : s.drop k = s'.drop k') : ¬ ∃ i, OccursAt pat s i := by
  rintro ⟨i, hi⟩
  by_cases hik : i < k
  · exact hs i hik hi
  · refine hnone ⟨k' + (i - k), occursAt_drop.1 ?_⟩
    rw [← h]
    refine occursAt_drop.2 ?_
    rwa [show k + (i - k) = i by omega]

end Foundations

import WpiUtil.Foundations.Search

/-!
# Pieces between separators

A text that is cut at a separator, from the left and possibly only so many times. The separator is a
list of any length, so its occurrences may overlap, and a piece ends where the first one starts.
-/

namespace Foundations

variable {α : Type*} {sep text p q x y : List α} {ps qs : List (List α)} {limit : ℤ}

/-- The separator does not occur before the end of `p` when it follows `p`. -/
def EndsAtFirst (sep p : List α) : Prop := FirstAt sep (p ++ sep) p.length

/-- `ps` are the pieces of `text`, which is cut at most `limit` times if that is not negative. -/
structure Pieces (sep text : List α) (limit : ℤ) (ps : List (List α)) : Prop where
  ne_nil : ps ≠ []
  join : sep.intercalate ps = text
  first : ∀ p ∈ ps.dropLast, EndsAtFirst sep p
  length_le : 0 ≤ limit → (ps.length : ℤ) ≤ limit + 1
  /-- The last piece is not cut only because it cannot be, or because the limit has been reached. -/
  last : ∀ p, ps.getLast? = some p → limit < 0 ∨ (ps.length : ℤ) ≤ limit → ¬∃ i, OccursAt sep p i

theorem occursAt_append_left {i : ℕ} (h : i + sep.length ≤ x.length) :
    OccursAt sep (x ++ y) i ↔ OccursAt sep x i := by
  rw [occursAt_iff_take_drop, occursAt_iff_take_drop, List.drop_append_of_le_length (by omega),
    List.take_append_of_le_length (by rw [List.length_drop]; omega)]

/-- Whatever follows the separator. -/
theorem endsAtFirst_iff : EndsAtFirst sep p ↔ FirstAt sep (p ++ sep ++ y) p.length := by
  constructor
  · rintro ⟨hocc, hmin⟩
    refine ⟨(occursAt_append_left (by simp)).2 hocc, fun j hj h => hmin j hj ?_⟩
    exact (occursAt_append_left (by rw [List.length_append]; omega)).1 h
  · rintro ⟨hocc, hmin⟩
    refine ⟨(occursAt_append_left (by simp)).1 hocc, fun j hj h => hmin j hj ?_⟩
    exact (occursAt_append_left (by rw [List.length_append]; omega)).2 h

/-- A text that is not cut. -/
theorem pieces_singleton (h : limit ≠ 0 → ¬∃ i, OccursAt sep text i) :
    Pieces sep text limit [text] where
  ne_nil := List.cons_ne_nil _ _
  join := List.intercalate_singleton
  first p hp := by cases hp
  length_le hlimit := by
    rw [List.length_singleton]
    omega
  last p hp hlt := by
    obtain rfl : text = p := by simpa using hp
    rw [List.length_singleton] at hlt
    exact h (by omega)

/-- One cut. -/
theorem Pieces.cons (h : Pieces sep y (limit - 1) ps) (hlimit : limit ≠ 0)
    (hp : EndsAtFirst sep p) : Pieces sep (p ++ sep ++ y) limit (p :: ps) where
  ne_nil := List.cons_ne_nil _ _
  join := by rw [List.intercalate_cons_of_ne_nil h.ne_nil, h.join]
  first q hq := by
    rw [List.dropLast_cons_of_ne_nil h.ne_nil] at hq
    rcases List.mem_cons.1 hq with rfl | hq
    · exact hp
    · exact h.first q hq
  length_le hle := by
    have := h.length_le
    rw [List.length_cons]
    omega
  last q hq hlt := by
    obtain ⟨r, rs, rfl⟩ := List.exists_cons_of_ne_nil h.ne_nil
    rw [List.getLast?_cons_cons] at hq
    rw [List.length_cons] at hlt
    exact h.last q hq (by omega)

/-- The first of several pieces. -/
theorem Pieces.of_cons (h : Pieces sep text limit (p :: ps)) (hps : ps ≠ []) :
    EndsAtFirst sep p ∧ limit ≠ 0 ∧ ∃ y, text = p ++ sep ++ y ∧ Pieces sep y (limit - 1) ps := by
  have hpos := List.length_pos_iff.2 hps
  have hlimit : limit ≠ 0 := by
    rintro rfl
    have := h.length_le (Int.le_refl _)
    rw [List.length_cons] at this
    omega
  refine ⟨?_, hlimit, sep.intercalate ps, ?_, hps, rfl, ?_, ?_, ?_⟩
  · refine h.first p ?_
    rw [List.dropLast_cons_of_ne_nil hps]
    exact List.mem_cons_self
  · rw [← h.join, List.intercalate_cons_of_ne_nil hps]
  · intro q hq
    refine h.first q ?_
    rw [List.dropLast_cons_of_ne_nil hps]
    exact List.mem_cons_of_mem _ hq
  · intro hle
    have := h.length_le (by omega)
    rw [List.length_cons] at this
    omega
  · intro q hq hlt
    obtain ⟨r, rs, rfl⟩ := List.exists_cons_of_ne_nil hps
    refine h.last q (by rw [List.getLast?_cons_cons, hq]) ?_
    rw [List.length_cons]
    omega

theorem Pieces.eq_of_singleton (h : Pieces sep text limit [p]) :
    p = text ∧ (limit ≠ 0 → ¬∃ i, OccursAt sep text i) := by
  have hjoin := h.join
  rw [List.intercalate_singleton] at hjoin
  subst hjoin
  refine ⟨rfl, fun hlimit => h.last p rfl ?_⟩
  have := h.length_le
  rw [List.length_singleton] at this ⊢
  omega

/-- A text that can be cut has no other pieces than those that start with the first cut. -/
theorem Pieces.exists_cons (h : Pieces sep (p ++ sep ++ y) limit ps) (hp : EndsAtFirst sep p)
    (hlimit : limit ≠ 0) : ∃ qs, ps = p :: qs ∧ Pieces sep y (limit - 1) qs := by
  obtain ⟨q, qs, rfl⟩ := List.exists_cons_of_ne_nil h.ne_nil
  by_cases hqs : qs = []
  · subst hqs
    exact absurd ⟨p.length, (endsAtFirst_iff.1 hp).1⟩ (h.eq_of_singleton.2 hlimit)
  · obtain ⟨hq, -, z, htext, hrest⟩ := h.of_cons hqs
    have hlength : p.length = q.length :=
      (endsAtFirst_iff.1 hp).unique (htext ▸ endsAtFirst_iff.1 hq)
    rw [List.append_assoc, List.append_assoc] at htext
    obtain ⟨rfl, hrests⟩ := List.append_inj htext hlength
    rw [← List.append_cancel_left hrests] at hrest
    exact ⟨qs, rfl, hrest⟩

/-- A text has only one way to be cut. -/
theorem Pieces.unique (h : Pieces sep text limit ps) (h' : Pieces sep text limit qs) : ps = qs := by
  induction ps generalizing text limit qs with
  | nil => exact absurd rfl h.ne_nil
  | cons p ps ih =>
    by_cases hps : ps = []
    · subst hps
      obtain ⟨rfl, hnone⟩ := h.eq_of_singleton
      obtain ⟨q, qs, rfl⟩ := List.exists_cons_of_ne_nil h'.ne_nil
      by_cases hqs : qs = []
      · subst hqs
        rw [h'.eq_of_singleton.1]
      · obtain ⟨hq, hlimit, y, rfl, -⟩ := h'.of_cons hqs
        exact absurd ⟨q.length, (endsAtFirst_iff.1 hq).1⟩ (hnone hlimit)
    · obtain ⟨hp, hlimit, y, rfl, hrest⟩ := h.of_cons hps
      obtain ⟨qs, rfl, hrest'⟩ := h'.exists_cons hp hlimit
      rw [ih hrest hrest']

end Foundations

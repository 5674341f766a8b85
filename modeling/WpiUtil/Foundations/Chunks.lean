import Mathlib.Data.List.Basic
import Mathlib.Tactic.Common

/-!
# Chunks

A list cut into chunks of one length, as a reader with a bounded buffer sees it.
-/

namespace Foundations

variable {α : Type*}

/-- The list in chunks of `n`, the last of which may be shorter. -/
def chunks (n : ℕ) (w : List α) : List (List α) :=
  if n = 0 ∨ w = [] then [] else w.take n :: chunks n (w.drop n)
termination_by w.length
decreasing_by
  rename_i h
  push Not at h
  have hlength := List.length_pos_iff.2 h.2
  rw [List.length_drop]
  omega

@[simp] theorem chunks_nil (n : ℕ) : chunks n ([] : List α) = [] := by
  rw [chunks, if_pos (Or.inr rfl)]

theorem chunks_of_ne_nil {n : ℕ} (hn : n ≠ 0) {w : List α} (hw : w ≠ []) :
    chunks n w = w.take n :: chunks n (w.drop n) := by
  rw [chunks, if_neg (not_or.2 ⟨hn, hw⟩)]

/-- What holds of the list holds of what is left of it after the first chunk. -/
theorem chunks_induction {n : ℕ} (hn : n ≠ 0) {P : List α → Prop} (nil : P [])
    (step : ∀ w, w ≠ [] → P (w.drop n) → P w) (w : List α) : P w := by
  induction h : w.length using Nat.strongRecOn generalizing w with
  | ind length ih =>
    by_cases hw : w = []
    · rw [hw]
      exact nil
    · have hlength := List.length_pos_iff.2 hw
      refine step w hw (ih (w.drop n).length ?_ _ rfl)
      rw [List.length_drop]
      omega

theorem flatten_chunks {n : ℕ} (hn : n ≠ 0) (w : List α) : (chunks n w).flatten = w := by
  induction w using chunks_induction hn with
  | nil => rw [chunks_nil, List.flatten_nil]
  | step w hw ih => rw [chunks_of_ne_nil hn hw, List.flatten_cons, ih, List.take_append_drop]

/-- Full chunks stay as they are, in front of anything. -/
theorem chunks_flatten_append {n : ℕ} (hn : n ≠ 0) {ps : List (List α)}
    (hps : ∀ p ∈ ps, p.length = n) (w : List α) : chunks n (ps.flatten ++ w) = ps ++ chunks n w := by
  induction ps with
  | nil => rfl
  | cons p ps ih =>
    rw [List.forall_mem_cons] at hps
    have hne : p ++ (ps.flatten ++ w) ≠ [] := by
      apply List.append_ne_nil_of_left_ne_nil
      rintro rfl
      exact hn hps.1.symm
    rw [List.flatten_cons, List.append_assoc, chunks_of_ne_nil hn hne, ← hps.1, List.take_left,
      List.drop_left, hps.1, ih hps.2, List.cons_append]

/-- Every list is full chunks and a rest that is shorter. -/
theorem exists_full_chunks {n : ℕ} (hn : n ≠ 0) (w : List α) :
    ∃ (ps : List (List α)) (rest : List α), w = ps.flatten ++ rest ∧
      (∀ p ∈ ps, p.length = n) ∧ rest.length < n := by
  induction w using chunks_induction hn with
  | nil => exact ⟨[], [], rfl, (fun _ hp => nomatch hp), Nat.pos_of_ne_zero hn⟩
  | step w hw ih =>
    rcases Nat.lt_or_ge w.length n with hshort | hlong
    · exact ⟨[], w, rfl, (fun _ hp => nomatch hp), hshort⟩
    · obtain ⟨ps, rest, hdrop, hps, hrest⟩ := ih
      refine ⟨w.take n :: ps, rest, ?_, ?_, hrest⟩
      · rw [List.flatten_cons, List.append_assoc, ← hdrop, List.take_append_drop]
      · rw [List.forall_mem_cons, List.length_take]
        exact ⟨Nat.min_eq_left hlong, hps⟩

theorem length_flatten_of_full {n : ℕ} {ps : List (List α)} (hps : ∀ p ∈ ps, p.length = n) :
    ps.flatten.length = n * ps.length := by
  induction ps with
  | nil => rfl
  | cons p ps ih =>
    rw [List.forall_mem_cons] at hps
    rw [List.flatten_cons, List.length_append, hps.1, ih hps.2, List.length_cons, Nat.mul_succ,
      Nat.add_comm]

/-- A list that ends with a full chunk can be cut there. -/
theorem chunks_append {n : ℕ} (hn : n ≠ 0) {v : List α} (hv : n ∣ v.length) (w : List α) :
    chunks n (v ++ w) = chunks n v ++ chunks n w := by
  obtain ⟨ps, rest, rfl, hps, hrest⟩ := exists_full_chunks hn v
  have hnil : rest = [] := by
    rw [List.length_append, length_flatten_of_full hps] at hv
    have hdvd := (Nat.dvd_add_right (Nat.dvd_mul_right n ps.length)).1 hv
    exact List.length_eq_zero_iff.1 (Nat.eq_zero_of_dvd_of_lt hdvd hrest)
  have hflatten := chunks_flatten_append hn hps
  rw [hnil, List.append_nil, hflatten]
  have hself := hflatten []
  rw [List.append_nil, chunks_nil, List.append_nil] at hself
  rw [hself]

theorem getElem?_chunks {n : ℕ} (hn : n ≠ 0) (w : List α) (i : ℕ) :
    (chunks n w)[i]? = if n * i < w.length then some ((w.drop (n * i)).take n) else none := by
  induction i generalizing w with
  | zero =>
    by_cases hw : w = []
    · rw [hw, chunks_nil]
      rfl
    · rw [chunks_of_ne_nil hn hw, Nat.mul_zero, if_pos (List.length_pos_iff.2 hw)]
      rfl
  | succ i ih =>
    by_cases hw : w = []
    · rw [hw, chunks_nil]
      rfl
    · rw [chunks_of_ne_nil hn hw, List.getElem?_cons_succ, ih, List.length_drop, List.drop_drop,
        Nat.mul_succ, Nat.add_comm n]
      by_cases hlt : n * i < w.length - n
      · rw [if_pos hlt, if_pos (by omega)]
      · rw [if_neg hlt, if_neg (by omega)]

/-- A list that fits is one chunk. -/
theorem chunks_of_length_le {n : ℕ} {w : List α} (hw : w ≠ []) (h : w.length ≤ n) :
    chunks n w = [w] := by
  have hlength := List.length_pos_iff.2 hw
  rw [chunks_of_ne_nil (by omega) hw, List.take_of_length_le h, List.drop_of_length_le h,
    chunks_nil]

/-- A chunk of a list with an end mark is full, or it is the one with the mark. -/
theorem mem_chunks_append_singleton {n : ℕ} (hn : n ≠ 0) {w p : List α} {mark : α}
    (hp : p ∈ chunks n (w ++ [mark])) :
    (p.length = n ∧ ∀ c ∈ p, c ∈ w) ∨
      ∃ q, p = q ++ [mark] ∧ q.length + 1 ≤ n ∧ ∀ c ∈ q, c ∈ w := by
  induction h : w.length using Nat.strongRecOn generalizing w with
  | ind length ih =>
    by_cases hle : w.length + 1 ≤ n
    · rw [chunks_of_length_le (by simp) (by simpa using hle), List.mem_singleton] at hp
      exact Or.inr ⟨w, hp, hle, fun c hc => hc⟩
    · have htake : n ≤ w.length := by omega
      rw [chunks_of_ne_nil hn (by simp), List.mem_cons, List.take_append_of_le_length htake,
        List.drop_append_of_le_length htake] at hp
      rcases hp with rfl | hp
      · refine Or.inl ⟨by rw [List.length_take]; omega, fun c hc => List.mem_of_mem_take hc⟩
      · have hdrop : ∀ c ∈ w.drop n, c ∈ w := fun c hc => List.mem_of_mem_drop hc
        rcases ih (w.drop n).length (by rw [List.length_drop]; omega) hp rfl with
          ⟨hfull, hmem⟩ | ⟨q, hq, hlength, hmem⟩
        · exact Or.inl ⟨hfull, fun c hc => hdrop c (hmem c hc)⟩
        · exact Or.inr ⟨q, hq, hlength, fun c hc => hdrop c (hmem c hc)⟩

/-- There are no more chunks than there are elements. -/
theorem length_le_length_flatten {ps : List (List α)} (h : ∀ p ∈ ps, p ≠ []) :
    ps.length ≤ ps.flatten.length := by
  induction ps with
  | nil => exact Nat.zero_le _
  | cons p ps ih =>
    rw [List.forall_mem_cons] at h
    have hlength := List.length_pos_iff.2 h.1
    have hrest := ih h.2
    rw [List.flatten_cons, List.length_append, List.length_cons]
    omega

end Foundations

import Mathlib.Tactic.Common
import WpiUtil.Foundations.Loop
import WpiUtil.Foundations.Occurrence

/-!
# Searching

The first and the last position with a property, and searches for a pattern that lay it on the text
and move it on by a number of places that depends on the element under the last one of the pattern.
When no skip goes past an occurrence, such a search finds the first one.
-/

namespace Foundations

/-! ## The first and the last position -/

/-- The first position at `start` or later where `P` holds, `none` if there is none. -/
def FirstFrom (P : ℕ → Prop) (start : ℕ) : Option ℕ → Prop
  | none => ∀ i, start ≤ i → ¬P i
  | some i => start ≤ i ∧ P i ∧ ∀ j, start ≤ j → j < i → ¬P j

/-- The last position before `stop` where `P` holds, `none` if there is none. -/
def LastBefore (P : ℕ → Prop) (stop : ℕ) : Option ℕ → Prop
  | none => ∀ i, i < stop → ¬P i
  | some i => i < stop ∧ P i ∧ ∀ j, i < j → j < stop → ¬P j

variable {P Q : ℕ → Prop} {start next stop : ℕ} {r : Option ℕ}

/-- Nothing is found at the places that are left out. -/
theorem FirstFrom.of_le (h : FirstFrom P next r) (hle : start ≤ next)
    (hnone : ∀ i, start ≤ i → i < next → ¬P i) : FirstFrom P start r := by
  cases r with
  | none =>
    intro i hi
    by_cases hlt : i < next
    · exact hnone i hi hlt
    · exact h i (Nat.not_lt.1 hlt)
  | some i =>
    obtain ⟨hi, hP, hbefore⟩ := h
    refine ⟨Nat.le_trans hle hi, hP, fun j hj hji => ?_⟩
    by_cases hlt : j < next
    · exact hnone j hj hlt
    · exact hbefore j (Nat.not_lt.1 hlt) hji

theorem FirstFrom.congr (h : FirstFrom P start r) (heq : ∀ i, P i ↔ Q i) : FirstFrom Q start r := by
  cases r with
  | none => exact fun i hi => mt (heq i).2 (h i hi)
  | some i =>
    obtain ⟨hi, hP, hbefore⟩ := h
    exact ⟨hi, (heq i).1 hP, fun j hj hji => mt (heq j).2 (hbefore j hj hji)⟩

theorem LastBefore.of_le (h : LastBefore P next r) (hle : next ≤ stop)
    (hnone : ∀ i, next ≤ i → i < stop → ¬P i) : LastBefore P stop r := by
  cases r with
  | none =>
    intro i hi
    by_cases hlt : i < next
    · exact h i hlt
    · exact hnone i (Nat.not_lt.1 hlt) hi
  | some i =>
    obtain ⟨hi, hP, hafter⟩ := h
    refine ⟨Nat.lt_of_lt_of_le hi hle, hP, fun j hij hj => ?_⟩
    by_cases hlt : j < next
    · exact hafter j hij hlt
    · exact hnone j (Nat.not_lt.1 hlt) hj

theorem LastBefore.congr (h : LastBefore P stop r) (heq : ∀ i < stop, (P i ↔ Q i)) :
    LastBefore Q stop r := by
  cases r with
  | none => exact fun i hi => mt (heq i hi).2 (h i hi)
  | some i =>
    obtain ⟨hi, hP, hafter⟩ := h
    exact ⟨hi, (heq i hi).1 hP, fun j hij hj => mt (heq j hj).2 (hafter j hij hj)⟩

/-- The loop that looks at the positions below `stop`, from the last one on. -/
def lastBelow (p : ℕ → Bool) : ℕ → Option ℕ
  | 0 => none
  | i + 1 => if p i then some i else lastBelow p i

theorem lastBelow_spec (p : ℕ → Bool) (stop : ℕ) :
    LastBefore (fun i => p i = true) stop (lastBelow p stop) := by
  induction stop with
  | zero => exact fun i hi => absurd hi (Nat.not_lt_zero i)
  | succ i ih =>
    rw [lastBelow]
    split
    · next hp =>
      exact ⟨Nat.lt_succ_self i, hp, fun j hij hj =>
        absurd hij (Nat.not_lt.2 (Nat.le_of_lt_succ hj))⟩
    · next hp =>
      refine ih.of_le (Nat.le_succ i) fun j hij hj => ?_
      rwa [Nat.le_antisymm (Nat.le_of_lt_succ hj) hij]

/-! ## Occurrences -/

variable {α : Type*} {pat text : List α} {i : ℕ}

/-- The pattern occurs in the text at position `i`, which is one of the text. -/
def OccursIn (pat text : List α) (i : ℕ) : Prop := i ≤ text.length ∧ OccursAt pat text i

theorem OccursAt.take_drop (h : OccursAt pat text i) : (text.drop i).take pat.length = pat :=
  List.prefix_iff_eq_take.1 h |>.symm

theorem occursAt_iff_take_drop : OccursAt pat text i ↔ (text.drop i).take pat.length = pat := by
  refine ⟨OccursAt.take_drop, fun h => ?_⟩
  rw [OccursAt, ← h]
  exact List.take_prefix _ _

theorem OccursAt.getElem?_add (h : OccursAt pat text i) {k : ℕ} (hk : k < pat.length) :
    text[i + k]? = pat[k]? := by
  have hsame := congrArg (·[k]?) h.take_drop
  rwa [List.getElem?_take_of_lt hk, List.getElem?_drop] at hsame

theorem OccursIn.le_length (h : OccursIn pat text i) : i + pat.length ≤ text.length := by
  have hlen := h.2.length_le
  have hi := h.1
  rw [List.length_drop] at hlen
  omega

theorem occursIn_iff_take_drop (h : i ≤ text.length) :
    OccursIn pat text i ↔ (text.drop i).take pat.length = pat :=
  (and_iff_right h).trans occursAt_iff_take_drop

/-! ## Skips -/

/-- An element that is skipped by `k` places is none of the last ones of the pattern before its end,
up to the one `k` places from it. -/
structure SafeSkip (pat : List α) (skip : α → ℕ) : Prop where
  pos : ∀ c, 0 < skip c
  le_length : ∀ c, skip c ≤ pat.length
  ne : ∀ c j, j + 1 < pat.length → pat[j]? = some c → skip c ≤ pat.length - 1 - j

/-- No occurrence is skipped. -/
theorem SafeSkip.not_occursIn {skip : α → ℕ} (hskip : SafeSkip pat skip) {c : α}
    (hlast : text[start + (pat.length - 1)]? = some c) (hlt : start < i)
    (hskipped : i < start + skip c) : ¬OccursIn pat text i := by
  intro hocc
  have hle := hskip.le_length c
  obtain ⟨k, rfl⟩ := Nat.exists_eq_add_of_lt hlt
  -- the element lies over the pattern at its new place, too
  have hplace : pat[pat.length - 1 - (k + 1)]? = some c := by
    rw [← hocc.2.getElem?_add (by omega), ← hlast]
    congr 1
    omega
  have hne := hskip.ne c _ (by omega) hplace
  omega

/-- Moving on by one place is always safe. -/
theorem safeSkip_one (hpat : pat ≠ []) : SafeSkip pat fun _ => 1 :=
  have hpos := List.length_pos_iff.2 hpat
  ⟨fun _ => Nat.one_pos, fun _ => hpos, fun _ _ hj _ => by omega⟩

variable [DecidableEq α]

/-- One turn of the search: the pattern lies at `start`, and the loop ends at `stop`. -/
def slide (pat text : List α) (skip : α → ℕ) (stop start : ℕ) : Option ℕ ⊕ ℕ :=
  if (text.drop start).take pat.length = pat then .inl (some start)
  else
    let next := start + (text[start + (pat.length - 1)]?.map skip).getD 1
    if next < stop then .inr next else .inl none

variable {skip : α → ℕ}

/-- What a turn does, for a safe skip: nothing occurs at the places that it goes past. -/
theorem slide_spec (hpat : pat ≠ []) (hskip : SafeSkip pat skip)
    (hstop : stop + pat.length = text.length + 1) (hstart : start < stop) :
    slide pat text skip stop start = .inl (some start) ∧ OccursIn pat text start ∨
      ∃ next, start < next ∧ (∀ i, start ≤ i → i < next → ¬OccursIn pat text i) ∧
        slide pat text skip stop start = if next < stop then .inr next else .inl none := by
  have hpos := List.length_pos_iff.2 hpat
  by_cases hocc : OccursIn pat text start
  · exact Or.inl ⟨if_pos hocc.2.take_drop, hocc⟩
  · have hlt : start + (pat.length - 1) < text.length := by omega
    have hlast : text[start + (pat.length - 1)]? = some text[start + (pat.length - 1)] :=
      List.getElem?_eq_getElem hlt
    refine Or.inr ⟨start + skip text[start + (pat.length - 1)], ?_, ?_, ?_⟩
    · have := hskip.pos text[start + (pat.length - 1)]
      omega
    · intro i hi hnext
      rcases Nat.eq_or_lt_of_le hi with rfl | hi
      · exact hocc
      · exact hskip.not_occursIn hlast hi hnext
    · rw [slide, if_neg fun h => hocc ((occursIn_iff_take_drop (by omega)).2 h), hlast,
        Option.map_some, Option.getD_some]

/-- The search ends, and finds the first occurrence. -/
theorem run_slide (hpat : pat ≠ []) (hskip : SafeSkip pat skip)
    (hstop : stop + pat.length = text.length + 1) (hstart : start < stop) {turns : ℕ}
    (hturns : stop ≤ start + turns) :
    ∃ r, Loop.run (slide pat text skip stop) turns start = some r ∧
      FirstFrom (OccursIn pat text) start r := by
  induction turns generalizing start with
  | zero => omega
  | succ turns ih =>
    rcases slide_spec hpat hskip hstop hstart with ⟨hturn, hocc⟩ | ⟨next, hlt, hnone, hturn⟩
    · refine ⟨some start, Loop.run_of_inl hturn, Nat.le_refl _, hocc, fun j hj hlt => ?_⟩
      omega
    · by_cases hnext : next < stop
      · rw [if_pos hnext] at hturn
        obtain ⟨r, hrun, hfirst⟩ := ih hnext (by omega)
        exact ⟨r, by rw [Loop.run_of_inr hturn, hrun], hfirst.of_le (Nat.le_of_lt hlt) hnone⟩
      · rw [if_neg hnext] at hturn
        refine ⟨none, Loop.run_of_inl hturn, fun i hi hocc => ?_⟩
        by_cases hi' : i < next
        · exact hnone i hi hi' hocc
        · have := hocc.le_length
          omega

end Foundations

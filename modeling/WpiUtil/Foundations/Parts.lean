import Mathlib.Data.List.Basic
import Mathlib.Tactic.Common

/-!
# Parts of values

Values whose parts are reached by steps and can be replaced, and the parts that are reached by a path
of such steps.
-/

namespace Foundations

universe u v

/-- Each step leads to one part of a value, if there is such a part. -/
structure Parts (α : Type u) (ι : Type v) where
  part? : α → ι → Option α
  replace : α → ι → α → α

/-- Neither of two paths continues the other. -/
def Apart {ι : Type v} (p q : List ι) : Prop := ¬p <+: q ∧ ¬q <+: p

theorem Apart.symm {ι : Type v} {p q : List ι} (h : Apart p q) : Apart q p := ⟨h.2, h.1⟩

theorem not_apart_nil {ι : Type v} (p : List ι) : ¬Apart [] p := fun h => h.1 p.nil_prefix

theorem apart_cons_iff {ι : Type v} {i j : ι} {p q : List ι} :
    Apart (i :: p) (j :: q) ↔ (i = j → Apart p q) := by
  rw [Apart, Apart, List.cons_prefix_cons, List.cons_prefix_cons]
  by_cases hij : i = j
  · simp [hij]
  · simp [hij, Ne.symm hij]

namespace Parts

variable {α : Type u} {ι : Type v} {P : Parts α ι} {V : α → Prop}

/-- On values that are `V`, the part that is put in is found where it was put, and all other parts
stay. -/
structure Lawful (P : Parts α ι) (V : α → Prop) : Prop where
  valid_part : ∀ {a i b}, V a → P.part? a i = some b → V b
  valid_replace : ∀ {a i b c}, V a → P.part? a i = some b → V c → V (P.replace a i c)
  part?_replace_self : ∀ {a i b}, V a → P.part? a i = some b → ∀ c,
    P.part? (P.replace a i c) i = some c
  part?_replace_of_ne : ∀ {a i b j}, V a → P.part? a i = some b → j ≠ i → ∀ c,
    P.part? (P.replace a i c) j = P.part? a j
  replace_self : ∀ {a i b}, V a → P.part? a i = some b → P.replace a i b = a
  replace_replace : ∀ {a i b}, V a → P.part? a i = some b → ∀ c d,
    P.replace (P.replace a i c) i d = P.replace a i d

/-- The part at the end of a path. -/
def get? (P : Parts α ι) : List ι → α → Option α
  | [], a => some a
  | i :: p, a => (P.part? a i).bind (P.get? p)

/-- The value after the part at the end of a path has become `c`. -/
def put (P : Parts α ι) : List ι → α → α → α
  | [], _, c => c
  | i :: p, a, c =>
    match P.part? a i with
    | none => a
    | some b => P.replace a i (P.put p b c)

theorem get?_cons_eq_some_iff {i : ι} {p : List ι} {a c : α} :
    P.get? (i :: p) a = some c ↔ ∃ b, P.part? a i = some b ∧ P.get? p b = some c :=
  Option.bind_eq_some_iff

theorem put_cons {i : ι} {p : List ι} {a b : α} (h : P.part? a i = some b) (c : α) :
    P.put (i :: p) a c = P.replace a i (P.put p b c) := by
  rw [put, h]

namespace Lawful

variable (hP : P.Lawful V) {p q : List ι} {a b : α}
include hP

theorem valid_put (ha : V a) (h : P.get? p a = some b) {c : α} (hc : V c) : V (P.put p a c) := by
  induction p generalizing a with
  | nil => exact hc
  | cons i p ih =>
    obtain ⟨d, hd, hb⟩ := get?_cons_eq_some_iff.1 h
    rw [put_cons hd]
    exact hP.valid_replace ha hd (ih (hP.valid_part ha hd) hb)

/-- The part that is there is put in. -/
theorem put_self (ha : V a) (h : P.get? p a = some b) : P.put p a b = a := by
  induction p generalizing a with
  | nil =>
    cases h
    rfl
  | cons i p ih =>
    obtain ⟨d, hd, hb⟩ := get?_cons_eq_some_iff.1 h
    rw [put_cons hd, ih (hP.valid_part ha hd) hb, hP.replace_self ha hd]

theorem get?_put_self (ha : V a) (h : P.get? p a = some b) (c : α) :
    P.get? p (P.put p a c) = some c := by
  induction p generalizing a with
  | nil => rfl
  | cons i p ih =>
    obtain ⟨d, hd, hb⟩ := get?_cons_eq_some_iff.1 h
    rw [put_cons hd, get?, hP.part?_replace_self ha hd, Option.bind_some]
    exact ih (hP.valid_part ha hd) hb

/-- What is put in is not seen from elsewhere. -/
theorem get?_put_of_apart (ha : V a) (h : P.get? p a = some b) (hpq : Apart p q) (c : α) :
    P.get? q (P.put p a c) = P.get? q a := by
  induction p generalizing a q with
  | nil => exact absurd hpq (not_apart_nil q)
  | cons i p ih =>
    obtain ⟨d, hd, hb⟩ := get?_cons_eq_some_iff.1 h
    cases q with
    | nil => exact absurd hpq.symm (not_apart_nil _)
    | cons j q =>
      rw [put_cons hd, get?, get?]
      by_cases hij : j = i
      · subst hij
        rw [hP.part?_replace_self ha hd, hd, Option.bind_some, Option.bind_some]
        exact ih (hP.valid_part ha hd) hb (apart_cons_iff.1 hpq rfl)
      · rw [hP.part?_replace_of_ne ha hd hij]

end Lawful

end Parts

end Foundations

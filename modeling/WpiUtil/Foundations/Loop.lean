import Mathlib.Logic.Relation
import Mathlib.Tactic.Common

/-!
# Loops

A loop that need not end is given by its body, which in each turn either leaves the loop with a
result or goes on with another state.
-/

namespace Foundations.Loop

universe u v

variable {σ : Type u} {ρ : Type v}

/-- The result of the loop, if it is left within so many turns. -/
def run (body : σ → ρ ⊕ σ) : ℕ → σ → Option ρ
  | 0, _ => none
  | fuel + 1, s =>
    match body s with
    | .inl r => some r
    | .inr t => run body fuel t

/-- The states at the start of a turn. -/
def Reaches (body : σ → ρ ⊕ σ) : σ → σ → Prop :=
  Relation.ReflTransGen fun s t => body s = .inr t

variable {body : σ → ρ ⊕ σ} {I : σ → Prop} {s t : σ} {r : ρ} {fuel : ℕ}

theorem run_of_inl (h : body s = .inl r) : run body (fuel + 1) s = some r := by
  rw [run, h]

theorem run_of_inr (h : body s = .inr t) : run body (fuel + 1) s = run body fuel t := by
  rw [run, h]

/-- What every turn keeps holds at the start of each turn. -/
theorem Reaches.invariant (h : Reaches body s t) (hI : ∀ {s t}, I s → body s = .inr t → I t)
    (hs : I s) : I t := by
  induction h with
  | refl => exact hs
  | tail _ hturn ih => exact hI ih hturn

/-- A loop is left when every turn that goes on makes the variant smaller. -/
theorem exists_run_eq (variant : σ → ℕ) (hI : ∀ {s t}, I s → body s = .inr t → I t)
    (hvariant : ∀ {s t}, I s → body s = .inr t → variant t < variant s) (hs : I s) :
    ∃ r, ∀ fuel, variant s < fuel → run body fuel s = some r := by
  induction hn : variant s using Nat.strongRecOn generalizing s with
  | ind n ih =>
    subst hn
    cases hbody : body s with
    | inl r =>
      refine ⟨r, fun fuel hfuel => ?_⟩
      obtain ⟨fuel, rfl⟩ := Nat.exists_eq_add_one.2 (Nat.zero_lt_of_lt hfuel)
      exact run_of_inl hbody
    | inr t =>
      have hlt := hvariant hs hbody
      obtain ⟨r, hr⟩ := ih (variant t) hlt (hI hs hbody) rfl
      refine ⟨r, fun fuel hfuel => ?_⟩
      obtain ⟨fuel, rfl⟩ := Nat.exists_eq_add_one.2 (Nat.zero_lt_of_lt hfuel)
      rw [run_of_inr hbody]
      exact hr fuel (by omega)

/-- The last turn of a loop. -/
theorem exists_of_run_eq_some (h : run body fuel s = some r) :
    ∃ t, Reaches body s t ∧ body t = .inl r := by
  induction fuel generalizing s with
  | zero => cases h
  | succ fuel ih =>
    cases hbody : body s with
    | inl r' =>
      rw [run_of_inl hbody, Option.some.injEq] at h
      subst h
      exact ⟨s, .refl, hbody⟩
    | inr t =>
      rw [run_of_inr hbody] at h
      obtain ⟨u, hreaches, hlast⟩ := ih h
      exact ⟨u, .head hbody hreaches, hlast⟩

/-- A recursion that takes the same turns has the same result. -/
theorem eq_of_run_eq_some {f : ℕ → σ → ρ}
    (hinl : ∀ {fuel s r}, body s = .inl r → f (fuel + 1) s = r)
    (hinr : ∀ {fuel s t}, body s = .inr t → f (fuel + 1) s = f fuel t)
    (h : run body fuel s = some r) : f fuel s = r := by
  induction fuel generalizing s with
  | zero => cases h
  | succ fuel ih =>
    cases hbody : body s with
    | inl r' =>
      rw [run_of_inl hbody, Option.some.injEq] at h
      rw [hinl hbody, h]
    | inr t =>
      rw [run_of_inr hbody] at h
      rw [hinr hbody, ih h]

end Foundations.Loop

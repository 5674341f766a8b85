import WpiUtil.Foundations.Runs

/-!
# Following another run

A computation follows another from a state of its own: it returns what the other returns, the two
states being related again, or it stops with an error that is expected of it.
-/

namespace Foundations

variable {ε S T α β : Type}

/-- What `y` returns from `t` is what `x` returns from `s`, or `x` stops with an error in `E`. -/
def Follows (E : ε → Prop) (R : S → T → Prop) (s : S) (t : T) (x : ExceptT ε (StateM S) α)
    (y : ExceptT ε (StateM T) α) : Prop :=
  ∀ a t', y.run.run t = (.ok a, t') →
    (∃ s', x.run.run s = (.ok a, s') ∧ R s' t') ∨ ∃ e s', x.run.run s = (.error e, s') ∧ E e

variable {E : ε → Prop} {R R' : S → T → Prop} {s : S} {t : T} {x : ExceptT ε (StateM S) α}
  {y : ExceptT ε (StateM T) α}

theorem Follows.mono (h : Follows E R s t x y) (hR : ∀ s' t', R s' t' → R' s' t') :
    Follows E R' s t x y := by
  intro a t' hy
  rcases h a t' hy with ⟨s', hx, hs'⟩ | hstop
  · exact Or.inl ⟨s', hx, hR s' t' hs'⟩
  · exact Or.inr hstop

theorem follows_pure (a : α) (h : R s t) : Follows E R s t (pure a) (pure a) := by
  intro a' t' hy
  cases hy
  exact Or.inl ⟨s, rfl, h⟩

/-- There is nothing to follow. -/
theorem follows_throw (e : ε) : Follows E R s t x (throw e) := by
  intro a t' hy
  cases hy

theorem follows_of_error {e : ε} {s' : S} (hx : x.run.run s = (.error e, s')) (he : E e) :
    Follows E R s t x y := by
  intro a t' _
  exact Or.inr ⟨e, s', hx, he⟩

theorem Follows.bind {f : α → ExceptT ε (StateM S) β} {g : α → ExceptT ε (StateM T) β}
    (h : Follows E R s t x y) (hf : ∀ a s' t', R s' t' → Follows E R' s' t' (f a) (g a)) :
    Follows E R' s t (x >>= f) (y >>= g) := by
  intro b t'' hrun
  obtain ⟨a, t', hy, hg⟩ := exists_of_run_bind hrun
  rcases h a t' hy with ⟨s', hx, hs'⟩ | ⟨e, s', hx, he⟩
  · have hbind : (x >>= f).run.run s = (f a).run.run s' := by
      rw [run_bind, hx]
    rw [hbind]
    exact hf a s' t' hs' b t'' hg
  · refine Or.inr ⟨e, s', ?_, he⟩
    rw [run_bind, hx]

theorem Follows.ite {p : Prop} [Decidable p] {x' : ExceptT ε (StateM S) α}
    {y' : ExceptT ε (StateM T) α} (h : p → Follows E R s t x y)
    (h' : ¬p → Follows E R s t x' y') :
    Follows E R s t (if p then x else x') (if p then y else y') := by
  by_cases hp : p
  · rw [if_pos hp, if_pos hp]
    exact h hp
  · rw [if_neg hp, if_neg hp]
    exact h' hp

end Foundations

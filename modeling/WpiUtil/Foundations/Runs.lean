import Mathlib.Init

/-!
# Runs of stateful computations

Rules for computations that change a state and may stop with an error. `Runs` says what is returned
and what is known of the state afterwards. `Meets` says what is known of the outcome, be it a value
or an error.
-/

namespace Foundations

universe u

variable {ε S α β : Type u}

theorem run_bind (x : ExceptT ε (StateM S) α) (f : α → ExceptT ε (StateM S) β) (s : S) :
    (x >>= f).run.run s = match x.run.run s with
      | (.ok a, s') => (f a).run.run s'
      | (.error e, s') => (.error e, s') := by
  rw [ExceptT.run_bind, StateT.run_bind]
  rcases x.run.run s with ⟨e | a, s'⟩ <;> rfl

/-- A sequence that returns has returned from its first part. -/
theorem exists_of_run_bind {x : ExceptT ε (StateM S) α} {f : α → ExceptT ε (StateM S) β} {b : β}
    {s s' : S} (h : (x >>= f).run.run s = (.ok b, s')) :
    ∃ a t, x.run.run s = (.ok a, t) ∧ (f a).run.run t = (.ok b, s') := by
  rw [run_bind] at h
  rcases hx : x.run.run s with ⟨e | a, t⟩
  · rw [hx] at h
    cases h
  · rw [hx] at h
    exact ⟨a, t, rfl, h⟩

/-- From the states in `P` the computation returns `a`, and leaves a state in `Q`. -/
def Runs (P : S → Prop) (x : ExceptT ε (StateM S) α) (a : α) (Q : S → Prop) : Prop :=
  ∀ s, P s → ∃ s', x.run.run s = (.ok a, s') ∧ Q s'

variable {P Q R P' Q' : S → Prop} {a : α} {b : β}

theorem Runs.bind {x : ExceptT ε (StateM S) α} {f : α → ExceptT ε (StateM S) β}
    (hx : Runs P x a Q) (hf : Runs Q (f a) b R) : Runs P (x >>= f) b R := by
  intro s hs
  obtain ⟨s', hrun, hs'⟩ := hx s hs
  obtain ⟨s'', hrun', hs''⟩ := hf s' hs'
  refine ⟨s'', ?_, hs''⟩
  rw [run_bind, hrun]
  exact hrun'

theorem Runs.mono {x : ExceptT ε (StateM S) α} (h : Runs P x a Q) (hP : ∀ s, P' s → P s)
    (hQ : ∀ s, Q s → Q' s) : Runs P' x a Q' := by
  intro s hs
  obtain ⟨s', hrun, hs'⟩ := h s (hP s hs)
  exact ⟨s', hrun, hQ s' hs'⟩

/-- The computation has no other result. -/
theorem Runs.result {x : ExceptT ε (StateM S) α} (h : Runs P x a Q) {s s' : S} {a' : α} (hs : P s)
    (hrun : x.run.run s = (.ok a', s')) : a' = a ∧ Q s' := by
  obtain ⟨s'', hrun', hs''⟩ := h s hs
  rw [hrun] at hrun'
  cases hrun'
  exact ⟨rfl, hs''⟩

theorem runs_pure (P : S → Prop) (a : α) : Runs P (pure a : ExceptT ε (StateM S) α) a P :=
  fun s hs => ⟨s, rfl, hs⟩

theorem runs_modifyGet {f : S → α × S} (h : ∀ s, P s → (f s).1 = a ∧ Q (f s).2) :
    Runs P (modifyGet f : ExceptT ε (StateM S) α) a Q := by
  intro s hs
  obtain ⟨ha, hQ⟩ := h s hs
  refine ⟨(f s).2, ?_, hQ⟩
  rw [← ha]
  rfl

/-- The state is read. -/
theorem Runs.get {f : S → ExceptT ε (StateM S) α} (h : ∀ s, P s → Runs (· = s) (f s) a Q) :
    Runs P (MonadState.get >>= f) a Q := by
  intro s hs
  exact h s hs s rfl

/-- The state is replaced by another. -/
theorem runs_set {s : S} (h : Q s) : Runs P (set s : ExceptT ε (StateM S) PUnit) ⟨⟩ Q :=
  fun _ _ => ⟨s, rfl, h⟩

/-! ## Any outcome -/

/-- From the state `s` the computation comes to an outcome in `O`. -/
def Meets (s : S) (x : ExceptT ε (StateM S) α) (O : Except ε α → S → Prop) : Prop :=
  O (x.run.run s).1 (x.run.run s).2

variable {s : S} {x : ExceptT ε (StateM S) α} {f : α → ExceptT ε (StateM S) β}
  {O O' : Except ε α → S → Prop} {T : Except ε β → S → Prop}

theorem Meets.mono (h : Meets s x O) (hO : ∀ r t, O r t → O' r t) : Meets s x O' := hO _ _ h

theorem meets_pure {a : α} (h : O (.ok a) s) : Meets s (pure a) O := h

theorem meets_throw {e : ε} (h : O (.error e) s) : Meets s (throw e) O := h

theorem Meets.bind (hx : Meets s x O) (hok : ∀ a t, O (.ok a) t → Meets t (f a) T)
    (herror : ∀ e t, O (.error e) t → T (.error e) t) : Meets s (x >>= f) T := by
  rw [Meets, run_bind]
  rcases hrun : x.run.run s with ⟨e | a, t⟩
  · rw [Meets, hrun] at hx
    exact herror e t hx
  · rw [Meets, hrun] at hx
    exact hok a t hx

theorem meets_get_bind {f : S → ExceptT ε (StateM S) β} (h : Meets s (f s) T) :
    Meets s (MonadState.get >>= f) T := h

theorem Meets.ite {p : Prop} [Decidable p] {y : ExceptT ε (StateM S) α} (h : p → Meets s x O)
    (h' : ¬p → Meets s y O) : Meets s (if p then x else y) O := by
  by_cases hp : p
  · rw [if_pos hp]
    exact h hp
  · rw [if_neg hp]
    exact h' hp

end Foundations

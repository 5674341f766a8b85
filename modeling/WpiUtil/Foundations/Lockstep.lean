import WpiUtil.Foundations.Runs

/-!
# Recognizers in lockstep

A recognizer and a computation that returns something take the same steps, but the computation may
stop with an error that the recognizer does not know of.
-/

namespace Foundations

variable {ε S α β : Type}

/-- From the state `s`, with the errors in `E` where the recognizer answers `false`, and the errors
in `O` where it goes on by itself. -/
inductive Lockstep (E O : ε → Prop) (Q : S → Prop) (s : S) (x : ExceptT ε (StateM S) Bool)
    (y : ExceptT ε (StateM S) α) : Prop where
  | accepts (a : α) (s' : S) (hx : x.run.run s = (.ok true, s')) (hy : y.run.run s = (.ok a, s'))
      (hs' : Q s')
  | rejects (s' t : S) (e : ε) (hx : x.run.run s = (.ok false, s'))
      (hy : y.run.run s = (.error e, t)) (he : E e)
  | stops (b : Bool) (s' t : S) (e : ε) (hx : x.run.run s = (.ok b, s')) (hs' : b = true → Q s')
      (hy : y.run.run s = (.error e, t)) (he : O e)

variable {E O : ε → Prop} {P Q : S → Prop} {s : S}

theorem lockstep_pure (a : α) (hs : Q s) :
    Lockstep E O Q s (pure true : ExceptT ε (StateM S) Bool) (pure a) :=
  .accepts a s rfl rfl hs

theorem Lockstep.mono {x : ExceptT ε (StateM S) Bool} {y : ExceptT ε (StateM S) α}
    (h : Lockstep E O P s x y) (hPQ : ∀ s', P s' → Q s') : Lockstep E O Q s x y := by
  cases h with
  | accepts a s' hx hy hs' => exact .accepts a s' hx hy (hPQ s' hs')
  | rejects s' t e hx hy he => exact .rejects s' t e hx hy he
  | stops b s' t e hx hs' hy he => exact .stops b s' t e hx (fun hb => hPQ s' (hs' hb)) hy he

/-- The recognizer gives up, or both go on. -/
theorem Lockstep.bind [Nonempty α] {x z : ExceptT ε (StateM S) Bool} {y : ExceptT ε (StateM S) α}
    {f : α → ExceptT ε (StateM S) β} (h : Lockstep E O P s x y)
    (hf : ∀ a s', P s' → Lockstep E O Q s' z (f a)) :
    Lockstep E O Q s (x >>= fun b => if b then z else pure false) (y >>= f) := by
  cases h with
  | accepts a s' hx hy hs' =>
    have hx' : (x >>= fun b => if b then z else pure false).run.run s = z.run.run s' := by
      rw [run_bind, hx]
      rfl
    have hy' : (y >>= f).run.run s = (f a).run.run s' := by
      rw [run_bind, hy]
    cases hf a s' hs' with
    | accepts a' t hz hfa ht => exact .accepts a' t (hx'.trans hz) (hy'.trans hfa) ht
    | rejects t t' e hz hfa he => exact .rejects t t' e (hx'.trans hz) (hy'.trans hfa) he
    | stops b t t' e hz ht hfa he => exact .stops b t t' e (hx'.trans hz) ht (hy'.trans hfa) he
  | rejects s' t e hx hy he =>
    refine .rejects s' t e ?_ ?_ he
    · rw [run_bind, hx]
      rfl
    · rw [run_bind, hy]
  | stops b s' t e hx hs' hy he =>
    have hy' : (y >>= f).run.run s = (.error e, t) := by
      rw [run_bind, hy]
    cases b with
    | false =>
      refine .stops false s' t e ?_ (fun h => nomatch h) hy' he
      rw [run_bind, hx]
      rfl
    | true =>
      have hx' : (x >>= fun b => if b then z else pure false).run.run s = z.run.run s' := by
        rw [run_bind, hx]
        rfl
      obtain ⟨a⟩ := ‹Nonempty α›
      cases hf a s' (hs' rfl) with
      | accepts _ t' hz _ ht' => exact .stops true t' t e (hx'.trans hz) (fun _ => ht') hy' he
      | rejects t' _ _ hz _ _ => exact .stops false t' t e (hx'.trans hz) (fun h => nomatch h) hy' he
      | stops b t' _ _ hz ht' _ _ => exact .stops b t' t e (hx'.trans hz) ht' hy' he

/-- Both take a step that does not fail. -/
theorem lockstep_step {γ : Type} {w : ExceptT ε (StateM S) γ} {c : γ} {s' : S}
    (hw : w.run.run s = (.ok c, s')) {x : γ → ExceptT ε (StateM S) Bool}
    {y : γ → ExceptT ε (StateM S) α} (h : Lockstep E O Q s' (x c) (y c)) :
    Lockstep E O Q s (w >>= x) (w >>= y) := by
  have hx : (w >>= x).run.run s = (x c).run.run s' := by
    rw [run_bind, hw]
  have hy : (w >>= y).run.run s = (y c).run.run s' := by
    rw [run_bind, hw]
  cases h with
  | accepts a t hxc hyc ht => exact .accepts a t (hx.trans hxc) (hy.trans hyc) ht
  | rejects t t' e hxc hyc he => exact .rejects t t' e (hx.trans hxc) (hy.trans hyc) he
  | stops b t t' e hxc ht hyc he => exact .stops b t t' e (hx.trans hxc) ht (hy.trans hyc) he

/-- The recognizer looks at something first. -/
theorem lockstep_left {γ : Type} {w : ExceptT ε (StateM S) γ} {c : γ}
    (hw : w.run.run s = (.ok c, s)) {x : γ → ExceptT ε (StateM S) Bool}
    {y : ExceptT ε (StateM S) α} (h : Lockstep E O Q s (x c) y) :
    Lockstep E O Q s (w >>= x) y := by
  have hx : (w >>= x).run.run s = (x c).run.run s := by
    rw [run_bind, hw]
  cases h with
  | accepts a t hxc hy ht => exact .accepts a t (hx.trans hxc) hy ht
  | rejects t t' e hxc hy he => exact .rejects t t' e (hx.trans hxc) hy he
  | stops b t t' e hxc ht hy he => exact .stops b t t' e (hx.trans hxc) ht hy he

/-- The computation does something that the recognizer has no need for. -/
theorem lockstep_right {γ : Type} {w : ExceptT ε (StateM S) γ} {c : γ}
    (hw : w.run.run s = (.ok c, s)) {x : ExceptT ε (StateM S) Bool}
    {y : γ → ExceptT ε (StateM S) α} (h : Lockstep E O Q s x (y c)) :
    Lockstep E O Q s x (w >>= y) := by
  have hy : (w >>= y).run.run s = (y c).run.run s := by
    rw [run_bind, hw]
  cases h with
  | accepts a t hx hyc ht => exact .accepts a t hx (hy.trans hyc) ht
  | rejects t t' e hx hyc he => exact .rejects t t' e hx (hy.trans hyc) he
  | stops b t t' e hx ht hyc he => exact .stops b t t' e hx ht (hy.trans hyc) he

/-- The computation returns something else at its end. -/
theorem Lockstep.map {x : ExceptT ε (StateM S) Bool} {y : ExceptT ε (StateM S) α}
    {f : α → ExceptT ε (StateM S) β} (h : Lockstep E O Q s x y)
    (hf : ∀ a s', Q s' → ∃ b, (f a).run.run s' = (.ok b, s')) : Lockstep E O Q s x (y >>= f) := by
  cases h with
  | accepts a s' hx hy hs' =>
    obtain ⟨b, hb⟩ := hf a s' hs'
    refine .accepts b s' hx ?_ hs'
    rw [run_bind, hy]
    exact hb
  | rejects s' t e hx hy he =>
    refine .rejects s' t e hx ?_ he
    rw [run_bind, hy]
  | stops b s' t e hx hs' hy he =>
    refine .stops b s' t e hx hs' ?_ he
    rw [run_bind, hy]

/-- The recognizer always answers. -/
theorem Lockstep.answers {x : ExceptT ε (StateM S) Bool} {y : ExceptT ε (StateM S) α}
    (h : Lockstep E O Q s x y) : ∃ b, (x.run.run s).1 = .ok b := by
  cases h with
  | accepts _ _ hx _ _ => exact ⟨true, by rw [hx]⟩
  | rejects _ _ _ hx _ _ => exact ⟨false, by rw [hx]⟩
  | stops b _ _ _ hx _ _ _ => exact ⟨b, by rw [hx]⟩

/-- The computation returns exactly if the recognizer accepts, and there is no error that it does
not know of. -/
theorem Lockstep.returns_iff {x : ExceptT ε (StateM S) Bool} {y : ExceptT ε (StateM S) α}
    (h : Lockstep E O Q s x y) :
    (∃ a, (y.run.run s).1 = .ok a) ↔
      (x.run.run s).1 = .ok true ∧ ∀ e, (y.run.run s).1 = .error e → ¬O e := by
  cases h with
  | accepts a s' hx hy hs' =>
    rw [hx, hy]
    exact iff_of_true ⟨a, rfl⟩ ⟨rfl, fun e he => nomatch he⟩
  | rejects s' t e hx hy he =>
    rw [hx, hy]
    refine iff_of_false ?_ ?_
    · rintro ⟨a, ha⟩
      cases ha
    · rintro ⟨htrue, -⟩
      cases htrue
  | stops b s' t e hx hs' hy he =>
    rw [hx, hy]
    refine iff_of_false ?_ ?_
    · rintro ⟨a, ha⟩
      cases ha
    · rintro ⟨-, hnone⟩
      exact hnone e rfl he

end Foundations

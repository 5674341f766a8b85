import Mathlib.Data.List.Basic
import Mathlib.Data.List.Sublists

/-!
# Buffered output

What is written to a buffer in front of a sink goes on in pieces, in order. A sink takes one piece at
a time; the rest of what has been written is held back.
-/

namespace Foundations

variable {σ α : Type*} {push : σ → List α → σ} {s t u : σ} {held held' held'' text text' : List α}

/-- From `s` with `held` held back, writing `text` leads to `t` with `held'` held back: what was held
and `text` together go out in pieces, none of which is empty, up to what is held in the end. -/
def Passes (push : σ → List α → σ) (s : σ) (held text : List α) (t : σ) (held' : List α) : Prop :=
  ∃ pieces : List (List α),
    [] ∉ pieces ∧ t = pieces.foldl push s ∧ held ++ text = pieces.flatten ++ held'

/-- Text that fits is held back. -/
theorem Passes.hold : Passes push s held text s (held ++ text) :=
  ⟨[], List.not_mem_nil, rfl, rfl⟩

theorem Passes.refl : Passes push s held [] s held :=
  ⟨[], List.not_mem_nil, rfl, List.append_nil held⟩

/-- One piece goes out. -/
theorem Passes.piece {piece : List α} (hne : piece ≠ []) (h : held ++ text = piece ++ held') :
    Passes push s held text (push s piece) held' := by
  refine ⟨[piece], ?_, rfl, ?_⟩
  · rw [List.mem_singleton]
    exact hne.symm
  · rw [List.flatten_singleton, h]

/-- One text is written after the other. -/
theorem Passes.trans (h : Passes push s held text t held')
    (h' : Passes push t held' text' u held'') :
    Passes push s held (text ++ text') u held'' := by
  obtain ⟨pieces, hne, rfl, hflat⟩ := h
  obtain ⟨pieces', hne', rfl, hflat'⟩ := h'
  refine ⟨pieces ++ pieces', ?_, ?_, ?_⟩
  · rw [List.mem_append]
    exact not_or.2 ⟨hne, hne'⟩
  · rw [List.foldl_append]
  · rw [← List.append_assoc, hflat, List.append_assoc, hflat', List.flatten_append,
      List.append_assoc]

/-- What every push of a piece keeps is kept. -/
theorem Passes.invariant (h : Passes push s held text t held') {I : σ → Prop} (hs : I s)
    (hpush : ∀ r piece, piece ≠ [] → I r → I (push r piece)) : I t := by
  obtain ⟨pieces, hne, rfl, -⟩ := h
  clear text held'
  induction pieces generalizing s with
  | nil => exact hs
  | cons piece pieces ih =>
    rw [List.mem_cons, not_or] at hne
    exact ih (hpush s piece (Ne.symm hne.1) hs) hne.2

/-! ## Sinks -/

/-- What a sink shows is changed by the pieces, until the sink fails: `act` says how, and does not
depend on where the pieces end. A failure is not forgotten. -/
structure Faithful {τ : Type*} (push : σ → List α → σ) (view : σ → τ) (act : τ → List α → τ)
    (failed : σ → Bool) : Prop where
  taken : ∀ s piece, failed (push s piece) = false → view (push s piece) = act (view s) piece
  sticky : ∀ s piece, failed s = true → failed (push s piece) = true
  act_nil : ∀ x, act x [] = x
  act_append : ∀ x piece piece', act x (piece ++ piece') = act (act x piece) piece'

section Faithful

variable {τ : Type*} {view : σ → τ} {act : τ → List α → τ} {failed : σ → Bool}

theorem Faithful.not_failed (hf : Faithful push view act failed) {pieces : List (List α)}
    (h : failed (pieces.foldl push s) = false) : failed s = false := by
  induction pieces generalizing s with
  | nil => exact h
  | cons piece pieces ih =>
    have hpush := ih h
    by_contra hs
    rw [hf.sticky s piece (Bool.not_eq_false _ ▸ hs)] at hpush
    cases hpush

/-- As long as nothing has failed, the pieces are as good as one. -/
theorem Faithful.view_eq (hf : Faithful push view act failed) (h : Passes push s held text t held')
    (ht : failed t = false) :
    ∃ front, held ++ text = front ++ held' ∧ view t = act (view s) front := by
  obtain ⟨pieces, -, rfl, hflat⟩ := h
  refine ⟨pieces.flatten, hflat, ?_⟩
  clear hflat
  induction pieces generalizing s with
  | nil => rw [List.foldl_nil, List.flatten_nil, hf.act_nil]
  | cons piece pieces ih =>
    rw [List.foldl_cons] at ht ⊢
    rw [ih ht, hf.taken s piece (hf.not_failed ht), List.flatten_cons, hf.act_append]

end Faithful

section Appending

variable {out : σ → List α} {failed : σ → Bool}

/-- Nothing is lost before a failure. -/
theorem Faithful.out_append (hf : Faithful push out (· ++ ·) failed)
    (h : Passes push s held text t held') (ht : failed t = false) :
    out t ++ held' = out s ++ held ++ text := by
  obtain ⟨front, hfront, hout⟩ := hf.view_eq h ht
  rw [hout, List.append_assoc, ← hfront, List.append_assoc]

/-- Where of a piece that fails a front has come through, nothing has been made up, repeated or
moved. -/
theorem Passes.out_sublist (hfront : ∀ s piece, ∃ front, front <+: piece ∧
    out (push s piece) = out s ++ front) (h : Passes push s held text t held') :
    (out t ++ held').Sublist (out s ++ held ++ text) := by
  obtain ⟨pieces, -, rfl, hflat⟩ := h
  have hout : (out (pieces.foldl push s)).Sublist (out s ++ pieces.flatten) := by
    clear hflat
    induction pieces generalizing s with
    | nil => simp
    | cons piece pieces ih =>
      obtain ⟨front, hpre, hpush⟩ := hfront s piece
      have hrest := ih (s := push s piece)
      rw [hpush, List.append_assoc] at hrest
      refine hrest.trans ?_
      rw [List.flatten_cons]
      exact (List.Sublist.refl _).append (hpre.sublist.append (List.Sublist.refl _))
  rw [List.append_assoc (out s), hflat, ← List.append_assoc]
  exact hout.append (List.Sublist.refl _)

end Appending

end Foundations

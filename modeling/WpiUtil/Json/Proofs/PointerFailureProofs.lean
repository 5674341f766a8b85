import WpiUtil.Json.Proofs.PointerAssignmentProofs

/-!
# What is left of a document when `operator[]` throws

The tokens in front of the one that cannot be applied have been applied by then, and what they have
created stays.
-/

namespace Wpi.Json

open Foundations

variable {t : Key} {j k x y : Json} {step : Step} {location : Location} {p : JsonPointer} {e : Failure}

theorem getUnchecked_cons_of_eq_ok {ts : JsonPointer} {rest : Location} {x' : Json}
    (hstep : uncheckedStep t j = (.ok step, k)) (hx : k.child? step = some x)
    (h : getUnchecked ts x = (.ok rest, x')) :
    getUnchecked (t :: ts) j = (.ok (step :: rest), k.setElement step x') := by
  rw [getUnchecked] at h ⊢
  rw [pointerLoop, hstep]
  simp only [element_of_child? hx, h]
  rfl

/-- By induction on the tokens: one of them cannot be applied to the value that the others refer
to. -/
theorem getUnchecked_eq_error (hj : j.All MapWF) (h : getUnchecked p j = (.error e, k)) :
    ∃ front token back location j₁ reached, p = front ++ token :: back ∧
      getUnchecked front j = (.ok location, j₁) ∧ j₁.All MapWF ∧ j₁.get? location = some reached ∧
      uncheckedStep token reached = (.error e, convertNull token reached) ∧
      k = j₁.store location (convertNull token reached) := by
  induction p generalizing j k with
  | nil => cases h
  | cons t ts ih =>
    rw [getUnchecked, pointerLoop] at h
    split at h
    · next e' j₁ hstep =>
      cases h
      obtain rfl := uncheckedStep_eq_error hstep
      exact ⟨[], t, ts, [], j, j, rfl, rfl, hj, rfl, hstep, rfl⟩
    · next step j₁ hstep =>
      obtain ⟨hj₁, ⟨x, hx⟩, -⟩ := uncheckedStep_spec hj hstep
      rw [element_of_child? hx] at h
      cases hrest : getUnchecked ts x with
      | mk r x' =>
        rw [getUnchecked] at hrest
        rw [hrest] at h
        cases r with
        | ok rest => cases h
        | error e' =>
          cases h
          have hxwf := all_child? hj₁ hx
          obtain ⟨front, token, back, location, x₁, reached, rfl, hfront, hx₁, hget, htoken, rfl⟩ :=
            ih hxwf hrest
          have hself := child?_setElement_self hj₁ hx x₁
          refine ⟨t :: front, token, back, step :: location, j₁.setElement step x₁, reached, rfl,
            getUnchecked_cons_of_eq_ok hstep hx hfront, lawful_parts.valid_replace hj₁ hx hx₁, ?_,
            htoken, ?_⟩
          · rw [get?_cons hself, hget]
          · have hput : (j₁.setElement step x₁).store (step :: location) (convertNull token reached) =
                (j₁.setElement step x₁).setElement step
                  (x₁.store location (convertNull token reached)) := Parts.put_cons hself _
            rw [hput]
            exact (lawful_parts.replace_replace hj₁ hx _ _).symm

/-- A value that is not changed by what is put into it has the element. -/
theorem checkedStep_of_unchanged (hj : j.All MapWF) (h : uncheckedStep t j = (.ok step, k))
    (hx : k.child? step = some x) (hsame : k.setElement step y = j) :
    checkedStep t j = .ok step := by
  obtain ⟨hk, -, -, -⟩ := uncheckedStep_spec hj h
  have hself := child?_setElement_self hk hx y
  rw [hsame] at hself
  have hnull : j ≠ null := by
    rintro rfl
    cases hself
  rcases uncheckedStep_eq_ok h with
    ⟨m, hm, -, rfl, rfl⟩ | ⟨xs, idx, n, hxs, rfl, rfl, -, hdash, hidx⟩
  · rw [convertNull_eq_self hnull] at hm
    subst hm
    exact checkedStep_key hself
  · rw [convertNull_eq_self hnull] at hxs
    subst hxs
    have hlt : idx < xs.length := (List.getElem?_eq_some_iff.1 hself).1
    have hne : t ≠ bytes "-" := fun ht => absurd (hdash ht) (Nat.ne_of_lt hlt)
    exact checkedStep_index (hidx hne) hlt

/-- If the value comes out unchanged, `at` finds what the reference refers to. -/
theorem getCheckedConst_of_unchanged (hj : j.All MapWF)
    (h : getUnchecked p j = (.ok location, k)) (hx : k.get? location = some x)
    (hsame : k.store location y = j) : getCheckedConst p j = .ok location := by
  induction p generalizing j k location with
  | nil =>
    cases h
    rfl
  | cons t ts ih =>
    obtain ⟨step, rest, j₁, c, c', hstep, hj₁, hc, hrest, rfl, rfl⟩ := getUnchecked_cons_eq_ok hj h
    have hself := child?_setElement_self hj₁ hc c'
    have hput : (j₁.setElement step c').store (step :: rest) y =
        (j₁.setElement step c').setElement step (c'.store rest y) := Parts.put_cons hself y
    have hreplace : (j₁.setElement step c').setElement step (c'.store rest y) =
        j₁.setElement step (c'.store rest y) := lawful_parts.replace_replace hj₁ hc _ _
    rw [hput, hreplace] at hsame
    have hchecked := checkedStep_of_unchanged hj hstep hc hsame
    obtain ⟨hunchecked, -⟩ := uncheckedStep_eq hj hchecked
    rw [hunchecked] at hstep
    cases hstep
    have hstored := child?_setElement_self hj hc (c'.store rest y)
    rw [hsame, hc, Option.some.injEq] at hstored
    rw [get?_cons hself] at hx
    exact getCheckedConst_cons_iff.2
      ⟨step, c, rest, hchecked, hc, ih (all_child? hj hc) hrest hx hstored.symm, rfl⟩

theorem convertNull_eq_self_iff : convertNull t j = j ↔ j ≠ null := by
  refine ⟨?_, fun h => convertNull_eq_self h t⟩
  rintro h rfl
  unfold convertNull at h
  dsimp only at h
  split at h
  · cases h
  · cases h

/-- A document that `operator[]` throws for is left as the tokens in front of the one that fails
leave it, apart from a null value that this one has made a container of. -/
theorem subscriptPointer_throws (hj : j.WF) (h : (j.subscriptPointer p).1 = .error e) :
    ∃ front token back location k reached, p = front ++ token :: back ∧
      j.subscriptPointer front = (.ok location, k) ∧ k.get? location = some reached ∧
      reached.subscriptPointer [token] = (.error e, convertNull token reached) ∧
      (j.subscriptPointer p).2 = k.store location (convertNull token reached) ∧
      ((j.subscriptPointer p).2 = j ↔ j.ResolvesTo front reached ∧ reached ≠ null) := by
  have hmaps := hj.maps
  obtain ⟨front, token, back, location, k, reached, hp, hfront, hk, hget, htoken, hresult⟩ :=
    getUnchecked_eq_error hmaps (Prod.ext h rfl : j.subscriptPointer p = (.error e, _))
  refine ⟨front, token, back, location, k, reached, hp, hfront, hget, ?_, hresult, ?_⟩
  · change getUnchecked [token] reached = _
    rw [getUnchecked, pointerLoop, htoken]
  · have hresult' : (j.subscriptPointer p).2 = k.store location (convertNull token reached) := hresult
    rw [hresult', resolvesTo_iff hmaps]
    constructor
    · intro hsame
      have hat := getCheckedConst_of_unchanged hmaps hfront hget hsame
      obtain ⟨hunchecked, -⟩ := getUnchecked_of_getChecked hmaps hat
      rw [hunchecked] at hfront
      cases hfront
      have hstored : (j.store location (convertNull token reached)).get? location =
          some (convertNull token reached) := lawful_parts.get?_put_self hmaps hget _
      rw [hsame, hget, Option.some.injEq] at hstored
      exact ⟨⟨location, hat, hget⟩, convertNull_eq_self_iff.1 hstored.symm⟩
    · rintro ⟨⟨location', hat, hget'⟩, hnull⟩
      obtain ⟨hunchecked, -⟩ := getUnchecked_of_getChecked hmaps hat
      rw [hunchecked] at hfront
      cases hfront
      rw [convertNull_eq_self hnull]
      exact lawful_parts.put_self hmaps hget

/-- `/0/01` in `[null]`. -/
theorem subscriptPointer_throws_leadingZero :
    let j := array [null]
    let p := [bytes "0", bytes "01"]
    ∃ front token back location k reached, p = front ++ token :: back ∧
      j.subscriptPointer front = (.ok location, k) ∧ k.get? location = some reached ∧
      reached.subscriptPointer [token] =
        (.error (leadingZero (bytes "01")), convertNull token reached) ∧
      (j.subscriptPointer p).2 = k.store location (convertNull token reached) ∧
      ((j.subscriptPointer p).2 = j ↔ j.ResolvesTo front reached ∧ reached ≠ null) := by
  have hone : 1 < 2 ^ 64 := by omega
  have hwf : (array [null]).WF := ⟨hone, trivial, trivial⟩
  exact subscriptPointer_throws hwf rfl

/-- `/01` makes an array of a null value before it throws. -/
theorem not_unchanged_leadingZero : ¬∀ (j : Json) (p : JsonPointer) (e : Failure), j.WF →
    e ≠ .undefined → (j.subscriptPointer p).1 = .error e → (j.subscriptPointer p).2 = j := by
  intro h
  have hsame : array [] = null :=
    h null [bytes "01"] (leadingZero (bytes "01")) trivial (by decide) rfl
  cases hsame

end Wpi.Json

import WpiUtil.Llvm.Proofs.StringMapProofs

/-!
# Sorting items by key

The order of the keys, and that maps with the same contents have the same sorted items.
-/

namespace Wpi.StringMap

/-! ## The order of keys -/

@[simp] theorem keyLess_self (a : Key) : keyLess a a = false := by
  induction a with
  | nil => rfl
  | cons c a ih => rw [keyLess, if_pos rfl, ih]

theorem keyLess_trans {a b c : Key} (hab : keyLess a b = true) (hbc : keyLess b c = true) :
    keyLess a c = true := by
  induction a generalizing b c with
  | nil =>
    cases b with
    | nil => cases hab
    | cons y b =>
      cases c with
      | nil => cases hbc
      | cons z c => rfl
  | cons x a ih =>
    cases b with
    | nil => cases hab
    | cons y b =>
      cases c with
      | nil => cases hbc
      | cons z c =>
        rw [keyLess] at hab hbc ⊢
        by_cases hxy : x = y
        · subst hxy
          rw [if_pos rfl] at hab
          by_cases hxz : x = z
          · rw [if_pos hxz] at hbc ⊢
            exact ih hab hbc
          · rwa [if_neg hxz] at hbc ⊢
        · rw [if_neg hxy, decide_eq_true_eq] at hab
          by_cases hyz : y = z
          · subst hyz
            rwa [if_neg hxy, decide_eq_true_eq]
          · rw [if_neg hyz, decide_eq_true_eq] at hbc
            have hlt := UInt8.lt_trans hab hbc
            rwa [if_neg (UInt8.ne_of_lt hlt), decide_eq_true_eq]

theorem keyLess_asymm {a b : Key} (h : keyLess a b = true) : keyLess b a = false := by
  rw [← Bool.not_eq_true]
  intro h'
  have hself := keyLess_trans h h'
  rw [keyLess_self] at hself
  cases hself

/-- Of two different keys, one is less than the other. -/
theorem eq_of_not_keyLess {a b : Key} (h : keyLess a b = false) (h' : keyLess b a = false) :
    a = b := by
  induction a generalizing b with
  | nil =>
    cases b with
    | nil => rfl
    | cons y b => cases h
  | cons x a ih =>
    cases b with
    | nil => cases h'
    | cons y b =>
      rw [keyLess] at h h'
      by_cases hxy : x = y
      · rw [if_pos hxy] at h
        rw [if_pos hxy.symm] at h'
        rw [hxy, ih h h']
      · rw [if_neg hxy, decide_eq_false_iff_not] at h
        rw [if_neg (Ne.symm hxy), decide_eq_false_iff_not] at h'
        exact absurd (UInt8.le_antisymm (UInt8.not_lt.1 h') (UInt8.not_lt.1 h)) hxy

/-- Not being greater is a total order. -/
theorem not_keyLess_trans {a b c : Key} (hba : keyLess b a = false) (hcb : keyLess c b = false) :
    keyLess c a = false := by
  rw [← Bool.not_eq_true]
  intro hca
  rcases hbc : keyLess b c with _ | _
  · rw [eq_of_not_keyLess hbc hcb, hca] at hba
    cases hba
  · rw [keyLess_trans hbc hca] at hba
    cases hba

/-! ## Sorted items -/

variable {α β : Type}

/-- The order in which `sortItems` puts the items. -/
def NotAfter (a b : Key × α) : Prop := keyLess b.1 a.1 = false

instance : DecidableRel (NotAfter : Key × α → Key × α → Prop) := fun a b =>
  inferInstanceAs (Decidable (keyLess b.1 a.1 = false))

instance : Std.Total (NotAfter : Key × α → Key × α → Prop) where
  total a b := by
    unfold NotAfter
    rcases h : keyLess a.1 b.1 with _ | _
    · exact Or.inr rfl
    · exact Or.inl (keyLess_asymm h)

instance : IsTrans (Key × α) NotAfter where
  trans _ _ _ := not_keyLess_trans

theorem sortItems_perm (items : List (Key × α)) : (sortItems items).Perm items :=
  List.perm_insertionSort _ items

theorem pairwise_sortItems (items : List (Key × α)) : (sortItems items).Pairwise NotAfter :=
  List.pairwise_insertionSort (r := NotAfter) items

theorem map_sortItems (f : α → β) (items : List (Key × α)) :
    (sortItems items).map (fun e => (e.1, f e.2)) =
      sortItems (items.map fun e => (e.1, f e.2)) :=
  List.map_insertionSort _ _ _ items fun _ _ _ _ => Iff.rfl

/-- Without repeated keys, there is one way to sort the items. -/
theorem sortItems_eq_iff_perm {items items' : List (Key × α)}
    (hnodup : (items.map Prod.fst).Nodup) :
    sortItems items = sortItems items' ↔ items.Perm items' := by
  constructor
  · intro h
    have hperm := sortItems_perm items'
    rw [← h] at hperm
    exact (sortItems_perm items).symm.trans hperm
  · intro h
    have hperm : (sortItems items).Perm (sortItems items') :=
      (sortItems_perm items).trans (h.trans (sortItems_perm items').symm)
    refine List.Perm.eq_of_pairwise ?_ (pairwise_sortItems items) (pairwise_sortItems items') hperm
    intro a b ha hb hab hba
    have hmem : a ∈ items := (sortItems_perm items).mem_iff.1 ha
    have hmem' : b ∈ items := h.mem_iff.2 ((sortItems_perm items').mem_iff.1 hb)
    exact List.inj_on_of_nodup_map hnodup hmem hmem' (eq_of_not_keyLess hba hab)

/-- Sorted items are determined by what is found under each key. -/
theorem perm_iff_lookup {items items' : List (Key × α)} (hnodup : (items.map Prod.fst).Nodup)
    (hnodup' : (items'.map Prod.fst).Nodup) :
    items.Perm items' ↔ ∀ key, items.lookup key = items'.lookup key := by
  rw [List.perm_ext_iff_of_nodup (List.Nodup.of_map _ hnodup) (List.Nodup.of_map _ hnodup')]
  constructor
  · intro h key
    refine Option.ext fun value => ?_
    rw [lookup_eq_some_iff hnodup, lookup_eq_some_iff hnodup', h]
  · rintro h ⟨key, value⟩
    rw [← lookup_eq_some_iff hnodup, ← lookup_eq_some_iff hnodup', h]

/-! ## Comparing sorted items -/

theorem equalItems_iff {R : α → β → Bool} {items : List (Key × α)} {items' : List (Key × β)}
    (h : items.length = items'.length) :
    equalItems (items.map fun e => (e.1, R e.2)) items' = true ↔
      List.Forall₂ (fun e e' => e.1 = e'.1 ∧ R e.2 e'.2 = true) items items' := by
  induction items generalizing items' with
  | nil =>
    cases items' with
    | nil => simp [equalItems]
    | cons e' items' => cases h
  | cons e items ih =>
    cases items' with
    | nil => cases h
    | cons e' items' =>
      obtain ⟨key, value⟩ := e
      obtain ⟨key', value'⟩ := e'
      rw [List.map_cons, equalItems, List.forall₂_cons, ← ih (Nat.succ.inj h)]
      by_cases hkey : key = key'
      · cases hR : R value value' with
        | true => simp [hkey]
        | false => simp
      · simp [hkey]

end Wpi.StringMap

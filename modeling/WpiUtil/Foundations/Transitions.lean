import Mathlib.Init

/-!
# Threads that take turns

A system that takes one action after the other, and what its actions keep. The threads of a pool are
a list, one of which is replaced when it moves.
-/

namespace Foundations

universe u v

variable {σ : Type u} {α : Type v}

/-- The state after the actions `as`, when all of them can be taken. -/
def execute (step : σ → α → Option σ) (s : σ) : List α → Option σ
  | [] => some s
  | a :: as => (step s a).bind fun t => execute step t as

/-- Each of the actions `as` meets `G` in the state in which it is taken. -/
def Along (step : σ → α → Option σ) (G : σ → α → Prop) (s : σ) : List α → Prop
  | [] => True
  | a :: as => G s a ∧ ∀ t ∈ step s a, Along step G t as

instance Along.decidable (step : σ → α → Option σ) (G : σ → α → Prop)
    [∀ s a, Decidable (G s a)] (s : σ) : ∀ as, Decidable (Along step G s as)
  | [] => inferInstanceAs (Decidable True)
  | a :: as =>
    have (t : σ) : Decidable (Along step G t as) := Along.decidable step G t as
    inferInstanceAs (Decidable (G s a ∧ ∀ t ∈ step s a, Along step G t as))

/-- `P` holds in every state that is reached on the way through the actions `as`. -/
def Throughout (step : σ → α → Option σ) (P : σ → Prop) (s : σ) (as : List α) : Prop :=
  ∀ front t, front <+: as → execute step s front = some t → P t

variable {step : σ → α → Option σ} {G : σ → α → Prop} {I P : σ → Prop}

theorem execute_cons_eq_some_iff {s t : σ} {a : α} {as : List α} :
    execute step s (a :: as) = some t ↔ ∃ r, step s a = some r ∧ execute step r as = some t :=
  Option.bind_eq_some_iff

theorem execute_append {s r : σ} {as : List α} (h : execute step s as = some r) (bs : List α) :
    execute step s (as ++ bs) = execute step r bs := by
  induction as generalizing s with
  | nil =>
    rw [execute, Option.some.injEq] at h
    rw [h, List.nil_append]
  | cons a as ih =>
    obtain ⟨t, ht, has⟩ := execute_cons_eq_some_iff.1 h
    rw [List.cons_append, execute, ht, Option.bind_some, ih has]

/-- What every action that meets `G` keeps holds after a run of such actions. -/
theorem Along.invariant (hstep : ∀ {s a t}, I s → G s a → step s a = some t → I t) {s t : σ}
    {as : List α} (hG : Along step G s as) (hrun : execute step s as = some t) (hs : I s) :
    I t := by
  induction as generalizing s with
  | nil =>
    rw [execute, Option.some.injEq] at hrun
    rwa [← hrun]
  | cons a as ih =>
    obtain ⟨r, hr, has⟩ := execute_cons_eq_some_iff.1 hrun
    exact ih (hG.2 r hr) has (hstep hs hG.1 hr)

theorem along_true (s : σ) (as : List α) : Along step (fun _ _ => True) s as := by
  induction as generalizing s with
  | nil => trivial
  | cons a as ih => exact ⟨trivial, fun t _ => ih t⟩

/-- Actions that meet a condition of their own meet it in every state. -/
theorem along_of_forall_mem {P : α → Prop} {as : List α} (h : ∀ a ∈ as, P a) (s : σ) :
    Along step (fun _ => P) s as := by
  induction as generalizing s with
  | nil => trivial
  | cons a as ih =>
    rw [List.forall_mem_cons] at h
    exact ⟨h.1, fun t _ => ih h.2 t⟩

theorem execute_invariant (hstep : ∀ {s a t}, I s → step s a = some t → I t) {s t : σ}
    {as : List α} (hrun : execute step s as = some t) (hs : I s) : I t :=
  (along_true s as).invariant (fun hI _ => hstep hI) hrun hs

theorem exists_execute_eq (hstep : ∀ s a, ∃ t, step s a = some t) (s : σ) (as : List α) :
    ∃ t, execute step s as = some t := by
  induction as generalizing s with
  | nil => exact ⟨s, rfl⟩
  | cons a as ih =>
    obtain ⟨r, hr⟩ := hstep s a
    obtain ⟨t, ht⟩ := ih r
    exact ⟨t, execute_cons_eq_some_iff.2 ⟨r, hr, ht⟩⟩

theorem throughout_nil {s : σ} : Throughout step P s [] ↔ P s := by
  constructor
  · intro h
    exact h [] s List.nil_prefix rfl
  · intro h front t hfront ht
    obtain rfl := List.prefix_nil.1 hfront
    cases ht
    exact h

theorem throughout_cons {s r : σ} {a : α} {as : List α} (hr : step s a = some r) :
    Throughout step P s (a :: as) ↔ P s ∧ Throughout step P r as := by
  constructor
  · intro h
    refine ⟨h [] s List.nil_prefix rfl, fun front t hfront ht => ?_⟩
    exact h (a :: front) t ((List.prefix_cons_inj a).2 hfront)
      (execute_cons_eq_some_iff.2 ⟨r, hr, ht⟩)
  · rintro ⟨hs, hrest⟩ front t hfront ht
    rcases List.prefix_cons_iff.1 hfront with rfl | ⟨front', rfl, hfront'⟩
    · cases ht
      exact hs
    · obtain ⟨r', hr', ht'⟩ := execute_cons_eq_some_iff.1 ht
      obtain rfl := Option.some.inj (hr.symm.trans hr')
      exact hrest front' t hfront' ht'

/-- When `G` is just what an action has to meet in order to keep `P`, the states of a run have `P` if
and only if its actions meet `G`. -/
theorem throughout_iff_along (hI : ∀ {s a t}, I s → step s a = some t → I t)
    (hP : ∀ {s a t}, I s → P s → step s a = some t → (P t ↔ G s a)) {s t : σ} {as : List α}
    (hrun : execute step s as = some t) (hs : I s) (hPs : P s) :
    Throughout step P s as ↔ Along step G s as := by
  induction as generalizing s with
  | nil => exact iff_of_true (throughout_nil.2 hPs) trivial
  | cons a as ih =>
    obtain ⟨r, hr, has⟩ := execute_cons_eq_some_iff.1 hrun
    rw [throughout_cons hr]
    constructor
    · rintro ⟨-, hrest⟩
      have hPr : P r := hrest [] r List.nil_prefix rfl
      refine ⟨(hP hs hPs hr).1 hPr, fun t ht => ?_⟩
      obtain rfl := Option.some.inj (hr.symm.trans ht)
      exact (ih has (hI hs hr) hPr).1 hrest
    · rintro ⟨ha, hrest⟩
      have hPr : P r := (hP hs hPs hr).2 ha
      exact ⟨hPs, (ih has (hI hs hr) hPr).2 (hrest r hr)⟩

/-- A thread that moves, among the others. -/
theorem exists_set_eq {l : List α} {i : Nat} {a : α} (h : l[i]? = some a) (b : α) :
    ∃ front back, l = front ++ a :: back ∧ l.set i b = front ++ b :: back := by
  obtain ⟨hi, ha⟩ := List.getElem?_eq_some_iff.1 h
  have hsplit : ∃ front back, l = front ++ l[i] :: back ∧ front.length = i ∧
      l.set i b = front ++ b :: back := List.exists_of_set hi
  obtain ⟨front, back, hl, -, hset⟩ := hsplit
  rw [ha] at hl
  exact ⟨front, back, hl, hset⟩

/-- One thread moves: the number of threads of a kind changes by that thread. -/
theorem countP_set_add {l : List α} {i : Nat} {a : α} (h : l[i]? = some a) (b : α) (p : α → Bool) :
    (l.set i b).countP p + (if p a then 1 else 0) = l.countP p + if p b then 1 else 0 := by
  obtain ⟨front, back, rfl, hset⟩ := exists_set_eq h b
  rw [hset, List.countP_append, List.countP_append, List.countP_cons, List.countP_cons]
  omega

/-- Two threads of a kind. -/
theorem two_le_countP {l : List α} {i j : Nat} {a b : α} {p : α → Bool} (hij : i ≠ j)
    (ha : l[i]? = some a) (hb : l[j]? = some b) (hpa : p a) (hpb : p b) : 2 ≤ l.countP p := by
  induction l generalizing i j with
  | nil => cases ha
  | cons c l ih =>
    cases i with
    | zero =>
      obtain ⟨j, rfl⟩ := Nat.exists_eq_succ_of_ne_zero hij.symm
      rw [List.getElem?_cons_succ] at hb
      have hpos := List.countP_pos_iff.2 ⟨b, List.mem_of_getElem? hb, hpb⟩
      rw [List.countP_cons, Option.some.inj ha, if_pos hpa]
      exact Nat.succ_le_succ hpos
    | succ i =>
      cases j with
      | zero =>
        rw [List.getElem?_cons_succ] at ha
        have hpos := List.countP_pos_iff.2 ⟨a, List.mem_of_getElem? ha, hpa⟩
        rw [List.countP_cons, Option.some.inj hb, if_pos hpb]
        exact Nat.succ_le_succ hpos
      | succ j =>
        rw [List.countP_cons]
        exact Nat.le_add_right_of_le (ih (fun h => hij (congrArg Nat.succ h)) ha hb)

/-- One thread moves: there are no more threads of a kind when that thread was of the kind before,
and the kind takes in no other thread. -/
theorem countP_set_le {l : List α} {i : Nat} {a b : α} {p q : α → Bool} (h : l[i]? = some a)
    (hab : q b → p a) (hqp : ∀ c ∈ l, q c → p c) : (l.set i b).countP q ≤ l.countP p := by
  obtain ⟨front, back, rfl, hset⟩ := exists_set_eq h b
  have hfront : front.countP q ≤ front.countP p :=
    List.countP_mono_left fun c hc => hqp c (List.mem_append_left _ hc)
  have hback : back.countP q ≤ back.countP p :=
    List.countP_mono_left fun c hc =>
      hqp c (List.mem_append_right _ (List.mem_cons_of_mem _ hc))
  rw [hset, List.countP_append, List.countP_append, List.countP_cons, List.countP_cons]
  by_cases hb : q b
  · rw [if_pos hb, if_pos (hab hb)]
    omega
  · rw [if_neg hb]
    omega

end Foundations

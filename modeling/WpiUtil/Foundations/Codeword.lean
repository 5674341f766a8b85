import Mathlib.Data.List.Lex
import Mathlib.Data.Int.Order.Basic
import Mathlib.Tactic.Common

/-!
# Codewords in lexicographic order

Words over the integers. Where no codeword is a proper prefix of another one, a sequence of codewords
is in lexicographic order as the words are, whatever comes after them.
-/

namespace Foundations.Codeword

/-- The lexicographic order. -/
def Before (s t : List ℤ) : Prop := List.Lex (· < ·) s t

theorem not_before_self (s : List ℤ) : ¬Before s s :=
  List.lex_irrefl lt_irrefl s

theorem Before.trans {s t u : List ℤ} (h : Before s t) (h' : Before t u) : Before s u :=
  List.lex_trans lt_trans h h'

theorem before_cons_cons {m n : ℤ} {s t : List ℤ} :
    Before (m :: s) (n :: t) ↔ m < n ∨ m = n ∧ Before s t :=
  List.cons_lex_cons_iff

theorem before_cons_self {m : ℤ} {s t : List ℤ} : Before (m :: s) (m :: t) ↔ Before s t :=
  List.lex_cons_iff

/-- Words that are not in order either way are equal. -/
theorem eq_of_not_before {s t : List ℤ} (h : ¬Before s t) (h' : ¬Before t s) : s = t :=
  (Std.Trichotomous.trichotomous (r := List.Lex (· < ·)) s t) h h'

/-- The words differ before either of them ends. -/
def Differ (s t : List ℤ) : Prop :=
  ∃ p m n s' t', s = p ++ m :: s' ∧ t = p ++ n :: t' ∧ m ≠ n

/-- The words are equal, or none of them is a prefix of the other. -/
def Decided (s t : List ℤ) : Prop := s = t ∨ Differ s t

theorem Differ.append {s t : List ℤ} (h : Differ s t) (u v : List ℤ) :
    Differ (s ++ u) (t ++ v) := by
  obtain ⟨p, m, n, s', t', rfl, rfl, hne⟩ := h
  exact ⟨p, m, n, s' ++ u, t' ++ v, by simp, by simp, hne⟩

theorem Differ.append_left {s t : List ℤ} (h : Differ s t) (p : List ℤ) :
    Differ (p ++ s) (p ++ t) := by
  obtain ⟨q, m, n, s', t', rfl, rfl, hne⟩ := h
  exact ⟨p ++ q, m, n, s', t', by simp, by simp, hne⟩

theorem before_append_left (p : List ℤ) {s t : List ℤ} :
    Before (p ++ s) (p ++ t) ↔ Before s t := by
  induction p with
  | nil => rfl
  | cons m p ih => rw [List.cons_append, List.cons_append, before_cons_self, ih]

theorem Differ.before_append_iff {s t : List ℤ} (h : Differ s t) (u v : List ℤ) :
    Before (s ++ u) (t ++ v) ↔ Before s t := by
  obtain ⟨p, m, n, s', t', rfl, rfl, hne⟩ := h
  rw [List.append_assoc, List.append_assoc, before_append_left, before_append_left,
    List.cons_append, List.cons_append, before_cons_cons, before_cons_cons]
  simp [hne]

theorem Differ.ne {s t : List ℤ} (h : Differ s t) : s ≠ t := by
  obtain ⟨p, m, n, s', t', rfl, rfl, hne⟩ := h
  intro heq
  have hcons := List.append_cancel_left heq
  rw [List.cons.injEq] at hcons
  exact hne hcons.1

/-- What follows counts for equal words only. -/
theorem Decided.before_append_iff {s t : List ℤ} (h : Decided s t) (u v : List ℤ) :
    Before (s ++ u) (t ++ v) ↔ Before s t ∨ s = t ∧ Before u v := by
  rcases h with rfl | h
  · rw [before_append_left]
    simp [not_before_self]
  · rw [h.before_append_iff]
    simp [h.ne]

theorem Decided.symm {s t : List ℤ} (h : Decided s t) : Decided t s := by
  rcases h with rfl | ⟨p, m, n, s', t', hs, ht, hne⟩
  · exact Or.inl rfl
  · exact Or.inr ⟨p, n, m, t', s', ht, hs, hne.symm⟩

theorem Decided.append {s t u v : List ℤ} (h : Decided s t) (h' : Decided u v) :
    Decided (s ++ u) (t ++ v) := by
  rcases h with rfl | h
  · rcases h' with rfl | h'
    · exact Or.inl rfl
    · exact Or.inr (h'.append_left s)
  · exact Or.inr (h.append u v)

theorem Decided.cons {s t : List ℤ} (h : Decided s t) (m : ℤ) : Decided (m :: s) (m :: t) :=
  Decided.append (s := [m]) (Or.inl rfl) h

theorem differ_cons {m n : ℤ} (h : m ≠ n) (s t : List ℤ) : Differ (m :: s) (n :: t) :=
  ⟨[], m, n, s, t, rfl, rfl, h⟩

theorem decided_singleton (m n : ℤ) : Decided [m] [n] := by
  by_cases h : m = n
  · exact Or.inl (by rw [h])
  · exact Or.inr (differ_cons h [] [])

/-! ## Sequences -/

variable {α : Type}

/-- The codeword of a sequence: there is a one before each element and a zero at the end. -/
def seq (f : α → List ℤ) : List α → List ℤ
  | [] => [0]
  | x :: xs => 1 :: (f x ++ seq f xs)

theorem decided_seq {f : α → List ℤ} {xs ys : List α}
    (h : ∀ x ∈ xs, ∀ y ∈ ys, Decided (f x) (f y)) : Decided (seq f xs) (seq f ys) := by
  induction xs generalizing ys with
  | nil =>
    cases ys with
    | nil => exact Or.inl rfl
    | cons y ys => exact Or.inr (differ_cons (by decide) _ _)
  | cons x xs ih =>
    cases ys with
    | nil => exact Or.inr (differ_cons (by decide) _ _)
    | cons y ys =>
      have hx : Decided (f x) (f y) := h x (List.mem_cons_self ..) y (List.mem_cons_self ..)
      have hxs : Decided (seq f xs) (seq f ys) :=
        ih fun x hx y hy => h x (List.mem_cons_of_mem _ hx) y (List.mem_cons_of_mem _ hy)
      exact (hx.append hxs).cons 1

theorem before_seq_nil (f : α → List ℤ) (xs : List α) : ¬Before (seq f xs) (seq f []) := by
  cases xs with
  | nil => exact not_before_self _
  | cons x xs =>
    rw [seq, seq, before_cons_cons]
    simp

theorem before_nil_seq (f : α → List ℤ) (x : α) (xs : List α) :
    Before (seq f []) (seq f (x :: xs)) := by
  rw [seq, seq, before_cons_cons]
  exact Or.inl (by decide)

theorem before_seq_cons {f : α → List ℤ} {x y : α} (h : Decided (f x) (f y)) (xs ys : List α) :
    Before (seq f (x :: xs)) (seq f (y :: ys)) ↔
      Before (f x) (f y) ∨ f x = f y ∧ Before (seq f xs) (seq f ys) := by
  rw [seq, seq, before_cons_self, h.before_append_iff]

/-- A comparison that goes on with the next elements when neither of two elements is less. -/
theorem before_seq_cons_of_tests {f : α → List ℤ} {x y : α} {xs ys : List α}
    {less greater rest : Bool} (h : Decided (f x) (f y))
    (hless : less = true ↔ Before (f x) (f y)) (hgreater : greater = true ↔ Before (f y) (f x))
    (hrest : f x = f y → (rest = true ↔ Before (seq f xs) (seq f ys))) :
    (if less then true else if greater then false else rest) = true ↔
      Before (seq f (x :: xs)) (seq f (y :: ys)) := by
  rw [before_seq_cons h, ← hless]
  cases less with
  | true => simp
  | false =>
    have hnot : ¬Before (f x) (f y) := fun h => Bool.false_ne_true (hless.2 h)
    cases greater with
    | true =>
      have hne : f x ≠ f y := by
        intro heq
        have hself := hgreater.1 rfl
        rw [heq] at hself
        exact not_before_self _ hself
      simp [hne]
    | false =>
      have heq : f x = f y :=
        eq_of_not_before hnot fun h => Bool.false_ne_true (hgreater.2 h)
      simp [heq, ← hrest heq]

end Foundations.Codeword

import Mathlib.Data.Nat.ModEq
import Mathlib.Tactic.Common

/-!
# Scaling with a product that wraps around

A count is scaled by `m / f`, and the product with `m` is taken modulo `n`. The result grows with the
count as long as the product does not wrap around, or as long as it is too small for that to be
seen.
-/

namespace Foundations

def wrappedScale (n m f d : ℕ) : ℕ := d * m % n / f

variable {n m f d D : ℕ}

/-! ## A count and the next -/

theorem succ_mul_mod_of_lt (hm : m < n) (h : d * m % n + m < n) :
    (d + 1) * m % n = d * m % n + m := by
  rw [Nat.succ_mul, Nat.add_mod_of_add_mod_lt (by rwa [Nat.mod_eq_of_lt hm]), Nat.mod_eq_of_lt hm]

/-- The product wraps around. -/
theorem succ_mul_mod_add_of_le (hm : m < n) (h : n ≤ d * m % n + m) :
    (d + 1) * m % n + n = d * m % n + m := by
  rw [Nat.succ_mul, Nat.add_mod_add_of_le_add_mod (by rwa [Nat.mod_eq_of_lt hm]),
    Nat.mod_eq_of_lt hm]

/-- The result does not decrease, unless the product wraps around when it is not below `f`. -/
theorem wrappedScale_le_succ_iff (hf : 0 < f) (hm : 0 < m) (hn : 2 * m ≤ n) :
    wrappedScale n m f d ≤ wrappedScale n m f (d + 1) ↔ (n ≤ d * m % n + m → d * m % n < f) := by
  have hlt := Nat.mod_lt (d * m) (show 0 < n by omega)
  rw [wrappedScale, wrappedScale]
  by_cases hwrap : n ≤ d * m % n + m
  · have hsucc := succ_mul_mod_add_of_le (by omega) hwrap
    constructor
    · intro hle _
      by_contra hge
      rw [Nat.not_lt] at hge
      -- the product falls by `n - m`, which is no less than `f` or takes it below `f`
      have hfall : (d + 1) * m % n / f < d * m % n / f := by
        rcases Nat.lt_or_ge ((d + 1) * m % n) f with hlow | hhigh
        · rw [Nat.div_eq_of_lt hlow]
          exact Nat.div_pos hge hf
        · have hstep : (d + 1) * m % n + f ≤ d * m % n := by omega
          have hdiv := Nat.div_le_div_right (c := f) hstep
          rw [Nat.add_div_right _ hf] at hdiv
          exact hdiv
      omega
    · intro h
      rw [Nat.div_eq_of_lt (h hwrap)]
      exact Nat.zero_le _
  · refine iff_of_true ?_ fun h => absurd h hwrap
    rw [succ_mul_mod_of_lt (by omega) (Nat.not_le.1 hwrap)]
    exact Nat.div_le_div_right (Nat.le_add_right _ _)

/-! ## All counts up to a last one -/

/-- A function that does not decrease from a number to the next. -/
theorem forall_le_iff_forall_le_succ {g : ℕ → ℕ} :
    (∀ d e, d ≤ e → e ≤ D → g d ≤ g e) ↔ ∀ d < D, g d ≤ g (d + 1) := by
  constructor
  · intro h d hd
    exact h d (d + 1) (Nat.le_succ d) hd
  · intro h d e hde
    induction e, hde using Nat.le_induction with
    | base => exact fun _ => Nat.le_refl _
    | succ e hde ih => exact fun he => Nat.le_trans (ih (by omega)) (h e (by omega))

/-- The last count before the `k`-th wrap. -/
theorem exists_wrap {k : ℕ} (hm : 0 < m) (hn : m < n) (hk : 0 < k) (hD : k * n ≤ D * m) :
    ∃ d < D, n ≤ d * m % n + m ∧ d * m % n + (k * n - 1) % m + 1 = n := by
  obtain ⟨j, rfl⟩ : ∃ j, k = j + 1 := ⟨k - 1, by omega⟩
  have hpos : 0 < (j + 1) * n := Nat.mul_pos hk (by omega)
  have hmod := Nat.mod_lt ((j + 1) * n - 1) hm
  have hdiv := Nat.div_add_mod' ((j + 1) * n - 1) m
  have hproduct : ((j + 1) * n - 1) / m * m % n = n - 1 - ((j + 1) * n - 1) % m := by
    have heq : ((j + 1) * n - 1) / m * m = n - 1 - ((j + 1) * n - 1) % m + j * n := by
      rw [Nat.succ_mul] at hdiv hmod hpos ⊢
      omega
    rw [heq, Nat.add_mul_mod_self_right, Nat.mod_eq_of_lt (by omega)]
  refine ⟨((j + 1) * n - 1) / m, ?_, by omega, by omega⟩
  refine Nat.lt_of_mul_lt_mul_right (a := m) ?_
  omega

/-- Every wrap is the `k`-th one for some `k`. -/
theorem exists_eq_wrap (hm : 0 < m) (hn : m < n) (hd : d < D) (hwrap : n ≤ d * m % n + m) :
    ∃ k, 0 < k ∧ k * n ≤ D * m ∧ d * m % n + (k * n - 1) % m + 1 = n := by
  have hmod := Nat.mod_lt (d * m) (show 0 < n by omega)
  have hdiv := Nat.div_add_mod' (d * m) n
  have hnext : (d + 1) * m ≤ D * m := Nat.mul_le_mul_right m hd
  rw [Nat.succ_mul] at hnext
  refine ⟨d * m / n + 1, Nat.succ_pos _, by rw [Nat.succ_mul]; omega, ?_⟩
  have htop : (d * m / n + 1) * n - 1 = n - 1 - d * m % n + d * m := by
    rw [Nat.succ_mul]
    omega
  have hlt : n - 1 - d * m % n < m := by omega
  rw [htop, Nat.add_mul_mod_self_right, Nat.mod_eq_of_lt hlt]
  omega

/-- The result never decreases up to the count `D` just when no wrap up to there can be seen: before
each of them the product is below `f`. -/
theorem forall_wrappedScale_le_iff (hf : 0 < f) (hm : 0 < m) (hn : 2 * m ≤ n) :
    (∀ d e, d ≤ e → e ≤ D → wrappedScale n m f d ≤ wrappedScale n m f e) ↔
      ∀ k, 0 < k → k * n ≤ D * m → n ≤ f + (k * n - 1) % m := by
  rw [forall_le_iff_forall_le_succ]
  simp only [wrappedScale_le_succ_iff hf hm hn]
  constructor
  · intro h k hk hD
    obtain ⟨d, hd, hwrap, heq⟩ := exists_wrap hm (by omega) hk hD
    have hlt := h d hd hwrap
    omega
  · intro h d hd hwrap
    obtain ⟨k, hk, hD, heq⟩ := exists_eq_wrap hm (by omega) hd hwrap
    have hle := h k hk hD
    omega

/-- Unless `f` is nearly as large as `n`, every wrap can be seen. -/
theorem forall_wrap_iff (hm : 0 < m) (hf : f + m ≤ n) :
    (∀ k, 0 < k → k * n ≤ D * m → n ≤ f + (k * n - 1) % m) ↔ D * m < n := by
  constructor
  · intro h
    by_contra hge
    rw [Nat.not_lt] at hge
    have hle := h 1 Nat.one_pos (by rwa [Nat.one_mul])
    have hlt := Nat.mod_lt (1 * n - 1) hm
    omega
  · intro h k hk hD
    have hle := Nat.le_mul_of_pos_left n hk
    omega

end Foundations

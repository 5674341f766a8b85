import Mathlib.Algebra.Ring.Parity
import Mathlib.Data.Nat.ModEq
import Mathlib.Data.Nat.Prime.Basic
import Mathlib.Data.Fintype.EquivFin
import Mathlib.Tactic.Linarith
import Mathlib.Tactic.Ring

/-!
# Quadratic probing

The step of a probe grows by one each time, so the `i`-th probe is the `i`-th triangular number away
from the start. In a table whose size is a power of two the first `2 ^ k` probes visit every slot.
-/

namespace Foundations

/-- `1 + 2 + ⋯ + i`. -/
def triangle : ℕ → ℕ
  | 0 => 0
  | i + 1 => triangle i + (i + 1)

/-- The slot of the `i`-th probe in a table of `size` slots. -/
def probe (size start i : ℕ) : ℕ := (start + triangle i) % size

theorem two_mul_triangle (i : ℕ) : 2 * triangle i = i * (i + 1) := by
  induction i with
  | zero => rfl
  | succ i ih => rw [triangle, Nat.mul_add, ih]; ring

theorem probe_succ (size start i : ℕ) :
    probe size start (i + 1) = (probe size start i + (i + 1)) % size := by
  rw [probe, probe, triangle, ← Nat.add_assoc, Nat.mod_add_mod]

theorem probe_lt {size : ℕ} (h : 0 < size) (start i : ℕ) : probe size start i < size :=
  Nat.mod_lt _ h

/-- Of `j - i` and `i + j + 1` one is odd, so the power of two divides the other, which is too
small. -/
theorem triangle_mod_injOn {k i j : ℕ} (hij : i ≤ j) (hj : j < 2 ^ k)
    (h : triangle i % 2 ^ k = triangle j % 2 ^ k) : i = j := by
  obtain ⟨d, rfl⟩ := Nat.exists_eq_add_of_le hij
  have hdvd : 2 ^ k ∣ triangle (i + d) - triangle i := (Nat.modEq_iff_dvd' (by
    have h1 := two_mul_triangle i
    have h2 := two_mul_triangle (i + d)
    nlinarith)).1 h
  have hdiff : 2 * (triangle (i + d) - triangle i) = d * (2 * i + d + 1) := by
    rw [Nat.mul_sub, two_mul_triangle, two_mul_triangle, Nat.sub_eq_iff_eq_add (by nlinarith)]
    ring
  have hdvd' : 2 ^ (k + 1) ∣ d * (2 * i + d + 1) := by
    rw [← hdiff, pow_succ, Nat.mul_comm]
    exact Nat.mul_dvd_mul_left 2 hdvd
  rcases Nat.even_or_odd d with heven | hodd
  · have hodd' : Odd (2 * i + d + 1) := by
      obtain ⟨c, rfl⟩ := heven
      exact ⟨i + c, by ring⟩
    have hd := (Nat.Coprime.pow_left (k + 1) hodd'.coprime_two_left).dvd_of_dvd_mul_right hdvd'
    by_contra hne
    have := Nat.le_of_dvd (by omega) hd
    rw [pow_succ] at this
    omega
  · have hd := (Nat.Coprime.pow_left (k + 1) hodd.coprime_two_left).dvd_of_dvd_mul_left hdvd'
    have := Nat.le_of_dvd (by omega) hd
    rw [pow_succ] at this
    omega

/-- Every slot is probed. -/
theorem exists_probe_eq (k start : ℕ) {slot : ℕ} (hslot : slot < 2 ^ k) :
    ∃ i < 2 ^ k, probe (2 ^ k) start i = slot := by
  have hpos : 0 < 2 ^ k := Nat.two_pow_pos k
  let f : Fin (2 ^ k) → Fin (2 ^ k) := fun i => ⟨probe (2 ^ k) start i, probe_lt hpos start i⟩
  have hf : Function.Injective f := by
    intro i j hij
    have h : triangle i % 2 ^ k = triangle j % 2 ^ k :=
      Nat.ModEq.add_left_cancel' start (Fin.mk.inj hij)
    rcases Nat.le_total i j with hle | hle
    · exact Fin.ext (triangle_mod_injOn hle j.2 h)
    · exact Fin.ext (triangle_mod_injOn hle i.2 h.symm).symm
  obtain ⟨i, hi⟩ := Finite.injective_iff_surjective.1 hf ⟨slot, hslot⟩
  exact ⟨i, i.2, congrArg Fin.val hi⟩

end Foundations

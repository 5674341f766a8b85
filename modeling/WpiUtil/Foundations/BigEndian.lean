import Mathlib.Tactic.Ring

/-!
# Big-endian numbers

Natural numbers as sequences of bytes of a fixed width, most significant byte first.
-/

namespace Foundations

/-- The last `width` bytes of `n`. -/
def bigEndian : ℕ → ℕ → List UInt8
  | 0, _ => []
  | width + 1, n => UInt8.ofNat (n / 256 ^ width) :: bigEndian width n

/-- The number whose bytes come after those of `acc`. -/
def ofBigEndian (acc : ℕ) : List UInt8 → ℕ
  | [] => acc
  | b :: bs => ofBigEndian (acc * 256 + b.toNat) bs

@[simp] theorem length_bigEndian (width n : ℕ) : (bigEndian width n).length = width := by
  induction width with
  | zero => rfl
  | succ width ih => rw [bigEndian, List.length_cons, ih]

theorem bigEndian_add (v w n : ℕ) :
    bigEndian (v + w) n = bigEndian v (n / 256 ^ w) ++ bigEndian w n := by
  induction v with
  | zero => rw [Nat.zero_add, bigEndian, List.nil_append]
  | succ v ih =>
    rw [Nat.succ_add, bigEndian, ih, bigEndian, List.cons_append, Nat.div_div_eq_div_mul,
      ← Nat.pow_add, Nat.add_comm w]

theorem ofBigEndian_bigEndian (acc width n : ℕ) :
    ofBigEndian acc (bigEndian width n) = acc * 256 ^ width + n % 256 ^ width := by
  induction width generalizing acc with
  | zero => rw [bigEndian, ofBigEndian, pow_zero, Nat.mod_one, Nat.mul_one, Nat.add_zero]
  | succ width ih =>
    have hmod : n % 256 ^ (width + 1) = n / 256 ^ width % 256 * 256 ^ width + n % 256 ^ width := by
      rw [pow_succ, Nat.mod_mul, Nat.mul_comm, Nat.add_comm]
    rw [bigEndian, ofBigEndian, ih, UInt8.toNat_ofNat', hmod]
    ring

end Foundations

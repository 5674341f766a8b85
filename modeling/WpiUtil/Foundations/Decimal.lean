import Mathlib.Algebra.Group.Nat.Defs
import Mathlib.Tactic.IntervalCases
import Mathlib.Tactic.Ring

/-!
# Decimal numerals

Natural numbers as sequences of ASCII digits.
-/

namespace Foundations

def isDigit (c : UInt8) : Bool := 0x30 ≤ c && c ≤ 0x39

/-- The numeral of `n`, without leading zeros. -/
def decimal (n : ℕ) : List UInt8 := (Nat.toDigits 10 n).map fun c => UInt8.ofNat c.toNat

/-- The number whose digits come after those of `acc`. -/
def ofDecimal (acc : ℕ) (cs : List UInt8) : ℕ :=
  cs.foldl (fun n c => 10 * n + (c.toNat - 0x30)) acc

/-- An integer without its minus sign. -/
def unsignedPart (s : List UInt8) : List UInt8 := if s.head? = some 0x2d then s.tail else s

/-- An integer: digits, with or without a minus sign. -/
def IsInteger (s : List UInt8) : Prop :=
  unsignedPart s ≠ [] ∧ ∀ c ∈ unsignedPart s, isDigit c = true

/-- The value of an integer. -/
def ofInteger (s : List UInt8) : ℤ :=
  if s.head? = some 0x2d then -(ofDecimal 0 s.tail : ℤ) else ofDecimal 0 s

@[simp] theorem ofDecimal_nil (acc : ℕ) : ofDecimal acc [] = acc := rfl

@[simp] theorem ofDecimal_cons (acc : ℕ) (c : UInt8) (cs : List UInt8) :
    ofDecimal acc (c :: cs) = ofDecimal (10 * acc + (c.toNat - 0x30)) cs := by
  rw [ofDecimal, List.foldl_cons, ofDecimal]

theorem isDigit_iff {c : UInt8} : isDigit c = true ↔ 0x30 ≤ c.toNat ∧ c.toNat ≤ 0x39 := by
  simp [isDigit, UInt8.le_iff_toNat_le]

/-- What goes on as long as `p` holds ends where it does not. -/
theorem takeWhile_dropWhile_append {α : Type} {p : α → Bool} {xs ys : List α}
    (hxs : ∀ x ∈ xs, p x = true) (hys : ∀ y, ys.head? = some y → p y = false) :
    (xs ++ ys).takeWhile p = xs ∧ (xs ++ ys).dropWhile p = ys := by
  have hstop : ys.takeWhile p = [] ∧ ys.dropWhile p = ys := by
    cases ys with
    | nil => exact ⟨rfl, rfl⟩
    | cons y ys =>
      have hy : ¬p y = true := by
        rw [hys y rfl]
        decide
      exact ⟨List.takeWhile_cons_of_neg hy, List.dropWhile_cons_of_neg hy⟩
  constructor
  · rw [List.takeWhile_append_of_pos hxs, hstop.1, List.append_nil]
  · rw [List.dropWhile_append_of_pos hxs, hstop.2]

theorem dropWhile_eq_drop {α : Type} (p : α → Bool) (s : List α) :
    s.dropWhile p = s.drop (s.takeWhile p).length := by
  have hsplit := List.prefix_iff_eq_append.1 (List.takeWhile_prefix (l := s) p)
  rw [← List.append_right_inj (s.takeWhile p), hsplit, List.takeWhile_append_dropWhile]

theorem ofDecimal_append (acc : ℕ) (cs ds : List UInt8) :
    ofDecimal acc (cs ++ ds) = ofDecimal (ofDecimal acc cs) ds :=
  List.foldl_append

theorem le_ofDecimal (acc : ℕ) (cs : List UInt8) : acc ≤ ofDecimal acc cs := by
  induction cs generalizing acc with
  | nil => exact Nat.le_refl acc
  | cons c cs ih =>
    rw [ofDecimal_cons]
    exact Nat.le_trans (by omega) (ih _)

theorem decimal_of_lt {n : ℕ} (h : n < 10) : decimal n = [UInt8.ofNat (n + 0x30)] := by
  have hdigit : (Nat.digitChar n).toNat = n + 0x30 := by
    interval_cases n <;> rfl
  rw [decimal, Nat.toDigits_of_lt_base h, List.map_singleton, hdigit]

theorem decimal_of_le {n : ℕ} (h : 10 ≤ n) :
    decimal n = decimal (n / 10) ++ [UInt8.ofNat (n % 10 + 0x30)] := by
  have hmod : n % 10 < 10 := Nat.mod_lt n (by decide)
  rw [← decimal_of_lt hmod, decimal, Nat.toDigits_of_base_le (by decide) h, List.map_append]
  rw [decimal, decimal, Nat.toDigits_of_lt_base hmod]

theorem decimal_ne_nil (n : ℕ) : decimal n ≠ [] := by
  rw [decimal, Ne, List.map_eq_nil_iff]
  exact Nat.toDigits_ne_nil

/-- Induction on the number of digits. -/
theorem digits_induction {P : ℕ → Prop} (lt : ∀ n < 10, P n) (le : ∀ n, 10 ≤ n → P (n / 10) → P n)
    (n : ℕ) : P n := by
  induction n using Nat.strongRecOn with
  | _ n ih =>
    rcases Nat.lt_or_ge n 10 with h | h
    · exact lt n h
    · exact le n h (ih (n / 10) (Nat.div_lt_self (by omega) (by decide)))

theorem isDigit_ofNat {d : ℕ} (h : d < 10) : isDigit (UInt8.ofNat (d + 0x30)) = true := by
  rw [isDigit_iff, UInt8.toNat_ofNat']
  omega

theorem isDigit_of_mem_decimal {n : ℕ} {c : UInt8} (hc : c ∈ decimal n) : isDigit c = true := by
  induction n using digits_induction with
  | lt n h =>
    rw [decimal_of_lt h, List.mem_singleton] at hc
    rw [hc]
    exact isDigit_ofNat h
  | le n h ih =>
    rw [decimal_of_le h, List.mem_append, List.mem_singleton] at hc
    rcases hc with hc | rfl
    · exact ih hc
    · exact isDigit_ofNat (Nat.mod_lt n (by decide))

theorem ofDecimal_decimal (n : ℕ) : ofDecimal 0 (decimal n) = n := by
  induction n using digits_induction with
  | lt n h =>
    rw [decimal_of_lt h, ofDecimal_cons, ofDecimal_nil, UInt8.toNat_ofNat']
    omega
  | le n h ih =>
    rw [decimal_of_le h, ofDecimal_append, ih, ofDecimal_cons, ofDecimal_nil,
      UInt8.toNat_ofNat']
    omega

theorem decimal_injective : Function.Injective decimal := by
  intro m n h
  rw [← ofDecimal_decimal m, ← ofDecimal_decimal n, h]

/-- Only the numeral of zero starts with the digit zero. -/
theorem decimal_head {n : ℕ} {c : UInt8} {cs : List UInt8} (h : decimal n = c :: cs)
    (hn : n ≠ 0) : 0x31 ≤ c.toNat ∧ c.toNat ≤ 0x39 := by
  induction n using digits_induction generalizing cs with
  | lt n hlt =>
    rw [decimal_of_lt hlt, List.cons.injEq] at h
    rw [← h.1, UInt8.toNat_ofNat']
    omega
  | le n hle ih =>
    rw [decimal_of_le hle] at h
    cases hd : decimal (n / 10) with
    | nil => exact absurd hd (decimal_ne_nil _)
    | cons d ds =>
      rw [hd, List.cons_append, List.cons.injEq] at h
      rw [h.1] at hd
      exact ih hd (by omega)

/-! ## Lengths -/

theorem length_decimal_le_iff {n k : ℕ} (hk : 0 < k) : (decimal n).length ≤ k ↔ n < 10 ^ k := by
  rw [decimal, List.length_map, Nat.length_toDigits_le_iff (by decide) hk]

theorem length_decimal_pos (n : ℕ) : 0 < (decimal n).length :=
  List.length_pos_iff.2 (decimal_ne_nil n)

theorem length_decimal_mono {m n : ℕ} (h : m ≤ n) : (decimal m).length ≤ (decimal n).length := by
  have hpos := length_decimal_pos n
  exact (length_decimal_le_iff hpos).2
    (Nat.lt_of_le_of_lt h ((length_decimal_le_iff hpos).1 (Nat.le_refl _)))

theorem ofDecimal_lt {cs : List UInt8} (hcs : ∀ c ∈ cs, isDigit c = true) (acc : ℕ) :
    ofDecimal acc cs < (acc + 1) * 10 ^ cs.length := by
  induction cs generalizing acc with
  | nil => simp
  | cons c cs ih =>
    rw [List.forall_mem_cons] at hcs
    have hdigit := isDigit_iff.1 hcs.1
    have hlt := ih hcs.2 (10 * acc + (c.toNat - 0x30))
    rw [ofDecimal_cons, List.length_cons]
    calc ofDecimal (10 * acc + (c.toNat - 0x30)) cs
        < (10 * acc + (c.toNat - 0x30) + 1) * 10 ^ cs.length := hlt
      _ ≤ (10 * (acc + 1)) * 10 ^ cs.length := Nat.mul_le_mul_right _ (by omega)
      _ = (acc + 1) * 10 ^ (cs.length + 1) := by ring

/-- The numeral of a number is not longer than the digits it is read from. -/
theorem length_decimal_ofDecimal_le {cs : List UInt8} (hcs : ∀ c ∈ cs, isDigit c = true)
    (hne : cs ≠ []) : (decimal (ofDecimal 0 cs)).length ≤ cs.length := by
  have hlt := ofDecimal_lt hcs 0
  rw [Nat.zero_add, Nat.one_mul] at hlt
  exact (length_decimal_le_iff (List.length_pos_iff.2 hne)).2 hlt

end Foundations

import Mathlib.Data.Nat.Digits.Lemmas
import WpiUtil.Foundations.Decimal

/-!
# Numerals in any base

Natural numbers as sequences of digits, the last of which has the value one. The numeral of zero has
no digits at all.
-/

namespace Foundations

variable {α : Type*}

/-- The numeral of `n` in base `b`. -/
def numeral (digit : ℕ → α) (b n : ℕ) : List α := (Nat.digits b n).reverse.map digit

/-- The number with the digits `ds` after those of `acc`. -/
def ofNumeral (b acc : ℕ) (ds : List ℕ) : ℕ := ds.foldl (fun n d => n * b + d) acc

@[simp] theorem ofNumeral_nil (b acc : ℕ) : ofNumeral b acc [] = acc := rfl

@[simp] theorem ofNumeral_cons (b acc d : ℕ) (ds : List ℕ) :
    ofNumeral b acc (d :: ds) = ofNumeral b (acc * b + d) ds := rfl

theorem ofNumeral_append (b acc : ℕ) (ds es : List ℕ) :
    ofNumeral b acc (ds ++ es) = ofNumeral b (ofNumeral b acc ds) es :=
  List.foldl_append

variable {digit : ℕ → α} {b n k : ℕ}

@[simp] theorem numeral_zero : numeral digit b 0 = [] := by
  rw [numeral, Nat.digits_zero, List.reverse_nil, List.map_nil]

/-- The last digit of a numeral. -/
theorem numeral_of_pos (hb : 1 < b) (hn : 0 < n) :
    numeral digit b n = numeral digit b (n / b) ++ [digit (n % b)] := by
  rw [numeral, Nat.digits_def' hb hn, List.reverse_cons, List.map_append, List.map_singleton,
    numeral]

/-- Induction on the digits of a numeral. -/
theorem numeral_induction (hb : 1 < b) {P : ℕ → Prop} (zero : P 0)
    (pos : ∀ n, 0 < n → P (n / b) → P n) (n : ℕ) : P n := by
  induction n using Nat.strongRecOn with
  | _ n ih =>
    rcases Nat.eq_zero_or_pos n with rfl | hn
    · exact zero
    · exact pos n hn (ih _ (Nat.div_lt_self hn hb))

theorem length_numeral_le_iff (hb : 1 < b) : (numeral digit b n).length ≤ k ↔ n < b ^ k := by
  rw [numeral, List.length_map, List.length_reverse]
  exact Nat.digits_length_le_iff hb n

theorem exists_of_mem_numeral (hb : 1 < b) {c : α} (h : c ∈ numeral digit b n) :
    ∃ d < b, c = digit d := by
  obtain ⟨d, hd, rfl⟩ := List.mem_map.1 h
  exact ⟨d, Nat.digits_lt_base hb (List.mem_reverse.1 hd), rfl⟩

theorem numeral_ne_nil (hb : 1 < b) (hn : 0 < n) : numeral digit b n ≠ [] := by
  rw [numeral_of_pos hb hn]
  exact List.append_ne_nil_of_right_ne_nil _ (List.cons_ne_nil _ _)

/-- The value of a numeral. -/
theorem ofNumeral_numeral (hb : 1 < b) (n : ℕ) : ofNumeral b 0 (numeral id b n) = n := by
  induction n using numeral_induction hb with
  | zero => rw [numeral_zero, ofNumeral_nil]
  | pos n hn ih =>
    rw [numeral_of_pos hb hn, ofNumeral_append, ih, ofNumeral_cons, ofNumeral_nil, id]
    exact Nat.div_add_mod' n b

theorem numeral_map {β : Type*} (f : α → β) : (numeral digit b n).map f = numeral (f ∘ digit) b n := by
  rw [numeral, numeral, List.map_map]

/-! ## ASCII digits -/

/-- The digit with value `d` below 36. -/
def digitByte (lowerCase : Bool) (d : ℕ) : UInt8 :=
  UInt8.ofNat (if d < 10 then 0x30 + d else (if lowerCase then 0x61 else 0x41) + d - 10)

/-- A number in base `b`: at least one digit. -/
def number (lowerCase : Bool) (b n : ℕ) : List UInt8 :=
  if n = 0 then [0x30] else numeral (digitByte lowerCase) b n

theorem number_of_ne_zero {lowerCase : Bool} (hn : n ≠ 0) :
    number lowerCase b n = numeral (digitByte lowerCase) b n := by
  rw [number, if_neg hn]

theorem numeral_ten (lowerCase : Bool) (hn : 0 < n) :
    numeral (digitByte lowerCase) 10 n = decimal n := by
  induction n using digits_induction with
  | lt n h =>
    rw [numeral_of_pos (by decide) hn, Nat.div_eq_of_lt h, numeral_zero, List.nil_append,
      Nat.mod_eq_of_lt h, decimal_of_lt h, digitByte, if_pos h, Nat.add_comm]
  | le n h ih =>
    have hmod : n % 10 < 10 := Nat.mod_lt n (by decide)
    rw [numeral_of_pos (by decide) hn, ih (by omega), decimal_of_le h, digitByte, if_pos hmod,
      Nat.add_comm 0x30]

/-- Numbers in base ten are the decimal numerals. -/
theorem number_ten (lowerCase : Bool) (n : ℕ) : number lowerCase 10 n = decimal n := by
  rw [number]
  split
  · next hn => rw [hn, decimal_of_lt (by decide)]; rfl
  · next hn => exact numeral_ten lowerCase (Nat.pos_of_ne_zero hn)

theorem length_number_le {lowerCase : Bool} (hb : 1 < b) (hk : 0 < k) (h : n < b ^ k) :
    (number lowerCase b n).length ≤ k := by
  rw [number]
  split
  · exact hk
  · exact (length_numeral_le_iff hb).2 h

/-! ## Reading -/

/-- The value of a digit, be it a lower case or an upper case letter. -/
def digitValue (c : UInt8) : Option ℕ :=
  if 0x30 ≤ c ∧ c ≤ 0x39 then some (c.toNat - 0x30)
  else if 0x61 ≤ c ∧ c ≤ 0x7a then some (c.toNat - 0x61 + 10)
  else if 0x41 ≤ c ∧ c ≤ 0x5a then some (c.toNat - 0x41 + 10)
  else none

/-- The number whose digits come after those of `acc`, if they are digits in base `b`. -/
def readNumeral (b acc : ℕ) : List UInt8 → Option ℕ
  | [] => some acc
  | c :: cs => (digitValue c).bind fun d => if d < b then readNumeral b (acc * b + d) cs else none

@[simp] theorem readNumeral_nil (b acc : ℕ) : readNumeral b acc [] = some acc := rfl

theorem readNumeral_cons_eq_some_iff {acc v : ℕ} {c : UInt8} {cs : List UInt8} :
    readNumeral b acc (c :: cs) = some v ↔
      ∃ d, digitValue c = some d ∧ d < b ∧ readNumeral b (acc * b + d) cs = some v := by
  rw [readNumeral, Option.bind_eq_some_iff]
  refine exists_congr fun d => and_congr_right fun _ => ?_
  split
  · next hd => exact (and_iff_right hd).symm
  · next hd => exact iff_of_false (fun h => by cases h) fun h => hd h.1

theorem le_of_readNumeral {acc v : ℕ} {cs : List UInt8} (hb : 0 < b)
    (h : readNumeral b acc cs = some v) : acc ≤ v := by
  induction cs generalizing acc with
  | nil =>
    cases h
    exact Nat.le_refl _
  | cons c cs ih =>
    obtain ⟨d, -, -, hrest⟩ := readNumeral_cons_eq_some_iff.1 h
    have hmul := Nat.le_mul_of_pos_right acc hb
    exact Nat.le_trans (by omega) (ih hrest)

theorem digitValue_lt {c : UInt8} {d : ℕ} (h : digitValue c = some d) : d < 36 := by
  rw [digitValue] at h
  simp only [UInt8.le_iff_toNat_le] at h
  split at h
  · next hc =>
    cases h
    have hle : c.toNat ≤ 0x39 := hc.2
    omega
  · split at h
    · next hc =>
      cases h
      have hle : c.toNat ≤ 0x7a := hc.2
      omega
    · split at h
      · next hc =>
        cases h
        have hle : c.toNat ≤ 0x5a := hc.2
        omega
      · cases h

theorem digitValue_digitByte (lowerCase : Bool) {d : ℕ} (hd : d < 36) :
    digitValue (digitByte lowerCase d) = some d := by
  have htable : ∀ lowerCase, ∀ d < 36, digitValue (digitByte lowerCase d) = some d := by decide
  exact htable lowerCase d hd

/-- The digits of `ds` are read one after the other. -/
theorem readNumeral_map {lowerCase : Bool} (hle : b ≤ 36) {ds : List ℕ} (h : ∀ d ∈ ds, d < b)
    (acc : ℕ) : readNumeral b acc (ds.map (digitByte lowerCase)) = some (ofNumeral b acc ds) := by
  induction ds generalizing acc with
  | nil => rfl
  | cons d ds ih =>
    rw [List.forall_mem_cons] at h
    rw [List.map_cons, readNumeral_cons_eq_some_iff]
    exact ⟨d, digitValue_digitByte lowerCase (Nat.lt_of_lt_of_le h.1 hle), h.1, ih h.2 _⟩

/-- A numeral is read back. -/
theorem readNumeral_numeral (lowerCase : Bool) (hb : 1 < b) (hle : b ≤ 36) (n : ℕ) :
    readNumeral b 0 (numeral (digitByte lowerCase) b n) = some n := by
  have hdigits : ∀ d ∈ numeral id b n, d < b := by
    intro d hd
    obtain ⟨d', hd', rfl⟩ := exists_of_mem_numeral hb hd
    exact hd'
  rw [← Function.comp_id (digitByte lowerCase), ← numeral_map, readNumeral_map hle hdigits,
    ofNumeral_numeral hb]

theorem readNumeral_number (lowerCase : Bool) (hb : 1 < b) (hle : b ≤ 36) (n : ℕ) :
    readNumeral b 0 (number lowerCase b n) = some n := by
  rw [number]
  split
  · next hn =>
    rw [hn, readNumeral_cons_eq_some_iff]
    exact ⟨0, rfl, by omega, by rw [Nat.zero_mul, readNumeral_nil]⟩
  · exact readNumeral_numeral lowerCase hb hle n

/-- Zeros before a numeral do not change it. -/
theorem readNumeral_zeros (hb : 0 < b) (k : ℕ) (cs : List UInt8) :
    readNumeral b 0 (List.replicate k 0x30 ++ cs) = readNumeral b 0 cs := by
  induction k with
  | zero => rfl
  | succ k ih =>
    have hzero : digitValue 0x30 = some 0 := rfl
    rw [List.replicate_succ, List.cons_append, readNumeral, hzero, Option.bind_some, if_pos hb,
      Nat.zero_mul, ih]

end Foundations

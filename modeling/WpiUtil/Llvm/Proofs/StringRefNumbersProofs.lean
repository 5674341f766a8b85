import WpiUtil.Foundations.Numerals
import WpiUtil.Llvm.Proofs.StringRefProofs
import WpiUtil.Llvm.StringRefNumbers

/-!
# Proofs: integers in a `StringRef`

In every radix the parsers accept the numerals whose value fits and give that value: shifting back
finds every overflow.
-/

namespace Wpi.StringRef

open Foundations

theorem toUInt64_sub {a c : Byte} (h : a ≤ c) (k : Nat) :
    (c - a).toUInt64 + UInt64.ofNat k = UInt64.ofNat (c.toNat - a.toNat + k) := by
  rw [UInt64.ofNat_add, ← UInt8.toNat_sub_of_le _ _ (UInt8.le_iff_toNat_le.1 h)]
  congr 1
  rw [← UInt64.toNat_inj, UInt8.toNat_toUInt64]
  have hlt := (c - a).toNat_lt
  exact (UInt64.toNat_ofNat_of_lt (Nat.lt_trans hlt (by decide))).symm

/-- The value of a digit as a word. -/
theorem charVal_eq (c : Byte) : charVal c = (digitValue c).map UInt64.ofNat := by
  rw [charVal, digitValue]
  split
  · next h =>
    rw [Option.map_some, ← Nat.add_zero (c.toNat - 0x30)]
    exact congrArg some ((UInt64.add_zero _).symm.trans (toUInt64_sub h.1 0))
  · split
    · next h => exact congrArg some (toUInt64_sub h.1 10)
    · split
      · next h => exact congrArg some (toUInt64_sub h.1 10)
      · rfl

/-- Shifting back finds an overflow, and nothing else. -/
theorem div_lt_iff_overflow {acc radix d : UInt64} (hd : d.toNat < radix.toNat) :
    (acc * radix + d) / radix < acc ↔ 2 ^ 64 ≤ acc.toNat * radix.toNat + d.toNat := by
  have hd' := d.toNat_lt
  rw [UInt64.lt_iff_toNat_lt, UInt64.toNat_div, UInt64.toNat_add, UInt64.toNat_mul,
    Nat.mod_add_mod]
  generalize acc.toNat = a at *
  generalize radix.toNat = r at *
  generalize d.toNat = d at *
  have hr : 0 < r := by omega
  constructor
  · intro hlt
    by_contra hsmall
    rw [Nat.mod_eq_of_lt (Nat.not_le.1 hsmall), Nat.mul_comm, Nat.mul_add_div hr,
      Nat.div_eq_of_lt hd] at hlt
    omega
  · intro hle
    rw [Nat.div_lt_iff_lt_mul hr]
    have hmod := Nat.mod_le (a * r + d - 2 ^ 64) (2 ^ 64)
    rw [← Nat.mod_eq_sub_mod hle] at hmod
    omega

/-- The loop reads digits, and sees every overflow. -/
theorem getAsUnsignedLoop_iff {radix : UInt64} (hradix : radix ≠ 0) {cs : List Byte}
    {acc n : UInt64} :
    getAsUnsignedLoop radix cs acc = some n ↔
      readNumeral radix.toNat acc.toNat cs = some n.toNat := by
  have hpos : 0 < radix.toNat := Nat.pos_of_ne_zero fun h => hradix (UInt64.toNat_inj.1 h)
  induction cs generalizing acc with
  | nil => rw [getAsUnsignedLoop, readNumeral_nil, Option.some.injEq, Option.some.injEq,
      UInt64.toNat_inj]
  | cons c cs ih =>
    rw [getAsUnsignedLoop, readNumeral, charVal_eq]
    cases hvalue : digitValue c with
    | none => exact iff_of_false (fun h => by cases h) fun h => by cases h
    | some d =>
      have hd : (UInt64.ofNat d).toNat = d :=
        UInt64.toNat_ofNat_of_lt (Nat.lt_trans (digitValue_lt hvalue) (by decide))
      simp only [Option.map_some, Option.bind_some, UInt64.le_iff_toNat_le, hd]
      by_cases hlt : d < radix.toNat
      · rw [if_neg (Nat.not_le.2 hlt), if_pos hlt]
        have hover : (acc * radix + UInt64.ofNat d) / radix < acc ↔ _ :=
          div_lt_iff_overflow (by rwa [hd])
        rw [hd] at hover
        split
        · next hback =>
          -- what has overflowed is larger than every word
          have hlarge := hover.1 hback
          refine iff_of_false (fun h => by cases h) fun h => ?_
          have hle := le_of_readNumeral hpos h
          have hn := n.toNat_lt
          omega
        · next hback =>
          have hsmall := mt hover.2 hback
          have hresult : (acc * radix + UInt64.ofNat d).toNat = acc.toNat * radix.toNat + d := by
            rw [UInt64.toNat_add, UInt64.toNat_mul, Nat.mod_add_mod, hd,
              Nat.mod_eq_of_lt (Nat.not_le.1 hsmall)]
          rw [← hresult]
          exact ih
      · rw [if_pos (Nat.not_lt.1 hlt), if_neg hlt]
        exact iff_of_false (fun h => by cases h) fun h => by cases h

/-- A radix other than zero is taken as it is. -/
theorem getAsUnsignedInteger_iff {str : List Byte} {radix n : UInt64} (hradix : radix ≠ 0) :
    getAsUnsignedInteger str radix = some n ↔
      str ≠ [] ∧ readNumeral radix.toNat 0 str = some n.toNat := by
  rw [getAsUnsignedInteger]
  split
  · next hnil => exact iff_of_false (fun h => by cases h) fun h => h.1 hnil
  · next hne =>
    rw [getAsUnsignedLoop_iff hradix]
    exact (and_iff_right hne).symm

theorem getAutoSenseRadix_ne_zero (str : List Byte) : (getAutoSenseRadix str).1 ≠ 0 := by
  rw [getAutoSenseRadix]
  split
  · exact (by decide : (16 : UInt64) ≠ 0)
  · split
    · exact (by decide : (2 : UInt64) ≠ 0)
    · split
      · exact (by decide : (8 : UInt64) ≠ 0)
      · split
        · exact (by decide : (8 : UInt64) ≠ 0)
        · exact (by decide : (10 : UInt64) ≠ 0)

theorem getAutoSenseRadix_zero {digits : List Byte}
    (hletter : ∀ x ∈ digits.head?, x ∉ ([0x78, 0x58, 0x62, 0x42, 0x6f] : List Byte)) :
    getAutoSenseRadix (0x30 :: digits) = (8, 0x30 :: digits) := by
  cases digits with
  | nil => rfl
  | cons x digits =>
    have hx := hletter x rfl
    simp only [List.mem_cons, List.not_mem_nil, or_false, not_or] at hx
    obtain ⟨hx, hX, hb, hB, ho⟩ := hx
    simp [getAutoSenseRadix, startswith, Ne.symm hx, Ne.symm hX, Ne.symm hb, Ne.symm hB, Ne.symm ho]

theorem getAutoSenseRadix_decimal {digits : List Byte} (hzero : digits.head? ≠ some 0x30) :
    getAutoSenseRadix digits = (10, digits) := by
  cases digits with
  | nil => rfl
  | cons a digits =>
    have ha : ¬ (0x30 : Byte) = a := fun h => hzero (congrArg some h.symm)
    simp [getAutoSenseRadix, startswith, ha]

/-- The radix that is found is the one that the text asks for. -/
theorem AsksFor.eq_getAutoSenseRadix {str digits : List Byte} {base : Nat}
    (h : AsksFor str base digits) :
    base = (getAutoSenseRadix str).1.toNat ∧ digits = (getAutoSenseRadix str).2 := by
  cases h with
  | hexadecimal hx => rcases hx with rfl | rfl <;> exact ⟨rfl, rfl⟩
  | binary hx => rcases hx with rfl | rfl <;> exact ⟨rfl, rfl⟩
  | octal => exact ⟨rfl, rfl⟩
  | zero hletter =>
    rw [getAutoSenseRadix_zero hletter]
    exact ⟨rfl, rfl⟩
  | decimal hzero =>
    rw [getAutoSenseRadix_decimal hzero]
    exact ⟨rfl, rfl⟩

/-- Every text asks for a radix. -/
theorem exists_asksFor (str : List Byte) : ∃ base digits, AsksFor str base digits := by
  by_cases hzero : str.head? = some 0x30
  · obtain ⟨digits, rfl⟩ := List.head?_eq_some_iff.1 hzero
    by_cases hletter : ∀ x ∈ digits.head?, x ∉ ([0x78, 0x58, 0x62, 0x42, 0x6f] : List Byte)
    · exact ⟨_, _, .zero hletter⟩
    · push Not at hletter
      obtain ⟨x, hhead, hx⟩ := hletter
      obtain ⟨digits, rfl⟩ := List.head?_eq_some_iff.1 hhead
      simp only [List.mem_cons, List.not_mem_nil, or_false] at hx
      rcases hx with rfl | rfl | rfl | rfl | rfl
      · exact ⟨_, _, .hexadecimal (Or.inl rfl) digits⟩
      · exact ⟨_, _, .hexadecimal (Or.inr rfl) digits⟩
      · exact ⟨_, _, .binary (Or.inl rfl) digits⟩
      · exact ⟨_, _, .binary (Or.inr rfl) digits⟩
      · exact ⟨_, _, .octal digits⟩
  · exact ⟨_, _, .decimal hzero⟩

theorem parseUnsigned_eq_some_iff {str : List Byte} {radix n : UInt64} :
    parseUnsigned str radix = some n ↔ HasValue str radix n.toNat := by
  rw [parseUnsigned, HasValue]
  split
  · rw [getAsUnsignedInteger_iff (getAutoSenseRadix_ne_zero str)]
    constructor
    · intro h
      obtain ⟨base, digits, hasks⟩ := exists_asksFor str
      refine ⟨base, digits, hasks, ?_⟩
      obtain ⟨rfl, rfl⟩ := hasks.eq_getAutoSenseRadix
      exact h
    · rintro ⟨base, digits, hasks, h⟩
      obtain ⟨rfl, rfl⟩ := hasks.eq_getAutoSenseRadix
      exact h
  · next hradix =>
    rw [getAsUnsignedInteger_iff hradix]
    constructor
    · exact fun h => ⟨_, _, ⟨rfl, rfl⟩, h⟩
    · rintro ⟨base, digits, ⟨rfl, rfl⟩, h⟩
      exact h

/-- The negated word is taken if it is not positive. -/
theorem negated_eq_some_iff {value : UInt64} {n : Int64} :
    (if 0 < (-value).toInt64 then none else some (-value).toInt64) = some n ↔
      n.toInt = -(value.toNat : Int) := by
  have hn := n.le_toInt
  constructor
  · intro h
    split at h
    · cases h
    · next hsign =>
      cases h
      exact toInt_toInt64_neg_of_le ((not_toInt64_pos_iff value).1 hsign)
  · intro hint
    have hle : value.toNat ≤ 2 ^ 63 := by omega
    rw [if_neg ((not_toInt64_pos_iff value).2 hle), Option.some.injEq, ← Int64.toInt_inj,
      toInt_toInt64_neg_of_le hle, hint]

/-- The word is taken if it is not negative. -/
theorem signed_eq_some_iff {value : UInt64} {n : Int64} :
    (if value.toInt64 < 0 then none else some value.toInt64) = some n ↔
      n.toInt = (value.toNat : Int) := by
  have hn := n.toInt_lt
  constructor
  · intro h
    split at h
    · cases h
    · next hsign =>
      cases h
      exact toInt_toInt64_of_lt ((not_toInt64_neg_iff value).1 hsign)
  · intro hint
    have hlt : value.toNat < 2 ^ 63 := by omega
    rw [if_neg ((not_toInt64_neg_iff value).2 hlt), Option.some.injEq, ← Int64.toInt_inj,
      toInt_toInt64_of_lt hlt, hint]

/-- A value below `2 ^ 64` is that of a word. -/
theorem exists_parseUnsigned_iff {str : List Byte} {radix : UInt64} {P : Nat → Prop}
    (hP : ∀ v, P v → v < 2 ^ 64) :
    (∃ value, parseUnsigned str radix = some value ∧ P value.toNat) ↔
      ∃ v, HasValue str radix v ∧ P v := by
  constructor
  · rintro ⟨value, hvalue, hp⟩
    exact ⟨value.toNat, parseUnsigned_eq_some_iff.1 hvalue, hp⟩
  · rintro ⟨v, hv, hp⟩
    have hword : (UInt64.ofNat v).toNat = v := UInt64.toNat_ofNat_of_lt' (hP v hp)
    refine ⟨UInt64.ofNat v, parseUnsigned_eq_some_iff.2 ?_, ?_⟩
    · rwa [hword]
    · rwa [hword]

theorem parseSigned_eq_some_iff {str : List Byte} {radix : UInt64} {n : Int64} :
    parseSigned str radix = some n ↔ ∃ v : Nat, HasValue (unsignedPart str) radix v ∧
      n.toInt = if str.head? = some 0x2d then -(v : Int) else v := by
  have hn := n.toInt_lt
  have hn' := n.le_toInt
  rw [parseSigned, unsignedPart]
  by_cases hhead : str.head? = some 0x2d
  · rw [if_neg (not_not.2 hhead), if_pos hhead]
    simp only [if_pos hhead]
    rw [← exists_parseUnsigned_iff (P := fun v => n.toInt = -(v : Int)) (fun v hv => by omega)]
    cases hvalue : parseUnsigned str.tail radix with
    | none => simp
    | some value => simp only [negated_eq_some_iff, Option.some.injEq, exists_eq_left']
  · rw [if_pos hhead, if_neg hhead]
    simp only [if_neg hhead]
    rw [← exists_parseUnsigned_iff (P := fun v => n.toInt = (v : Int)) (fun v hv => by omega)]
    cases hvalue : parseUnsigned str radix with
    | none => simp
    | some value => simp only [signed_eq_some_iff, Option.some.injEq, exists_eq_left']

/-- The parsers of integers: a text is accepted if and only if it is a numeral in the radix that is
given or asked for, after a minus sign if it is to be negative, and its value fits. -/
theorem integers_parsed (str : List Byte) (radix : UInt64) :
    (∀ n, parseUnsigned str radix = some n ↔ HasValue str radix n.toNat) ∧
    (∀ n, parseSigned str radix = some n ↔ ∃ v : Nat, HasValue (unsignedPart str) radix v ∧
      n.toInt = if str.head? = some 0x2d then -(v : Int) else v) :=
  ⟨fun _ => parseUnsigned_eq_some_iff, fun _ => parseSigned_eq_some_iff⟩

/-- A text without a prefix. -/
theorem hasValue_of_readNumeral {str : List Byte} {radix : UInt64} {v : Nat} (hradix : radix ≠ 0)
    (hne : str ≠ []) (h : readNumeral radix.toNat 0 str = some v) : HasValue str radix v := by
  refine ⟨radix.toNat, str, ?_, hne, h⟩
  rw [if_neg hradix]
  exact ⟨rfl, rfl⟩

/-- A text that says that it is hexadecimal. -/
theorem hasValue_hexadecimal {str : List Byte} {v : Nat} (hne : str ≠ [])
    (h : readNumeral 16 0 str = some v) : HasValue ([0x30, 0x78] ++ str) 0 v := by
  refine ⟨16, str, ?_, hne, h⟩
  rw [if_pos rfl]
  exact .hexadecimal (Or.inl rfl) str

end Wpi.StringRef

import WpiUtil.Foundations.Decimal
import WpiUtil.Llvm.StringRef

/-!
# Splitting strings
-/

namespace Wpi.StringRef

open Foundations

/-! ## Around the first separator -/

theorem find_of_not_mem {s : List Byte} {c : Byte} (h : c ∉ s) : find s c = none := by
  rw [find, List.findIdx?_eq_none_iff]
  intro a ha
  rw [beq_eq_false_iff_ne]
  rintro rfl
  exact h ha

theorem find_append_cons {x : List Byte} {c : Byte} (h : c ∉ x) (y : List Byte) :
    find (x ++ c :: y) c = some x.length := by
  induction x with
  | nil => simp [find, List.findIdx?_cons]
  | cons a x ih =>
    rw [List.mem_cons, not_or] at h
    have hne : (a == c) = false := beq_eq_false_iff_ne.2 (Ne.symm h.1)
    have hrest := ih h.2
    rw [find] at hrest
    rw [find, List.cons_append, List.findIdx?_cons, hne, hrest]
    rfl

theorem split_of_not_mem {s : List Byte} {c : Byte} (h : c ∉ s) : split s c = (s, []) := by
  rw [split, find_of_not_mem h]

theorem split_append_cons {x : List Byte} {c : Byte} (h : c ∉ x) (y : List Byte) :
    split (x ++ c :: y) c = (x, y) := by
  rw [split, find_append_cons h]
  simp

/-- The first separator, if there is one. -/
theorem exists_first_of_mem {s : List Byte} {c : Byte} (h : c ∈ s) :
    ∃ x y, s = x ++ c :: y ∧ c ∉ x := by
  obtain ⟨x, y, hs, hx⟩ := List.eq_append_cons_of_mem h
  exact ⟨x, y, hs, hx⟩

theorem split_cases (s : List Byte) (c : Byte) :
    c ∉ s ∧ split s c = (s, []) ∨ ∃ x y, s = x ++ c :: y ∧ c ∉ x ∧ split s c = (x, y) := by
  by_cases h : c ∈ s
  · obtain ⟨x, y, rfl, hx⟩ := exists_first_of_mem h
    exact Or.inr ⟨x, y, rfl, hx, split_append_cons hx y⟩
  · exact Or.inl ⟨h, split_of_not_mem h⟩

theorem not_mem_split_fst (s : List Byte) (c : Byte) : c ∉ (split s c).1 := by
  rcases split_cases s c with ⟨hs, heq⟩ | ⟨x, y, -, hx, heq⟩
  · rwa [heq]
  · rwa [heq]

theorem mem_of_mem_split_fst {s : List Byte} {c a : Byte} (h : a ∈ (split s c).1) : a ∈ s := by
  rcases split_cases s c with ⟨-, heq⟩ | ⟨x, y, rfl, -, heq⟩
  · rwa [heq] at h
  · rw [heq] at h
    exact List.mem_append_left _ h

/-- What comes before the first separator. -/
theorem split_fst (s : List Byte) (c : Byte) : (split s c).1 = s.takeWhile fun a => a != c := by
  rcases split_cases s c with ⟨hs, heq⟩ | ⟨x, y, rfl, hx, heq⟩
  · rw [heq, List.takeWhile_eq_self_iff.2]
    intro a ha
    rw [bne_iff_ne]
    rintro rfl
    exact hs ha
  · rw [heq, List.takeWhile_append_of_pos, List.takeWhile_cons_of_neg (by simp), List.append_nil]
    intro a ha
    rw [bne_iff_ne]
    rintro rfl
    exact hx ha

theorem split_snd (s : List Byte) (c : Byte) :
    (split s c).2 = (s.dropWhile fun a => a != c).tail := by
  rcases split_cases s c with ⟨hs, heq⟩ | ⟨x, y, rfl, hx, heq⟩
  · rw [heq, List.dropWhile_eq_nil_iff.2]
    · rfl
    · intro a ha
      rw [bne_iff_ne]
      rintro rfl
      exact hs ha
  · rw [heq, List.dropWhile_append_of_pos, List.dropWhile_cons_of_neg (by simp), List.tail_cons]
    intro a ha
    rw [bne_iff_ne]
    rintro rfl
    exact hx ha

/-! ## Around the last separator -/

theorem rsplit_of_not_mem {s : List Byte} {c : Byte} (h : c ∉ s) : rsplit s c = (s, []) := by
  rw [rsplit, rfind, find_of_not_mem (by rwa [List.mem_reverse])]
  rfl

theorem rsplit_append_cons (x : List Byte) {c : Byte} {y : List Byte} (h : c ∉ y) :
    rsplit (x ++ c :: y) c = (x, y) := by
  have hreverse : (x ++ c :: y).reverse = y.reverse ++ c :: x.reverse := by simp
  rw [rsplit, rfind, hreverse, find_append_cons (by rwa [List.mem_reverse]), Option.map_some]
  simp

theorem rsplit_cases (s : List Byte) (c : Byte) :
    c ∉ s ∧ rsplit s c = (s, []) ∨ ∃ x y, s = x ++ c :: y ∧ c ∉ y ∧ rsplit s c = (x, y) := by
  by_cases h : c ∈ s
  · obtain ⟨y, x, hs, hy⟩ := exists_first_of_mem (List.mem_reverse.2 h)
    have hsplit : s = x.reverse ++ c :: y.reverse := by
      rw [← List.reverse_reverse s, hs]
      simp
    rw [← List.mem_reverse] at hy
    exact Or.inr ⟨x.reverse, y.reverse, hsplit, hy, by rw [hsplit, rsplit_append_cons _ hy]⟩
  · exact Or.inl ⟨h, rsplit_of_not_mem h⟩

theorem mem_of_mem_rsplit_fst {s : List Byte} {c a : Byte} (h : a ∈ (rsplit s c).1) : a ∈ s := by
  rcases rsplit_cases s c with ⟨-, heq⟩ | ⟨x, y, rfl, -, heq⟩
  · rwa [heq] at h
  · rw [heq] at h
    exact List.mem_append_left _ h

theorem mem_rsplit_of_mem {s : List Byte} {c a : Byte} (h : a ∈ s) (hne : a ≠ c) :
    a ∈ (rsplit s c).1 ∨ a ∈ (rsplit s c).2 := by
  rcases rsplit_cases s c with ⟨-, heq⟩ | ⟨x, y, rfl, -, heq⟩
  · rw [heq]
    exact Or.inl h
  · rw [heq]
    rw [List.mem_append, List.mem_cons] at h
    rcases h with h | h | h
    · exact Or.inl h
    · exact absurd h hne
    · exact Or.inr h

theorem mem_split_of_mem {s : List Byte} {c a : Byte} (h : a ∈ s) (hne : a ≠ c) :
    a ∈ (split s c).1 ∨ a ∈ (split s c).2 := by
  rcases split_cases s c with ⟨-, heq⟩ | ⟨x, y, rfl, -, heq⟩
  · rw [heq]
    exact Or.inl h
  · rw [heq]
    rw [List.mem_append, List.mem_cons] at h
    rcases h with h | h | h
    · exact Or.inl h
    · exact absurd h hne
    · exact Or.inr h

/-! ## Integers -/

theorem isSome_charVal_of_mem {radix : UInt64} {str : List Byte} {value n : UInt64}
    (h : getAsUnsignedLoop radix str value = some n) {c : Byte} (hc : c ∈ str) :
    (charVal c).isSome = true := by
  induction str generalizing value with
  | nil => cases hc
  | cons a str ih =>
    rw [getAsUnsignedLoop] at h
    cases ha : charVal a with
    | none =>
      rw [ha] at h
      cases h
    | some digit =>
      rw [ha] at h
      dsimp only at h
      split_ifs at h
      rcases List.mem_cons.1 hc with rfl | hc
      · rw [ha]
        rfl
      · exact ih h hc

/-- There are only digits, letters and a sign in an integer. -/
theorem mem_of_getAsInteger {str : List Byte} {radix : UInt64} {n : Int32}
    (h : getAsInteger str radix = some n) {c : Byte} (hc : c ∈ str) :
    (charVal c).isSome = true ∨ c = 0x2d := by
  have hunsigned : ∀ {s : List Byte} {value : UInt64},
      getAsUnsignedInteger s radix = some value → c ∈ s → (charVal c).isSome = true := by
    intro s value hvalue hmem
    rw [getAsUnsignedInteger] at hvalue
    split_ifs at hvalue
    exact isSome_charVal_of_mem hvalue hmem
  rw [getAsInteger] at h
  cases hsigned : getAsSignedInteger str radix with
  | none =>
    rw [hsigned] at h
    cases h
  | some value =>
    rw [getAsSignedInteger] at hsigned
    split_ifs at hsigned with hhead
    · cases hvalue : getAsUnsignedInteger str radix with
      | none =>
        rw [hvalue] at hsigned
        cases hsigned
      | some value => exact Or.inl (hunsigned hvalue hc)
    · cases hvalue : getAsUnsignedInteger str.tail radix with
      | none =>
        rw [hvalue] at hsigned
        cases hsigned
      | some value =>
        obtain ⟨a, str, rfl⟩ := List.exists_cons_of_ne_nil (List.ne_nil_of_mem hc)
        rw [List.head?_cons, not_not, Option.some.injEq] at hhead
        rcases List.mem_cons.1 hc with rfl | hc
        · exact Or.inr hhead
        · exact Or.inl (hunsigned hvalue hc)

theorem charVal_of_isDigit {c : Byte} (h : isDigit c = true) :
    ∃ value, charVal c = some value ∧ value.toNat = c.toNat - 0x30 ∧ value.toNat < 10 := by
  obtain ⟨hle, hge⟩ := isDigit_iff.1 h
  have hsub : (c - 0x30).toNat = c.toNat - 0x30 := UInt8.toNat_sub_of_le _ _ hle
  refine ⟨(c - 0x30).toUInt64, ?_, ?_, ?_⟩
  · rw [charVal, if_pos ⟨UInt8.le_iff_toNat_le.2 hle, UInt8.le_iff_toNat_le.2 hge⟩]
  · rw [UInt8.toNat_toUInt64, hsub]
  · rw [UInt8.toNat_toUInt64, hsub]
    omega

/-- The loop does not see an overflow when there is none. -/
theorem getAsUnsignedLoop_ten {cs : List Byte} {acc : UInt64} (hcs : ∀ c ∈ cs, isDigit c = true)
    (hlt : ofDecimal acc.toNat cs < 2 ^ 64) :
    getAsUnsignedLoop 10 cs acc = some (UInt64.ofNat (ofDecimal acc.toNat cs)) := by
  induction cs generalizing acc with
  | nil => rw [getAsUnsignedLoop, ofDecimal_nil, UInt64.ofNat_toNat]
  | cons c cs ih =>
    rw [List.forall_mem_cons] at hcs
    obtain ⟨value, hvalue, hnat, hdigit⟩ := charVal_of_isDigit hcs.1
    rw [ofDecimal_cons, ← hnat] at hlt ⊢
    have hle := le_ofDecimal (10 * acc.toNat + value.toNat) cs
    have hresult : (acc * 10 + value).toNat = 10 * acc.toNat + value.toNat := by
      rw [UInt64.toNat_add, UInt64.toNat_mul, show (10 : UInt64).toNat = 10 from rfl]
      omega
    have hradix : ¬(10 : UInt64) ≤ value := by
      rw [UInt64.le_iff_toNat_le, show (10 : UInt64).toNat = 10 from rfl]
      omega
    have hback : ¬(acc * 10 + value) / 10 < acc := by
      rw [UInt64.lt_iff_toNat_lt, UInt64.toNat_div, hresult, show (10 : UInt64).toNat = 10 from rfl]
      omega
    rw [getAsUnsignedLoop, hvalue]
    dsimp only
    rw [if_neg hradix, if_neg hback, ← hresult]
    exact ih hcs.2 (hresult ▸ hlt)

theorem isDigit_of_charVal {c : Byte} {value : UInt64} (h : charVal c = some value)
    (hlt : ¬(10 : UInt64) ≤ value) : isDigit c = true := by
  have hletter : ∀ x : UInt8, (10 : UInt64) ≤ x.toUInt64 + 10 := by
    intro x
    have hx := x.toNat_lt
    rw [UInt64.le_iff_toNat_le, UInt64.toNat_add, UInt8.toNat_toUInt64,
      show (10 : UInt64).toNat = 10 from rfl]
    omega
  rw [charVal] at h
  split_ifs at h with hdigit
  · rw [isDigit, Bool.and_eq_true, decide_eq_true_iff, decide_eq_true_iff]
    exact hdigit
  · cases h
    exact absurd (hletter _) hlt
  · cases h
    exact absurd (hletter _) hlt

/-- The loop reads digits, and sees every overflow. -/
theorem getAsUnsignedLoop_ten_iff {cs : List Byte} {acc n : UInt64} :
    getAsUnsignedLoop 10 cs acc = some n ↔
      (∀ c ∈ cs, isDigit c = true) ∧ n.toNat = ofDecimal acc.toNat cs := by
  constructor
  · intro h
    induction cs generalizing acc with
    | nil =>
      cases h
      exact ⟨fun c hc => (nomatch hc), rfl⟩
    | cons c cs ih =>
      rw [getAsUnsignedLoop] at h
      cases hvalue : charVal c with
      | none =>
        rw [hvalue] at h
        cases h
      | some value =>
        rw [hvalue] at h
        dsimp only at h
        split_ifs at h with hradix hback
        have hdigit := isDigit_of_charVal hvalue hradix
        obtain ⟨value', hvalue', hnat, hlt⟩ := charVal_of_isDigit hdigit
        obtain rfl : value = value' := Option.some.inj (hvalue.symm.trans hvalue')
        have hacc := acc.toNat_lt
        -- what is lost by wrapping is a multiple of 2 ^ 64, more than the digit adds
        have hresult : (acc * 10 + value).toNat = 10 * acc.toNat + value.toNat := by
          rw [UInt64.lt_iff_toNat_lt, UInt64.toNat_div] at hback
          rw [UInt64.toNat_add, UInt64.toNat_mul] at hback ⊢
          rw [show (10 : UInt64).toNat = 10 from rfl] at hback ⊢
          omega
        obtain ⟨hcs, hn⟩ := ih h
        rw [hresult, hnat] at hn
        rw [ofDecimal_cons, List.forall_mem_cons]
        exact ⟨⟨hdigit, hcs⟩, hn⟩
  · rintro ⟨hcs, hn⟩
    rw [getAsUnsignedLoop_ten hcs (hn ▸ n.toNat_lt), ← hn, UInt64.ofNat_toNat]

theorem getAsUnsignedInteger_ten_iff {str : List Byte} {n : UInt64} :
    getAsUnsignedInteger str 10 = some n ↔
      (str ≠ [] ∧ ∀ c ∈ str, isDigit c = true) ∧ n.toNat = ofDecimal 0 str := by
  rw [getAsUnsignedInteger]
  split_ifs with hnil
  · exact iff_of_false (fun h => nomatch h) fun h => h.1.1 hnil
  · rw [getAsUnsignedLoop_ten_iff, show (0 : UInt64).toNat = 0 from rfl]
    exact ⟨fun h => ⟨⟨hnil, h.1⟩, h.2⟩, fun h => ⟨h.1.2, h.2⟩⟩

/-- A word that stands for a signed value, as an integer. -/
theorem toInt_toInt64 (value : UInt64) : value.toInt64.toInt =
    if value.toNat < 2 ^ 63 then (value.toNat : Int) else (value.toNat : Int) - 2 ^ 64 := by
  have hlt := value.toNat_lt
  rw [← Int64.toInt_toBitVec, UInt64.toBitVec_toInt64, BitVec.toInt_eq_toNat_cond,
    UInt64.toNat_toBitVec]
  split_ifs with h1 h2 h2
  · rfl
  · omega
  · omega
  · norm_num

theorem toInt_toInt64_of_lt {value : UInt64} (h : value.toNat < 2 ^ 63) :
    value.toInt64.toInt = value.toNat := by
  rw [toInt_toInt64, if_pos h]

theorem toInt_toInt64_neg_of_le {value : UInt64} (h : value.toNat ≤ 2 ^ 63) :
    (-value).toInt64.toInt = -value.toNat := by
  have hneg : (-value).toNat = (2 ^ 64 - value.toNat) % 2 ^ 64 := UInt64.toNat_neg value
  rw [toInt_toInt64, hneg]
  split_ifs with hsmall
  · omega
  · omega

/-- The check of a word that is too large for a positive value. -/
theorem not_toInt64_neg_iff (value : UInt64) : ¬value.toInt64 < 0 ↔ value.toNat < 2 ^ 63 := by
  have hlt := value.toNat_lt
  rw [Int64.lt_iff_toInt_lt, toInt_toInt64, show (0 : Int64).toInt = 0 from rfl]
  split_ifs with hsmall
  · exact iff_of_true (by omega) hsmall
  · exact iff_of_false (by omega) hsmall

/-- The check of a word that is too large for the amount of a negative value. -/
theorem not_toInt64_pos_iff (value : UInt64) : ¬0 < (-value).toInt64 ↔ value.toNat ≤ 2 ^ 63 := by
  have hlt := value.toNat_lt
  have hneg : (-value).toNat = (2 ^ 64 - value.toNat) % 2 ^ 64 := UInt64.toNat_neg value
  rw [Int64.lt_iff_toInt_lt, toInt_toInt64, hneg, show (0 : Int64).toInt = 0 from rfl]
  split_ifs with hsmall
  · by_cases hzero : value.toNat = 0
    · exact iff_of_true (by omega) (by omega)
    · exact iff_of_false (by omega) (by omega)
  · exact iff_of_true (by omega) (by omega)

theorem getAsSignedInteger_ten_iff {str : List Byte} {n : Int64} :
    getAsSignedInteger str 10 = some n ↔ IsInteger str ∧ n.toInt = ofInteger str := by
  have hn := n.toInt_lt
  have hn' := n.le_toInt
  have hword : ∀ {m : Nat}, m < 2 ^ 64 → (UInt64.ofNat m).toNat = m :=
    fun hm => UInt64.toNat_ofNat_of_lt' hm
  rw [getAsSignedInteger, IsInteger, unsignedPart, ofInteger]
  by_cases hhead : str.head? = some 0x2d
  · rw [if_neg (not_not.2 hhead), if_pos hhead, if_pos hhead]
    constructor
    · intro h
      cases hvalue : getAsUnsignedInteger str.tail 10 with
      | none =>
        rw [hvalue] at h
        cases h
      | some value =>
        rw [hvalue] at h
        dsimp only at h
        split_ifs at h with hsign
        cases h
        obtain ⟨hdigits, hnat⟩ := getAsUnsignedInteger_ten_iff.1 hvalue
        rw [← hnat]
        exact ⟨hdigits, toInt_toInt64_neg_of_le ((not_toInt64_pos_iff value).1 hsign)⟩
    · rintro ⟨hdigits, hint⟩
      have hnat := hword (m := ofDecimal 0 str.tail) (by omega)
      have hle : (UInt64.ofNat (ofDecimal 0 str.tail)).toNat ≤ 2 ^ 63 := by
        rw [hnat]
        omega
      rw [getAsUnsignedInteger_ten_iff.2 ⟨hdigits, hnat⟩]
      dsimp only
      rw [if_neg ((not_toInt64_pos_iff _).2 hle), Option.some.injEq, ← Int64.toInt_inj,
        toInt_toInt64_neg_of_le hle, hnat, hint]
  · rw [if_pos hhead, if_neg hhead, if_neg hhead]
    constructor
    · intro h
      cases hvalue : getAsUnsignedInteger str 10 with
      | none =>
        rw [hvalue] at h
        cases h
      | some value =>
        rw [hvalue] at h
        dsimp only at h
        split_ifs at h with hsign
        cases h
        obtain ⟨hdigits, hnat⟩ := getAsUnsignedInteger_ten_iff.1 hvalue
        rw [← hnat]
        exact ⟨hdigits, toInt_toInt64_of_lt ((not_toInt64_neg_iff value).1 hsign)⟩
    · rintro ⟨hdigits, hint⟩
      have hnat := hword (m := ofDecimal 0 str) (by omega)
      have hlt : (UInt64.ofNat (ofDecimal 0 str)).toNat < 2 ^ 63 := by
        rw [hnat]
        omega
      rw [getAsUnsignedInteger_ten_iff.2 ⟨hdigits, hnat⟩]
      dsimp only
      rw [if_neg ((not_toInt64_neg_iff _).2 hlt), Option.some.injEq, ← Int64.toInt_inj,
        toInt_toInt64_of_lt hlt, hnat, hint]

/-- The integers that are read, and their values. -/
theorem getAsInteger_ten_iff {str : List Byte} {n : Int32} :
    getAsInteger str 10 = some n ↔ IsInteger str ∧ n.toInt = ofInteger str := by
  have hvalue : getAsInteger str 10 = some n ↔
      getAsSignedInteger str 10 = some n.toInt64 := by
    rw [getAsInteger]
    cases hsigned : getAsSignedInteger str 10 with
    | none => exact iff_of_false (fun h => nomatch h) fun h => nomatch h
    | some value =>
      dsimp only
      constructor
      · intro h
        split_ifs at h with hback
        cases h
        rw [not_not.1 hback]
      · intro h
        cases h
        rw [Int32.toInt32_toInt64, if_neg (not_not.2 rfl)]
  rw [hvalue, getAsSignedInteger_ten_iff, Int32.toInt_toInt64]

theorem getAsInteger_decimal {n : Nat} (h : n < 2 ^ 31) :
    getAsInteger (decimal n) 10 = some (Int32.ofNat n) := by
  have hdigits : ∀ c ∈ decimal n, isDigit c = true := fun c hc => isDigit_of_mem_decimal hc
  have hhead : (decimal n).head? ≠ some 0x2d := by
    intro heq
    have hmem := hdigits 0x2d (List.mem_of_mem_head? heq)
    exact absurd hmem (by decide)
  rw [getAsInteger_ten_iff, IsInteger, unsignedPart, ofInteger, if_neg hhead, if_neg hhead,
    ofDecimal_decimal, Int32.toInt_ofNat_of_lt h]
  exact ⟨⟨decimal_ne_nil n, hdigits⟩, rfl⟩

end Wpi.StringRef

import Mathlib.Data.Bool.AllAny
import Mathlib.Data.List.GetD
import WpiUtil.Support.HttpLocation

/-!
# `EscapeURI` and `UnescapeURI`

Escaped text has no character that separates the parts of a URL, and unescaping gives back what was
escaped.
-/

namespace Wpi

/-- The characters of escaped text. -/
def isEscaped (c : Byte) : Bool := isalnum c || (bytes "-_.~%+").contains c

theorem isEscaped_hexLut {i : Nat} (h : i < 16) : isEscaped (hexLut.getD i 0) = true := by
  have htable : ∀ c ∈ hexLut, isEscaped c = true := List.all_iff_forall_prop.1 (by decide)
  have hlength : i < hexLut.length := h
  rw [List.getD_eq_getElem _ _ hlength]
  exact htable _ (List.getElem_mem hlength)

theorem toNat_shiftRight_four (c : Byte) : (c >>> 4).toNat = c.toNat / 16 := by
  rw [UInt8.toNat_shiftRight, show (4 : Byte).toNat % 8 = 4 from rfl, Nat.shiftRight_eq_div_pow]

theorem toNat_and_low (c : Byte) : (c &&& 0x0f).toNat = c.toNat % 16 := by
  rw [UInt8.toNat_and]
  exact Nat.and_two_pow_sub_one_eq_mod c.toNat 4

theorem isEscaped_escapeURIChar (spacePlus : Bool) (a : Byte) :
    ∀ c ∈ escapeURIChar spacePlus a, isEscaped c = true := by
  have hlt := a.toNat_lt
  unfold escapeURIChar
  split_ifs with hpass
  · rw [List.forall_mem_singleton]
    rw [Bool.or_eq_true] at hpass
    rcases hpass with halnum | hmark
    · rw [isEscaped, halnum, Bool.true_or]
    · have htable : ∀ c ∈ bytes "-_.~", isEscaped c = true := List.all_iff_forall_prop.1 (by decide)
      exact htable a (List.contains_iff_mem.1 hmark)
  · exact List.all_iff_forall_prop.1 (by decide)
  · simp only [List.forall_mem_cons]
    refine ⟨by decide, isEscaped_hexLut ?_, isEscaped_hexLut ?_, fun c hc => nomatch hc⟩
    · rw [toNat_shiftRight_four]
      omega
    · rw [toNat_and_low]
      omega

theorem isEscaped_of_mem {str : List Byte} {spacePlus : Bool} {c : Byte}
    (hc : c ∈ escapeURI str spacePlus) : isEscaped c = true := by
  obtain ⟨a, -, ha⟩ := List.mem_flatMap.1 hc
  exact isEscaped_escapeURIChar spacePlus a c ha

theorem not_mem_escapeURI (str : List Byte) (spacePlus : Bool) {c : Byte}
    (hc : isEscaped c = false) : c ∉ escapeURI str spacePlus := by
  intro hmem
  rw [isEscaped_of_mem hmem] at hc
  cases hc

theorem escapeURI_eq_nil_iff {str : List Byte} {spacePlus : Bool} :
    escapeURI str spacePlus = [] ↔ str = [] := by
  constructor
  · intro h
    cases str with
    | nil => rfl
    | cons a str =>
      rw [escapeURI, List.flatMap_cons, List.append_eq_nil_iff, escapeURIChar] at h
      split_ifs at h
      · cases h.1
      · cases h.1
      · cases h.1
  · rintro rfl
    rfl

/-! ## Unescaping -/

theorem unescapeURI_cons {c : Byte} (hpercent : c ≠ 0x25) (hplus : c ≠ 0x2b) (str : List Byte) :
    unescapeURI (c :: str) = (unescapeURI str).map (c :: ·) := by
  rw [unescapeURI]
  · intro h l str' heq
    exact absurd heq hpercent
  · intro heq
    exact absurd heq hpercent
  · intro heq
    exact absurd heq hplus

theorem hexDigitValue_hexLut {i : Nat} (h : i < 16) :
    hexDigitValue (hexLut.getD i 0) = some (UInt8.ofNat i) := by
  have htable : ∀ i < 16, hexDigitValue (hexLut.getD i 0) = some (UInt8.ofNat i) := by decide
  exact htable i h

/-- A byte from its two digits. -/
theorem shiftLeft_or_low (c : Byte) : (c >>> 4) <<< 4 ||| (c &&& 0x0f) = c := by
  have hlt := c.toNat_lt
  rw [← UInt8.toNat_inj, UInt8.toNat_or, UInt8.toNat_shiftLeft, toNat_shiftRight_four,
    toNat_and_low, show (4 : Byte).toNat % 8 = 4 from rfl]
  have hshift : (c.toNat / 16) <<< 4 % 2 ^ 8 = (c.toNat / 16) <<< 4 := by
    rw [Nat.shiftLeft_eq]
    omega
  rw [hshift, ← Nat.shiftLeft_add_eq_or_of_lt (show c.toNat % 16 < 2 ^ 4 by omega),
    Nat.shiftLeft_eq]
  omega

theorem unescapeURI_escapeURIChar (spacePlus : Bool) (c : Byte) (rest : List Byte) :
    unescapeURI (escapeURIChar spacePlus c ++ rest) = (unescapeURI rest).map (c :: ·) := by
  have hlt := c.toNat_lt
  have hhigh : (c >>> 4).toNat < 16 := by
    rw [toNat_shiftRight_four]
    omega
  have hlow : (c &&& 0x0f).toNat < 16 := by
    rw [toNat_and_low]
    omega
  unfold escapeURIChar
  split_ifs with hpass hspace
  · have hpercent : c ≠ 0x25 := by
      rintro rfl
      exact absurd hpass (by decide)
    have hplus : c ≠ 0x2b := by
      rintro rfl
      exact absurd hpass (by decide)
    exact unescapeURI_cons hpercent hplus rest
  · rw [Bool.and_eq_true, beq_iff_eq] at hspace
    rw [hspace.2]
    rfl
  · rw [List.cons_append, List.cons_append, List.cons_append, List.nil_append, unescapeURI,
      hexDigitValue_hexLut hhigh, hexDigitValue_hexLut hlow, UInt8.ofNat_toNat, UInt8.ofNat_toNat]
    dsimp only
    rw [shiftLeft_or_low]

theorem unescapeURI_escapeURI (str : List Byte) (spacePlus : Bool) :
    unescapeURI (escapeURI str spacePlus) = some str := by
  induction str with
  | nil => rfl
  | cons c str ih =>
    have hstr : unescapeURI (str.flatMap (escapeURIChar spacePlus)) = some str := ih
    rw [escapeURI, List.flatMap_cons, unescapeURI_escapeURIChar, hstr, Option.map_some]

/-! ## Text that cannot be unescaped -/

theorem hexDigitValue_eq_none_iff {c : Byte} : hexDigitValue c = none ↔ isxdigit c = false := by
  rw [hexDigitValue, isxdigit]
  constructor
  · intro h
    split_ifs at h with hdigit hlower hupper
    simp only [Bool.or_eq_false_iff, Bool.and_eq_false_iff, decide_eq_false_iff_not]
    exact ⟨⟨not_and_or.1 hdigit, not_and_or.1 hupper⟩, not_and_or.1 hlower⟩
  · intro h
    simp only [Bool.or_eq_false_iff, Bool.and_eq_false_iff, decide_eq_false_iff_not] at h
    obtain ⟨⟨hdigit, hupper⟩, hlower⟩ := h
    rw [if_neg (not_and_or.2 hdigit), if_neg (not_and_or.2 hlower), if_neg (not_and_or.2 hupper)]

theorem isxdigit_of_hexDigitValue {c value : Byte} (h : hexDigitValue c = some value) :
    isxdigit c = true := by
  by_contra hc
  rw [Bool.not_eq_true, ← hexDigitValue_eq_none_iff, h] at hc
  cases hc

theorem exists_hexDigitValue {c : Byte} (h : isxdigit c = true) :
    ∃ value, hexDigitValue c = some value := by
  cases hvalue : hexDigitValue c with
  | none =>
    rw [hexDigitValue_eq_none_iff, h] at hvalue
    cases hvalue
  | some value => exact ⟨value, rfl⟩

/-- A `%` that is read where no escape sequence is. -/
def HasBadEscape (t : List Byte) : Prop :=
  ∃ x y, t = x ++ 0x25 :: y ∧ WellEscaped x ∧ ¬StartsWithDigits y

theorem HasBadEscape.char {c : Byte} (hc : c ≠ 0x25) {t : List Byte} (h : HasBadEscape t) :
    HasBadEscape (c :: t) := by
  obtain ⟨x, y, rfl, hx, hy⟩ := h
  exact ⟨c :: x, y, rfl, WellEscaped.char hc hx, hy⟩

theorem HasBadEscape.of_not_startsWithDigits {y : List Byte} (h : ¬StartsWithDigits y) :
    HasBadEscape (0x25 :: y) :=
  ⟨[], y, rfl, WellEscaped.nil, h⟩

theorem hasBadEscape_of_unescapeURI {t : List Byte} (h : unescapeURI t = none) :
    HasBadEscape t := by
  fun_induction unescapeURI t with
  | case1 => cases h
  | case2 a b str val1 val2 hval1 hval2 ih =>
    obtain ⟨x, y, rfl, hx, hy⟩ := ih (Option.map_eq_none_iff.1 h)
    exact ⟨0x25 :: a :: b :: x, y, rfl, WellEscaped.escape (isxdigit_of_hexDigitValue hval2)
      (isxdigit_of_hexDigitValue hval1) hx, hy⟩
  | case3 a b str hdigits =>
    apply HasBadEscape.of_not_startsWithDigits
    rintro ⟨h, l, rest, heq, hhigh, hlow⟩
    cases heq
    obtain ⟨val1, hval1⟩ := exists_hexDigitValue hhigh
    obtain ⟨val2, hval2⟩ := exists_hexDigitValue hlow
    exact hdigits val1 val2 hval1 hval2
  | case4 rest hshort =>
    apply HasBadEscape.of_not_startsWithDigits
    rintro ⟨h, l, rest, rfl, -⟩
    exact hshort h l rest rfl
  | case5 str ih => exact (ih (Option.map_eq_none_iff.1 h)).char (by decide)
  | case6 c str _ hpercent _ ih => exact (ih (Option.map_eq_none_iff.1 h)).char hpercent

theorem unescapeURI_of_hasBadEscape {t : List Byte} (h : HasBadEscape t) :
    unescapeURI t = none := by
  obtain ⟨x, y, rfl, hx, hy⟩ := h
  induction hx with
  | nil =>
    rw [List.nil_append]
    match y with
    | [] => rfl
    | [a] => rfl
    | a :: b :: rest =>
      rw [unescapeURI]
      split
      · rename_i val1 val2 hval1 hval2
        exact absurd ⟨a, b, rest, rfl, isxdigit_of_hexDigitValue hval1,
          isxdigit_of_hexDigitValue hval2⟩ hy
      · rfl
  | @char c str hc hx ih =>
    rw [List.cons_append]
    by_cases hplus : c = 0x2b
    · rw [hplus, unescapeURI, ih, Option.map_none]
    · rw [unescapeURI_cons hc hplus, ih, Option.map_none]
  | escape hhigh hlow hx ih =>
    obtain ⟨val1, hval1⟩ := exists_hexDigitValue hhigh
    obtain ⟨val2, hval2⟩ := exists_hexDigitValue hlow
    rw [List.cons_append, List.cons_append, List.cons_append, unescapeURI, hval1, hval2]
    dsimp only
    rw [ih, Option.map_none]

/-- Escaped text has only characters that a URL may have and stands for the text that was escaped,
and the texts that cannot be unescaped are those where a `%` is read that two hexadecimal digits do
not follow. -/
theorem escapeURI_and_unescapeURI :
    (∀ (s : List Byte) (spacePlus : Bool), (∀ c ∈ escapeURI s spacePlus, isEscaped c = true) ∧
      unescapeURI (escapeURI s spacePlus) = some s) ∧
    ∀ t : List Byte, unescapeURI t = none ↔ HasBadEscape t := by
  refine ⟨fun s spacePlus => ⟨?_, unescapeURI_escapeURI s spacePlus⟩, fun t => ?_⟩
  · intro c hc
    exact isEscaped_of_mem hc
  · exact ⟨hasBadEscape_of_unescapeURI, unescapeURI_of_hasBadEscape⟩

end Wpi

import WpiUtil.Llvm.Proofs.ConvertUTFCharsProofs
import WpiUtil.Llvm.Proofs.ConvertUTFTurnsProofs

/-!
# What the strict conversions of `ConvertUTF` do with a text
-/

namespace Wpi.ConvertUTF

open Foundations Converter UnicodeForms ConversionResult ConversionFlags

/-! ## The turn for a character -/

theorem val_le_uniMaxBmp_iff (c : Char) : c.val ≤ uniMaxBmp ↔ c.toNat < 0x10000 := by
  rw [UInt32.le_iff_toNat_le]
  exact Nat.lt_succ_iff.symm

theorem val_le_uniMaxLegalUtf32 (c : Char) : c.val ≤ uniMaxLegalUtf32 := by
  rw [UInt32.le_iff_toNat_le]
  exact Nat.le_of_lt_succ (toNat_lt c)

theorem not_uniMaxUtf16_lt (c : Char) : ¬uniMaxUtf16 < c.val := by
  rw [UInt32.lt_iff_toNat_lt]
  exact Nat.not_lt.2 (Nat.le_of_lt_succ (toNat_lt c))

theorem toUInt16_val (c : Char) : c.val.toUInt16 = UInt16.ofNat c.toNat := by
  apply UInt16.toNat_inj.1
  rw [UInt32.toNat_toUInt16, UInt16.toNat_ofNat', toNat_val]

theorem utf16_word_of_lt {c : Char} (h : c.toNat < 0x10000) : utf16.word c = [c.val.toUInt16] := by
  rw [toUInt16_val]
  exact utf16Word_of_lt h

theorem utf16_word_of_le {c : Char} (h : 0x10000 ≤ c.toNat) :
    utf16.word c = surrogatePair c.val := by
  rw [surrogatePair_eq h (toNat_lt c), toNat_val]
  exact utf16Word_of_le h

theorem turnOfChar16_val (flags : ConversionFlags) (extra : ℕ) (c : Char) :
    turnOfChar16 flags extra c.val = .go (utf16.word c).length extra (utf16.word c) none := by
  unfold turnOfChar16
  by_cases hbmp : c.toNat < 0x10000
  · rw [if_pos ((val_le_uniMaxBmp_iff c).2 hbmp), if_neg (not_isSurrogate_val c),
      utf16_word_of_lt hbmp, List.length_singleton]
  · rw [if_neg ((val_le_uniMaxBmp_iff c).not.2 hbmp), if_neg (not_uniMaxUtf16_lt c),
      utf16_word_of_le (Nat.not_lt.1 hbmp)]
    rfl

theorem turnUTF32toUTF16_val (flags : ConversionFlags) (c : Char) :
    turnUTF32toUTF16 flags c.val = .go (utf16.word c).length 0 (utf16.word c) none := by
  unfold turnUTF32toUTF16
  by_cases hbmp : c.toNat < 0x10000
  · rw [if_pos ((val_le_uniMaxBmp_iff c).2 hbmp), if_neg (not_isSurrogate_val c),
      utf16_word_of_lt hbmp, List.length_singleton]
  · rw [if_neg ((val_le_uniMaxBmp_iff c).not.2 hbmp),
      if_neg (UInt32.not_lt.2 (val_le_uniMaxLegalUtf32 c)), utf16_word_of_le (Nat.not_lt.1 hbmp)]
    rfl

theorem turnOfChar32_val (flags : ConversionFlags) (extra : ℕ) (c : Char) :
    turnOfChar32 flags extra c.val = .go 1 extra (utf32.word c) none := by
  unfold turnOfChar32
  rw [if_pos (val_le_uniMaxLegalUtf32 c), if_neg (not_isSurrogate_val c)]
  rfl

theorem turnUTF32toUTF8_val (flags : ConversionFlags) (c : Char) :
    turnUTF32toUTF8 flags c.val = .go (utf8.word c).length 0 (utf8.word c) none := by
  unfold turnUTF32toUTF8
  rw [if_neg (fun h => not_isSurrogate_val c h.2), if_pos (val_le_uniMaxLegalUtf32 c), bytesOf_val]

/-- What a loop that reads UTF-8 finds where a character is. -/
theorem word_facts {c : Char} {first : UInt8} {rest t : List UInt8}
    (h : first :: rest = utf8.word c ++ t) :
    ¬(first :: rest).length ≤ trailingBytesForUTF8 first ∧
      isLegalUTF8 (first :: rest) (trailingBytesForUTF8 first + 1) = true ∧
      charOf (first :: rest) (trailingBytesForUTF8 first) = c.val ∧
      rest.drop (trailingBytesForUTF8 first) = t := by
  obtain ⟨hlength, hlegal⟩ := legal_word h.symm
  obtain ⟨d, hd, hrest⟩ := exists_word_of_isLegalUTF8 hlegal
  obtain ⟨rfl, hdrop⟩ := TextCode.word_append_inj (h.symm.trans hrest)
  refine ⟨?_, hlegal, hd, hdrop.symm⟩
  rw [h, List.length_append]
  omega

theorem turnUTF8toUTF16_word (flags : ConversionFlags) {c : Char} {first : UInt8}
    {rest t : List UInt8} (h : first :: rest = utf8.word c ++ t) :
    turnUTF8toUTF16 flags first rest =
      .go (utf16.word c).length (trailingBytesForUTF8 first) (utf16.word c) none := by
  obtain ⟨hlength, hlegal, hchar, -⟩ := word_facts h
  rw [turnUTF8toUTF16, if_neg hlength, hlegal, hchar]
  exact turnOfChar16_val flags _ c

theorem turnUTF8toUTF32_word (flags : ConversionFlags) (inputIsPartial : Bool) {c : Char}
    {first : UInt8} {rest t : List UInt8} (h : first :: rest = utf8.word c ++ t) :
    turnUTF8toUTF32 flags inputIsPartial first rest =
      .go 1 (trailingBytesForUTF8 first) (utf32.word c) none := by
  obtain ⟨hlength, hlegal, hchar, -⟩ := word_facts h
  rw [turnUTF8toUTF32, if_neg hlength, hlegal, hchar]
  exact turnOfChar32_val flags _ c

/-! ## The strict conversions as translations -/

theorem targetExhausted_ne : targetExhausted ≠ conversionOK := by decide

theorem translates_utf8toUTF16 :
    (utf8toUTF16 strictConversion).Translates utf8 utf16 conversionOK where
  turn_word a s c t h :=
    ⟨trailingBytesForUTF8 a, turnUTF8toUTF16_word strictConversion h, (word_facts h).2.2.2⟩
  word_of_go a s room count out h := by
    have hturn : turnUTF8toUTF16 strictConversion a s = .go room count out none := h
    rw [← isLegalUTF8_iff_exists_word]
    simp only [turnUTF8toUTF16] at hturn
    split_ifs at hturn with hlength hlegal
    simpa using hlegal
  stop_ne a s room r h := by
    have hturn : turnUTF8toUTF16 strictConversion a s = .stop room r := h
    simp only [turnUTF8toUTF16, turnOfChar16, reduceIte] at hturn
    split_ifs at hturn
    all_goals
      rw [Turn.stop.injEq] at hturn
      rw [← hturn.2]
      decide
  mark_ne a s room count out r h := by
    have hturn : turnUTF8toUTF16 strictConversion a s = .go room count out (some r) := h
    simp only [turnUTF8toUTF16, turnOfChar16, reduceIte] at hturn
    split_ifs at hturn
    all_goals
      rw [Turn.go.injEq] at hturn
      exact absurd hturn.2.2.2.symm (Option.some_ne_none r)
  full_ne := targetExhausted_ne

theorem translates_utf8toUTF32 (inputIsPartial : Bool) :
    (utf8toUTF32 strictConversion inputIsPartial).Translates utf8 utf32 conversionOK where
  turn_word a s c t h :=
    ⟨trailingBytesForUTF8 a, turnUTF8toUTF32_word strictConversion inputIsPartial h,
      (word_facts h).2.2.2⟩
  word_of_go a s room count out h := by
    have hturn : turnUTF8toUTF32 strictConversion inputIsPartial a s = .go room count out none := h
    rw [← isLegalUTF8_iff_exists_word]
    simp only [turnUTF8toUTF32, reduceIte, true_or] at hturn
    split_ifs at hturn with hlength hlegal
    simpa using hlegal
  stop_ne a s room r h := by
    have hturn : turnUTF8toUTF32 strictConversion inputIsPartial a s = .stop room r := h
    simp only [turnUTF8toUTF32, turnOfChar32, reduceIte, true_or] at hturn
    split_ifs at hturn
    all_goals
      rw [Turn.stop.injEq] at hturn
      rw [← hturn.2]
      decide
  mark_ne a s room count out r h := by
    have hturn : turnUTF8toUTF32 strictConversion inputIsPartial a s =
        .go room count out (some r) := h
    simp only [turnUTF8toUTF32, turnOfChar32, reduceIte, true_or] at hturn
    split_ifs at hturn
    · cases hturn
    · cases hturn
      decide
  full_ne := targetExhausted_ne

theorem turnFromUTF16_go {β : Type} {write : UInt32 → List β} {flags : ConversionFlags}
    {unit : UInt16} {units : List UInt16} {room count : ℕ} {out : List β}
    {mark : Option ConversionResult}
    (h : turnFromUTF16 write flags unit units = .go room count out mark) :
    ∃ ch rest, readUTF16 flags (unit :: units) = .ok (ch, rest) ∧ units.drop count = rest ∧
      out = write ch ∧ mark = none := by
  unfold turnFromUTF16 at h
  cases hread : readUTF16 flags (unit :: units) with
  | error result =>
    rw [hread] at h
    cases h
  | ok p =>
    obtain ⟨ch, rest⟩ := p
    rw [hread, Turn.go.injEq] at h
    obtain ⟨-, rfl, rfl, rfl⟩ := h
    exact ⟨ch, rest, rfl, drop_of_readUTF16_eq_ok hread, rfl, rfl⟩

theorem readUTF16_error_ne {s : List UInt16} {flags : ConversionFlags} {result : ConversionResult}
    (h : readUTF16 flags s = .error result) : result ≠ conversionOK := by
  rcases s with _ | ⟨unit, _ | ⟨unit2, units⟩⟩
  · cases h
    decide
  all_goals
    unfold readUTF16 at h
    dsimp only at h
    split_ifs at h
    all_goals
      cases h
      decide

/-- Both loops that read UTF-16, with a way to write that knows the words. -/
theorem translates_fromUTF16 {β : Type} {write : UInt32 → List β} {code : TextCode β}
    (hwrite : ∀ c : Char, write c.val = code.word c) :
    Translates ⟨turnFromUTF16 write strictConversion, targetExhausted⟩ utf16 code conversionOK where
  turn_word a s c t h := by
    have hread : readUTF16 strictConversion (a :: s) = .ok (c.val, t) := by
      rw [h]
      exact readUTF16_word strictConversion c t
    refine ⟨s.length - t.length, ?_, drop_of_readUTF16_eq_ok hread⟩
    rw [← hwrite]
    exact turnFromUTF16_of_ok hread
  word_of_go a s room count out h := by
    obtain ⟨ch, rest, hread, -, -, -⟩ := turnFromUTF16_go h
    obtain ⟨c, -, hword⟩ := exists_word_of_readUTF16 hread
    exact ⟨c, rest, hword⟩
  stop_ne a s room r h := by
    have hturn : turnFromUTF16 write strictConversion a s = .stop room r := h
    unfold turnFromUTF16 at hturn
    cases hread : readUTF16 strictConversion (a :: s) with
    | error result =>
      rw [hread, Turn.stop.injEq] at hturn
      rw [← hturn.2]
      exact readUTF16_error_ne hread
    | ok p =>
      rw [hread] at hturn
      cases hturn
  mark_ne a s room count out r h := by
    obtain ⟨ch, rest, -, -, -, hmark⟩ := turnFromUTF16_go h
    cases hmark
  full_ne := targetExhausted_ne

theorem translates_utf16toUTF8 :
    (utf16toUTF8 strictConversion).Translates utf16 utf8 conversionOK :=
  translates_fromUTF16 bytesOf_val

theorem translates_utf16toUTF32 :
    (utf16toUTF32 strictConversion).Translates utf16 utf32 conversionOK :=
  translates_fromUTF16 fun _ => rfl

/-- A number that a strict conversion from UTF-32 writes is a character. -/
theorem exists_word_utf32 {ch : UInt32} {s : List UInt32} (hsurrogate : ¬isSurrogate ch = true)
    (hlegal : ch ≤ uniMaxLegalUtf32) :
    ∃ (c : Char) (t : List UInt32), ch :: s = utf32.word c ++ t := by
  rw [UInt32.le_iff_toNat_le] at hlegal
  obtain ⟨c, rfl⟩ := exists_val_eq ch hsurrogate (Nat.lt_succ_of_le hlegal)
  exact ⟨c, s, rfl⟩

theorem cons_eq_of_utf32_word {ch : UInt32} {s t : List UInt32} {c : Char}
    (h : ch :: s = utf32.word c ++ t) : ch = c.val ∧ s = t := by
  have hcons : ch :: s = c.val :: t := h
  rwa [List.cons.injEq] at hcons

theorem translates_utf32toUTF8 :
    (utf32toUTF8 strictConversion).Translates utf32 utf8 conversionOK where
  turn_word a s c t h := by
    obtain ⟨rfl, rfl⟩ := cons_eq_of_utf32_word h
    exact ⟨0, turnUTF32toUTF8_val strictConversion c, rfl⟩
  word_of_go a s room count out h := by
    have hturn : turnUTF32toUTF8 strictConversion a = .go room count out none := h
    unfold turnUTF32toUTF8 at hturn
    split_ifs at hturn with hsurrogate hlegal
    · exact exists_word_utf32 (by simpa using hsurrogate) hlegal
    · cases hturn
  stop_ne a s room r h := by
    have hturn : turnUTF32toUTF8 strictConversion a = .stop room r := h
    unfold turnUTF32toUTF8 at hturn
    split_ifs at hturn
    rw [Turn.stop.injEq] at hturn
    rw [← hturn.2]
    decide
  mark_ne a s room count out r h := by
    have hturn : turnUTF32toUTF8 strictConversion a = .go room count out (some r) := h
    unfold turnUTF32toUTF8 at hturn
    split_ifs at hturn
    · cases hturn
    · cases hturn
      decide
  full_ne := targetExhausted_ne

theorem translates_utf32toUTF16 :
    (utf32toUTF16 strictConversion).Translates utf32 utf16 conversionOK where
  turn_word a s c t h := by
    obtain ⟨rfl, rfl⟩ := cons_eq_of_utf32_word h
    exact ⟨0, turnUTF32toUTF16_val strictConversion c, rfl⟩
  word_of_go a s room count out h := by
    have hturn : turnUTF32toUTF16 strictConversion a = .go room count out none := h
    simp only [turnUTF32toUTF16, reduceIte] at hturn
    split_ifs at hturn with hbmp hsurrogate hlarge
    · refine exists_word_utf32 hsurrogate ?_
      rw [UInt32.le_iff_toNat_le] at hbmp ⊢
      exact Nat.le_trans hbmp (by decide)
    · cases hturn
    · refine exists_word_utf32 ?_ (UInt32.not_lt.1 hlarge)
      have hmax : uniMaxBmp.toNat = 0xffff := rfl
      rw [UInt32.le_iff_toNat_le, hmax] at hbmp
      rw [isSurrogate_iff]
      omega
  stop_ne a s room r h := by
    have hturn : turnUTF32toUTF16 strictConversion a = .stop room r := h
    simp only [turnUTF32toUTF16, reduceIte] at hturn
    split_ifs at hturn
    rw [Turn.stop.injEq] at hturn
    rw [← hturn.2]
    decide
  mark_ne a s room count out r h := by
    have hturn : turnUTF32toUTF16 strictConversion a = .go room count out (some r) := h
    simp only [turnUTF32toUTF16, reduceIte] at hturn
    split_ifs at hturn
    · cases hturn
    · cases hturn
      decide
    · cases hturn
  full_ne := targetExhausted_ne

end Wpi.ConvertUTF

import WpiUtil.Llvm.ConvertUTFText
import WpiUtil.Llvm.Proofs.ConvertUTFProofs

/-!
# Texts through `ConvertUTF`
-/

namespace Wpi.ConvertUTF

open Foundations Converter ConversionResult ConversionFlags

/-! ## The strict conversions -/

theorem transcodes_of_translates {α β : Type} {k : Converter α β ConversionResult}
    {source : TextCode α} {target : TextCode β} {call : List α → ℕ → Conversion α β}
    (hcall : ∀ s n, call s n = k.run n conversionOK s [])
    (h : k.Translates source target conversionOK) : Transcodes call source target := by
  intro s n
  rw [hcall]
  refine ⟨h.result_eq_ok_iff s, ?_⟩
  rintro cs rfl hroom
  rw [h.run_encode cs (by rwa [List.length_nil, Nat.zero_add]), List.nil_append]

theorem transcodes_utf8toUTF16 :
    Transcodes (convertUTF8toUTF16 · · strictConversion) UnicodeForms.utf8 UnicodeForms.utf16 :=
  transcodes_of_translates (fun s _ => convertUTF8toUTF16Loop_eq s []) translates_utf8toUTF16

theorem transcodes_utf8toUTF32 :
    Transcodes (convertUTF8toUTF32 · · strictConversion) UnicodeForms.utf8 UnicodeForms.utf32 :=
  transcodes_of_translates (fun s _ => convertUTF8toUTF32Loop_eq false s [])
    (translates_utf8toUTF32 false)

theorem transcodes_utf8toUTF32Partial :
    Transcodes (convertUTF8toUTF32Partial · · strictConversion) UnicodeForms.utf8
      UnicodeForms.utf32 :=
  transcodes_of_translates (fun s _ => convertUTF8toUTF32Loop_eq true s [])
    (translates_utf8toUTF32 true)

theorem transcodes_utf16toUTF8 :
    Transcodes (convertUTF16toUTF8 · · strictConversion) UnicodeForms.utf16 UnicodeForms.utf8 :=
  transcodes_of_translates (fun s _ => convertUTF16toUTF8Loop_eq s []) translates_utf16toUTF8

theorem transcodes_utf16toUTF32 :
    Transcodes (convertUTF16toUTF32 · · strictConversion) UnicodeForms.utf16 UnicodeForms.utf32 :=
  transcodes_of_translates (fun s _ => convertUTF16toUTF32Loop_eq s []) translates_utf16toUTF32

theorem transcodes_utf32toUTF8 :
    Transcodes (convertUTF32toUTF8 · · strictConversion) UnicodeForms.utf32 UnicodeForms.utf8 :=
  transcodes_of_translates (fun s _ => convertUTF32toUTF8Loop_eq s []) translates_utf32toUTF8

theorem transcodes_utf32toUTF16 :
    Transcodes (convertUTF32toUTF16 · · strictConversion) UnicodeForms.utf32 UnicodeForms.utf16 :=
  transcodes_of_translates (fun s _ => convertUTF32toUTF16Loop_eq s []) translates_utf32toUTF16

/-- `isLegalUTF8String` stops behind a text, at the end of the source or where no word is. -/
theorem isLegalUTF8String_spec (s : List UInt8) :
    ∃ cs rest, isLegalUTF8String s = (decide (rest = []), rest) ∧
      s = UnicodeForms.utf8.encode cs ++ rest ∧
        ∀ c t, rest ≠ UnicodeForms.utf8.word c ++ t := by
  induction hn : s.length using Nat.strongRecOn generalizing s with
  | ind n ih =>
    cases s with
    | nil =>
      refine ⟨[], [], by rw [isLegalUTF8String]; rfl, rfl, fun c t h => ?_⟩
      exact UnicodeForms.utf8.word_ne_nil c (List.append_eq_nil_iff.1 h.symm).1
    | cons first rest =>
      rw [isLegalUTF8String]
      by_cases hword : ∃ c t, first :: rest = UnicodeForms.utf8.word c ++ t
      · obtain ⟨c, t, hword⟩ := hword
        obtain ⟨hlength, hlegal, -, hdrop⟩ := word_facts hword
        obtain ⟨cs, rest', hstring, hrest, hstop⟩ := ih t.length (by
          rw [← hn, hword, List.length_append]
          exact Nat.lt_add_of_pos_left (UnicodeForms.utf8.length_word_pos c)) t rfl
        refine ⟨c :: cs, rest', ?_, ?_, hstop⟩
        · rw [if_neg, List.drop_succ_cons, hdrop, hstring]
          rw [hlegal, Bool.not_true, Bool.or_false, decide_eq_true_eq]
          omega
        · rw [TextCode.encode_cons, List.append_assoc, ← hrest, hword]
      · refine ⟨[], first :: rest, ?_, rfl, fun c t h => hword ⟨c, t, h⟩⟩
        rw [← isLegalUTF8_iff_exists_word, Bool.not_eq_true] at hword
        rw [if_pos]
        · rfl
        · rw [hword, Bool.not_false, Bool.or_true]

theorem isLegalUTF8Sequence_iff (s : List UInt8) :
    isLegalUTF8Sequence s = true ↔ ∃ c t, s = UnicodeForms.utf8.word c ++ t := by
  cases s with
  | nil =>
    refine ⟨fun h => absurd h Bool.false_ne_true, ?_⟩
    rintro ⟨c, t, h⟩
    exact absurd (List.append_eq_nil_iff.1 h.symm).1 (UnicodeForms.utf8.word_ne_nil c)
  | cons first rest =>
    rw [← isLegalUTF8_iff_exists_word, isLegalUTF8Sequence]
    by_cases hlength : (first :: rest).length < trailingBytesForUTF8 first + 1
    · rw [if_pos hlength]
      refine ⟨fun h => absurd h Bool.false_ne_true, fun h => ?_⟩
      obtain ⟨c, t, hword⟩ := (isLegalUTF8_iff_exists_word first rest).1 h
      exact absurd (Nat.le_of_lt_succ hlength) (word_facts hword).1
    · rw [if_neg hlength]

/-- The text of one character. -/
theorem encode_singleton {α : Type} (k : TextCode α) (c : Char) : k.encode [c] = k.word c := by
  rw [TextCode.encode_cons, TextCode.encode_nil, List.append_nil]

theorem convertUTF8Sequence_of_word {s t : List UInt8} {c : Char}
    (h : s = UnicodeForms.utf8.word c ++ t) :
    convertUTF8Sequence s strictConversion = ⟨conversionOK, t, [c.val]⟩ := by
  cases s with
  | nil => exact absurd (List.append_eq_nil_iff.1 h.symm).1 (UnicodeForms.utf8.word_ne_nil c)
  | cons first rest =>
    have hlength := (legal_word h.symm).1
    have hsize : getNumBytesForUTF8 first = (UnicodeForms.utf8.word c).length := hlength
    have htake : (first :: rest).take (getNumBytesForUTF8 first) =
        UnicodeForms.utf8.encode [c] := by
      rw [hsize, h, List.take_left, encode_singleton]
    have hdrop : (first :: rest).drop (getNumBytesForUTF8 first) = t := by
      rw [hsize, h, List.drop_left]
    have hcall : convertUTF8toUTF32 (UnicodeForms.utf8.encode [c]) 1 strictConversion =
        ⟨conversionOK, [], UnicodeForms.utf32.encode [c]⟩ :=
      (transcodes_utf8toUTF32 _ 1).2 [c] rfl (Nat.le_refl 1)
    rw [convertUTF8Sequence]
    dsimp only
    rw [if_neg, htake, hdrop, hcall]
    · rfl
    · rw [hsize, h, List.length_append]
      omega

theorem convertUTF8Sequence_of_noWord {s : List UInt8}
    (h : ∀ c t, s ≠ UnicodeForms.utf8.word c ++ t) :
    (convertUTF8Sequence s strictConversion).result ≠ conversionOK := by
  cases s with
  | nil => decide
  | cons first rest =>
    rw [convertUTF8Sequence]
    dsimp only
    split_ifs with hlength
    · exact fun hok => ConversionResult.noConfusion hok
    · intro hok
      obtain ⟨cs, hcs, -⟩ := (transcodes_utf8toUTF32 _ 1).1.1 hok
      have hpos : 0 < getNumBytesForUTF8 first := Nat.succ_pos _
      cases cs with
      | nil =>
        have hnil := congrArg List.length hcs
        rw [List.length_take, TextCode.encode_nil, List.length_nil] at hnil
        omega
      | cons c cs =>
        refine h c
          (UnicodeForms.utf8.encode cs ++ (first :: rest).drop (getNumBytesForUTF8 first)) ?_
        rw [← List.append_assoc, ← TextCode.encode_cons, ← hcs, List.take_append_drop]

/-- Everything that looks at UTF-8 agrees on what a character is: the check and the conversion of
one sequence accept the sources with the word of a character at the beginning, and the check of a
string stops behind as many of them as there are. -/
theorem sequences_agree (s : List UInt8) :
    (isLegalUTF8Sequence s = true ↔ ∃ c t, s = UnicodeForms.utf8.word c ++ t) ∧
    (∀ c t, s = UnicodeForms.utf8.word c ++ t →
      convertUTF8Sequence s strictConversion = ⟨conversionOK, t, [c.val]⟩) ∧
    ((∀ c t, s ≠ UnicodeForms.utf8.word c ++ t) →
      (convertUTF8Sequence s strictConversion).result ≠ conversionOK) ∧
    ∃ cs rest, isLegalUTF8String s = (decide (rest = []), rest) ∧
      s = UnicodeForms.utf8.encode cs ++ rest ∧
        ∀ c t, rest ≠ UnicodeForms.utf8.word c ++ t :=
  ⟨isLegalUTF8Sequence_iff s, fun _ _ => convertUTF8Sequence_of_word, convertUTF8Sequence_of_noWord,
    isLegalUTF8String_spec s⟩

/-- Every strict conversion succeeds exactly for the texts in the form of its source that have room
in the target, and is a translation of them. -/
theorem strict_transcodes :
    Transcodes (convertUTF8toUTF16 · · strictConversion) UnicodeForms.utf8 UnicodeForms.utf16 ∧
    Transcodes (convertUTF8toUTF32 · · strictConversion) UnicodeForms.utf8 UnicodeForms.utf32 ∧
    Transcodes (convertUTF8toUTF32Partial · · strictConversion) UnicodeForms.utf8
      UnicodeForms.utf32 ∧
    Transcodes (convertUTF16toUTF8 · · strictConversion) UnicodeForms.utf16 UnicodeForms.utf8 ∧
    Transcodes (convertUTF16toUTF32 · · strictConversion) UnicodeForms.utf16 UnicodeForms.utf32 ∧
    Transcodes (convertUTF32toUTF8 · · strictConversion) UnicodeForms.utf32 UnicodeForms.utf8 ∧
    Transcodes (convertUTF32toUTF16 · · strictConversion) UnicodeForms.utf32 UnicodeForms.utf16 :=
  ⟨transcodes_utf8toUTF16, transcodes_utf8toUTF32, transcodes_utf8toUTF32Partial,
    transcodes_utf16toUTF8, transcodes_utf16toUTF32, transcodes_utf32toUTF8,
    transcodes_utf32toUTF16⟩

/-! ## Chains of conversions -/

theorem exists_text_of_transcodes {α β : Type} {call : List α → ℕ → Conversion α β}
    {source : TextCode α} {target : TextCode β} (h : Transcodes call source target) {s : List α}
    {n : ℕ} (hok : (call s n).result = conversionOK) :
    ∃ cs, s = source.encode cs ∧ (call s n).target = target.encode cs := by
  obtain ⟨cs, hcs, hroom⟩ := (h s n).1.1 hok
  refine ⟨cs, hcs, ?_⟩
  rw [(h s n).2 cs hcs hroom]

/-- The text of a buffer stays the same. -/
theorem ConvertsTo.exists_text {x y : Buffer} (h : ConvertsTo x y) :
    ∃ cs, x.units = x.form.code.encode cs ∧ y.units = y.form.code.encode cs := by
  cases h with
  | utf8toUTF16 s n h => exact exists_text_of_transcodes transcodes_utf8toUTF16 h
  | utf8toUTF32 s n h => exact exists_text_of_transcodes transcodes_utf8toUTF32 h
  | utf8toUTF32Partial s n h => exact exists_text_of_transcodes transcodes_utf8toUTF32Partial h
  | utf16toUTF8 s n h => exact exists_text_of_transcodes transcodes_utf16toUTF8 h
  | utf16toUTF32 s n h => exact exists_text_of_transcodes transcodes_utf16toUTF32 h
  | utf32toUTF8 s n h => exact exists_text_of_transcodes transcodes_utf32toUTF8 h
  | utf32toUTF16 s n h => exact exists_text_of_transcodes transcodes_utf32toUTF16 h

theorem text_of_convertsTo_chain {x y : Buffer} (h : Relation.ReflTransGen ConvertsTo x y) :
    x = y ∨ ∃ cs, x.units = x.form.code.encode cs ∧ y.units = y.form.code.encode cs := by
  induction h with
  | refl => exact Or.inl rfl
  | tail _ hlast ih =>
    obtain ⟨cs, hfrom, hto⟩ := hlast.exists_text
    obtain rfl | ⟨ds, hx, hfrom'⟩ := ih
    · exact Or.inr ⟨cs, hfrom, hto⟩
    · rw [hfrom] at hfrom'
      rw [TextCode.encode_injective hfrom'] at hto
      exact Or.inr ⟨ds, hx, hto⟩

/-- Whatever ways a text takes through the encoding forms, it is the same units where they come to
the same form. -/
theorem eq_of_conversion_chains {x : Buffer} {f : Form} {s t : List f.Unit}
    (h : Relation.ReflTransGen ConvertsTo x ⟨f, s⟩)
    (h' : Relation.ReflTransGen ConvertsTo x ⟨f, t⟩) : s = t := by
  obtain rfl | ⟨cs, hx, hs⟩ := text_of_convertsTo_chain h
  · obtain heq | ⟨cs, hs, ht⟩ := text_of_convertsTo_chain h'
    · cases heq
      rfl
    · exact hs.trans ht.symm
  · obtain rfl | ⟨ds, hx', ht⟩ := text_of_convertsTo_chain h'
    · exact hs.trans hx.symm
    · rw [hx] at hx'
      rw [← TextCode.encode_injective hx'] at ht
      exact hs.trans ht.symm

/-- Two ways from UTF-8 to UTF-16. -/
theorem eq_of_conversion_chains_letter :
    (convertUTF8toUTF16 [0xc3, 0xa9] 1 strictConversion).target =
      (convertUTF32toUTF16 [0xe9] 1 strictConversion).target := by
  have height : ([0xc3, 0xa9] : List UInt8) = UnicodeForms.utf8.encode ['é'] := by decide
  have hlong : ([0xe9] : List UInt32) = UnicodeForms.utf32.encode ['é'] := by decide
  have hroom : (UnicodeForms.utf16.encode ['é']).length ≤ 1 := by decide
  have hdirect := (transcodes_utf8toUTF16 [0xc3, 0xa9] 1).1.2 ⟨['é'], height, hroom⟩
  have hfirst : convertUTF8toUTF32 [0xc3, 0xa9] 1 strictConversion = ⟨conversionOK, [], [0xe9]⟩ := by
    rw [hlong]
    exact (transcodes_utf8toUTF32 [0xc3, 0xa9] 1).2 ['é'] height (by decide)
  have hsecond := (transcodes_utf32toUTF16 [0xe9] 1).1.2 ⟨['é'], hlong, hroom⟩
  have hdetour := ConvertsTo.utf8toUTF32 [0xc3, 0xa9] 1 (by rw [hfirst])
  rw [hfirst] at hdetour
  exact eq_of_conversion_chains (.single (.utf8toUTF16 _ 1 hdirect))
    (.tail (.single hdetour) (.utf32toUTF16 _ 1 hsecond))

end Wpi.ConvertUTF

import WpiUtil.Foundations.Replacement
import WpiUtil.Llvm.Proofs.ConvertUTFPiecesProofs
import WpiUtil.Llvm.Proofs.ConvertUTFProofs

/-!
# The lenient conversion from UTF-8 to UTF-32
-/

namespace Wpi.ConvertUTF

open Foundations Converter TextCode ConversionResult ConversionFlags

/-! ## Beginnings of words -/

theorem legal_second {a b : UInt8} {q : List UInt8} (hpos : 1 ≤ trailingBytesForUTF8 a)
    (hlegal : isLegalUTF8 (a :: b :: q) (trailingBytesForUTF8 a + 1) = true) :
    isTrailingByte b = true ∧ isLegalSecond a b = true ∧ isLegalFirst a = true := by
  rw [trailingBytesForUTF8_eq] at hlegal hpos
  split_ifs at hlegal hpos with h0 h1 h2 h3 h4
  · omega
  · obtain ⟨b', t, hcons, hfacts⟩ := (isLegalUTF8_two_iff a _).1 hlegal
    cases hcons
    exact hfacts
  · obtain ⟨b', c, t, hcons, -, hfacts⟩ := (isLegalUTF8_three_iff a _).1 hlegal
    cases hcons
    exact hfacts
  · obtain ⟨b', c, d, t, hcons, -, -, hfacts⟩ := (isLegalUTF8_four_iff a _).1 hlegal
    cases hcons
    exact hfacts
  · cases hlegal
  · cases hlegal

theorem legal_third {a b c : UInt8} {q : List UInt8} (hpos : 2 ≤ trailingBytesForUTF8 a)
    (hlegal : isLegalUTF8 (a :: b :: c :: q) (trailingBytesForUTF8 a + 1) = true) :
    isTrailingByte c = true := by
  rw [trailingBytesForUTF8_eq] at hlegal hpos
  split_ifs at hlegal hpos with h0 h1 h2 h3 h4
  · omega
  · omega
  · obtain ⟨b', c', t, hcons, hc, -⟩ := (isLegalUTF8_three_iff a _).1 hlegal
    cases hcons
    exact hc
  · obtain ⟨b', c', d, t, hcons, -, hc, -⟩ := (isLegalUTF8_four_iff a _).1 hlegal
    cases hcons
    exact hc
  · cases hlegal
  · cases hlegal

theorem isTrailingByte_80 : isTrailingByte 0x80 = true := rfl

theorem isInitial_two_iff (a b : UInt8) :
    UnicodeForms.utf8.IsInitial [a, b] ↔ (0xc2 ≤ a.toNat ∧ a.toNat ≤ 0xf4) ∧
      isTrailingByte b = true ∧ isLegalSecond a b = true := by
  constructor
  · rintro ⟨ch, q, hword⟩
    obtain ⟨hlength, hlegal⟩ := legal_word (t := []) ((List.append_nil _).trans hword)
    have hpos : 1 ≤ trailingBytesForUTF8 a := by
      rw [hword, List.length_append, List.length_cons, List.length_singleton] at hlength
      omega
    obtain ⟨hb, hsecond, hfirst⟩ := legal_second hpos hlegal
    rw [isLegalFirst_iff] at hfirst
    rw [trailingBytesForUTF8_eq] at hpos
    refine ⟨?_, hb, hsecond⟩
    split_ifs at hpos <;> omega
  · rintro ⟨⟨hle, hge⟩, hb, hsecond⟩
    by_cases htwo : a.toNat < 0xe0
    · obtain ⟨ch, -, hword⟩ := exists_word_two (t := []) hle htwo hb
      exact ⟨ch, [], hword⟩
    · by_cases hthree : a.toNat < 0xf0
      · obtain ⟨ch, -, hword⟩ := exists_word_three (t := []) (Nat.not_lt.1 htwo) hthree
          isTrailingByte_80 hb hsecond
        exact ⟨ch, [0x80], hword⟩
      · obtain ⟨ch, -, hword⟩ := exists_word_four (t := []) (Nat.not_lt.1 hthree) hge
          isTrailingByte_80 isTrailingByte_80 hb hsecond
        exact ⟨ch, [0x80, 0x80], hword⟩

theorem isInitial_three_iff (a b c : UInt8) :
    UnicodeForms.utf8.IsInitial [a, b, c] ↔ (0xe0 ≤ a.toNat ∧ a.toNat ≤ 0xf4) ∧
      isTrailingByte b = true ∧ isLegalSecond a b = true ∧ isTrailingByte c = true := by
  constructor
  · rintro ⟨ch, q, hword⟩
    obtain ⟨hlength, hlegal⟩ := legal_word (t := []) ((List.append_nil _).trans hword)
    have hpos : 2 ≤ trailingBytesForUTF8 a := by
      rw [hword, List.length_append, List.length_cons, List.length_cons,
        List.length_singleton] at hlength
      omega
    obtain ⟨hb, hsecond, hfirst⟩ := legal_second (Nat.le_of_succ_le hpos) hlegal
    rw [isLegalFirst_iff] at hfirst
    refine ⟨?_, hb, hsecond, legal_third hpos hlegal⟩
    rw [trailingBytesForUTF8_eq] at hpos
    split_ifs at hpos <;> omega
  · rintro ⟨⟨hle, hge⟩, hb, hsecond, hc⟩
    by_cases hthree : a.toNat < 0xf0
    · obtain ⟨ch, -, hword⟩ := exists_word_three (t := []) hle hthree hc hb hsecond
      exact ⟨ch, [], hword⟩
    · obtain ⟨ch, -, hword⟩ := exists_word_four (t := []) (Nat.not_lt.1 hthree) hge
        isTrailingByte_80 hc hb hsecond
      exact ⟨ch, [0x80], hword⟩

/-- Where no word is, the beginning of a word is shorter than the first byte announces. -/
theorem le_of_isInitial {first : UInt8} {rest : List UInt8} {m : ℕ}
    (hword : UnicodeForms.utf8.NoWord (first :: rest)) (hm : m ≤ rest.length)
    (hinitial : UnicodeForms.utf8.IsInitial ((first :: rest).take (m + 1))) :
    m + 1 ≤ trailingBytesForUTF8 first := by
  obtain ⟨ch, q, hch⟩ := hinitial
  rw [List.take_succ_cons, List.cons_append] at hch
  obtain ⟨hlength, -⟩ := legal_word (t := []) ((List.append_nil _).trans hch)
  rw [hch, List.length_cons, List.length_append, List.length_take, Nat.min_eq_left hm] at hlength
  rw [Nat.succ_le_iff, ← Nat.not_le]
  intro hle
  have hq : q = [] := List.eq_nil_of_length_eq_zero (by omega)
  refine hword ch (rest.drop m) ?_
  rw [hch, hq, List.append_nil, List.cons_append, List.take_append_drop]

theorem isTrailingByte_of_range {c : UInt8} (h : 0x80 ≤ c ∧ c ≤ 0xbf) : isTrailingByte c = true :=
  decide_eq_true h

theorem trailingBytesForUTF8_le (first : UInt8) :
    (first.toNat < 0xe0 → trailingBytesForUTF8 first ≤ 1) ∧
      (first.toNat < 0xf0 → trailingBytesForUTF8 first ≤ 2) ∧
        (first.toNat < 0xf8 → trailingBytesForUTF8 first ≤ 3) := by
  rw [trailingBytesForUTF8_eq]
  split_ifs <;> omega

/-- What is found where no word is. -/
theorem findMaximalSubpart_spec {first : UInt8} {rest : List UInt8}
    (hword : UnicodeForms.utf8.NoWord (first :: rest)) :
    UnicodeForms.utf8.IsMaximalSubpart (first :: rest)
      (findMaximalSubpartOfIllFormedUTF8Sequence (first :: rest)) := by
  have hpos := findMaximalSubpart_pos first rest
  have hle := findMaximalSubpart_le (first :: rest)
  obtain ⟨honebyte, htwobytes, hthreebytes⟩ := trailingBytesForUTF8_le first
  rcases rest with _ | ⟨b, t⟩
  · exact isMaximalSubpart_of_succ hpos hle (Or.inl rfl) fun hlt => absurd hlt (Nat.lt_irrefl 1)
  · have hmore : ∀ {m}, m + 1 < (first :: b :: t).length →
        UnicodeForms.utf8.IsInitial ((first :: b :: t).take (m + 1 + 1)) →
          m + 1 + 1 ≤ trailingBytesForUTF8 first :=
      fun hm => le_of_isInitial hword (Nat.le_of_lt_succ hm)
    have htwo : UnicodeForms.utf8.IsInitial ((first :: b :: t).take 2) ↔
        (0xc2 ≤ first.toNat ∧ first.toNat ≤ 0xf4) ∧
          isTrailingByte b = true ∧ isLegalSecond first b = true := isInitial_two_iff first b
    rw [findMaximalSubpart_cons_cons] at hpos hle ⊢
    by_cases hfirst : first.toNat < 0xe0 ∨ 0xf4 < first.toNat
    · rw [if_pos hfirst] at hpos hle ⊢
      refine isMaximalSubpart_of_succ hpos hle (Or.inl rfl) fun hlt h => ?_
      have hbytes := hmore hlt h
      have hrange := (htwo.1 h).1
      omega
    · rw [if_neg hfirst] at hpos hle ⊢
      by_cases hsecond : isTrailingByte b = true ∧ isLegalSecond first b = true
      · rw [if_pos hsecond] at hpos hle ⊢
        have hinitial := htwo.2 ⟨by omega, hsecond⟩
        by_cases hthree : first.toNat < 0xf0
        · rw [if_pos hthree] at hpos hle ⊢
          refine isMaximalSubpart_of_succ hpos hle (Or.inr hinitial) fun hlt h => ?_
          have hbytes := hmore hlt h
          omega
        · rw [if_neg hthree] at hpos hle ⊢
          rcases t with _ | ⟨c, t⟩
          · exact isMaximalSubpart_of_succ hpos hle (Or.inr hinitial)
              fun hlt => absurd hlt (Nat.lt_irrefl 2)
          · have hthird : UnicodeForms.utf8.IsInitial ((first :: b :: c :: t).take 3) ↔ _ :=
              isInitial_three_iff first b c
            rw [subpartFromThird] at hpos hle ⊢
            by_cases hc : 0x80 ≤ c ∧ c ≤ 0xbf
            · rw [if_pos hc] at hpos hle ⊢
              refine isMaximalSubpart_of_succ hpos hle (Or.inr (hthird.2 ⟨by omega, hsecond.1,
                hsecond.2, isTrailingByte_of_range hc⟩)) fun hlt h => ?_
              have hbytes := hmore hlt h
              omega
            · rw [if_neg hc] at hpos hle ⊢
              refine isMaximalSubpart_of_succ hpos hle (Or.inr hinitial) fun _ h => hc ?_
              exact of_decide_eq_true (hthird.1 h).2.2.2
      · rw [if_neg hsecond] at hpos hle ⊢
        exact isMaximalSubpart_of_succ hpos hle (Or.inl rfl) fun _ h => hsecond (htwo.1 h).2

/-! ## The conversion -/

/-- A turn where no word is takes a maximal subpart off the source. -/
theorem turn_of_noWord {first : UInt8} {rest : List UInt8}
    (hword : UnicodeForms.utf8.NoWord (first :: rest)) :
    ∃ room ≤ 1, turnUTF8toUTF32 lenientConversion false first rest =
      .go room (findMaximalSubpartOfIllFormedUTF8Sequence (first :: rest) - 1)
        [uniReplacementChar] (some sourceIllegal) := by
  have hstrict : ¬(lenientConversion = strictConversion ∨ false = true) := by decide
  have hstrict' : ¬lenientConversion = strictConversion := by decide
  have hlegal : isLegalUTF8 (first :: rest) (trailingBytesForUTF8 first + 1) = false := by
    rw [← Bool.not_eq_true, isLegalUTF8_iff_exists_word]
    rintro ⟨c, t, h⟩
    exact hword c t h
  rw [turnUTF8toUTF32, hlegal]
  by_cases hlength : (first :: rest).length ≤ trailingBytesForUTF8 first
  · exact ⟨0, Nat.zero_le 1, by rw [if_pos hlength, if_neg hstrict]⟩
  · exact ⟨1, Nat.le_refl 1, by rw [if_neg hlength, Bool.not_false, if_pos rfl, if_neg hstrict']⟩

theorem lenient_run (capacity : ℕ) (result : ConversionResult) (s : List UInt8)
    (target : List UInt32) (h : target.length + s.length ≤ capacity) :
    let c := (utf8toUTF32 lenientConversion false).run capacity result s target
    c.source = [] ∧ (c.result = result ∨ c.result = sourceIllegal) ∧
      ∃ cs, UnicodeForms.utf8.Reads (Char.ofNat 0xfffd) s cs ∧
        c.target = target ++ UnicodeForms.utf32.encode cs := by
  intro c
  induction hn : s.length using Nat.strongRecOn generalizing result s target with
  | ind n ih =>
    subst hn
    cases s with
    | nil =>
      have hc : c = ⟨result, [], target⟩ := run_nil
      rw [hc]
      exact ⟨rfl, Or.inl rfl, [], .nil, (List.append_nil _).symm⟩
    | cons first rest =>
      rw [List.length_cons] at h
      by_cases hword : UnicodeForms.utf8.NoWord (first :: rest)
      · obtain ⟨room, hroom, hturn⟩ := turn_of_noWord hword
        have hturn' : (utf8toUTF32 lenientConversion false).turn first rest = _ := hturn
        have hc : c = _ := run_of_go hturn' (not_lacks_of_le (by omega))
        have hdrop := drop_subpart first rest
        rw [← hdrop] at hc
        have hsubpart := findMaximalSubpart_spec hword
        have hlt := length_drop_lt first rest hsubpart.pos
        obtain ⟨hsource, hresult, cs, hreads, htarget⟩ := ih _ hlt
          ((some sourceIllegal).getD result) ((first :: rest).drop _)
          (target ++ [uniReplacementChar]) (by
            rw [List.length_append, List.length_singleton]
            rw [List.length_cons] at hlt
            omega) rfl
        rw [← hc] at hsource hresult htarget
        refine ⟨hsource, Or.inr (or_self_iff.1 hresult), _, .replace hword hsubpart hreads, ?_⟩
        rw [htarget, List.append_assoc]
        rfl
      · obtain ⟨ch, t, hch⟩ : ∃ ch t, first :: rest = UnicodeForms.utf8.word ch ++ t := by
          simpa only [TextCode.NoWord, not_forall, not_not] using hword
        have hturn : (utf8toUTF32 lenientConversion false).turn first rest = _ :=
          turnUTF8toUTF32_word lenientConversion false hch
        have hc : c = _ := run_of_go hturn (not_lacks_of_le (by omega))
        rw [(word_facts hch).2.2.2] at hc
        have hlt : t.length < (first :: rest).length := by
          rw [hch, List.length_append]
          exact Nat.lt_add_of_pos_left (UnicodeForms.utf8.length_word_pos ch)
        obtain ⟨hsource, hresult, cs, hreads, htarget⟩ := ih _ hlt result t
          (target ++ UnicodeForms.utf32.word ch) (by
            have hone : (UnicodeForms.utf32.word ch).length = 1 := rfl
            rw [List.length_append]
            rw [List.length_cons] at hlt
            omega) rfl
        rw [Option.getD_none] at hc
        rw [← hc] at hsource hresult htarget
        refine ⟨hsource, hresult, ch :: cs, ?_, ?_⟩
        · rw [hch]
          exact .word ch hreads
        · rw [htarget, List.append_assoc, TextCode.encode_cons]

theorem translates_lenient :
    (utf8toUTF32 lenientConversion false).Translates UnicodeForms.utf8 UnicodeForms.utf32
      conversionOK where
  turn_word a s c t h :=
    ⟨trailingBytesForUTF8 a, turnUTF8toUTF32_word lenientConversion false h, (word_facts h).2.2.2⟩
  word_of_go a s room count out h := by
    by_contra hword
    have hno : UnicodeForms.utf8.NoWord (a :: s) := fun c t heq => hword ⟨c, t, heq⟩
    obtain ⟨room', -, hturn⟩ := turn_of_noWord hno
    have heq := h.symm.trans hturn
    cases heq
  stop_ne a s room r h := by
    have hturn : turnUTF8toUTF32 lenientConversion false a s = .stop room r := h
    unfold turnUTF8toUTF32 turnOfChar32 at hturn
    split_ifs at hturn
    all_goals
      rw [Turn.stop.injEq] at hturn
      rw [← hturn.2]
      decide
  mark_ne a s room count out r h := by
    have hturn : turnUTF8toUTF32 lenientConversion false a s = .go room count out (some r) := h
    unfold turnUTF8toUTF32 turnOfChar32 at hturn
    split_ifs at hturn
    all_goals
      cases hturn
    all_goals decide
  full_ne := targetExhausted_ne

/-- With room for a value for each byte, the lenient conversion reads the whole source, and what it
writes is the source read with replacements for the maximal subparts of what is no UTF-8. It reports
a success for a text in UTF-8, and an illegal source otherwise. -/
theorem convertUTF8toUTF32_lenient (s : List UInt8) (room : ℕ) :
    let c := convertUTF8toUTF32 s (s.length + room) lenientConversion
    c.source = [] ∧
      (∃ cs, UnicodeForms.utf8.Reads (Char.ofNat 0xfffd) s cs ∧
        c.target = UnicodeForms.utf32.encode cs) ∧
      (c.result = conversionOK ∨ c.result = sourceIllegal) ∧
      (c.result = conversionOK ↔ ∃ cs, s = UnicodeForms.utf8.encode cs) := by
  intro c
  have hc : c = (utf8toUTF32 lenientConversion false).run (s.length + room) conversionOK s [] :=
    convertUTF8toUTF32Loop_eq false s []
  obtain ⟨hsource, hresult, cs, hreads, htarget⟩ := lenient_run (s.length + room) conversionOK s []
    (by rw [List.length_nil]; omega)
  rw [← hc] at hsource hresult htarget
  refine ⟨hsource, ⟨cs, hreads, htarget⟩, hresult, ?_⟩
  rw [hc, translates_lenient.result_eq_ok_iff]
  constructor
  · rintro ⟨ds, hs, -⟩
    exact ⟨ds, hs⟩
  · rintro ⟨ds, hs⟩
    refine ⟨ds, hs, ?_⟩
    have hle := TextCode.length_encode_le (k := UnicodeForms.utf8) (j := UnicodeForms.utf32)
      (m := 1) (fun c => by
        rw [Nat.one_mul]
        exact UnicodeForms.utf8.length_word_pos c) ds
    rw [Nat.one_mul, ← hs] at hle
    exact Nat.le_add_right_of_le hle

end Wpi.ConvertUTF

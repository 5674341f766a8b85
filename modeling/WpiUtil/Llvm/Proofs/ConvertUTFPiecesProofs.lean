import WpiUtil.Llvm.ConvertUTFText
import WpiUtil.Llvm.Proofs.ConvertUTFCharsProofs
import WpiUtil.Llvm.Proofs.ConvertUTFTurnsProofs

/-!
# Sources of `ConvertUTF` that arrive in pieces
-/

namespace Wpi.ConvertUTF

open Foundations Converter ConversionResult ConversionFlags

/-! ## From UTF-32 -/

theorem online_utf32toUTF16 (flags : ConversionFlags) : Online (utf32toUTF16 flags) := by
  intro ch s room count out mark h
  have hturn : turnUTF32toUTF16 flags ch = .go room count out mark := h
  have hcount : count = 0 := by
    unfold turnUTF32toUTF16 at hturn
    split_ifs at hturn
    all_goals
      rw [Turn.go.injEq] at hturn
      exact hturn.2.1.symm
  subst hcount
  exact ⟨Nat.zero_le _, fun _ => h⟩

theorem online_utf32toUTF8 (flags : ConversionFlags) : Online (utf32toUTF8 flags) := by
  intro ch s room count out mark h
  have hturn : turnUTF32toUTF8 flags ch = .go room count out mark := h
  unfold turnUTF32toUTF8 at hturn
  split_ifs at hturn
  all_goals
    rw [Turn.go.injEq] at hturn
    obtain ⟨rfl, rfl, rfl, rfl⟩ := hturn
    exact ⟨Nat.zero_le _, fun _ => h⟩

/-! ## From UTF-16 -/

theorem readUTF16_append {flags : ConversionFlags} {s rest : List UInt16} {ch : UInt32}
    (h : readUTF16 flags s = .ok (ch, rest)) (t : List UInt16) :
    readUTF16 flags (s ++ t) = .ok (ch, rest ++ t) := by
  have hok : ∀ {ch' : UInt32} {rest' : List UInt16},
      (Except.ok (ch', rest') : Except ConversionResult _) = .ok (ch, rest) →
        (Except.ok (ch', rest' ++ t) : Except ConversionResult _) = .ok (ch, rest ++ t) := by
    intro ch' rest' heq
    rw [Except.ok.injEq, Prod.mk.injEq] at heq
    rw [heq.1, heq.2]
  rcases s with _ | ⟨unit, _ | ⟨unit2, units⟩⟩
  · cases h
  · unfold readUTF16 at h ⊢
    rw [List.cons_append, List.nil_append]
    dsimp only at h ⊢
    split_ifs at h with hhigh hstrict hlow
    · rw [if_neg hhigh, if_pos hstrict, if_neg hlow]
      exact hok h
    · rw [if_neg hhigh, if_neg hstrict]
      exact hok h
  · unfold readUTF16 at h ⊢
    rw [List.cons_append, List.cons_append]
    dsimp only at h ⊢
    split_ifs at h ⊢
    all_goals exact hok h

theorem online_fromUTF16 {β : Type} (write : UInt32 → List β) (flags : ConversionFlags) :
    Online (⟨turnFromUTF16 write flags, targetExhausted⟩ :
      Converter UInt16 β ConversionResult) := by
  intro unit units room count out mark h
  have hturn : turnFromUTF16 write flags unit units = .go room count out mark := h
  unfold turnFromUTF16 at hturn
  cases hread : readUTF16 flags (unit :: units) with
  | error result =>
    rw [hread] at hturn
    cases hturn
  | ok p =>
    obtain ⟨ch, rest⟩ := p
    rw [hread, Turn.go.injEq] at hturn
    obtain ⟨rfl, rfl, rfl, rfl⟩ := hturn
    refine ⟨Nat.sub_le _ _, fun t => ?_⟩
    have hlength : (units ++ t).length - (rest ++ t).length = units.length - rest.length := by
      rw [List.length_append, List.length_append, Nat.add_sub_add_right]
    rw [← hlength]
    exact turnFromUTF16_of_ok (readUTF16_append hread t)

/-! ## From UTF-8 -/

theorem isLegalUTF8_append {s : List UInt8} {n : ℕ} (h : n ≤ s.length) (t : List UInt8) :
    isLegalUTF8 (s ++ t) n = isLegalUTF8 s n := by
  rcases s with _ | ⟨a, _ | ⟨b, _ | ⟨c, _ | ⟨d, s⟩⟩⟩⟩
  · rw [Nat.le_zero.1 h, List.nil_append]
    cases t with
    | nil => rfl
    | cons a t => rfl
  all_goals
    rcases n with _ | _ | _ | _ | _ | n
    all_goals first | rfl | (simp only [List.length_cons, List.length_nil] at h; omega)

theorem readUTF8_append {s : List UInt8} {n : ℕ} (h : n < s.length) (ch : UInt32) (t : List UInt8) :
    readUTF8 n ch (s ++ t) = readUTF8 n ch s := by
  induction n generalizing s ch with
  | zero =>
    cases s with
    | nil => cases h
    | cons b s => rw [List.cons_append, readUTF8, readUTF8]
  | succ n ih =>
    cases s with
    | nil => cases h
    | cons b s =>
      rw [List.cons_append, readUTF8, readUTF8]
      exact ih (Nat.lt_of_succ_lt_succ h) _

/-- Where a maximal subpart ends: behind the first byte, unless a second one may follow it. -/
theorem findMaximalSubpart_cons_cons (first b : UInt8) (t : List UInt8) :
    findMaximalSubpartOfIllFormedUTF8Sequence (first :: b :: t) =
      if first.toNat < 0xe0 ∨ 0xf4 < first.toNat then 1
      else if isTrailingByte b = true ∧ isLegalSecond first b = true then
        if first.toNat < 0xf0 then 2 else subpartFromThird t
      else 1 := by
  have hsecond : isTrailingByte b = true ∧ isLegalSecond first b = true ↔
      (0x80 ≤ b.toNat ∧ b.toNat ≤ 0xbf) ∧ (first.toNat = 0xe0 → 0xa0 ≤ b.toNat) ∧
        (first.toNat = 0xed → b.toNat ≤ 0x9f) ∧ (first.toNat = 0xf0 → 0x90 ≤ b.toNat) ∧
          (first.toNat = 0xf4 → b.toNat ≤ 0x8f) := by
    rw [← isTrailingByte_iff]
    exact and_congr_right fun hb => isLegalSecond_iff first b hb
  simp only [findMaximalSubpartOfIllFormedUTF8Sequence, UInt8.le_iff_toNat_le, ← UInt8.toNat_inj,
    UInt8.reduceToNat, hsecond]
  split_ifs
  all_goals first | rfl | omega

theorem subpartFromThird_append {t : List UInt8} (h : t ≠ []) (u : List UInt8) :
    subpartFromThird (t ++ u) = subpartFromThird t := by
  cases t with
  | nil => exact absurd rfl h
  | cons b t => rfl

theorem subpartFromThird_le (t : List UInt8) : subpartFromThird t ≤ t.length + 2 := by
  cases t with
  | nil => exact Nat.le_refl 2
  | cons b t =>
    rw [subpartFromThird, List.length_cons]
    split_ifs
    · omega
    · omega

/-- A subpart is found within the bytes that the first one announces. -/
theorem findMaximalSubpart_append {first : UInt8} {rest : List UInt8}
    (h : trailingBytesForUTF8 first < (first :: rest).length) (t : List UInt8) :
    findMaximalSubpartOfIllFormedUTF8Sequence (first :: (rest ++ t)) =
      findMaximalSubpartOfIllFormedUTF8Sequence (first :: rest) := by
  rw [trailingBytesForUTF8_eq] at h
  cases rest with
  | nil =>
    cases t with
    | nil => rfl
    | cons b t =>
      rw [List.length_singleton] at h
      rw [List.nil_append, findMaximalSubpart_cons_cons, if_pos]
      · rfl
      · split_ifs at h <;> omega
  | cons b rest =>
    rw [List.cons_append, findMaximalSubpart_cons_cons, findMaximalSubpart_cons_cons]
    by_cases hfirst : first.toNat < 0xf0
    · rw [if_pos hfirst, if_pos hfirst]
    · have hrest : rest ≠ [] := by
        rintro rfl
        rw [List.length_cons, List.length_singleton] at h
        split_ifs at h <;> omega
      rw [subpartFromThird_append hrest]

theorem findMaximalSubpart_le (s : List UInt8) :
    findMaximalSubpartOfIllFormedUTF8Sequence s ≤ s.length := by
  rcases s with _ | ⟨first, _ | ⟨b, t⟩⟩
  · exact Nat.le_refl 0
  · exact Nat.le_refl 1
  · have hthird := subpartFromThird_le t
    rw [findMaximalSubpart_cons_cons, List.length_cons, List.length_cons]
    split_ifs <;> omega

theorem charOf_append {first : UInt8} {rest : List UInt8}
    (h : trailingBytesForUTF8 first < (first :: rest).length) (t : List UInt8) :
    charOf (first :: (rest ++ t)) (trailingBytesForUTF8 first) =
      charOf (first :: rest) (trailingBytesForUTF8 first) := by
  rw [charOf, charOf, ← List.cons_append, readUTF8_append h]

/-- What a loop that reads UTF-8 looks at, once there are the bytes that the first one announces. -/
theorem lookahead_append {first : UInt8} {rest : List UInt8}
    (h : ¬(first :: rest).length ≤ trailingBytesForUTF8 first) (t : List UInt8) :
    ¬(first :: (rest ++ t)).length ≤ trailingBytesForUTF8 first ∧
      isLegalUTF8 (first :: (rest ++ t)) (trailingBytesForUTF8 first + 1) =
        isLegalUTF8 (first :: rest) (trailingBytesForUTF8 first + 1) := by
  constructor
  · rw [List.length_cons, List.length_append]
    rw [List.length_cons] at h
    omega
  · rw [← List.cons_append]
    exact isLegalUTF8_append (Nat.not_le.1 h) t

theorem online_utf8toUTF16 (flags : ConversionFlags) : Online (utf8toUTF16 flags) := by
  intro first rest room count out mark h
  have hturn : turnUTF8toUTF16 flags first rest = .go room count out mark := h
  have happend : ∀ t, ¬(first :: rest).length ≤ trailingBytesForUTF8 first →
      turnUTF8toUTF16 flags first (rest ++ t) = turnUTF8toUTF16 flags first rest := by
    intro t hlength
    obtain ⟨hlength', hlegal⟩ := lookahead_append hlength t
    rw [turnUTF8toUTF16, turnUTF8toUTF16, if_neg hlength, if_neg hlength', hlegal,
      charOf_append (Nat.not_le.1 hlength)]
  by_cases hlength : (first :: rest).length ≤ trailingBytesForUTF8 first
  · rw [turnUTF8toUTF16, if_pos hlength] at hturn
    cases hturn
  · refine ⟨?_, fun t => (happend t hlength).trans hturn⟩
    have hcount : count = trailingBytesForUTF8 first := by
      unfold turnUTF8toUTF16 turnOfChar16 at hturn
      split_ifs at hturn
      all_goals
        rw [Turn.go.injEq] at hturn
        exact hturn.2.1.symm
    rw [hcount]
    rw [List.length_cons] at hlength
    omega

/-- The conversion that replaces what is cut off at the end is the only one that looks at the end of
the source. -/
theorem online_utf8toUTF32 {flags : ConversionFlags} {inputIsPartial : Bool}
    (hmode : flags = strictConversion ∨ inputIsPartial = true) :
    Online (utf8toUTF32 flags inputIsPartial) := by
  intro first rest room count out mark h
  have hturn : turnUTF8toUTF32 flags inputIsPartial first rest = .go room count out mark := h
  have happend : ∀ t, ¬(first :: rest).length ≤ trailingBytesForUTF8 first →
      turnUTF8toUTF32 flags inputIsPartial first (rest ++ t) =
        turnUTF8toUTF32 flags inputIsPartial first rest := by
    intro t hlength
    obtain ⟨hlength', hlegal⟩ := lookahead_append hlength t
    rw [turnUTF8toUTF32, turnUTF8toUTF32, if_neg hlength, if_neg hlength', hlegal,
      charOf_append (Nat.not_le.1 hlength), findMaximalSubpart_append (Nat.not_le.1 hlength)]
  by_cases hlength : (first :: rest).length ≤ trailingBytesForUTF8 first
  · rw [turnUTF8toUTF32, if_pos hlength, if_pos hmode] at hturn
    cases hturn
  · refine ⟨?_, fun t => (happend t hlength).trans hturn⟩
    have hcount : count = trailingBytesForUTF8 first ∨
        count = findMaximalSubpartOfIllFormedUTF8Sequence (first :: rest) - 1 := by
      unfold turnUTF8toUTF32 turnOfChar32 at hturn
      split_ifs at hturn
      all_goals
        rw [Turn.go.injEq] at hturn
        first
          | exact Or.inl hturn.2.1.symm
          | exact Or.inr hturn.2.1.symm
    have hle := findMaximalSubpart_le (first :: rest)
    rw [List.length_cons] at hlength hle
    omega

/-! ## The calls on the pieces -/

theorem resumes_of_online {α β : Type} {k : Converter α β ConversionResult}
    {call : List α → ℕ → Conversion α β} (hcall : ∀ s n, call s n = k.run n conversionOK s [])
    (hfull : k.full = targetExhausted) (honline : k.Online) : Resumes call := by
  obtain rfl : call = fun s n => k.run n conversionOK s [] := funext fun s => funext (hcall s)
  intro pieces n m whole fed last hwhole hlast
  rw [← hfull] at hwhole hlast
  exact feed_spec honline hwhole hlast

theorem resumesWithResult_of_online {α β : Type} {k : Converter α β ConversionResult}
    {call : List α → ℕ → Conversion α β} (hcall : ∀ s n, call s n = k.run n conversionOK s [])
    (hfull : k.full = targetExhausted) (honline : k.Online) (hunmarked : k.Unmarked) :
    ResumesWithResult call := by
  have hresumes := resumes_of_online hcall hfull honline
  obtain rfl : call = fun s n => k.run n conversionOK s [] := funext fun s => funext (hcall s)
  refine ⟨hresumes, ?_⟩
  intro pieces n m whole last hwhole hlast
  have hsource := (hresumes pieces n m hwhole hlast).2
  rw [← hfull] at hwhole hlast
  exact result_eq_of_source_eq hunmarked hsource hwhole hlast

theorem unmarked_fromUTF16 {β : Type} (write : UInt32 → List β) (flags : ConversionFlags) :
    Unmarked (⟨turnFromUTF16 write flags, targetExhausted⟩ :
      Converter UInt16 β ConversionResult) := by
  intro unit units room count out mark h
  have hturn : turnFromUTF16 write flags unit units = .go room count out mark := h
  unfold turnFromUTF16 at hturn
  cases hread : readUTF16 flags (unit :: units) with
  | error result =>
    rw [hread] at hturn
    cases hturn
  | ok p =>
    rw [hread] at hturn
    cases hturn
    rfl

theorem unmarked_utf8toUTF16 (flags : ConversionFlags) : Unmarked (utf8toUTF16 flags) := by
  intro first rest room count out mark h
  have hturn : turnUTF8toUTF16 flags first rest = .go room count out mark := h
  unfold turnUTF8toUTF16 turnOfChar16 at hturn
  split_ifs at hturn
  all_goals
    rw [Turn.go.injEq] at hturn
    exact hturn.2.2.2.symm

/-- A strict conversion from UTF-8 stops at the first sequence that is not legal. -/
theorem unmarked_utf8toUTF32 (inputIsPartial : Bool) :
    Unmarked (utf8toUTF32 strictConversion inputIsPartial) := by
  intro first rest room count out mark h
  have hturn : turnUTF8toUTF32 strictConversion inputIsPartial first rest =
      .go room count out mark := h
  simp only [turnUTF8toUTF32, turnOfChar32, reduceIte, true_or] at hturn
  split_ifs at hturn with hlength hlegal hmax hsurrogate
  · rw [Turn.go.injEq] at hturn
    exact hturn.2.2.2.symm
  · -- there is no legal sequence for a number beyond the last plane
    have hlegal' : isLegalUTF8 (first :: rest) (trailingBytesForUTF8 first + 1) = true := by
      simpa using hlegal
    obtain ⟨c, hc, -⟩ := exists_word_of_isLegalUTF8 hlegal'
    rw [hc, UInt32.le_iff_toNat_le] at hmax
    exact absurd (Nat.le_of_lt_succ (UnicodeForms.toNat_lt c)) hmax

/-- A conversion may be fed with the source in pieces and with the target in parts, unless it is the
one that takes the end of its source for the end of the text and goes on. -/
theorem conversions_resume (flags : ConversionFlags) :
    ResumesWithResult (convertUTF8toUTF16 · · flags) ∧
    ResumesWithResult (convertUTF16toUTF8 · · flags) ∧
    ResumesWithResult (convertUTF16toUTF32 · · flags) ∧
    Resumes (convertUTF32toUTF8 · · flags) ∧
    Resumes (convertUTF32toUTF16 · · flags) ∧
    Resumes (convertUTF8toUTF32Partial · · flags) ∧
    ResumesWithResult (convertUTF8toUTF32 · · strictConversion) := by
  refine ⟨?_, ?_, ?_, ?_, ?_, ?_, ?_⟩
  · exact resumesWithResult_of_online (fun s _ => convertUTF8toUTF16Loop_eq s []) rfl
      (online_utf8toUTF16 flags) (unmarked_utf8toUTF16 flags)
  · exact resumesWithResult_of_online (fun s _ => convertUTF16toUTF8Loop_eq s []) rfl
      (online_fromUTF16 bytesOf flags) (unmarked_fromUTF16 bytesOf flags)
  · exact resumesWithResult_of_online (fun s _ => convertUTF16toUTF32Loop_eq s []) rfl
      (online_fromUTF16 _ flags) (unmarked_fromUTF16 _ flags)
  · exact resumes_of_online (fun s _ => convertUTF32toUTF8Loop_eq s []) rfl
      (online_utf32toUTF8 flags)
  · exact resumes_of_online (fun s _ => convertUTF32toUTF16Loop_eq s []) rfl
      (online_utf32toUTF16 flags)
  · exact resumes_of_online (fun s _ => convertUTF8toUTF32Loop_eq true s []) rfl
      (online_utf8toUTF32 (Or.inr rfl))
  · exact resumesWithResult_of_online (fun s _ => convertUTF8toUTF32Loop_eq false s []) rfl
      (online_utf8toUTF32 (Or.inl rfl)) (unmarked_utf8toUTF32 false)

end Wpi.ConvertUTF

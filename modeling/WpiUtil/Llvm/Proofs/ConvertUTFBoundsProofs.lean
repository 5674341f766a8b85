import WpiUtil.Llvm.Proofs.ConvertUTFProofs

/-!
# How much the conversions of `ConvertUTF` write
-/

namespace Wpi.ConvertUTF

open Foundations Converter ConversionResult ConversionFlags

/-! ## Conversions that look at the end of the target -/

theorem checked_utf32toUTF16 (flags : ConversionFlags) : Checked (utf32toUTF16 flags) := by
  intro ch s room count out mark h
  have hturn : turnUTF32toUTF16 flags ch = .go room count out mark := h
  unfold turnUTF32toUTF16 at hturn
  split_ifs at hturn
  all_goals
    rw [Turn.go.injEq] at hturn
    obtain ⟨rfl, -, rfl, -⟩ := hturn
    first | exact Nat.le_refl _ | exact Nat.zero_le _

theorem checked_utf32toUTF8 (flags : ConversionFlags) : Checked (utf32toUTF8 flags) := by
  intro ch s room count out mark h
  have hturn : turnUTF32toUTF8 flags ch = .go room count out mark := h
  unfold turnUTF32toUTF8 at hturn
  split_ifs at hturn
  all_goals
    rw [Turn.go.injEq] at hturn
    obtain ⟨rfl, -, rfl, -⟩ := hturn
    exact Nat.le_refl _

theorem checked_fromUTF16 {β : Type} (write : UInt32 → List β) (flags : ConversionFlags) :
    Checked (⟨turnFromUTF16 write flags, targetExhausted⟩ :
      Converter UInt16 β ConversionResult) := by
  intro unit units room count out mark h
  have hturn : turnFromUTF16 write flags unit units = .go room count out mark := h
  unfold turnFromUTF16 at hturn
  cases hread : readUTF16 flags (unit :: units) with
  | error result =>
    rw [hread] at hturn
    cases hturn
  | ok p =>
    rw [hread] at hturn
    cases hturn
    exact Nat.le_refl _

theorem checked_utf8toUTF16 (flags : ConversionFlags) : Checked (utf8toUTF16 flags) := by
  intro first rest room count out mark h
  have hturn : turnUTF8toUTF16 flags first rest = .go room count out mark := h
  unfold turnUTF8toUTF16 turnOfChar16 at hturn
  split_ifs at hturn
  all_goals
    rw [Turn.go.injEq] at hturn
    obtain ⟨rfl, -, rfl, -⟩ := hturn
    exact Nat.le_refl _

/-! ## The conversion to UTF-32 that takes the end of its source for the end of the text -/

/-- A turn of the conversion from UTF-8 to UTF-32 writes one value, and does so without a look at
the end of the target only where less of the source is left than its first byte announces. -/
theorem turnUTF8toUTF32_go {flags : ConversionFlags} {inputIsPartial : Bool} {first : UInt8}
    {rest : List UInt8} {room count : ℕ} {out : List UInt32} {mark : Option ConversionResult}
    (h : turnUTF8toUTF32 flags inputIsPartial first rest = .go room count out mark) :
    out.length = 1 ∧ (room = 1 ∨ room = 0 ∧ (first :: rest).length ≤ 5 ∧
      flags = lenientConversion ∧ inputIsPartial = false) := by
  have hfive : trailingBytesForUTF8 first ≤ 5 := by
    unfold trailingBytesForUTF8
    split_ifs <;> omega
  unfold turnUTF8toUTF32 turnOfChar32 at h
  split_ifs at h with hlength hmode
  · rw [Turn.go.injEq] at h
    obtain ⟨rfl, -, rfl, -⟩ := h
    refine ⟨rfl, Or.inr ⟨rfl, Nat.le_trans hlength hfive, ?_⟩⟩
    cases flags with
    | strictConversion => exact absurd (Or.inl rfl) hmode
    | lenientConversion => exact ⟨rfl, by simpa using hmode⟩
  all_goals
    rw [Turn.go.injEq] at h
    obtain ⟨rfl, -, rfl, -⟩ := h
    exact ⟨rfl, Or.inl rfl⟩

theorem checked_utf8toUTF32 {flags : ConversionFlags} {inputIsPartial : Bool}
    (hmode : flags = strictConversion ∨ inputIsPartial = true) :
    Checked (utf8toUTF32 flags inputIsPartial) := by
  intro first rest room count out mark h
  obtain ⟨hout, hroom | ⟨-, -, hflags, hfalse⟩⟩ := turnUTF8toUTF32_go h
  · rw [hout, hroom]
  · obtain rfl | rfl := hmode
    · cases hflags
    · cases hfalse

/-- What is written beyond the end of the target was at the end of the source. -/
theorem length_target_utf8toUTF32_le {flags : ConversionFlags} {inputIsPartial : Bool}
    {capacity : ℕ} (result : ConversionResult) (s : List UInt8) (target : List UInt32) :
    let c := (utf8toUTF32 flags inputIsPartial).run capacity result s target
    c.target.length ≤ target.length + s.length ∧
      (target.length ≤ capacity → c.target.length ≤ capacity + 5) := by
  refine run_induction (P := fun _ s target c => c.target.length ≤ target.length + s.length ∧
    (target.length ≤ capacity → c.target.length ≤ capacity + 5)) ?_ ?_ ?_ ?_ result s target
  · exact fun _ _ => ⟨Nat.le_add_right _ _, fun hle => Nat.le_add_right_of_le hle⟩
  · exact fun _ _ _ _ _ => ⟨Nat.le_add_right _ _, fun hle => Nat.le_add_right_of_le hle⟩
  · exact fun _ _ _ _ _ _ _ _ => ⟨Nat.le_add_right _ _, fun hle => Nat.le_add_right_of_le hle⟩
  · rintro result first rest target room count out mark c hturn hroom ⟨hall, hbound⟩
    obtain ⟨hout, hcase⟩ := turnUTF8toUTF32_go hturn
    rw [List.length_append, hout] at hall hbound
    rw [List.length_drop] at hall
    rw [List.length_cons] at hcase ⊢
    refine ⟨by omega, fun hle => ?_⟩
    obtain rfl | ⟨rfl, hfive, -, -⟩ := hcase
    · rw [lacks_one_iff] at hroom
      exact hbound (by omega)
    · omega

theorem length_target_convertUTF8toUTF32_le (s : List UInt8) (n : ℕ) (flags : ConversionFlags) :
    (convertUTF8toUTF32 s n flags).target.length ≤ n + 5 := by
  have heq : convertUTF8toUTF32 s n flags = (utf8toUTF32 flags false).run n conversionOK s [] :=
    convertUTF8toUTF32Loop_eq false s []
  rw [heq]
  exact (length_target_utf8toUTF32_le conversionOK s []).2 (Nat.zero_le n)

/-- Text is written as long as there is room. -/
theorem run_replicate_utf8toUTF32 {flags : ConversionFlags} {inputIsPartial : Bool} {capacity : ℕ}
    {result : ConversionResult} (s : List UInt8) (k : ℕ) {target : List UInt32}
    (h : target.length + k ≤ capacity) :
    (utf8toUTF32 flags inputIsPartial).run capacity result (List.replicate k 0x61 ++ s) target =
      (utf8toUTF32 flags inputIsPartial).run capacity result s
        (target ++ List.replicate k 0x61) := by
  induction k generalizing target with
  | zero => rw [List.replicate_zero, List.replicate_zero, List.nil_append, List.append_nil]
  | succ k ih =>
    have hword : 0x61 :: (List.replicate k 0x61 ++ s) =
        UnicodeForms.utf8.word 'a' ++ (List.replicate k 0x61 ++ s) := rfl
    have hturn : (utf8toUTF32 flags inputIsPartial).turn 0x61 (List.replicate k 0x61 ++ s) = _ :=
      turnUTF8toUTF32_word flags inputIsPartial hword
    rw [List.replicate_succ, List.cons_append, run_of_go hturn, (word_facts hword).2.2.2,
      Option.getD_none, ih, List.append_assoc]
    · rfl
    · rw [List.length_append]
      have hone : (UnicodeForms.utf32.word 'a').length = 1 := rfl
      omega
    · rw [lacks_one_iff]
      omega

/-- A byte that announces more than there is of the source is replaced, whatever room there is. -/
theorem run_cutOff {capacity : ℕ} {result : ConversionResult} {rest : List UInt8}
    {target : List UInt32} (h : rest.length ≤ 4) :
    (utf8toUTF32 lenientConversion false).run capacity result (0xfc :: rest) target =
      (utf8toUTF32 lenientConversion false).run capacity sourceIllegal rest
        (target ++ [uniReplacementChar]) := by
  have hsubpart : findMaximalSubpartOfIllFormedUTF8Sequence (0xfc :: rest) = 1 := by
    cases rest with
    | nil => rfl
    | cons b t => rfl
  have hturn : (utf8toUTF32 lenientConversion false).turn 0xfc rest =
      .go 0 0 [uniReplacementChar] (some sourceIllegal) := by
    have hlength : (0xfc :: rest).length ≤ trailingBytesForUTF8 0xfc := Nat.succ_le_succ h
    have hstrict : ¬(lenientConversion = strictConversion ∨ false = true) := by decide
    exact (if_pos hlength).trans ((if_neg hstrict).trans (by rw [hsubpart]))
  rw [run_of_go hturn (not_lacks_zero _ _)]
  rfl

theorem length_run_replicate_cutOff {capacity k : ℕ} (hk : k ≤ 5) (target : List UInt32)
    (result : ConversionResult) :
    ((utf8toUTF32 lenientConversion false).run capacity result (List.replicate k 0xfc)
      target).target.length = target.length + k := by
  induction k generalizing target result with
  | zero => rw [List.replicate_zero, run_nil, Nat.add_zero]
  | succ k ih =>
    rw [List.replicate_succ, run_cutOff (by rw [List.length_replicate]; omega), ih (by omega),
      List.length_append, List.length_singleton]
    omega

theorem exists_overrun (n : ℕ) :
    ∃ s, (convertUTF8toUTF32 s n lenientConversion).target.length = n + 5 := by
  refine ⟨List.replicate n 0x61 ++ List.replicate 5 0xfc, ?_⟩
  have heq : convertUTF8toUTF32 (List.replicate n 0x61 ++ List.replicate 5 0xfc) n
      lenientConversion = _ := convertUTF8toUTF32Loop_eq false _ []
  rw [heq, run_replicate_utf8toUTF32 _ n (by rw [List.length_nil, Nat.zero_add]),
    length_run_replicate_cutOff (Nat.le_refl 5), List.nil_append, List.length_replicate]

theorem length_target_convertUTF8Sequence_le (s : List UInt8) (flags : ConversionFlags) :
    (convertUTF8Sequence s flags).target.length ≤ 6 := by
  cases s with
  | nil => exact Nat.zero_le 6
  | cons first rest =>
    rw [convertUTF8Sequence]
    dsimp only
    split_ifs
    · exact Nat.zero_le 6
    · exact length_target_convertUTF8toUTF32_le _ 1 flags

/-- Six bytes that each announce five more. -/
theorem length_target_convertUTF8Sequence_overrun :
    (convertUTF8Sequence (List.replicate 6 0xfc) lenientConversion).target.length = 6 := by
  have hturn : (utf8toUTF32 lenientConversion false).turn 0xfc (List.replicate 5 0xfc) =
      .go 1 0 [uniReplacementChar] (some sourceIllegal) := rfl
  have heq : convertUTF8toUTF32 (List.replicate 6 0xfc) 1 lenientConversion =
      (utf8toUTF32 lenientConversion false).run 1 conversionOK (List.replicate 6 0xfc) [] :=
    convertUTF8toUTF32Loop_eq false _ []
  have hsix : List.replicate 6 (0xfc : UInt8) = 0xfc :: List.replicate 5 0xfc := rfl
  have hcall : (convertUTF8Sequence (List.replicate 6 0xfc) lenientConversion).target =
      (convertUTF8toUTF32 (List.replicate 6 0xfc) 1 lenientConversion).target := rfl
  rw [hcall, heq, hsix, run_of_go hturn (not_lacks_of_le (Nat.le_refl 1)), List.drop_zero,
    length_run_replicate_cutOff (Nat.le_refl 5)]
  rfl

/-- No conversion writes beyond the end of the target, except that the lenient one from UTF-8 to
UTF-32 may write five values there for a source that is cut off. That is why the conversion of one
sequence may write six values where there is one. -/
theorem conversions_stay_in_target :
    (∀ s n flags, (convertUTF8toUTF16 s n flags).target.length ≤ n) ∧
    (∀ s n flags, (convertUTF16toUTF8 s n flags).target.length ≤ n) ∧
    (∀ s n flags, (convertUTF16toUTF32 s n flags).target.length ≤ n) ∧
    (∀ s n flags, (convertUTF32toUTF8 s n flags).target.length ≤ n) ∧
    (∀ s n flags, (convertUTF32toUTF16 s n flags).target.length ≤ n) ∧
    (∀ s n flags, (convertUTF8toUTF32Partial s n flags).target.length ≤ n) ∧
    (∀ s n, (convertUTF8toUTF32 s n strictConversion).target.length ≤ n) ∧
    (∀ s n, (convertUTF8toUTF32 s n lenientConversion).target.length ≤ n + 5) ∧
    (∀ n, ∃ s, (convertUTF8toUTF32 s n lenientConversion).target.length = n + 5) ∧
    (∀ s, (convertUTF8Sequence s strictConversion).target.length ≤ 1) ∧
    (∀ s, (convertUTF8Sequence s lenientConversion).target.length ≤ 6) ∧
    ∃ s, (convertUTF8Sequence s lenientConversion).target.length = 6 := by
  have hcall : ∀ {α β : Type} {k : Converter α β ConversionResult} {s : List α} {n : ℕ}
      {c : Conversion α β}, c = k.run n conversionOK s [] → k.Checked → c.target.length ≤ n := by
    rintro α β k s n c rfl hchecked
    exact length_target_le hchecked conversionOK s (Nat.zero_le n)
  have hstrict : ∀ s n, (convertUTF8toUTF32 s n strictConversion).target.length ≤ n := fun s n =>
    hcall (convertUTF8toUTF32Loop_eq false s []) (checked_utf8toUTF32 (Or.inl rfl))
  refine ⟨?_, ?_, ?_, ?_, ?_, ?_, hstrict, ?_, exists_overrun, ?_, ?_,
    _, length_target_convertUTF8Sequence_overrun⟩
  · exact fun s n flags => hcall (convertUTF8toUTF16Loop_eq s []) (checked_utf8toUTF16 flags)
  · exact fun s n flags => hcall (convertUTF16toUTF8Loop_eq s []) (checked_fromUTF16 bytesOf flags)
  · exact fun s n flags => hcall (convertUTF16toUTF32Loop_eq s []) (checked_fromUTF16 _ flags)
  · exact fun s n flags => hcall (convertUTF32toUTF8Loop_eq s []) (checked_utf32toUTF8 flags)
  · exact fun s n flags => hcall (convertUTF32toUTF16Loop_eq s []) (checked_utf32toUTF16 flags)
  · exact fun s n flags =>
      hcall (convertUTF8toUTF32Loop_eq true s []) (checked_utf8toUTF32 (Or.inr rfl))
  · exact fun s n => length_target_convertUTF8toUTF32_le s n lenientConversion
  · intro s
    cases s with
    | nil => exact Nat.zero_le 1
    | cons first rest =>
      rw [convertUTF8Sequence]
      dsimp only
      split_ifs
      · exact Nat.zero_le 1
      · exact hstrict _ 1
  · exact fun s => length_target_convertUTF8Sequence_le s lenientConversion

end Wpi.ConvertUTF

import WpiUtil.Llvm.ConvertUTFTurns

/-!
# The loops of `ConvertUTF` as converters

Each loop is the run of the converter with its turns.
-/

namespace Wpi.ConvertUTF

open Foundations Converter ConversionResult ConversionFlags

variable {flags : ConversionFlags} {capacity : ℕ} {result : ConversionResult}

/-! ## From UTF-32 to UTF-16 -/

theorem convertUTF32toUTF16Loop_eq (source : List UInt32) (target : List UInt16) :
    convertUTF32toUTF16Loop flags capacity result source target =
      (utf32toUTF16 flags).run capacity result source target := by
  induction source generalizing result target with
  | nil => rw [run_nil, convertUTF32toUTF16Loop]
  | cons ch source ih =>
    have hturn : (utf32toUTF16 flags).turn ch source = turnUTF32toUTF16 flags ch := rfl
    rw [convertUTF32toUTF16Loop, run_cons, hturn, turnUTF32toUTF16]
    simp only [apply_ite (after _ capacity result ch source target), after_go, after_stop,
      lacks_one_iff, lacks_two_iff]
    by_cases hfull : capacity ≤ target.length
    · simp only [if_pos hfull, if_pos (Nat.le_succ_of_le hfull), ite_self]
      rfl
    · simp only [if_neg hfull, ih, List.append_nil, List.drop_zero]
      rfl

/-! ## From UTF-16 -/

theorem turnFromUTF16_of_error {β : Type} {write : UInt32 → List β} {unit : UInt16}
    {units : List UInt16} (h : readUTF16 flags (unit :: units) = .error result) :
    turnFromUTF16 write flags unit units = .stop 0 result := by
  rw [turnFromUTF16, h]

theorem turnFromUTF16_of_ok {β : Type} {write : UInt32 → List β} {unit : UInt16}
    {units rest : List UInt16} {ch : UInt32}
    (h : readUTF16 flags (unit :: units) = .ok (ch, rest)) :
    turnFromUTF16 write flags unit units =
      .go (write ch).length (units.length - rest.length) (write ch) none := by
  rw [turnFromUTF16, h]

/-- What is read of UTF-16: one unit, or a pair of surrogates. -/
theorem rest_of_readUTF16_eq_ok {unit : UInt16} {units rest : List UInt16} {ch : UInt32}
    (h : readUTF16 flags (unit :: units) = .ok (ch, rest)) :
    rest = units ∨ ∃ unit2, units = unit2 :: rest := by
  have hok : ∀ {ch' : UInt32} {rest' : List UInt16},
      (Except.ok (ch', rest') : Except ConversionResult _) = .ok (ch, rest) → rest = rest' := by
    intro ch' rest' heq
    injection heq with hpair
    exact (congrArg Prod.snd hpair).symm
  unfold readUTF16 at h
  cases units with
  | nil =>
    dsimp only at h
    split_ifs at h
    all_goals exact Or.inl (hok h)
  | cons unit2 units =>
    dsimp only at h
    split_ifs at h
    · exact Or.inr ⟨unit2, by rw [hok h]⟩
    all_goals exact Or.inl (hok h)

theorem drop_of_readUTF16_eq_ok {unit : UInt16} {units rest : List UInt16} {ch : UInt32}
    (h : readUTF16 flags (unit :: units) = .ok (ch, rest)) :
    units.drop (units.length - rest.length) = rest := by
  obtain rfl | ⟨unit2, rfl⟩ := rest_of_readUTF16_eq_ok h
  · rw [Nat.sub_self, List.drop_zero]
  · rw [List.length_cons, Nat.add_sub_cancel_left, List.drop_succ_cons, List.drop_zero]

theorem convertUTF16toUTF32Loop_eq (source : List UInt16) (target : List UInt32) :
    convertUTF16toUTF32Loop flags capacity source target =
      (utf16toUTF32 flags).run capacity conversionOK source target := by
  fun_induction convertUTF16toUTF32Loop flags capacity source target with
  | case1 target => rw [run_nil]
  | case2 target unit units result hread =>
    have hturn : (utf16toUTF32 flags).turn unit units = .stop 0 result :=
      turnFromUTF16_of_error hread
    rw [run_of_stop hturn (not_lacks_zero _ _)]
  | case3 target unit units ch rest hread hfull =>
    have hturn : (utf16toUTF32 flags).turn unit units = _ := turnFromUTF16_of_ok hread
    rw [run_cons, hturn, after_go, List.length_singleton, if_pos (lacks_one_iff.2 hfull)]
    rfl
  | case4 target unit units ch rest hread hfull ih =>
    have hturn : (utf16toUTF32 flags).turn unit units = _ := turnFromUTF16_of_ok hread
    rw [run_of_go hturn (lacks_one_iff.not.2 hfull), drop_of_readUTF16_eq_ok hread, ih]
    rfl

theorem length_writeUTF8 (mark : UInt32) (count : ℕ) (ch : UInt32) (written : List UInt8) :
    (writeUTF8 mark count ch written).length = count + 1 + written.length := by
  induction count generalizing ch written with
  | zero => rw [writeUTF8, List.length_cons, Nat.zero_add, Nat.add_comm]
  | succ count ih =>
    rw [writeUTF8, ih, List.length_cons]
    omega

theorem bytesToWrite_pos (ch : UInt32) : 0 < (bytesToWrite ch).1 := by
  unfold bytesToWrite
  split_ifs <;> exact Nat.succ_pos _

theorem length_bytesOf (ch : UInt32) : (bytesOf ch).length = (bytesToWrite ch).1 := by
  have hpos := bytesToWrite_pos ch
  rw [bytesOf, length_writeUTF8, List.length_nil]
  omega

theorem lacks_bytesOf_iff (ch : UInt32) (written : ℕ) :
    Lacks capacity written (bytesOf ch).length ↔ capacity < written + (bytesToWrite ch).1 := by
  rw [length_bytesOf, lacks_iff_of_pos (bytesToWrite_pos ch)]

theorem convertUTF16toUTF8Loop_eq (source : List UInt16) (target : List UInt8) :
    convertUTF16toUTF8Loop flags capacity source target =
      (utf16toUTF8 flags).run capacity conversionOK source target := by
  fun_induction convertUTF16toUTF8Loop flags capacity source target with
  | case1 target => rw [run_nil]
  | case2 target unit units result hread =>
    have hturn : (utf16toUTF8 flags).turn unit units = .stop 0 result :=
      turnFromUTF16_of_error hread
    rw [run_of_stop hturn (not_lacks_zero _ _)]
  | case3 target unit units ch rest hread count written hcount hfull =>
    have hturn : (utf16toUTF8 flags).turn unit units = _ := turnFromUTF16_of_ok hread
    rw [run_cons, hturn, after_go, if_pos]
    · rfl
    · rwa [lacks_bytesOf_iff, hcount]
  | case4 target unit units ch rest hread count written hcount hfull ih =>
    have hturn : (utf16toUTF8 flags).turn unit units = _ := turnFromUTF16_of_ok hread
    rw [run_of_go hturn, drop_of_readUTF16_eq_ok hread, ih, bytesOf, hcount]
    · rfl
    · rwa [lacks_bytesOf_iff, hcount]

/-! ## From UTF-32 to UTF-8 -/

theorem convertUTF32toUTF8Loop_eq (source : List UInt32) (target : List UInt8) :
    convertUTF32toUTF8Loop flags capacity result source target =
      (utf32toUTF8 flags).run capacity result source target := by
  induction source generalizing result target with
  | nil => rw [run_nil, convertUTF32toUTF8Loop]
  | cons ch source ih =>
    have hturn : (utf32toUTF8 flags).turn ch source = turnUTF32toUTF8 flags ch := rfl
    rw [convertUTF32toUTF8Loop, run_cons, hturn, turnUTF32toUTF8]
    by_cases hillegal : flags = strictConversion ∧ isSurrogate ch
    · rw [if_pos hillegal, if_pos hillegal, after_stop, if_neg (not_lacks_zero _ _)]
    · rw [if_neg hillegal, if_neg hillegal, after_go]
      refine if_congr (lacks_bytesOf_iff ch _).symm rfl ?_
      rw [ih, List.drop_zero]
      by_cases hlegal : ch ≤ uniMaxLegalUtf32
      · rw [if_pos hlegal, if_pos hlegal]
        rfl
      · rw [if_neg hlegal, if_neg hlegal]
        rfl

/-! ## From UTF-8 -/

/-- Behind `n + 1` bytes is what is behind `n` bytes of the rest. -/
theorem drop_subpart (first : UInt8) (rest : List UInt8) :
    (first :: rest).drop (findMaximalSubpartOfIllFormedUTF8Sequence (first :: rest)) =
      rest.drop (findMaximalSubpartOfIllFormedUTF8Sequence (first :: rest) - 1) := by
  obtain ⟨n, hn⟩ := Nat.exists_eq_add_one.2 (findMaximalSubpart_pos first rest)
  rw [hn, List.drop_succ_cons, Nat.add_sub_cancel]

theorem convertUTF8toUTF16Loop_eq (source : List UInt8) (target : List UInt16) :
    convertUTF8toUTF16Loop flags capacity source target =
      (utf8toUTF16 flags).run capacity conversionOK source target := by
  induction hn : source.length using Nat.strongRecOn generalizing source target with
  | ind n ih =>
    cases source with
    | nil => rw [run_nil, convertUTF8toUTF16Loop]
    | cons first rest =>
      have hturn : (utf8toUTF16 flags).turn first rest = turnUTF8toUTF16 flags first rest := rfl
      have ih : ∀ target, convertUTF8toUTF16Loop flags capacity
          ((first :: rest).drop (trailingBytesForUTF8 first + 1)) target =
          (utf8toUTF16 flags).run capacity conversionOK
            (rest.drop (trailingBytesForUTF8 first)) target := by
        intro target
        refine ih _ ?_ _ target rfl
        rw [← hn]
        exact length_drop_lt first rest (Nat.succ_pos _)
      rw [convertUTF8toUTF16Loop, run_cons, hturn, turnUTF8toUTF16, turnOfChar16]
      simp only [apply_ite (after _ capacity conversionOK first rest target), after_go, after_stop,
        lacks_one_iff, lacks_two_iff, if_neg (not_lacks_zero _ _), ih]
      by_cases hfull : capacity ≤ target.length
      · simp only [if_pos hfull, if_pos (Nat.le_succ_of_le hfull), ite_self]
        rfl
      · simp only [if_neg hfull]
        rfl

theorem convertUTF8toUTF32Loop_eq (inputIsPartial : Bool) (source : List UInt8)
    (target : List UInt32) :
    convertUTF8toUTF32Loop flags inputIsPartial capacity result source target =
      (utf8toUTF32 flags inputIsPartial).run capacity result source target := by
  induction hn : source.length using Nat.strongRecOn generalizing source target result with
  | ind n ih =>
    cases source with
    | nil => rw [run_nil, convertUTF8toUTF32Loop]
    | cons first rest =>
      have hturn : (utf8toUTF32 flags inputIsPartial).turn first rest =
          turnUTF8toUTF32 flags inputIsPartial first rest := rfl
      have ih : ∀ m, 0 < m → ∀ result target,
          convertUTF8toUTF32Loop flags inputIsPartial capacity result ((first :: rest).drop m)
            target =
            (utf8toUTF32 flags inputIsPartial).run capacity result ((first :: rest).drop m)
              target := by
        intro m hm result target
        refine ih _ ?_ _ target rfl
        rw [← hn]
        exact length_drop_lt first rest hm
      have ihchar := ih _ (Nat.succ_pos (trailingBytesForUTF8 first))
      have ihsubpart := ih _ (findMaximalSubpart_pos first rest)
      rw [drop_subpart] at ihsubpart
      rw [List.drop_succ_cons] at ihchar
      rw [convertUTF8toUTF32Loop, run_cons, hturn, turnUTF8toUTF32, turnOfChar32]
      simp only [apply_ite (after _ capacity result first rest target), after_go, after_stop,
        lacks_one_iff, if_neg (not_lacks_zero _ _), drop_subpart, List.drop_succ_cons, ihchar,
        ihsubpart]
      by_cases hfull : capacity ≤ target.length
      · simp only [if_pos hfull, ite_self]
        rfl
      · simp only [if_neg hfull]
        rfl

end Wpi.ConvertUTF

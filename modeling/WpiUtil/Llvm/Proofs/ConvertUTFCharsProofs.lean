import Mathlib.Algebra.Group.Nat.Defs
import WpiUtil.Llvm.ConvertUTFTurns

/-!
# How `ConvertUTF` reads and writes one character
-/

namespace Wpi.ConvertUTF

open Foundations UnicodeForms ConversionResult ConversionFlags

theorem isSurrogate_iff (ch : UInt32) :
    isSurrogate ch = true ↔ 0xd800 ≤ ch.toNat ∧ ch.toNat ≤ 0xdfff := by
  simp only [isSurrogate, decide_eq_true_eq, UInt32.le_iff_toNat_le]
  rfl

theorem isHighSurrogate_iff (ch : UInt32) :
    isHighSurrogate ch = true ↔ 0xd800 ≤ ch.toNat ∧ ch.toNat ≤ 0xdbff := by
  simp only [isHighSurrogate, decide_eq_true_eq, UInt32.le_iff_toNat_le]
  rfl

theorem isLowSurrogate_iff (ch : UInt32) :
    isLowSurrogate ch = true ↔ 0xdc00 ≤ ch.toNat ∧ ch.toNat ≤ 0xdfff := by
  simp only [isLowSurrogate, decide_eq_true_eq, UInt32.le_iff_toNat_le]
  rfl

theorem toNat_val (c : Char) : c.val.toNat = c.toNat := rfl

theorem not_isSurrogate_val (c : Char) : ¬isSurrogate c.val = true := by
  have hc := not_surrogate c
  rw [isSurrogate_iff, toNat_val]
  omega

/-- A number that is no surrogate and not beyond the last plane is a character. -/
theorem exists_val_eq (ch : UInt32) (hsurrogate : ¬isSurrogate ch = true)
    (hlegal : ch.toNat < 0x110000) : ∃ c : Char, ch = c.val := by
  rw [isSurrogate_iff] at hsurrogate
  have hvalid : ch.toNat.isValidChar := by
    unfold Nat.isValidChar
    omega
  exact ⟨⟨ch, hvalid⟩, rfl⟩

/-! ## UTF-16 -/

theorem toNat_sub_halfBase {ch : UInt32} (h : 0x10000 ≤ ch.toNat) :
    (ch - halfBase).toNat = ch.toNat - 0x10000 :=
  UInt32.toNat_sub_of_le _ _ h

/-- The pair of surrogates for a character. -/
theorem surrogatePair_eq {ch : UInt32} (hle : 0x10000 ≤ ch.toNat) (hlt : ch.toNat < 0x110000) :
    surrogatePair ch = [highSurrogate ch.toNat, lowSurrogate ch.toNat] := by
  have hsub := toNat_sub_halfBase hle
  have hshift : (ch - halfBase).toNat >>> 10 = (ch.toNat - 0x10000) / 0x400 := by
    rw [hsub, Nat.shiftRight_eq_div_pow]
  have hmask : (ch - halfBase).toNat &&& 0x3ff = (ch.toNat - 0x10000) % 0x400 := by
    rw [hsub]
    exact Nat.and_two_pow_sub_one_eq_mod _ 10
  have hhigh : (((ch - halfBase) >>> halfShift) + uniSurHighStart).toUInt16 =
      highSurrogate ch.toNat := by
    apply UInt16.toNat_inj.1
    rw [toNat_highSurrogate hlt, UInt32.toNat_toUInt16, UInt32.toNat_add, UInt32.toNat_shiftRight]
    have hten : halfShift.toNat % 32 = 10 := rfl
    have hstart : uniSurHighStart.toNat = 0xd800 := rfl
    rw [hten, hshift, hstart]
    omega
  have hlow : (((ch - halfBase) &&& halfMask) + uniSurLowStart).toUInt16 =
      lowSurrogate ch.toNat := by
    apply UInt16.toNat_inj.1
    rw [toNat_lowSurrogate, UInt32.toNat_toUInt16, UInt32.toNat_add, UInt32.toNat_and]
    have hmask' : halfMask.toNat = 0x3ff := rfl
    have hstart : uniSurLowStart.toNat = 0xdc00 := rfl
    rw [hmask', hmask, hstart]
    omega
  rw [surrogatePair, hhigh, hlow]

/-- What is read of a pair of surrogates. -/
theorem toNat_pair {ch ch2 : UInt32} (hhigh : isHighSurrogate ch = true)
    (hlow : isLowSurrogate ch2 = true) :
    (((ch - uniSurHighStart) <<< halfShift) + (ch2 - uniSurLowStart) + halfBase).toNat =
      (ch.toNat - 0xd800) * 0x400 + (ch2.toNat - 0xdc00) + 0x10000 := by
  rw [isHighSurrogate_iff] at hhigh
  rw [isLowSurrogate_iff] at hlow
  have hsub : (ch - uniSurHighStart).toNat = ch.toNat - 0xd800 := UInt32.toNat_sub_of_le _ _ hhigh.1
  have hsub2 : (ch2 - uniSurLowStart).toNat = ch2.toNat - 0xdc00 :=
    UInt32.toNat_sub_of_le _ _ hlow.1
  have hten : halfShift.toNat % 32 = 10 := rfl
  have hbase : halfBase.toNat = 0x10000 := rfl
  rw [UInt32.toNat_add, UInt32.toNat_add, UInt32.toNat_shiftLeft, hten, hsub, hsub2, hbase,
    Nat.shiftLeft_eq]
  omega

theorem readUTF16_cons_of_not_surrogate {flags : ConversionFlags} {unit : UInt16}
    {units : List UInt16} (h : unit.toNat < 0xd800 ∨ 0xdfff < unit.toNat) :
    readUTF16 flags (unit :: units) = .ok (unit.toUInt32, units) := by
  have hhigh : ¬isHighSurrogate unit.toUInt32 = true := by
    rw [isHighSurrogate_iff, UInt16.toNat_toUInt32]
    omega
  have hlow : ¬isLowSurrogate unit.toUInt32 = true := by
    rw [isLowSurrogate_iff, UInt16.toNat_toUInt32]
    omega
  unfold readUTF16
  simp only [if_neg hhigh, if_neg hlow, ite_self]

theorem readUTF16_pair {flags : ConversionFlags} {unit unit2 : UInt16} {units : List UInt16}
    (hhigh : isHighSurrogate unit.toUInt32 = true) (hlow : isLowSurrogate unit2.toUInt32 = true) :
    readUTF16 flags (unit :: unit2 :: units) =
      .ok (((unit.toUInt32 - uniSurHighStart) <<< halfShift) + (unit2.toUInt32 - uniSurLowStart) +
        halfBase, units) := by
  unfold readUTF16
  simp only [if_pos hhigh, if_pos hlow]

theorem readUTF16_word (flags : ConversionFlags) (c : Char) (t : List UInt16) :
    readUTF16 flags (utf16Word c ++ t) = .ok (c.val, t) := by
  have hc := toNat_lt c
  have hsurrogate := not_surrogate c
  by_cases hlt : c.toNat < 0x10000
  · have hunit := toNat_ofNat_of_lt hlt
    rw [utf16Word_of_lt hlt, List.singleton_append,
      readUTF16_cons_of_not_surrogate (by rwa [hunit])]
    have hval : (UInt16.ofNat c.toNat).toUInt32 = c.val := by
      apply UInt32.toNat_inj.1
      rw [UInt16.toNat_toUInt32, hunit, toNat_val]
    rw [hval]
  · have hhigh : isHighSurrogate (highSurrogate c.toNat).toUInt32 = true := by
      rw [isHighSurrogate_iff, UInt16.toNat_toUInt32, toNat_highSurrogate hc]
      omega
    have hlow : isLowSurrogate (lowSurrogate c.toNat).toUInt32 = true := by
      rw [isLowSurrogate_iff, UInt16.toNat_toUInt32, toNat_lowSurrogate]
      omega
    rw [utf16Word_of_le (Nat.not_lt.1 hlt), List.cons_append, List.singleton_append,
      readUTF16_pair hhigh hlow]
    have hval : ((highSurrogate c.toNat).toUInt32 - uniSurHighStart) <<< halfShift +
        ((lowSurrogate c.toNat).toUInt32 - uniSurLowStart) + halfBase = c.val := by
      apply UInt32.toNat_inj.1
      rw [toNat_pair hhigh hlow, UInt16.toNat_toUInt32, UInt16.toNat_toUInt32,
        toNat_highSurrogate hc, toNat_lowSurrogate, toNat_val]
      omega
    rw [hval]

theorem exists_word_pair {unit unit2 : UInt16} (hhigh : isHighSurrogate unit.toUInt32 = true)
    (hlow : isLowSurrogate unit2.toUInt32 = true) :
    ∃ c : Char, ((unit.toUInt32 - uniSurHighStart) <<< halfShift) +
        (unit2.toUInt32 - uniSurLowStart) + halfBase = c.val ∧ utf16Word c = [unit, unit2] := by
  have hpair := toNat_pair hhigh hlow
  rw [isHighSurrogate_iff] at hhigh
  rw [isLowSurrogate_iff] at hlow
  rw [UInt16.toNat_toUInt32] at hhigh hlow hpair
  rw [UInt16.toNat_toUInt32] at hpair
  obtain ⟨c, hc⟩ := exists_val_eq (((unit.toUInt32 - uniSurHighStart) <<< halfShift) +
    (unit2.toUInt32 - uniSurLowStart) + halfBase) (by rw [isSurrogate_iff, hpair]; omega)
    (by rw [hpair]; omega)
  rw [hc, toNat_val] at hpair
  refine ⟨c, hc, ?_⟩
  have hunit : highSurrogate c.toNat = unit := by
    apply UInt16.toNat_inj.1
    rw [toNat_highSurrogate (toNat_lt c)]
    omega
  have hunit2 : lowSurrogate c.toNat = unit2 := by
    apply UInt16.toNat_inj.1
    rw [toNat_lowSurrogate]
    omega
  rw [utf16Word_of_le (by omega), hunit, hunit2]

theorem exists_word_unit {unit : UInt16} (h : unit.toNat < 0xd800 ∨ 0xdfff < unit.toNat) :
    ∃ c : Char, unit.toUInt32 = c.val ∧ utf16Word c = [unit] := by
  have hlt := unit.toNat_lt
  obtain ⟨c, hc⟩ := exists_val_eq unit.toUInt32
    (by rw [isSurrogate_iff, UInt16.toNat_toUInt32]; omega)
    (by rw [UInt16.toNat_toUInt32]; omega)
  have htoNat : unit.toNat = c.toNat := by
    rw [← toNat_val, ← hc, UInt16.toNat_toUInt32]
  refine ⟨c, hc, ?_⟩
  rw [utf16Word_of_lt (by omega), ← htoNat, UInt16.ofNat_toNat]

/-- What a strict conversion reads is the word of a character. -/
theorem exists_word_of_readUTF16 {s rest : List UInt16} {ch : UInt32}
    (h : readUTF16 strictConversion s = .ok (ch, rest)) :
    ∃ c : Char, ch = c.val ∧ s = utf16Word c ++ rest := by
  cases s with
  | nil => cases h
  | cons unit units =>
    by_cases hhigh : isHighSurrogate unit.toUInt32 = true
    · cases units with
      | nil =>
        unfold readUTF16 at h
        simp only [if_pos hhigh] at h
        cases h
      | cons unit2 units =>
        by_cases hlow : isLowSurrogate unit2.toUInt32 = true
        · rw [readUTF16_pair hhigh hlow, Except.ok.injEq, Prod.mk.injEq] at h
          obtain ⟨c, hc, hword⟩ := exists_word_pair hhigh hlow
          refine ⟨c, by rw [← h.1, hc], ?_⟩
          rw [hword, h.2, List.cons_append, List.singleton_append]
        · unfold readUTF16 at h
          simp only [if_pos hhigh, if_neg hlow, if_true] at h
          cases h
    · by_cases hlow : isLowSurrogate unit.toUInt32 = true
      · unfold readUTF16 at h
        simp only [if_neg hhigh, if_pos hlow, if_true] at h
        cases h
      · rw [isHighSurrogate_iff, UInt16.toNat_toUInt32] at hhigh
        rw [isLowSurrogate_iff, UInt16.toNat_toUInt32] at hlow
        have hunit : unit.toNat < 0xd800 ∨ 0xdfff < unit.toNat := by omega
        rw [readUTF16_cons_of_not_surrogate hunit, Except.ok.injEq, Prod.mk.injEq] at h
        obtain ⟨c, hc, hword⟩ := exists_word_unit hunit
        refine ⟨c, by rw [← h.1, hc], ?_⟩
        rw [hword, h.2, List.singleton_append]

/-! ## Writing UTF-8 -/

/-- The bits of a byte that are not the first one of a character. -/
theorem toUInt8_mark (ch : UInt32) :
    ((ch ||| byteMark) &&& byteMask).toUInt8 = UInt8.ofNat (ch.toNat % 0x40 + 0x80) := by
  have hbyte : ∀ n < 256, (UInt8.ofNat n ||| 0x80) &&& 0xbf = UInt8.ofNat (n % 0x40 + 0x80) := by
    decide +kernel
  have hmark : byteMark.toUInt8 = 0x80 := rfl
  have hmask : byteMask.toUInt8 = 0xbf := rfl
  have hlow : ch.toUInt8 = UInt8.ofNat (ch.toNat % 256) := by
    apply UInt8.toNat_inj.1
    rw [UInt32.toNat_toUInt8, UInt8.toNat_ofNat']
    omega
  rw [UInt32.toUInt8_and, UInt32.toUInt8_or, hmark, hmask, hlow, hbyte _ (Nat.mod_lt _ (by decide)),
    show ch.toNat % 256 % 0x40 = ch.toNat % 0x40 by omega]

theorem toNat_shiftRight_six (ch : UInt32) : (ch >>> 6).toNat = ch.toNat / 64 := by
  rw [UInt32.toNat_shiftRight]
  exact Nat.shiftRight_eq_div_pow _ 6

/-- The first byte of a character, whose bits below the mark are free. -/
theorem toUInt8_firstByte {ch : UInt32} {mark : UInt32} {v n m : ℕ} (hmark : mark.toNat = v)
    (hv : v = 2 ^ n * m) (hch : ch.toNat < 2 ^ n) :
    (ch ||| mark).toUInt8 = UInt8.ofNat (ch.toNat + v) := by
  apply UInt8.toNat_inj.1
  rw [UInt32.toNat_toUInt8, UInt32.toNat_or, hmark, hv, Nat.or_comm,
    ← Nat.two_pow_add_eq_or_of_lt hch, UInt8.toNat_ofNat', Nat.add_comm]

theorem writeUTF8_two (mark ch : UInt32) :
    writeUTF8 mark 1 ch [] =
      [((ch >>> 6) ||| mark).toUInt8, UInt8.ofNat (ch.toNat % 0x40 + 0x80)] := by
  rw [writeUTF8, writeUTF8, toUInt8_mark]

theorem writeUTF8_three (mark ch : UInt32) :
    writeUTF8 mark 2 ch [] =
      [((ch >>> 6 >>> 6) ||| mark).toUInt8, UInt8.ofNat (ch.toNat / 64 % 0x40 + 0x80),
        UInt8.ofNat (ch.toNat % 0x40 + 0x80)] := by
  rw [writeUTF8, writeUTF8, writeUTF8, toUInt8_mark, toUInt8_mark, toNat_shiftRight_six]

theorem writeUTF8_four (mark ch : UInt32) :
    writeUTF8 mark 3 ch [] =
      [((ch >>> 6 >>> 6 >>> 6) ||| mark).toUInt8, UInt8.ofNat (ch.toNat / 64 / 64 % 0x40 + 0x80),
        UInt8.ofNat (ch.toNat / 64 % 0x40 + 0x80), UInt8.ofNat (ch.toNat % 0x40 + 0x80)] := by
  rw [writeUTF8, writeUTF8, writeUTF8, writeUTF8, toUInt8_mark, toUInt8_mark, toUInt8_mark,
    toNat_shiftRight_six, toNat_shiftRight_six]

theorem bytesOf_of_bytesToWrite {ch : UInt32} {count : ℕ} (h : bytesToWrite ch = (count, ch)) :
    bytesOf ch = writeUTF8 (firstByteMark count) (count - 1) ch [] := by
  rw [bytesOf, h]

/-- The bytes written are the encoding of the number. -/
theorem bytesOf_eq {ch : UInt32} (h : ch.toNat < 0x110000) :
    bytesOf ch = Utf8.encodeNat ch.toNat := by
  have hlt : ∀ n : UInt32, ch < n ↔ ch.toNat < n.toNat := fun n => UInt32.lt_iff_toNat_lt
  by_cases h1 : ch.toNat < 0x80
  · have hbytes : bytesToWrite ch = (1, ch) := by
      rw [bytesToWrite, if_pos ((hlt 0x80).2 h1)]
    rw [bytesOf_of_bytesToWrite hbytes, Utf8.encodeNat_of_lt h1]
    exact congrArg (· :: []) (toUInt8_firstByte (v := 0) (n := 7) (m := 0) rfl rfl h1)
  · by_cases h2 : ch.toNat < 0x800
    · have hbytes : bytesToWrite ch = (2, ch) := by
        rw [bytesToWrite, if_neg ((hlt 0x80).not.2 h1), if_pos ((hlt 0x800).2 h2)]
      have hfirst : (ch >>> 6).toNat < 2 ^ 6 := by
        rw [toNat_shiftRight_six]
        omega
      rw [bytesOf_of_bytesToWrite hbytes, writeUTF8_two,
        toUInt8_firstByte (v := 0xc0) (n := 6) (m := 3) rfl rfl hfirst, toNat_shiftRight_six,
        Utf8.encodeNat, if_neg (by omega), if_pos (by omega),
        show ch.toNat / 64 % 0x20 = ch.toNat / 64 by omega]
    · by_cases h3 : ch.toNat < 0x10000
      · have hbytes : bytesToWrite ch = (3, ch) := by
          rw [bytesToWrite, if_neg ((hlt 0x80).not.2 h1), if_neg ((hlt 0x800).not.2 h2),
            if_pos ((hlt 0x10000).2 h3)]
        have hfirst : (ch >>> 6 >>> 6).toNat < 2 ^ 5 := by
          rw [toNat_shiftRight_six, toNat_shiftRight_six]
          omega
        rw [bytesOf_of_bytesToWrite hbytes, writeUTF8_three,
          toUInt8_firstByte (v := 0xe0) (n := 5) (m := 7) rfl rfl hfirst, toNat_shiftRight_six,
          toNat_shiftRight_six, Utf8.encodeNat, if_neg (by omega), if_neg (by omega),
          if_pos (by omega), show ch.toNat / 4096 % 0x10 = ch.toNat / 64 / 64 by omega]
      · have hbytes : bytesToWrite ch = (4, ch) := by
          rw [bytesToWrite, if_neg ((hlt 0x80).not.2 h1), if_neg ((hlt 0x800).not.2 h2),
            if_neg ((hlt 0x10000).not.2 h3), if_pos ((hlt 0x110000).2 h)]
        have hfirst : (ch >>> 6 >>> 6 >>> 6).toNat < 2 ^ 4 := by
          rw [toNat_shiftRight_six, toNat_shiftRight_six, toNat_shiftRight_six]
          omega
        rw [bytesOf_of_bytesToWrite hbytes, writeUTF8_four,
          toUInt8_firstByte (v := 0xf0) (n := 4) (m := 15) rfl rfl hfirst, toNat_shiftRight_six,
          toNat_shiftRight_six, toNat_shiftRight_six, Utf8.encodeNat, if_neg (by omega),
          if_neg (by omega), if_neg (by omega),
          show ch.toNat / 262144 % 0x08 = ch.toNat / 64 / 64 / 64 by omega,
          show ch.toNat / 4096 = ch.toNat / 64 / 64 by omega]

theorem bytesOf_val (c : Char) : bytesOf c.val = utf8.word c := by
  rw [bytesOf_eq (toNat_lt c)]
  rfl

/-! ## Reading UTF-8 -/

theorem isTrailingByte_iff (a : UInt8) :
    isTrailingByte a = true ↔ 0x80 ≤ a.toNat ∧ a.toNat ≤ 0xbf := by
  simp only [isTrailingByte, decide_eq_true_eq, UInt8.le_iff_toNat_le]
  rfl

theorem isLegalFirst_iff (a : UInt8) :
    isLegalFirst a = true ↔ (a.toNat < 0x80 ∨ 0xc2 ≤ a.toNat) ∧ a.toNat ≤ 0xf4 := by
  simp only [isLegalFirst, Bool.and_eq_true, Bool.not_eq_true', Bool.and_eq_false_iff,
    decide_eq_false_iff_not, decide_eq_true_eq, UInt8.le_iff_toNat_le, UInt8.lt_iff_toNat_lt]
  have h1 : (0x80 : UInt8).toNat = 0x80 := rfl
  have h2 : (0xc2 : UInt8).toNat = 0xc2 := rfl
  have h3 : (0xf4 : UInt8).toNat = 0xf4 := rfl
  rw [h1, h2, h3]
  omega

/-- The second byte is in the range that the first one leaves. -/
theorem isLegalSecond_iff (first a : UInt8) (h : isTrailingByte a = true) :
    isLegalSecond first a = true ↔ (first.toNat = 0xe0 → 0xa0 ≤ a.toNat) ∧
      (first.toNat = 0xed → a.toNat ≤ 0x9f) ∧ (first.toNat = 0xf0 → 0x90 ≤ a.toNat) ∧
      (first.toNat = 0xf4 → a.toNat ≤ 0x8f) := by
  rw [isTrailingByte_iff] at h
  simp only [isLegalSecond, ← UInt8.toNat_inj, UInt8.le_iff_toNat_le, UInt8.reduceToNat]
  split_ifs
  all_goals
    rw [decide_eq_true_eq]
    omega

theorem trailingBytesForUTF8_eq (first : UInt8) :
    trailingBytesForUTF8 first =
      if first.toNat < 0xc0 then 0
      else if first.toNat < 0xe0 then 1
      else if first.toNat < 0xf0 then 2
      else if first.toNat < 0xf8 then 3
      else if first.toNat < 0xfc then 4
      else 5 := by
  simp only [trailingBytesForUTF8, UInt8.lt_iff_toNat_lt, UInt8.reduceToNat]

theorem toNat_add_shift (ch : UInt32) (b : UInt8) (hch : ch.toNat < 0x1000000) :
    ((ch + b.toUInt32) <<< 6).toNat = (ch.toNat + b.toNat) * 64 := by
  have hb := b.toNat_lt
  have hsix : (6 : UInt32).toNat % 32 = 6 := rfl
  rw [UInt32.toNat_shiftLeft, hsix, UInt32.toNat_add, UInt8.toNat_toUInt32, Nat.shiftLeft_eq]
  omega

theorem toNat_add_byte {ch : UInt32} {b : UInt8} (hch : ch.toNat < 0x80000000) :
    (ch + b.toUInt32).toNat = ch.toNat + b.toNat := by
  have hb := b.toNat_lt
  rw [UInt32.toNat_add, UInt8.toNat_toUInt32]
  omega

theorem toNat_readUTF8_one (a : UInt8) (t : List UInt8) :
    (readUTF8 0 0 (a :: t)).toNat = a.toNat := by
  rw [readUTF8, UInt32.zero_add, UInt8.toNat_toUInt32]

theorem toNat_first_shift (a : UInt8) :
    (((0 : UInt32) + a.toUInt32) <<< 6).toNat = a.toNat * 64 := by
  rw [toNat_add_shift _ _ (by decide), UInt32.toNat_zero, Nat.zero_add]

theorem toNat_readUTF8_two (a b : UInt8) (t : List UInt8) :
    (readUTF8 1 0 (a :: b :: t)).toNat = a.toNat * 64 + b.toNat := by
  have ha := a.toNat_lt
  have hfirst := toNat_first_shift a
  rw [readUTF8, readUTF8, toNat_add_byte (by rw [hfirst]; omega), hfirst]

theorem toNat_readUTF8_three (a b c : UInt8) (t : List UInt8) :
    (readUTF8 2 0 (a :: b :: c :: t)).toNat = (a.toNat * 64 + b.toNat) * 64 + c.toNat := by
  have ha := a.toNat_lt
  have hb := b.toNat_lt
  have hfirst := toNat_first_shift a
  have hsecond := toNat_add_shift (((0 : UInt32) + a.toUInt32) <<< 6) b (by rw [hfirst]; omega)
  rw [hfirst] at hsecond
  rw [readUTF8, readUTF8, readUTF8, toNat_add_byte (by rw [hsecond]; omega), hsecond]

theorem toNat_readUTF8_four (a b c d : UInt8) (t : List UInt8) :
    (readUTF8 3 0 (a :: b :: c :: d :: t)).toNat =
      ((a.toNat * 64 + b.toNat) * 64 + c.toNat) * 64 + d.toNat := by
  have ha := a.toNat_lt
  have hb := b.toNat_lt
  have hc := c.toNat_lt
  have hfirst := toNat_first_shift a
  have hsecond := toNat_add_shift (((0 : UInt32) + a.toUInt32) <<< 6) b (by rw [hfirst]; omega)
  rw [hfirst] at hsecond
  have hthird := toNat_add_shift (((((0 : UInt32) + a.toUInt32) <<< 6) + b.toUInt32) <<< 6) c
    (by rw [hsecond]; omega)
  rw [hsecond] at hthird
  rw [readUTF8, readUTF8, readUTF8, readUTF8, toNat_add_byte (by rw [hthird]; omega), hthird]

/-- A sequence whose number is not a surrogate is the word of its character. -/
theorem exists_word_of_toNat {ch : UInt32} {n : ℕ} {bs : List UInt8} (hch : ch.toNat = n)
    (hscalar : Utf8.IsScalar n) (hbs : Utf8.encodeNat n = bs) :
    ∃ c : Char, ch = c.val ∧ utf8.word c = bs := by
  unfold Utf8.IsScalar at hscalar
  obtain ⟨c, hc⟩ := exists_val_eq ch (by rw [isSurrogate_iff]; omega) (by omega)
  refine ⟨c, hc, ?_⟩
  rw [← hbs, ← hch, hc]
  rfl

theorem exists_word_one {a : UInt8} {t : List UInt8} (ha : a.toNat < 0x80) :
    ∃ c : Char, charOf (a :: t) 0 = c.val ∧ utf8.word c = [a] := by
  have hch : (charOf (a :: t) 0).toNat = a.toNat := by
    rw [charOf, offsetsFromUTF8, UInt32.sub_zero, toNat_readUTF8_one]
  refine exists_word_of_toNat hch (Or.inl (by omega)) ?_
  rw [Utf8.encodeNat_of_lt ha, UInt8.ofNat_toNat]

theorem toNat_charOf {s : List UInt8} {extra n : ℕ}
    (h : (readUTF8 extra 0 s).toNat = n + (offsetsFromUTF8 extra).toNat) :
    (charOf s extra).toNat = n := by
  rw [charOf, UInt32.toNat_sub_of_le, h, Nat.add_sub_cancel]
  rw [UInt32.le_iff_toNat_le, h]
  exact Nat.le_add_left _ _

theorem exists_word_two {a b : UInt8} {t : List UInt8} (ha : 0xc2 ≤ a.toNat)
    (ha' : a.toNat < 0xe0) (hb : isTrailingByte b = true) :
    ∃ c : Char, charOf (a :: b :: t) 1 = c.val ∧ utf8.word c = [a, b] := by
  rw [isTrailingByte_iff] at hb
  have hoffset : (offsetsFromUTF8 1).toNat = 0x3080 := rfl
  have hch : (charOf (a :: b :: t) 1).toNat = (a.toNat - 0xc0) * 64 + (b.toNat - 0x80) := by
    apply toNat_charOf
    rw [toNat_readUTF8_two, hoffset]
    omega
  refine exists_word_of_toNat hch (Or.inl (by omega)) ?_
  rw [Utf8.encodeNat_two (by omega) (by omega) (by omega), Utf8.ofNat_sub_add (by omega),
    Utf8.ofNat_sub_add (by omega)]

theorem exists_word_three {a b c : UInt8} {t : List UInt8} (ha : 0xe0 ≤ a.toNat)
    (ha' : a.toNat < 0xf0) (hc : isTrailingByte c = true) (hb : isTrailingByte b = true)
    (hsecond : isLegalSecond a b = true) :
    ∃ ch : Char, charOf (a :: b :: c :: t) 2 = ch.val ∧ utf8.word ch = [a, b, c] := by
  rw [isLegalSecond_iff a b hb] at hsecond
  rw [isTrailingByte_iff] at hb hc
  have hoffset : (offsetsFromUTF8 2).toNat = 0xe2080 := rfl
  have hch : (charOf (a :: b :: c :: t) 2).toNat =
      ((a.toNat - 0xe0) * 64 + (b.toNat - 0x80)) * 64 + (c.toNat - 0x80) := by
    apply toNat_charOf
    rw [toNat_readUTF8_three, hoffset]
    omega
  refine exists_word_of_toNat hch ?_ ?_
  · unfold Utf8.IsScalar
    omega
  · rw [Utf8.encodeNat_three (by omega) (by omega) (by omega) (by omega),
      Utf8.ofNat_sub_add (by omega), Utf8.ofNat_sub_add (by omega), Utf8.ofNat_sub_add (by omega)]

theorem exists_word_four {a b c d : UInt8} {t : List UInt8} (ha : 0xf0 ≤ a.toNat)
    (ha' : a.toNat ≤ 0xf4) (hd : isTrailingByte d = true) (hc : isTrailingByte c = true)
    (hb : isTrailingByte b = true) (hsecond : isLegalSecond a b = true) :
    ∃ ch : Char, charOf (a :: b :: c :: d :: t) 3 = ch.val ∧ utf8.word ch = [a, b, c, d] := by
  rw [isLegalSecond_iff a b hb] at hsecond
  rw [isTrailingByte_iff] at hb hc hd
  have hoffset : (offsetsFromUTF8 3).toNat = 0x3c82080 := rfl
  have hch : (charOf (a :: b :: c :: d :: t) 3).toNat =
      (((a.toNat - 0xf0) * 64 + (b.toNat - 0x80)) * 64 + (c.toNat - 0x80)) * 64 +
        (d.toNat - 0x80) := by
    apply toNat_charOf
    rw [toNat_readUTF8_four, hoffset]
    omega
  refine exists_word_of_toNat hch ?_ ?_
  · unfold Utf8.IsScalar
    omega
  · rw [Utf8.encodeNat_four (by omega) (by omega) (by omega) (by omega) (by omega),
      Utf8.ofNat_sub_add (by omega), Utf8.ofNat_sub_add (by omega), Utf8.ofNat_sub_add (by omega),
      Utf8.ofNat_sub_add (by omega)]

theorem isLegalUTF8_two_iff (first : UInt8) (rest : List UInt8) :
    isLegalUTF8 (first :: rest) 2 = true ↔
      ∃ b t, rest = b :: t ∧ isTrailingByte b = true ∧ isLegalSecond first b = true ∧
        isLegalFirst first = true := by
  cases rest with
  | nil => simp [isLegalUTF8]
  | cons b t => simp [isLegalUTF8, and_assoc]

theorem isLegalUTF8_three_iff (first : UInt8) (rest : List UInt8) :
    isLegalUTF8 (first :: rest) 3 = true ↔
      ∃ b c t, rest = b :: c :: t ∧ isTrailingByte c = true ∧ isTrailingByte b = true ∧
        isLegalSecond first b = true ∧ isLegalFirst first = true := by
  rcases rest with _ | ⟨b, _ | ⟨c, t⟩⟩
  · simp [isLegalUTF8]
  · simp [isLegalUTF8]
  · simp [isLegalUTF8, and_assoc]

theorem isLegalUTF8_four_iff (first : UInt8) (rest : List UInt8) :
    isLegalUTF8 (first :: rest) 4 = true ↔
      ∃ b c d t, rest = b :: c :: d :: t ∧ isTrailingByte d = true ∧ isTrailingByte c = true ∧
        isTrailingByte b = true ∧ isLegalSecond first b = true ∧ isLegalFirst first = true := by
  rcases rest with _ | ⟨b, _ | ⟨c, _ | ⟨d, t⟩⟩⟩
  · simp [isLegalUTF8]
  · simp [isLegalUTF8]
  · simp [isLegalUTF8]
  · simp [isLegalUTF8, and_assoc]

/-- A sequence that is legal, with as many bytes as its first one announces, is the word of the
character it stands for. -/
theorem exists_word_of_isLegalUTF8 {first : UInt8} {rest : List UInt8}
    (hlegal : isLegalUTF8 (first :: rest) (trailingBytesForUTF8 first + 1) = true) :
    ∃ c : Char, charOf (first :: rest) (trailingBytesForUTF8 first) = c.val ∧
      first :: rest = utf8.word c ++ rest.drop (trailingBytesForUTF8 first) := by
  rw [trailingBytesForUTF8_eq] at hlegal ⊢
  split_ifs at hlegal ⊢ with h0 h1 h2 h3 h4
  · have hfirst : isLegalFirst first = true := by rwa [isLegalUTF8] at hlegal
    rw [isLegalFirst_iff] at hfirst
    obtain ⟨c, hc, hword⟩ := exists_word_one (t := rest) (a := first) (by omega)
    exact ⟨c, hc, by rw [hword, List.drop_zero, List.singleton_append]⟩
  · obtain ⟨b, t, rfl, hb, hsecond, hfirst⟩ := (isLegalUTF8_two_iff first rest).1 hlegal
    rw [isLegalFirst_iff] at hfirst
    obtain ⟨c, hc, hword⟩ := exists_word_two (t := t) (a := first) (by omega) h1 hb
    exact ⟨c, hc, by rw [hword]; rfl⟩
  · obtain ⟨b, c, t, rfl, hc, hb, hsecond, hfirst⟩ := (isLegalUTF8_three_iff first rest).1 hlegal
    obtain ⟨ch, hch, hword⟩ := exists_word_three (t := t) (Nat.not_lt.1 h1) h2 hc hb hsecond
    exact ⟨ch, hch, by rw [hword]; rfl⟩
  · obtain ⟨b, c, d, t, rfl, hd, hc, hb, hsecond, hfirst⟩ :=
      (isLegalUTF8_four_iff first rest).1 hlegal
    rw [isLegalFirst_iff] at hfirst
    obtain ⟨ch, hch, hword⟩ := exists_word_four (t := t) (Nat.not_lt.1 h2) hfirst.2 hd hc hb hsecond
    exact ⟨ch, hch, by rw [hword]; rfl⟩
  · cases hlegal
  · cases hlegal

theorem legal_two {first b : UInt8} {t : List UInt8} (hfirst : 0xc2 ≤ first.toNat)
    (hfirst' : first.toNat ≤ 0xdf) (hb : Utf8.InRange b (0x80, 0xbf)) :
    trailingBytesForUTF8 first = 1 ∧ isLegalUTF8 (first :: b :: t) 2 = true := by
  have hb' : isTrailingByte b = true := (isTrailingByte_iff b).2 hb
  constructor
  · simp (disch := omega) only [trailingBytesForUTF8_eq, if_pos, if_neg]
  · refine (isLegalUTF8_two_iff first _).2 ⟨b, t, rfl, hb', ?_, ?_⟩
    · rw [isLegalSecond_iff first b hb']
      omega
    · rw [isLegalFirst_iff]
      omega

theorem legal_three {first b c : UInt8} {t : List UInt8} (hfirst : 0xe0 ≤ first.toNat)
    (hfirst' : first.toNat ≤ 0xef) (hb : Utf8.InRange b (0x80, 0xbf))
    (hc : Utf8.InRange c (0x80, 0xbf)) (hlow : first.toNat = 0xe0 → 0xa0 ≤ b.toNat)
    (hsurrogate : first.toNat = 0xed → b.toNat ≤ 0x9f) :
    trailingBytesForUTF8 first = 2 ∧ isLegalUTF8 (first :: b :: c :: t) 3 = true := by
  have hb' : isTrailingByte b = true := (isTrailingByte_iff b).2 hb
  constructor
  · simp (disch := omega) only [trailingBytesForUTF8_eq, if_pos, if_neg]
  · refine (isLegalUTF8_three_iff first _).2
      ⟨b, c, t, rfl, (isTrailingByte_iff c).2 hc, hb', ?_, ?_⟩
    · rw [isLegalSecond_iff first b hb']
      omega
    · rw [isLegalFirst_iff]
      omega

theorem legal_four {first b c d : UInt8} {t : List UInt8} (hfirst : 0xf0 ≤ first.toNat)
    (hfirst' : first.toNat ≤ 0xf4) (hb : Utf8.InRange b (0x80, 0xbf))
    (hc : Utf8.InRange c (0x80, 0xbf)) (hd : Utf8.InRange d (0x80, 0xbf))
    (hlow : first.toNat = 0xf0 → 0x90 ≤ b.toNat) (hhigh : first.toNat = 0xf4 → b.toNat ≤ 0x8f) :
    trailingBytesForUTF8 first = 3 ∧ isLegalUTF8 (first :: b :: c :: d :: t) 4 = true := by
  have hb' : isTrailingByte b = true := (isTrailingByte_iff b).2 hb
  constructor
  · simp (disch := omega) only [trailingBytesForUTF8_eq, if_pos, if_neg]
  · refine (isLegalUTF8_four_iff first _).2
      ⟨b, c, d, t, rfl, (isTrailingByte_iff d).2 hd, (isTrailingByte_iff c).2 hc, hb', ?_, ?_⟩
    · rw [isLegalSecond_iff first b hb']
      omega
    · rw [isLegalFirst_iff]
      omega

/-- A first byte, with bytes behind it in the ranges for it. -/
theorem legal_of_trailing {lead : UInt8} {bs t : List UInt8} {ranges : List (ℕ × ℕ)}
    (hlead : Utf8.trailing lead = some ranges) (hbs : List.Forall₂ Utf8.InRange bs ranges) :
    trailingBytesForUTF8 lead = bs.length ∧
      isLegalUTF8 (lead :: (bs ++ t)) (bs.length + 1) = true := by
  unfold Utf8.trailing at hlead
  simp only at hlead
  split_ifs at hlead with hc2 he0 he1 hed hf0 hf1 hf4
  all_goals rw [Option.some.injEq] at hlead; subst hlead
  · obtain ⟨b, rfl, hb⟩ := Utf8.forall₂_one hbs
    exact legal_two hc2.1 hc2.2 hb
  · obtain ⟨b, c, rfl, hb, hc⟩ := Utf8.forall₂_two hbs
    exact legal_three (by omega) (by omega) (hb.mono (by omega) (by omega)) hc (fun _ => hb.1)
      (by omega)
  · obtain ⟨b, c, rfl, hb, hc⟩ := Utf8.forall₂_two hbs
    exact legal_three (by omega) (by omega) hb hc (by omega) (by omega)
  · obtain ⟨b, c, rfl, hb, hc⟩ := Utf8.forall₂_two hbs
    exact legal_three (by omega) (by omega) (hb.mono (by omega) (by omega)) hc (by omega)
      (fun _ => hb.2)
  · obtain ⟨b, c, d, rfl, hb, hc, hd⟩ := Utf8.forall₂_three hbs
    exact legal_four (by omega) (by omega) (hb.mono (by omega) (by omega)) hc hd (fun _ => hb.1)
      (by omega)
  · obtain ⟨b, c, d, rfl, hb, hc, hd⟩ := Utf8.forall₂_three hbs
    exact legal_four (by omega) (by omega) hb hc hd (by omega) (by omega)
  · obtain ⟨b, c, d, rfl, hb, hc, hd⟩ := Utf8.forall₂_three hbs
    exact legal_four (by omega) (by omega) (hb.mono (by omega) (by omega)) hc hd (by omega)
      (fun _ => hb.2)

/-- The word of a character is legal, with the bytes that its first one announces. -/
theorem legal_word {c : Char} {t rest : List UInt8} {first : UInt8}
    (h : utf8.word c ++ t = first :: rest) :
    trailingBytesForUTF8 first + 1 = (utf8.word c).length ∧
      isLegalUTF8 (first :: rest) (trailingBytesForUTF8 first + 1) = true := by
  have hword : utf8.word c = Utf8.encodeNat c.toNat := rfl
  by_cases hascii : c.toNat < 0x80
  · rw [hword, Utf8.encodeNat_of_lt hascii, List.singleton_append, List.cons.injEq] at h
    obtain ⟨rfl, rfl⟩ := h
    have hfirst : (UInt8.ofNat c.toNat).toNat = c.toNat := by
      rw [UInt8.toNat_ofNat']
      omega
    have htrailing : trailingBytesForUTF8 (UInt8.ofNat c.toNat) = 0 := by
      rw [trailingBytesForUTF8_eq, if_pos (by omega)]
    rw [hword, Utf8.encodeNat_of_lt hascii, htrailing]
    refine ⟨rfl, ?_⟩
    rw [isLegalUTF8, isLegalFirst_iff]
    omega
  · obtain ⟨lead, bs, ranges, hencode, hlead, hbs⟩ :=
      Utf8.exists_trailing (Nat.not_lt.1 hascii) (Utf8.isScalar_toNat c)
    rw [hword, hencode, List.cons_append, List.cons.injEq] at h
    obtain ⟨rfl, rfl⟩ := h
    obtain ⟨htrailing, hlegal⟩ := legal_of_trailing (t := t) hlead hbs
    rw [hword, hencode, htrailing]
    exact ⟨rfl, hlegal⟩

/-- A source is legal at its beginning when the word of a character is there. -/
theorem isLegalUTF8_iff_exists_word (first : UInt8) (rest : List UInt8) :
    isLegalUTF8 (first :: rest) (trailingBytesForUTF8 first + 1) = true ↔
      ∃ (c : Char) (t : List UInt8), first :: rest = utf8.word c ++ t := by
  constructor
  · intro hlegal
    obtain ⟨c, -, hword⟩ := exists_word_of_isLegalUTF8 hlegal
    exact ⟨c, _, hword⟩
  · rintro ⟨c, t, hword⟩
    exact (legal_word hword.symm).2

end Wpi.ConvertUTF

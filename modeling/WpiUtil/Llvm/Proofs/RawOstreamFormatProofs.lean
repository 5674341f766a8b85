import Mathlib.Data.Nat.Log
import WpiUtil.Llvm.Proofs.RawOstreamProofs
import WpiUtil.Llvm.Proofs.StringRefProofs

/-!
# Proofs: formatted output

Each of the public calls writes the text it stands for, whatever the state of the buffer.
-/

namespace Wpi.RawOstream

open Foundations

variable {σ : Type} [RawOstreamImpl σ]

/-! ## Digits -/

/-- The loop leaves the numeral of `n` in front of what is there, if it fits. -/
theorem writeDigits_spec (base : UInt64) {digit : UInt64 → Byte} {digit' : Nat → Byte}
    (hbase : 1 < base.toNat) (hdigit : ∀ n, digit n = digit' (n.toNat % base.toNat)) {room : Nat}
    {n : UInt64} (hn : n.toNat < base.toNat ^ room) (digits : List Byte) :
    writeDigits base digit room n digits = some (numeral digit' base.toNat n.toNat ++ digits) := by
  induction room generalizing n digits with
  | zero =>
    rw [Nat.pow_zero, Nat.lt_one_iff] at hn
    rw [writeDigits, if_pos (UInt64.toNat_inj.1 hn), hn, numeral_zero, List.nil_append]
  | succ room ih =>
    rw [writeDigits]
    split
    · next hzero => rw [hzero, UInt64.toNat_zero, numeral_zero, List.nil_append]
    · next hne =>
      have hpos : 0 < n.toNat := Nat.pos_of_ne_zero fun hzero => hne (UInt64.toNat_inj.1 hzero)
      have hlt : (n / base).toNat < base.toNat ^ room := by
        rw [UInt64.toNat_div]
        exact Nat.div_lt_of_lt_mul (by rwa [Nat.pow_succ'] at hn)
      rw [ih hlt, numeral_of_pos hbase hpos, UInt64.toNat_div, hdigit, List.append_assoc,
        List.singleton_append]

theorem decimalDigit_eq (n : UInt64) : decimalDigit n = digitByte true (n.toNat % 10) := by
  have hmod : n.toNat % 10 < 10 := Nat.mod_lt _ (by decide)
  rw [decimalDigit, digitByte, if_pos hmod, ← UInt8.toNat_inj]
  simp

theorem hexdigit_eq {x : Byte} (hx : x.toNat < 16) (lowerCase : Bool) :
    hexdigit x lowerCase = digitByte lowerCase x.toNat := by
  rw [hexdigit, digitByte, ← UInt8.toNat_inj]
  by_cases hlt : x.toNat < 10
  · rw [if_pos (UInt8.lt_iff_toNat_lt.2 hlt), if_pos hlt]
    simp
  · rw [if_neg fun h => hlt (UInt8.lt_iff_toNat_lt.1 h), if_neg hlt]
    cases lowerCase <;> simp [UInt8.toNat_sub] <;> omega

theorem hexadecimalDigit_eq (lowerCase : Bool) (n : UInt64) :
    hexadecimalDigit lowerCase n = digitByte lowerCase (n.toNat % 16) := by
  have hmod : (n.toUInt8 % 16).toNat = n.toNat % 16 := by simp
  rw [hexadecimalDigit, hexdigit_eq (by rw [hmod]; exact Nat.mod_lt _ (by decide)), hmod]

/-- Twenty digits are enough. -/
theorem writeDigits_ten {room : Nat} (hroom : 20 ≤ room) {n : UInt64} (hn : n ≠ 0) :
    writeDigits 10 decimalDigit room n [] = some (decimal n.toNat) := by
  have hpos : 0 < n.toNat := Nat.pos_of_ne_zero fun hzero => hn (UInt64.toNat_inj.1 hzero)
  have hlt : n.toNat < 10 ^ room :=
    Nat.lt_of_lt_of_le (Nat.lt_of_lt_of_le n.toNat_lt (by decide))
      (Nat.pow_le_pow_right (by decide) hroom)
  rw [writeDigits_spec 10 (by decide) decimalDigit_eq hlt, List.append_nil]
  exact congrArg some (numeral_ten true hpos)

theorem writeDigits_sixteen (lowerCase : Bool) {room : Nat} {n : UInt64} (h : n.toNat < 16 ^ room) :
    writeDigits 16 (hexadecimalDigit lowerCase) room n [] =
      some (numeral (digitByte lowerCase) 16 n.toNat) := by
  rw [writeDigits_spec 16 (by decide) (hexadecimalDigit_eq lowerCase) h, List.append_nil]
  rfl

/-! ## Numbers -/

theorem writes_putUnsignedLong (n : UInt64) :
    Writes (σ := σ) (putUnsignedLong · n) (decimal n.toNat) := by
  intro os hos
  simp only [putUnsignedLong]
  split
  · next hn =>
    rw [hn]
    exact writes_putChar 0x30 os hos
  · next hn =>
    rw [writeDigits_ten (Nat.le_refl 20) hn]
    exact write_spec hos _

theorem writes_putUnsignedLongLong (longBits : Nat) (n : UInt64) :
    Writes (σ := σ) (putUnsignedLongLong longBits · n) (decimal n.toNat) := by
  intro os hos
  simp only [putUnsignedLongLong]
  split
  · exact writes_putUnsignedLong n os hos
  · next hne =>
    have hn : n ≠ 0 := by
      rintro rfl
      exact hne (Nat.zero_mod _).symm
    rw [writeDigits_ten (Nat.le_refl 20) hn]
    exact write_spec hos _

theorem toInt_neg_iff (n : Int64) : n < 0 ↔ n.toInt < 0 := Int64.lt_iff_toInt_lt

/-- The magnitude of a negative number, as the cast and the negation give it. -/
theorem toNat_neg_toUInt64 {n : Int64} (hn : n < 0) : (-n.toUInt64).toNat = n.toInt.natAbs := by
  have hlt := n.toUInt64.toNat_lt
  have hneg : (-n.toUInt64).toNat = (2 ^ 64 - n.toUInt64.toNat) % 2 ^ 64 := UInt64.toNat_neg _
  have hvalue := StringRef.toInt_toInt64 n.toUInt64
  rw [toInt_neg_iff] at hn
  rw [Int64.toInt64_toUInt64] at hvalue
  rw [hneg]
  split_ifs at hvalue with hsmall
  · omega
  · omega

theorem toNat_toUInt64_of_nonneg {n : Int64} (hn : ¬ n < 0) : n.toUInt64.toNat = n.toInt.natAbs := by
  have hlt := n.toUInt64.toNat_lt
  have hvalue := StringRef.toInt_toInt64 n.toUInt64
  rw [toInt_neg_iff] at hn
  rw [Int64.toInt64_toUInt64] at hvalue
  split_ifs at hvalue with hsmall
  · omega
  · omega

/-- A minus sign and the magnitude, or the number itself. -/
theorem writes_signed {f : UInt64 → RawOstream σ → Option (RawOstream σ)}
    (hf : ∀ n, Writes (f n) (decimal n.toNat)) (n : Int64) :
    Writes (fun os => if n < 0 then (os.putChar 0x2d).bind (f (-n.toUInt64)) else f n.toUInt64 os)
      (integerText n.toInt) := by
  by_cases hn : n < 0
  · rw [integerText, if_pos ((toInt_neg_iff n).1 hn), ← toNat_neg_toUInt64 hn]
    simp only [if_pos hn]
    exact (writes_putChar 0x2d).bind (hf _)
  · rw [integerText, if_neg (mt (toInt_neg_iff n).2 hn), ← toNat_toUInt64_of_nonneg hn]
    simp only [if_neg hn]
    exact hf _

theorem writes_putLong (n : Int64) : Writes (σ := σ) (putLong · n) (integerText n.toInt) :=
  writes_signed (fun n => writes_putUnsignedLong n) n

theorem writes_putLongLong (longBits : Nat) (n : Int64) :
    Writes (σ := σ) (putLongLong longBits · n) (integerText n.toInt) :=
  writes_signed (fun n => writes_putUnsignedLongLong longBits n) n

theorem writes_writeHex (n : UInt64) :
    Writes (σ := σ) (writeHex · n) (number true 16 n.toNat) := by
  intro os hos
  simp only [writeHex]
  split
  · next hn =>
    rw [hn]
    exact writes_putChar 0x30 os hos
  · next hn =>
    have hne : n.toNat ≠ 0 := fun hzero => hn (UInt64.toNat_inj.1 hzero)
    rw [writeDigits_sixteen true n.toNat_lt, number_of_ne_zero hne]
    exact write_spec hos _

theorem writes_putPointer (p : UInt64) :
    Writes (σ := σ) (putPointer · p) ([0x30, 0x78] ++ number true 16 p.toNat) :=
  (writes_putChar 0x30).bind ((writes_putChar 0x78).bind (writes_writeHex p))

/-! ## Strings -/

theorem writes_putChars (cs : List Byte) : Writes (σ := σ) (putChars · cs) cs := by
  induction cs with
  | nil => exact writes_some
  | cons c cs ih => exact (writes_putChar c).bind ih

theorem writes_writeEscaped (useHexEscapes : Bool) (str : List Byte) :
    Writes (σ := σ) (writeEscaped useHexEscapes · str) (str.flatMap (escapeChar useHexEscapes)) := by
  induction str with
  | nil => exact writes_some
  | cons c str ih =>
    rw [List.flatMap_cons]
    exact (writes_putChars _).bind ih

theorem writes_indent (numSpaces : Nat) :
    Writes (σ := σ) (indent · numSpaces) (List.replicate numSpaces 0x20) := by
  induction numSpaces using Nat.strongRecOn with
  | _ numSpaces ih =>
    intro os hos
    simp only
    rw [indent]
    split
    · exact write_spec hos _
    · next hlt =>
      have hsum : List.replicate numSpaces (0x20 : Byte) =
          List.replicate 80 0x20 ++ List.replicate (numSpaces - 80) 0x20 := by
        rw [List.replicate_append_replicate, Nat.add_sub_cancel' (by omega)]
      rw [hsum]
      exact (writes_write _).bind (ih (numSpaces - 80) (by omega)) os hos

theorem toNat_ofNat {n : Nat} (h : n < 2 ^ 32) : (UInt32.ofNat n).toNat = n :=
  UInt32.toNat_ofNat_of_lt' h

theorem ofNat_ne_zero {n : Nat} (hn : n ≠ 0) (hlt : n < 2 ^ 32) : UInt32.ofNat n ≠ 0 := by
  intro hzero
  have hnat := congrArg UInt32.toNat hzero
  rw [toNat_ofNat hlt] at hnat
  exact hn hnat

/-- The text has been stored, or a larger size is asked for. -/
theorem print_cases {fmt : FormatObject} (hfmt : fmt.text.length < 2 ^ 31 - 1) {bufferSize : UInt32}
    (hsize : bufferSize ≠ 0) :
    ∃ used stored, fmt.print bufferSize = some (used, stored) ∧
      (bufferSize.toNat < used.toNat ∨
        used.toNat < bufferSize.toNat ∧ stored.take used.toNat = fmt.text) := by
  have hpos : 0 < bufferSize.toNat := Nat.pos_of_ne_zero fun h => hsize (UInt32.toNat_inj.1 h)
  have hlength : (UInt32.ofNat fmt.text.length).toNat = fmt.text.length := toNat_ofNat (by omega)
  rw [FormatObject.print, if_neg hsize, FormatObject.snprint]
  simp only
  split_ifs with hreports hneg hle hneg' hle'
  · omega
  · -- the length is reported
    refine ⟨_, _, rfl, Or.inl ?_⟩
    rw [Int.toNat_natCast, UInt32.le_iff_toNat_le, hlength] at hle
    rw [Int.toNat_natCast, UInt32.toNat_add, hlength, UInt32.toNat_one]
    omega
  · refine ⟨_, _, rfl, Or.inr ?_⟩
    rw [Int.toNat_natCast, UInt32.le_iff_toNat_le, hlength] at hle
    rw [Int.toNat_natCast, hlength, List.take_of_length_le (by omega : _ ≤ bufferSize.toNat - 1)]
    exact ⟨by omega, List.take_left⟩
  · -- the buffer was too small, and is doubled
    have hshort : bufferSize.toNat ≤ fmt.text.length := by
      by_contra hlt
      exact hreports ⟨by omega, Or.inl (by omega)⟩
    refine ⟨_, _, rfl, Or.inl ?_⟩
    rw [UInt32.toNat_mul]
    change _ < bufferSize.toNat * 2 % 2 ^ 32
    omega
  · exact absurd (by decide) hneg'
  · exact absurd (by decide) hneg'

/-- The loop ends with a vector that is large enough. -/
theorem putFormatLoop_spec {os : RawOstream σ} (hos : os.Valid) {fmt : FormatObject}
    (hfmt : fmt.text.length < 2 ^ 31 - 1) {nextBufferSize : Nat} (hsize : nextBufferSize ≠ 0)
    (hlt : nextBufferSize < 2 ^ 32) :
    ∃ os', os.putFormatLoop fmt nextBufferSize = some os' ∧ os.Wrote fmt.text os' := by
  fun_induction putFormatLoop os fmt nextBufferSize with
  | case1 nextBufferSize hprint =>
    obtain ⟨used, stored, hprint', -⟩ := print_cases hfmt (ofNat_ne_zero hsize hlt)
    rw [hprint] at hprint'
    cases hprint'
  | case2 nextBufferSize bytesUsed stored hprint hle =>
    obtain ⟨used, stored', hprint', hcases⟩ := print_cases hfmt (ofNat_ne_zero hsize hlt)
    rw [hprint] at hprint'
    cases hprint'
    rw [toNat_ofNat hlt] at hcases
    rcases hcases with hmore | ⟨-, htake⟩
    · omega
    · rw [htake]
      exact write_spec hos fmt.text
  | case3 nextBufferSize bytesUsed stored hprint hmore ih =>
    exact ih (by omega) bytesUsed.toNat_lt

/-- Whether there is room in the buffer or not. -/
theorem writes_putFormat {fmt : FormatObject} (hfmt : fmt.text.length < 2 ^ 31 - 1) :
    Writes (σ := σ) (putFormat · fmt) fmt.text := by
  intro os hos
  have hlt := hos.room_lt
  simp only [putFormat]
  split
  · next hroom =>
    obtain ⟨used, stored, hprint, hcases⟩ :=
      print_cases hfmt (ofNat_ne_zero (by omega : os.room ≠ 0) hlt)
    rw [toNat_ofNat hlt] at hcases
    rw [hprint]
    simp only
    rcases hcases with hmore | ⟨hless, htake⟩
    · rw [if_neg (Nat.not_le.2 hmore)]
      exact putFormatLoop_spec hos hfmt (by omega) used.toNat_lt
    · rw [if_pos (Nat.le_of_lt hless), htake]
      have hfits : fmt.text.length ≤ os.room := by
        rw [← htake]
        exact Nat.le_trans (List.length_take_le _ _) (Nat.le_of_lt hless)
      obtain ⟨os', hos', hwrote, -⟩ := copyToBuffer_spec hos hfits
      exact ⟨os', hos', hwrote⟩
  · exact putFormatLoop_spec hos hfmt (by decide) (by decide)

/-! ## Padding -/

theorem writes_ite {p : Prop} [Decidable p] {f g : RawOstream σ → Option (RawOstream σ)}
    {text : List Byte} (hf : p → Writes f text) (hg : ¬ p → Writes g text) :
    Writes (fun os => if p then f os else g os) text := by
  split
  · next hp => exact hf hp
  · next hp => exact hg hp

theorem toInt_toInt32 (value : UInt32) : value.toInt32.toInt =
    if value.toNat < 2 ^ 31 then (value.toNat : Int) else (value.toNat : Int) - 2 ^ 32 := by
  have hlt := value.toNat_lt
  rw [← Int32.toInt_toBitVec, UInt32.toBitVec_toInt32, BitVec.toInt_eq_toNat_cond,
    UInt32.toNat_toBitVec]
  split_ifs with h1 h2 h2
  · rfl
  · omega
  · omega
  · norm_num

/-- The difference of two widths, as an `int`. -/
theorem toInt_toInt32_sub {width len : UInt32} (hw : width.toNat < 2 ^ 31)
    (hl : len.toNat < 2 ^ 31) :
    (width - len).toInt32.toInt = (width.toNat : Int) - len.toNat := by
  rw [toInt_toInt32, UInt32.toNat_sub]
  split_ifs with hsmall
  · omega
  · omega

/-- Spaces if there are any. -/
theorem writes_padding {pad : Int} {n : Nat} (h : pad.toNat = n) :
    Writes (σ := σ) (fun os => if 0 < pad then os.indent pad.toNat else some os)
      (List.replicate n 0x20) := by
  refine writes_ite (fun hpos => ?_) fun hneg => ?_
  · rw [h]
    exact writes_indent n
  · have hn : n = 0 := by omega
    rw [hn]
    exact writes_some

theorem toNat_ofNat_length (str : List Byte) (h : str.length < 2 ^ 31) :
    (UInt32.ofNat str.length).toNat = str.length :=
  UInt32.toNat_ofNat_of_lt (Nat.lt_trans h (by decide))

theorem writes_putFormattedString {fs : FormattedString} (hstr : fs.str.length < 2 ^ 31)
    (hwidth : fs.width.toNat < 2 ^ 31) :
    Writes (σ := σ) (putFormattedString · fs)
      (justified fs.rightJustify fs.width.toNat fs.str) := by
  have hlen := toNat_ofNat_length fs.str hstr
  have hpad : (fs.width - UInt32.ofNat fs.str.length).toInt32.toInt.toNat =
      fs.width.toNat - fs.str.length := by
    rw [toInt_toInt32_sub hwidth (by rw [hlen]; exact hstr), hlen]
    omega
  have hpadding := writes_padding (σ := σ) hpad
  cases hright : fs.rightJustify
  · simp only [putFormattedString, justified, hright, Bool.false_eq_true, false_and, if_false,
      not_false_eq_true, true_and, Option.bind_some]
    exact (writes_put fs.str).bind hpadding
  · simp only [putFormattedString, justified, hright, true_and, if_true, not_true_eq_false,
      false_and, if_false]
    refine hpadding.bind ?_
    simpa using writes_put fs.str

/-! ## Numbers with a width -/

theorem length_numeral_sixteen (digit : Nat → Byte) (n : UInt64) :
    (numeral digit 16 n.toNat).length = (64 - countLeadingZeros n + 3) / 4 := by
  rw [countLeadingZeros]
  split
  · next hn => rw [hn, UInt64.toNat_zero, numeral_zero, List.length_nil]
  · next hn =>
    have hne : n.toNat ≠ 0 := fun hzero => hn (UInt64.toNat_inj.1 hzero)
    have hlog : n.toNat.log2 < 64 := (Nat.log2_lt hne).2 n.toNat_lt
    have hle : 2 ^ n.toNat.log2 ≤ n.toNat := Nat.log2_self_le hne
    have hlt : n.toNat < 2 ^ (n.toNat.log2 + 1) := Nat.lt_log2_self
    have hsixteen (k : Nat) : 16 ^ k = 2 ^ (4 * k) := by rw [Nat.pow_mul]
    refine Nat.le_antisymm ((length_numeral_le_iff (by decide)).2 ?_) (Nat.le_of_not_lt fun h => ?_)
    · rw [hsixteen]
      exact Nat.lt_of_lt_of_le hlt (Nat.pow_le_pow_right (by decide) (by omega))
    · have hshort : n.toNat < 16 ^ (numeral digit 16 n.toNat).length :=
        (length_numeral_le_iff (by decide)).1 (Nat.le_refl (numeral digit 16 n.toNat).length)
      rw [hsixteen] at hshort
      have hpow : 2 ^ (4 * (numeral digit 16 n.toNat).length) ≤ 2 ^ n.toNat.log2 :=
        Nat.pow_le_pow_right (by decide) (by omega)
      omega

/-- Zeros, with the prefix before them. -/
theorem take_numberBuffer (hexPrefix : Bool) {k : Nat} (hle : k ≤ 18)
    (hge : (if hexPrefix then 2 else 0) ≤ k) :
    (numberBuffer hexPrefix).take k = (if hexPrefix then [0x30, 0x78] else []) ++
      List.replicate (k - (if hexPrefix then 2 else 0)) 0x30 := by
  cases hexPrefix
  · have hzeros : numberBuffer false = List.replicate 18 0x30 ++ [0, 0] := rfl
    rw [hzeros, List.take_append_of_le_length (by rwa [List.length_replicate]), List.take_replicate,
      Nat.min_eq_left hle]
    rfl
  · obtain ⟨j, rfl⟩ := Nat.exists_eq_add_of_le' hge
    have hzeros : numberBuffer true = 0x30 :: 0x78 :: (List.replicate 16 0x30 ++ [0, 0]) := rfl
    have hj : j ≤ 16 := Nat.le_of_add_le_add_right hle
    simp only [if_true, Nat.add_sub_cancel]
    rw [hzeros, List.take_succ_cons, List.take_succ_cons,
      List.take_append_of_le_length (by rwa [List.length_replicate]), List.take_replicate,
      Nat.min_eq_left hj]
    rfl

/-- The digits stand at the end of the number buffer. -/
theorem writes_hexadecimal {fn : FormattedNumber} (hhex : fn.hex = true)
    (hwidth : fn.width.toNat ≤ 18) :
    Writes (σ := σ) (putFormattedNumber · fn)
      (hexText fn.upper fn.hexPrefix fn.width.toNat fn.hexValue.toNat) := by
  intro os hos
  have hlength := length_numeral_sixteen (digitByte !fn.upper) fn.hexValue
  have hsixteen : (numeral (digitByte !fn.upper) 16 fn.hexValue.toNat).length ≤ 16 :=
    (length_numeral_le_iff (by decide)).2 fn.hexValue.toNat_lt
  have hbuffer : (numberBuffer fn.hexPrefix).length = 20 := rfl
  have hprefix : (if fn.hexPrefix = true then 2 else 0) ≤ 2 := by
    split
    · exact Nat.le_refl 2
    · exact Nat.zero_le 2
  have hstart : (if fn.hexPrefix = true then [0x30, 0x78] else ([] : List Byte)).length =
      if fn.hexPrefix = true then 2 else 0 := by
    split
    · rfl
    · rfl
  simp only [putFormattedNumber, if_pos hhex]
  rw [← hlength]
  generalize hpc : (if fn.hexPrefix = true then 2 else 0) = prefixChars at *
  generalize hds : numeral (digitByte !fn.upper) 16 fn.hexValue.toNat = digits at *
  have hfits : ¬ (numberBuffer fn.hexPrefix).length <
      max fn.width.toNat (digits.length + prefixChars) := by
    rw [hbuffer]
    omega
  have hroom : digits.length ≤ max fn.width.toNat (digits.length + prefixChars) := by omega
  rw [← hds] at hroom
  have hdigits := writeDigits_sixteen (!fn.upper) ((length_numeral_le_iff (by decide)).1 hroom)
  rw [hds] at hdigits
  rw [if_neg hfits, hdigits, Option.bind_some,
    take_numberBuffer fn.hexPrefix (by omega) (by rw [hpc]; omega), hpc]
  have htext : hexText fn.upper fn.hexPrefix fn.width.toNat fn.hexValue.toNat =
      (if fn.hexPrefix then [0x30, 0x78] else []) ++ List.replicate
        (max fn.width.toNat (digits.length + prefixChars) - digits.length - prefixChars) 0x30 ++
        digits := by
    rw [hexText, hds]
    simp only [hstart]
    congr 3
    omega
  rw [htext]
  exact write_spec hos _

theorem length_decimal_le {n : Nat} (h : n < 2 ^ 64) : (decimal n).length ≤ 20 := by
  rw [← number_ten true]
  exact length_number_le (by decide) (by decide) (Nat.lt_trans h (by decide))

/-- Spaces, a minus sign and the digits. -/
theorem writes_decimal {fn : FormattedNumber} (hhex : fn.hex = false)
    (hwidth : fn.width.toNat < 2 ^ 31) (hzero : fn.decValue ≠ 0 ∨ fn.width ≠ 0) :
    Writes (σ := σ) (putFormattedNumber · fn)
      (justified true fn.width.toNat (integerText fn.decValue.toInt)) := by
  have hno : ¬ fn.hex = true := by rw [hhex]; decide
  by_cases hdec : fn.decValue = 0
  · have hwidth' : (fn.width - 1).toNat = fn.width.toNat - 1 := by
      rcases hzero with hne | hne
      · exact absurd hdec hne
      · have hpos : fn.width.toNat ≠ 0 := fun h => hne (UInt32.toNat_inj.1 h)
        rw [UInt32.toNat_sub, UInt32.toNat_one]
        omega
    have htext : integerText (0 : Int64).toInt = [0x30] := by decide
    simp only [putFormattedNumber, if_neg hno, if_pos hdec, hwidth']
    rw [hdec, htext]
    exact (writes_indent _).bind (writes_putChar 0x30)
  · have hnat : (if fn.decValue < 0 then -fn.decValue.toUInt64 else fn.decValue.toUInt64).toNat =
        fn.decValue.toInt.natAbs := by
      split
      · next hneg => exact toNat_neg_toUInt64 hneg
      · next hneg => exact toNat_toUInt64_of_nonneg hneg
    have hne : (if fn.decValue < 0 then -fn.decValue.toUInt64 else fn.decValue.toUInt64) ≠ 0 := by
      intro hz
      rw [hz, UInt64.toNat_zero] at hnat
      exact hdec (Int64.toInt_inj.1 (by simpa using hnat.symm))
    have hshort : (decimal fn.decValue.toInt.natAbs).length ≤ 20 := by
      rw [← hnat]
      exact length_decimal_le (UInt64.toNat_lt _)
    simp only [putFormattedNumber, if_neg hno, if_neg hdec]
    rw [writeDigits_ten (by decide) hne, hnat]
    simp only [Option.bind_some, integerText, justified, if_true]
    generalize decimal fn.decValue.toInt.natAbs = digits at *
    have hlen := toNat_ofNat_length digits (by omega)
    rw [toInt_toInt32_sub hwidth (by omega), hlen]
    by_cases hneg : fn.decValue < 0
    · simp only [if_pos hneg, if_pos ((toInt_neg_iff _).1 hneg)]
      refine (writes_padding ?_).bind ((writes_putChar 0x2d).bind (writes_write digits))
      rw [List.length_append, List.length_singleton]
      omega
    · simp only [if_neg hneg, if_neg (mt (toInt_neg_iff _).2 hneg), List.nil_append,
        Option.bind_some]
      refine (writes_padding ?_).bind (writes_write digits)
      omega

theorem writes_putFormattedNumber {fn : FormattedNumber} (h : Call.Allowed (.formattedNumber fn)) :
    Writes (σ := σ) (putFormattedNumber · fn) (FormattedNumber.text fn) := by
  rw [Call.Allowed] at h
  rw [FormattedNumber.text]
  cases hhex : fn.hex
  · rw [hhex] at h
    exact writes_decimal hhex h.1 h.2
  · rw [hhex] at h
    exact writes_hexadecimal hhex h

/-! ## Runs -/

theorem Writes.perform (call : Call) (h : Writes (σ := σ) call.perform call.text)
    {os : RawOstream σ} (hos : os.Valid) :
    ∃ os', call.perform os = some os' ∧ os.PassedOn call.text os' ∧
      (call.KeepsBuffer → os.Wrote call.text os') := by
  obtain ⟨os', heq, hwrote⟩ := h os hos
  exact ⟨os', heq, hwrote.toPassedOn, fun _ => hwrote⟩

/-- Each call writes the text it stands for. -/
theorem perform_spec {call : Call} (h : call.Allowed) {os : RawOstream σ} (hos : os.Valid) :
    ∃ os', call.perform os = some os' ∧ os.PassedOn call.text os' ∧
      (call.KeepsBuffer → os.Wrote call.text os') := by
  cases call with
  | flush =>
    obtain ⟨os', heq, hwrote, -⟩ := flush_spec hos
    exact ⟨os', heq, hwrote.toPassedOn, fun _ => hwrote⟩
  | setBuffered =>
    obtain ⟨os', heq, hpassed, -⟩ := setBuffered_spec hos
    exact ⟨os', heq, hpassed, False.elim⟩
  | setBufferSize size =>
    obtain ⟨os', heq, hpassed, -⟩ := setBufferSize_spec hos h.1 h.2
    exact ⟨os', heq, hpassed, False.elim⟩
  | setUnbuffered =>
    obtain ⟨os', heq, hpassed, -⟩ := setUnbuffered_spec hos
    exact ⟨os', heq, hpassed, False.elim⟩
  | char c => exact Writes.perform (.char c) (writes_putChar c) hos
  | writeChar c => exact Writes.perform (.writeChar c) (fun _ hos => writeChar_spec hos c) hos
  | string str => exact Writes.perform (.string str) (writes_put str) hos
  | write data => exact Writes.perform (.write data) (writes_write data) hos
  | indent numSpaces => exact Writes.perform (.indent numSpaces) (writes_indent _) hos
  | unsignedLong n => exact Writes.perform (.unsignedLong n) (writes_putUnsignedLong n) hos
  | long n => exact Writes.perform (.long n) (writes_putLong n) hos
  | unsignedLongLong longBits n =>
    exact Writes.perform (.unsignedLongLong longBits n)
      (writes_putUnsignedLongLong longBits n) hos
  | longLong longBits n =>
    exact Writes.perform (.longLong longBits n) (writes_putLongLong longBits n) hos
  | hex n => exact Writes.perform (.hex n) (writes_writeHex n) hos
  | pointer p => exact Writes.perform (.pointer p) (writes_putPointer p) hos
  | escaped useHexEscapes str =>
    exact Writes.perform (.escaped useHexEscapes str)
      (writes_writeEscaped useHexEscapes str) hos
  | format fmt => exact Writes.perform (.format fmt) (writes_putFormat h) hos
  | formattedString fs =>
    exact Writes.perform (.formattedString fs) (writes_putFormattedString h.1 h.2) hos
  | formattedNumber fn =>
    exact Writes.perform (.formattedNumber fn) (writes_putFormattedNumber h) hos

/-- The calls of a run write their texts one after the other. -/
theorem execute_spec {os : RawOstream σ} (hos : os.Valid) {calls : List Call}
    (h : ∀ call ∈ calls, call.Allowed) :
    ∃ os', execute (fun os call => Call.perform call os) os calls = some os' ∧
      os.PassedOn (calls.flatMap Call.text) os' := by
  induction calls generalizing os with
  | nil => exact ⟨os, rfl, hos, Passes.refl⟩
  | cons call calls ih =>
    rw [List.forall_mem_cons] at h
    obtain ⟨t, ht, hpassed, -⟩ := perform_spec h.1 hos
    obtain ⟨os', hos', hpassed'⟩ := ih hpassed.valid h.2
    refine ⟨os', ?_, ?_⟩
    · rw [execute, ht, Option.bind_some, hos']
    · rw [List.flatMap_cons]
      exact hpassed.trans hpassed'

/-- A run of calls on a new stream: no assertion fails, and a flush at the end sends on what is held
back. -/
theorem calls_pass (sub : σ) (unbuffered : Bool) (calls : List Call)
    (h : ∀ call ∈ calls, call.Allowed) :
    ∃ os os', execute (fun os call => Call.perform call os) (new sub unbuffered) calls = some os ∧
      (new sub unbuffered).PassedOn (calls.flatMap Call.text) os ∧
      os.flush = some os' ∧ os'.held = [] ∧
      (new sub unbuffered).PassedOn (calls.flatMap Call.text) os' := by
  obtain ⟨os, hos, hpassed⟩ := execute_spec (valid_new sub unbuffered) h
  obtain ⟨os', hos', hwrote, hheld⟩ := flush_spec hpassed.valid
  have hwhole := hpassed.trans hwrote.toPassedOn
  rw [List.append_nil] at hwhole
  exact ⟨os, os', hos, hpassed, hos', hheld, hwhole⟩

/-- A string stream with a small buffer. -/
theorem calls_pass_hello :
    ∃ os os' : RawOstream RawStringOstream,
      execute (fun os call => Call.perform call os) (new ⟨[], 8⟩ false)
        [.setBufferSize 4, .string (bytes "hello, "), .string (bytes "world")] = some os ∧
      (new ⟨[], 8⟩ false : RawOstream RawStringOstream).PassedOn (bytes "hello, world") os ∧
      os.flush = some os' ∧ os'.held = [] ∧
      (new ⟨[], 8⟩ false : RawOstream RawStringOstream).PassedOn (bytes "hello, world") os' :=
  calls_pass (⟨[], 8⟩ : RawStringOstream) false
    [.setBufferSize 4, .string (bytes "hello, "), .string (bytes "world")]
    (by simp [Call.Allowed])

end Wpi.RawOstream

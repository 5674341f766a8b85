import WpiUtil.Llvm.Proofs.RawOstreamFormatProofs
import WpiUtil.Llvm.Proofs.StringRefNumbersProofs

/-!
# Proofs: what a stream has written is read back

Escaped strings are string literals, and the numbers are read by the parsers of `StringRef`.
-/

namespace Wpi.RawOstream

open Foundations StringLiteral

/-! ## String literals -/

theorem toNat_octalDigit (x : Byte) : (octalDigit x).toNat = 0x30 + x.toNat % 8 := by
  have hand : (x &&& 7).toNat = x.toNat % 8 := by
    rw [UInt8.toNat_and]
    exact Nat.and_two_pow_sub_one_eq_mod x.toNat 3
  rw [octalDigit, UInt8.toNat_add, hand, show (0x30 : Byte).toNat = 0x30 from rfl]
  omega

theorem octalDigit_eq (x : Byte) : octalDigit x = digitByte true (x.toNat % 8) := by
  have hlt : x.toNat % 8 < 10 := Nat.lt_trans (Nat.mod_lt _ (by decide)) (by decide)
  rw [digitByte, if_pos hlt, ← UInt8.toNat_inj, toNat_octalDigit]
  exact (UInt8.toNat_ofNat_of_lt' (by simp [UInt8.size]; omega)).symm

/-- The three octal digits of a character. -/
theorem readNumeral_octal (c : Byte) :
    readNumeral 8 0 [octalDigit (c >>> 6), octalDigit (c >>> 3), octalDigit c] = some c.toNat := by
  have hlt := c.toNat_lt
  have hsix : (c >>> 6).toNat = c.toNat / 64 := Nat.shiftRight_eq_div_pow c.toNat 6
  have hthree : (c >>> 3).toNat = c.toNat / 8 := Nat.shiftRight_eq_div_pow c.toNat 3
  have hdigits : ∀ d ∈ [c.toNat / 64 % 8, c.toNat / 8 % 8, c.toNat % 8], d < 8 := by
    intro d hd
    simp only [List.mem_cons, List.not_mem_nil, or_false] at hd
    omega
  rw [octalDigit_eq, octalDigit_eq, octalDigit_eq, hsix, hthree]
  refine (readNumeral_map (by decide) hdigits 0).trans (congrArg some ?_)
  simp only [ofNumeral_cons, ofNumeral_nil]
  omega

theorem toNat_and_fifteen (x : Byte) : (x &&& 0xf).toNat = x.toNat % 16 := by
  rw [UInt8.toNat_and]
  exact Nat.and_two_pow_sub_one_eq_mod x.toNat 4

theorem hexdigit_and (x : Byte) : hexdigit (x &&& 0xf) false = digitByte false (x.toNat % 16) := by
  rw [hexdigit_eq (by rw [toNat_and_fifteen]; exact Nat.mod_lt _ (by decide)), toNat_and_fifteen]

/-- The two hexadecimal digits of a character. -/
theorem readNumeral_hexadecimal (c : Byte) :
    readNumeral 16 0 [hexdigit (c >>> 4 &&& 0xf) false, hexdigit (c &&& 0xf) false] =
      some c.toNat := by
  have hlt := c.toNat_lt
  have hfour : (c >>> 4).toNat = c.toNat / 16 := Nat.shiftRight_eq_div_pow c.toNat 4
  have hdigits : ∀ d ∈ [c.toNat / 16 % 16, c.toNat % 16], d < 16 := by
    intro d hd
    simp only [List.mem_cons, List.not_mem_nil, or_false] at hd
    omega
  rw [hexdigit_and, hexdigit_and, hfour]
  refine (readNumeral_map (by decide) hdigits 0).trans (congrArg some ?_)
  simp only [ofNumeral_cons, ofNumeral_nil]
  omega

/-- The first octal digit is not mistaken for another escape. -/
theorem readEscape_octalDigit (hexLimit : Option Nat) (x : Byte) (s : List Byte) :
    readEscape hexLimit (octalDigit x :: s) = readCode 8 (some 3) (octalDigit x :: s) := by
  have htable : ∀ d < 8, simpleEscape (digitByte true d) = none ∧ digitByte true d ≠ 0x78 := by
    decide
  obtain ⟨hsimple, hne⟩ := htable _ (Nat.mod_lt x.toNat (by decide))
  rw [← octalDigit_eq] at hsimple hne
  exact readEscape_octal hsimple hne s

theorem escapeChar_of_escapedByCode (useHexEscapes : Bool) {c : Byte} (h : escapedByCode c = true) :
    escapeChar useHexEscapes c =
      if useHexEscapes then
        [0x5c, 0x78, hexdigit (c >>> 4 &&& 0xf) false, hexdigit (c &&& 0xf) false]
      else [0x5c, octalDigit (c >>> 6), octalDigit (c >>> 3), octalDigit c] := by
  simp only [escapedByCode, Bool.and_eq_true, bne_iff_ne, Bool.not_eq_true'] at h
  obtain ⟨⟨htab, hnewline⟩, hprint⟩ := h
  have hbackslash : c ≠ 0x5c := by
    rintro rfl
    cases hprint
  have hquote : c ≠ 0x22 := by
    rintro rfl
    cases hprint
  rw [escapeChar, if_neg hbackslash, if_neg htab, if_neg hnewline, if_neg hquote, if_neg]
  rw [hprint]
  exact Bool.false_ne_true

/-- A character is read back, be it escaped or not, if the digits of a hexadecimal escape end where
they were written to end. -/
theorem readLiteral_escapeChar {hexLimit : Option Nat} {useHexEscapes : Bool} {c : Byte}
    {s : List Byte} (hend : escapedByCode c = true → useHexEscapes = true →
      hexLimit = some 2 ∨ hexLimit = none ∧ s.takeWhile (isDigitIn 16) = []) :
    readLiteral hexLimit (escapeChar useHexEscapes c ++ s) =
      (readLiteral hexLimit s).map fun (str, rest) => (c :: str, rest) := by
  by_cases hcode : escapedByCode c = true
  · rw [escapeChar_of_escapedByCode useHexEscapes hcode]
    cases useHexEscapes with
    | true =>
      exact readLiteral_escape (readCode_append (List.cons_ne_nil _ _) (readNumeral_hexadecimal c)
        (hend hcode rfl))
    | false =>
      exact readLiteral_escape ((readEscape_octalDigit _ _ _).trans
        (readCode_append (List.cons_ne_nil _ _) (readNumeral_octal c) (Or.inl rfl)))
  · rw [escapeChar]
    split
    · next hc =>
      rw [hc]
      exact readLiteral_escape (readEscape_simple rfl)
    · next hbackslash =>
      split
      · next hc =>
        rw [hc]
        exact readLiteral_escape (readEscape_simple rfl)
      · next htab =>
        split
        · next hc =>
          rw [hc]
          exact readLiteral_escape (readEscape_simple rfl)
        · next hnewline =>
          split
          · next hc =>
            rw [hc]
            exact readLiteral_escape (readEscape_simple rfl)
          · next hquote =>
            split
            · exact readLiteral_plain hquote hbackslash hnewline
            · next hprint =>
              rw [escapedByCode, bne_iff_ne.2 htab, bne_iff_ne.2 hnewline,
                Bool.eq_false_iff.2 hprint] at hcode
              exact absurd rfl hcode

/-! ### Hexadecimal digits behind an escape -/

theorem escapeChar_eq_or (useHexEscapes : Bool) (c : Byte) :
    escapeChar useHexEscapes c = [c] ∨ ∃ s, escapeChar useHexEscapes c = 0x5c :: s := by
  rw [escapeChar]
  split
  · exact Or.inr ⟨_, rfl⟩
  · split
    · exact Or.inr ⟨_, rfl⟩
    · split
      · exact Or.inr ⟨_, rfl⟩
      · split
        · exact Or.inr ⟨_, rfl⟩
        · split
          · exact Or.inl rfl
          · split
            · exact Or.inr ⟨_, rfl⟩
            · exact Or.inr ⟨_, rfl⟩

theorem isprint_of_digitValue {c : Byte} {d : Nat} (h : digitValue c = some d) :
    isprint c = true := by
  have hrange : 0x30 ≤ c.toNat ∧ c.toNat ≤ 0x7a := by
    rw [digitValue] at h
    simp only [UInt8.le_iff_toNat_le] at h
    split at h
    · next hc => exact ⟨hc.1, Nat.le_trans hc.2 (by decide)⟩
    · split at h
      · next hc => exact ⟨Nat.le_trans (by decide) hc.1, hc.2⟩
      · split at h
        · next hc => exact ⟨Nat.le_trans (by decide) hc.1, Nat.le_trans hc.2 (by decide)⟩
        · cases h
  simp only [isprint, Bool.and_eq_true, decide_eq_true_iff, UInt8.le_iff_toNat_le]
  exact ⟨Nat.le_trans (by decide) hrange.1, Nat.le_trans hrange.2 (by decide)⟩

theorem escapeChar_of_digit (useHexEscapes : Bool) {c : Byte} (h : isDigitIn 16 c = true) :
    escapeChar useHexEscapes c = [c] := by
  have hne {a : Byte} (ha : isDigitIn 16 a = false) : c ≠ a := by
    rintro rfl
    rw [h] at ha
    cases ha
  obtain ⟨d, hd, -⟩ := (Option.any_eq_true _ _).1 h
  rw [escapeChar, if_neg (hne rfl), if_neg (hne rfl), if_neg (hne rfl), if_neg (hne rfl),
    if_pos (isprint_of_digitValue hd)]

/-- What is not a digit is not written with a digit at the front. -/
theorem dropWhile_escapeChar (useHexEscapes : Bool) {c : Byte} (h : isDigitIn 16 c = false)
    (s : List Byte) : (escapeChar useHexEscapes c ++ s).dropWhile (isDigitIn 16) =
      escapeChar useHexEscapes c ++ s := by
  rcases escapeChar_eq_or useHexEscapes c with heq | ⟨s', heq⟩
  · rw [heq]
    exact List.dropWhile_cons_of_neg (by rw [h]; exact Bool.false_ne_true)
  · rw [heq]
    exact List.dropWhile_cons_of_neg (by decide)

/-- The digits at the front of an escaped string are those of the string. -/
theorem dropWhile_escaped (useHexEscapes : Bool) (str rest : List Byte) :
    (str.flatMap (escapeChar useHexEscapes) ++ 0x22 :: rest).dropWhile (isDigitIn 16) =
      (str.dropWhile (isDigitIn 16)).flatMap (escapeChar useHexEscapes) ++ 0x22 :: rest := by
  induction str with
  | nil => exact List.dropWhile_cons_of_neg (by decide)
  | cons c str ih =>
    rw [List.flatMap_cons, List.append_assoc]
    cases hdigit : isDigitIn 16 c with
    | true =>
      rw [escapeChar_of_digit useHexEscapes hdigit, List.singleton_append,
        List.dropWhile_cons_of_pos hdigit, List.dropWhile_cons_of_pos hdigit, ih]
    | false =>
      have hc : ¬ isDigitIn 16 c = true := by
        rw [hdigit]
        exact Bool.false_ne_true
      rw [dropWhile_escapeChar useHexEscapes hdigit, List.dropWhile_cons_of_neg hc,
        List.flatMap_cons, List.append_assoc]

theorem dropWhile_of_head {str : List Byte} (h : str.head?.any (isDigitIn 16) = false) :
    str.dropWhile (isDigitIn 16) = str := by
  cases str with
  | nil => rfl
  | cons c str =>
    rw [List.head?_cons, Option.any_some] at h
    exact List.dropWhile_cons_of_neg (by rw [h]; exact Bool.false_ne_true)

/-- No digit comes behind what an escaped string begins with when it does not begin with one. -/
theorem takeWhile_escaped (useHexEscapes : Bool) {str : List Byte} (rest : List Byte)
    (h : str.head?.any (isDigitIn 16) = false) :
    (str.flatMap (escapeChar useHexEscapes) ++ 0x22 :: rest).takeWhile (isDigitIn 16) = [] := by
  have hdrop := dropWhile_escaped useHexEscapes str rest
  rw [dropWhile_of_head h] at hdrop
  have hsplit := List.takeWhile_append_dropWhile (p := isDigitIn 16)
    (l := str.flatMap (escapeChar useHexEscapes) ++ 0x22 :: rest)
  rw [hdrop] at hsplit
  exact List.self_eq_append_left.1 hsplit.symm

/-- The string is read back when a hexadecimal escape has two digits at most, or has no digit behind
it. -/
theorem readLiteral_escaped {hexLimit : Option Nat} {useHexEscapes : Bool} {str : List Byte}
    (h : hexLimit = some 2 ∨
      hexLimit = none ∧ (useHexEscapes = true → digitAfterCode str = false)) (rest : List Byte) :
    readLiteral hexLimit (str.flatMap (escapeChar useHexEscapes) ++ 0x22 :: rest) =
      some (str, rest) := by
  induction str with
  | nil => exact readLiteral_quote hexLimit rest
  | cons c str ih =>
    have hstr : hexLimit = some 2 ∨
        hexLimit = none ∧ (useHexEscapes = true → digitAfterCode str = false) :=
      h.imp_right fun ⟨hnone, hdigit⟩ => ⟨hnone, fun huse => (Bool.or_eq_false_iff.1 (hdigit huse)).2⟩
    have hend : escapedByCode c = true → useHexEscapes = true → hexLimit = some 2 ∨ hexLimit = none ∧
        (str.flatMap (escapeChar useHexEscapes) ++ 0x22 :: rest).takeWhile (isDigitIn 16) = [] := by
      intro hcode huse
      refine h.imp_right fun ⟨hnone, hdigit⟩ => ⟨hnone, takeWhile_escaped useHexEscapes rest ?_⟩
      have hhead := (Bool.or_eq_false_iff.1 (hdigit huse)).1
      rwa [hcode, Bool.true_and] at hhead
    rw [List.flatMap_cons, List.append_assoc, readLiteral_escapeChar hend, ih hstr, Option.map_some]

/-- With all the digits behind a hexadecimal escape taken, characters are lost. -/
theorem length_of_readLiteral_escaped {str str' rest rest' : List Byte}
    (h : readLiteral none (str.flatMap (escapeChar true) ++ 0x22 :: rest) = some (str', rest')) :
    str'.length ≤ str.length ∧ (digitAfterCode str = true → str'.length < str.length) := by
  induction hn : str.length using Nat.strongRecOn generalizing str str' with
  | _ n ih =>
    cases str with
    | nil =>
      rw [List.flatMap_nil, List.nil_append, readLiteral_quote] at h
      cases h
      exact ⟨Nat.zero_le _, fun hdigit => absurd hdigit Bool.false_ne_true⟩
    | cons c str =>
      rw [List.length_cons] at hn
      rw [List.flatMap_cons, List.append_assoc] at h
      by_cases htaken : escapedByCode c = true ∧ str.head?.any (isDigitIn 16) = true
      · -- The escape takes the digits at the front of the string behind it.
        obtain ⟨hcode, hhead⟩ := htaken
        rw [escapeChar_of_escapedByCode true hcode] at h
        obtain ⟨e, s', str₂, hescape, hread, rfl⟩ := exists_of_readLiteral_escape h
        have hs' := eq_dropWhile_of_readCode hescape
        have hdrop : s' = (str.dropWhile (isDigitIn 16)).flatMap (escapeChar true) ++
            0x22 :: rest := by
          rw [← dropWhile_escaped]
          exact hs'.trans (List.dropWhile_append_of_pos (isDigitIn_of_readNumeral
            (readNumeral_hexadecimal c)))
        have hlt : (str.dropWhile (isDigitIn 16)).length < str.length := by
          cases str with
          | nil => cases hhead
          | cons d str =>
            have hdigit : isDigitIn 16 d = true := hhead
            rw [List.dropWhile_cons_of_pos hdigit]
            exact Nat.lt_succ_of_le (List.dropWhile_sublist _).length_le
        rw [hdrop] at hread
        have hle := (ih _ (by omega) hread rfl).1
        rw [List.length_cons]
        exact ⟨by omega, fun _ => by omega⟩
      · rw [readLiteral_escapeChar fun hcode _ => Or.inr ⟨rfl, takeWhile_escaped true rest
          (Bool.eq_false_iff.2 fun hhead => htaken ⟨hcode, hhead⟩)⟩] at h
        obtain ⟨⟨str₂, rest₂⟩, hread, heq⟩ := Option.map_eq_some_iff.1 h
        cases heq
        obtain ⟨hle, hlt⟩ := ih _ (by omega) hread rfl
        rw [List.length_cons]
        refine ⟨by omega, fun hdigit => ?_⟩
        rw [digitAfterCode, Bool.or_eq_true, Bool.and_eq_true] at hdigit
        have := hlt (hdigit.resolve_left htaken)
        omega

/-- C reads a string back exactly if no hexadecimal escape has a hexadecimal digit behind it. -/
theorem readLiteral_escaped_iff (useHexEscapes : Bool) (str rest : List Byte) :
    readLiteral none (str.flatMap (escapeChar useHexEscapes) ++ 0x22 :: rest) = some (str, rest) ↔
      (useHexEscapes = true → digitAfterCode str = false) := by
  constructor
  · rintro h rfl
    by_contra hdigit
    rw [Bool.not_eq_false] at hdigit
    exact Nat.lt_irrefl _ ((length_of_readLiteral_escaped h).2 hdigit)
  · exact fun h => readLiteral_escaped (Or.inr ⟨rfl, h⟩) rest

/-! ### Printable characters -/

theorem isprint_octalDigit (x : Byte) : isprint (octalDigit x) = true := by
  have hlt := Nat.mod_lt x.toNat (by decide : 8 > 0)
  simp only [isprint, Bool.and_eq_true, decide_eq_true_iff, UInt8.le_iff_toNat_le, toNat_octalDigit]
  exact ⟨by simp; omega, by simp; omega⟩

theorem isprint_hexdigit (x : Byte) : isprint (hexdigit (x &&& 0xf) false) = true := by
  have htable : ∀ d < 16, isprint (digitByte false d) = true := by decide
  rw [hexdigit_and]
  exact htable _ (Nat.mod_lt _ (by decide))

theorem isprint_of_mem_pair {a b c : Byte} (ha : isprint a = true) (hb : isprint b = true)
    (h : c ∈ [a, b]) : isprint c = true := by
  rcases List.mem_pair.1 h with rfl | rfl
  · exact ha
  · exact hb

theorem isprint_of_mem_escapeChar {useHexEscapes : Bool} {c b : Byte}
    (h : b ∈ escapeChar useHexEscapes c) : isprint b = true := by
  rw [escapeChar] at h
  split at h
  · exact isprint_of_mem_pair rfl rfl h
  · split at h
    · exact isprint_of_mem_pair rfl rfl h
    · split at h
      · exact isprint_of_mem_pair rfl rfl h
      · split at h
        · exact isprint_of_mem_pair rfl rfl h
        · split at h
          · next hprint =>
            rw [List.mem_singleton] at h
            rwa [h]
          · split at h
            · simp only [List.mem_cons, List.not_mem_nil, or_false] at h
              rcases h with rfl | rfl | rfl | rfl
              · rfl
              · rfl
              · exact isprint_hexdigit _
              · exact isprint_hexdigit _
            · simp only [List.mem_cons, List.not_mem_nil, or_false] at h
              rcases h with rfl | rfl | rfl | rfl
              · rfl
              · exact isprint_octalDigit _
              · exact isprint_octalDigit _
              · exact isprint_octalDigit _

variable {σ : Type} [RawOstreamImpl σ] {os : RawOstream σ}

/-- `write_escaped` writes the inside of a string literal, all of it printable: with two digits to a
hexadecimal escape it is read back, up to the closing quote, and a reader that takes all the digits, as
in C, reads it back exactly when none comes behind such an escape. -/
theorem escaped_read_back (hos : os.Valid) (useHexEscapes : Bool) (str rest : List Byte) :
    ∃ os' text, os.writeEscaped useHexEscapes str = some os' ∧ os.Wrote text os' ∧
      (∀ b ∈ text, isprint b = true) ∧
      readLiteral (some 2) (text ++ 0x22 :: rest) = some (str, rest) ∧
      (readLiteral none (text ++ 0x22 :: rest) = some (str, rest) ↔
        (useHexEscapes = true → digitAfterCode str = false)) := by
  obtain ⟨os', hos', hwrote⟩ := writes_writeEscaped useHexEscapes str os hos
  refine ⟨os', _, hos', hwrote, fun b hb => ?_, readLiteral_escaped (Or.inl rfl) rest,
    readLiteral_escaped_iff useHexEscapes str rest⟩
  obtain ⟨c, -, hb⟩ := List.mem_flatMap.1 hb
  exact isprint_of_mem_escapeChar hb

theorem escaped_read_back_quote :
    ∃ os' text, (new ⟨[], 8⟩ false : RawOstream RawStringOstream).writeEscaped true (bytes "\"\n") =
        some os' ∧
      RawOstream.Wrote (new ⟨[], 8⟩ false) text os' ∧ (∀ b ∈ text, isprint b = true) ∧
      readLiteral (some 2) (text ++ 0x22 :: bytes ";") = some (bytes "\"\n", bytes ";") ∧
      (readLiteral none (text ++ 0x22 :: bytes ";") = some (bytes "\"\n", bytes ";") ↔
        (true = true → digitAfterCode (bytes "\"\n") = false)) :=
  escaped_read_back (valid_new _ _) true (bytes "\"\n") (bytes ";")

/-! ## Numbers -/

/-- The call writes a text, whatever the state of the stream, that the parser reads as `n`. -/
def ReadBack (call : Call) {α : Type} (parse : List Byte → Option α) (n : α) : Prop :=
  ∀ (σ : Type) [RawOstreamImpl σ] (os : RawOstream σ), os.Valid →
    ∃ os' text, call.perform os = some os' ∧ os.PassedOn text os' ∧ parse text = some n

theorem readBack_of_text (call : Call) (h : call.Allowed) {α : Type} (parse : List Byte → Option α)
    {n : α} (hparse : parse call.text = some n) : ReadBack call parse n := by
  intro σ _ os hos
  obtain ⟨os', hos', hpassed, -⟩ := perform_spec h hos
  exact ⟨os', _, hos', hpassed, hparse⟩

theorem number_ne_nil {lowerCase : Bool} {b : Nat} (hb : 1 < b) (n : Nat) :
    number lowerCase b n ≠ [] := by
  rw [number]
  split
  · exact List.cons_ne_nil _ _
  · next hn => exact numeral_ne_nil hb (Nat.pos_of_ne_zero hn)

theorem parseUnsigned_decimal (n : UInt64) :
    StringRef.parseUnsigned (decimal n.toNat) 10 = some n := by
  rw [StringRef.parseUnsigned_eq_some_iff, ← number_ten true]
  exact StringRef.hasValue_of_readNumeral (by decide) (number_ne_nil (by decide) _)
    (readNumeral_number true (by decide) (by decide) _)

theorem parseUnsigned_hexadecimal (n : UInt64) :
    StringRef.parseUnsigned (number true 16 n.toNat) 16 = some n :=
  StringRef.parseUnsigned_eq_some_iff.2 <| StringRef.hasValue_of_readNumeral (by decide)
    (number_ne_nil (by decide) _) (readNumeral_number true (by decide) (by decide) _)

theorem head_decimal_ne (n : Nat) : (decimal n).head? ≠ some 0x2d := by
  intro h
  have hdigit := isDigit_of_mem_decimal (List.mem_of_mem_head? h)
  exact absurd hdigit (by decide)

theorem parseSigned_integerText (n : Int64) :
    StringRef.parseSigned (integerText n.toInt) 10 = some n := by
  have hvalue : StringRef.HasValue (decimal n.toInt.natAbs) 10 n.toInt.natAbs := by
    rw [← number_ten true]
    exact StringRef.hasValue_of_readNumeral (by decide) (number_ne_nil (by decide) _)
      (readNumeral_number true (by decide) (by decide) _)
  rw [StringRef.parseSigned_eq_some_iff]
  refine ⟨n.toInt.natAbs, ?_⟩
  by_cases hneg : n.toInt < 0
  · have hhead : ([0x2d] ++ decimal n.toInt.natAbs).head? = some 0x2d := rfl
    rw [integerText, if_pos hneg, unsignedPart, if_pos hhead, if_pos hhead]
    exact ⟨hvalue, by omega⟩
  · have hhead := head_decimal_ne n.toInt.natAbs
    rw [integerText, if_neg hneg, List.nil_append, unsignedPart, if_neg hhead, if_neg hhead]
    exact ⟨hvalue, by omega⟩

/-- The blanks before a number are trimmed. -/
theorem ltrim_spaces (k : Nat) (n : Int) :
    StringRef.ltrim (List.replicate k 0x20 ++ integerText n) = integerText n := by
  have hspaces : ∀ c ∈ List.replicate k (0x20 : Byte), StringRef.whitespace.contains c = true := by
    intro c hc
    rw [List.eq_of_mem_replicate hc]
    rfl
  have hstop : ∀ c, (integerText n).head? = some c → StringRef.whitespace.contains c = false := by
    intro c hc
    rw [integerText] at hc
    split at hc
    · cases hc
      rfl
    · have hdigit := isDigit_iff.1 (isDigit_of_mem_decimal (List.mem_of_mem_head? hc))
      simp only [StringRef.whitespace, List.contains_eq_mem, List.mem_cons, List.not_mem_nil, or_false,
        decide_eq_false_iff_not, ← UInt8.toNat_inj]
      simp
      omega
  exact (takeWhile_dropWhile_append hspaces hstop).2

/-- Zeros and digits, at least one. -/
theorem hexText_false (upper : Bool) {width n : Nat} (h : n ≠ 0 ∨ 0 < width) :
    hexText upper false width n ≠ [] ∧ readNumeral 16 0 (hexText upper false width n) = some n := by
  have htext : hexText upper false width n =
      List.replicate (width - (numeral (digitByte !upper) 16 n).length) 0x30 ++
        numeral (digitByte !upper) 16 n := by
    simp [hexText]
  rw [htext]
  constructor
  · rcases h with hn | hwidth
    · exact List.append_ne_nil_of_right_ne_nil _ (numeral_ne_nil (by decide) (Nat.pos_of_ne_zero hn))
    · rcases Nat.eq_zero_or_pos n with rfl | hn
      · rw [numeral_zero, List.append_nil, List.length_nil, Nat.sub_zero, Ne, List.replicate_eq_nil_iff]
        omega
      · exact List.append_ne_nil_of_right_ne_nil _ (numeral_ne_nil (by decide) hn)
  · rw [readNumeral_zeros (by decide), readNumeral_numeral _ (by decide) (by decide)]

theorem hexText_true (upper : Bool) (width n : Nat) :
    hexText upper true width n = [0x30, 0x78] ++ hexText upper false (width - 2) n := by
  simp [hexText, Nat.sub_sub]

theorem readBack_formatHex {n : UInt64} {width : UInt32} {upper : Bool} {fn : FormattedNumber}
    (hfn : FormattedNumber.formatHex n width upper = some fn) (h : n ≠ 0 ∨ 2 < width) :
    ReadBack (.formattedNumber fn) (StringRef.parseUnsigned · 0) n := by
  rw [FormattedNumber.formatHex] at hfn
  split at hfn
  · next hwidth =>
    cases hfn
    have hdigits : n.toNat ≠ 0 ∨ 0 < width.toNat - 2 := by
      rcases h with hn | hlt
      · exact Or.inl fun hzero => hn (UInt64.toNat_inj.1 hzero)
      · exact Or.inr (Nat.sub_pos_of_lt (UInt32.lt_iff_toNat_lt.1 hlt))
    obtain ⟨hne, hread⟩ := hexText_false upper hdigits
    have hvalue : StringRef.HasValue (hexText upper true width.toNat n.toNat) 0 n.toNat := by
      rw [hexText_true]
      exact StringRef.hasValue_hexadecimal hne hread
    exact readBack_of_text (.formattedNumber ⟨n, 0, width, true, upper, true⟩)
      (UInt32.le_iff_toNat_le.1 hwidth) (StringRef.parseUnsigned · 0)
      (StringRef.parseUnsigned_eq_some_iff.2 hvalue)
  · cases hfn

theorem readBack_formatHexNoPrefix {n : UInt64} {width : UInt32} {upper : Bool}
    {fn : FormattedNumber} (hfn : FormattedNumber.formatHexNoPrefix n width upper = some fn)
    (h : n ≠ 0 ∨ 0 < width) : ReadBack (.formattedNumber fn) (StringRef.parseUnsigned · 16) n := by
  rw [FormattedNumber.formatHexNoPrefix] at hfn
  split at hfn
  · next hwidth =>
    cases hfn
    have hdigits : n.toNat ≠ 0 ∨ 0 < width.toNat := by
      rcases h with hn | hlt
      · exact Or.inl fun hzero => hn (UInt64.toNat_inj.1 hzero)
      · exact Or.inr (UInt32.lt_iff_toNat_lt.1 hlt)
    obtain ⟨hne, hread⟩ := hexText_false upper hdigits
    have hwide : width.toNat ≤ 18 := Nat.le_trans (UInt32.le_iff_toNat_le.1 hwidth) (by decide)
    have hvalue : StringRef.HasValue (hexText upper false width.toNat n.toNat) 16 n.toNat :=
      StringRef.hasValue_of_readNumeral (by decide) hne hread
    exact readBack_of_text (.formattedNumber ⟨n, 0, width, true, upper, false⟩) hwide
      (StringRef.parseUnsigned · 16)
      (StringRef.parseUnsigned_eq_some_iff.2 hvalue)
  · cases hfn

theorem readBack_formatDecimal {n : Int64} {width : UInt32} (hwidth : width.toNat < 2 ^ 31)
    (h : n ≠ 0 ∨ 0 < width) :
    ReadBack (.formattedNumber (FormattedNumber.formatDecimal n width))
      (fun text => StringRef.parseSigned (StringRef.ltrim text) 10) n := by
  have hzero : n ≠ 0 ∨ width ≠ 0 := h.imp_right fun hlt heq => by
    rw [heq] at hlt
    exact absurd hlt (by decide)
  have hallowed : Call.Allowed (.formattedNumber (FormattedNumber.formatDecimal n width)) :=
    ⟨hwidth, hzero⟩
  have hparse : StringRef.parseSigned
      (StringRef.ltrim (justified true width.toNat (integerText n.toInt))) 10 = some n := by
    rw [justified, if_pos rfl, ltrim_spaces, parseSigned_integerText]
  exact readBack_of_text _ hallowed
    (fun text => StringRef.parseSigned (StringRef.ltrim text) 10) hparse

theorem readBack_pointer (p : UInt64) : ReadBack (.pointer p) (StringRef.parseUnsigned · 0) p := by
  have hvalue : StringRef.HasValue ([0x30, 0x78] ++ number true 16 p.toNat) 0 p.toNat :=
    StringRef.hasValue_hexadecimal (number_ne_nil (by decide) _)
      (readNumeral_number true (by decide) (by decide) _)
  exact readBack_of_text (.pointer p) trivial (StringRef.parseUnsigned · 0)
    (StringRef.parseUnsigned_eq_some_iff.2 hvalue)

/-- Every integer that a stream writes is read back by the parsers of `StringRef`. -/
theorem integers_read_back :
    (∀ n, ReadBack (.unsignedLong n) (StringRef.parseUnsigned · 10) n) ∧
    (∀ longBits n, ReadBack (.unsignedLongLong longBits n) (StringRef.parseUnsigned · 10) n) ∧
    (∀ n, ReadBack (.long n) (StringRef.parseSigned · 10) n) ∧
    (∀ longBits n, ReadBack (.longLong longBits n) (StringRef.parseSigned · 10) n) ∧
    (∀ n, ReadBack (.hex n) (StringRef.parseUnsigned · 16) n) ∧
    (∀ p, ReadBack (.pointer p) (StringRef.parseUnsigned · 0) p) ∧
    (∀ n width upper fn, FormattedNumber.formatHex n width upper = some fn →
      n ≠ 0 ∨ 2 < width → ReadBack (.formattedNumber fn) (StringRef.parseUnsigned · 0) n) ∧
    (∀ n width upper fn, FormattedNumber.formatHexNoPrefix n width upper = some fn →
      n ≠ 0 ∨ 0 < width → ReadBack (.formattedNumber fn) (StringRef.parseUnsigned · 16) n) ∧
    (∀ n (width : UInt32), width.toNat < 2 ^ 31 → n ≠ 0 ∨ 0 < width →
      ReadBack (.formattedNumber (FormattedNumber.formatDecimal n width))
        (fun text => StringRef.parseSigned (StringRef.ltrim text) 10) n) :=
  ⟨fun n => readBack_of_text (.unsignedLong n) trivial _ (parseUnsigned_decimal n),
    fun b n => readBack_of_text (.unsignedLongLong b n) trivial _ (parseUnsigned_decimal n),
    fun n => readBack_of_text (.long n) trivial _ (parseSigned_integerText n),
    fun b n => readBack_of_text (.longLong b n) trivial _ (parseSigned_integerText n),
    fun n => readBack_of_text (.hex n) trivial _ (parseUnsigned_hexadecimal n),
    fun p => readBack_pointer p, fun _ _ _ _ hfn h => readBack_formatHex hfn h,
    fun _ _ _ _ hfn h => readBack_formatHexNoPrefix hfn h,
    fun _ _ hwidth h => readBack_formatDecimal hwidth h⟩

end Wpi.RawOstream

import WpiUtil.Foundations.JsonText
import WpiUtil.Foundations.Runs
import WpiUtil.Json.Lexer

/-!
# What the parts of the lexer consume

The lexers an action starts from are described by what is left to read, a character that has been
given back included, and by the text collected.
-/

namespace Wpi.Lexer

open Foundations

variable {σ α β : Type} [ByteSource σ]

/-- What is left to read. -/
def input (lx : Lexer σ) : List Byte :=
  (if lx.nextUnget then lx.current.toList else []) ++ ByteSource.content lx.is

/-- After an error there is nothing left to read. -/
structure Ready (lx : Lexer σ) : Prop where
  error : RawIstream.hasError lx.is = true → ByteSource.content lx.is = []
  unget : lx.nextUnget = true → lx.current = none → ByteSource.content lx.is = []

/-- `u` is left to read, and `y` is the text collected. -/
structure At (u y : List Byte) (lx : Lexer σ) : Prop where
  ready : lx.Ready
  input : lx.input = u
  yytext : lx.yytext = y

/-- The same, and `c` has been read last. -/
structure AtAfter (c : Option Byte) (u y : List Byte) (lx : Lexer σ) : Prop where
  at' : At u y lx
  current : lx.current = c
  nextUnget : lx.nextUnget = false

/-! ## Input management -/

theorem runs_get_cons (c : Byte) (u y : List Byte) :
    Runs (At (c :: u) y) (get : Action σ (Option Byte)) (some c) (AtAfter (some c) u y) := by
  refine runs_modifyGet fun lx hlx => ?_
  obtain ⟨⟨herror, hunget⟩, hinput, hyytext⟩ := hlx
  unfold input at hinput
  unfold next
  cases hn : lx.nextUnget with
  | true =>
    rw [hn, if_pos rfl] at hinput
    cases hc : lx.current with
    | none =>
      rw [hc, hunget hn hc] at hinput
      cases hinput
    | some d =>
      rw [hc, Option.toList_some, List.singleton_append, List.cons.injEq] at hinput
      obtain ⟨rfl, hu⟩ := hinput
      simp only [if_true]
      refine ⟨trivial, ⟨⟨herror, fun h => by cases h⟩, ?_, hyytext⟩, rfl, rfl⟩
      unfold input
      simpa using hu
  | false =>
    rw [hn, if_neg (by decide), List.nil_append] at hinput
    have hok : RawIstream.hasError lx.is = false := by
      by_contra he
      rw [Bool.not_eq_false] at he
      rw [herror he] at hinput
      cases hinput
    obtain ⟨is, hread, he, hcontent⟩ := ByteSource.read_cons hok hinput
    have hread' : RawIstream.read lx.is 1 = ([c], is) := hread
    simp only [hread', he, Bool.false_eq_true, if_false]
    refine ⟨rfl, ⟨⟨fun h => ?_, fun h => by cases h⟩, ?_, hyytext⟩, rfl, rfl⟩
    · exact absurd h (by simp [he])
    · unfold input
      simpa using hcontent

theorem runs_get_nil (y : List Byte) :
    Runs (At [] y) (get : Action σ (Option Byte)) none (AtAfter none [] y) := by
  refine runs_modifyGet fun lx hlx => ?_
  obtain ⟨⟨herror, hunget⟩, hinput, hyytext⟩ := hlx
  unfold input at hinput
  rw [List.append_eq_nil_iff] at hinput
  unfold next
  cases hn : lx.nextUnget with
  | true =>
    rw [hn, if_pos rfl, Option.toList_eq_nil_iff] at hinput
    simp only [if_true]
    refine ⟨hinput.1, ⟨⟨herror, fun h => by cases h⟩, ?_, hyytext⟩, hinput.1, rfl⟩
    unfold input
    simpa using hinput.2
  | false =>
    obtain ⟨he, hcontent⟩ := ByteSource.read_nil hinput.2
    have he' : RawIstream.hasError (RawIstream.read lx.is 1).2 = true := he
    simp only [he', Bool.false_eq_true, if_false, if_true]
    exact ⟨trivial, ⟨⟨fun _ => hcontent, fun _ _ => hcontent⟩, hcontent, hyytext⟩, rfl, rfl⟩

/-- What does not change what is left to read. -/
theorem runs_modify {u y z : List Byte} {f : Lexer σ → Lexer σ}
    (h : ∀ lx : Lexer σ, (f lx).is = lx.is ∧ (f lx).current = lx.current ∧
      (f lx).nextUnget = lx.nextUnget ∧ (lx.yytext = y → (f lx).yytext = z)) :
    Runs (At u y) (modify f : Action σ PUnit) ⟨⟩ (At u z) := by
  refine runs_modifyGet fun lx hlx => ⟨rfl, ?_⟩
  obtain ⟨⟨herror, hunget⟩, hinput, hyytext⟩ := hlx
  obtain ⟨his, hcurrent, hnext, hyy⟩ := h lx
  refine ⟨⟨?_, ?_⟩, ?_, hyy hyytext⟩
  · rw [his]
    exact herror
  · rw [his, hcurrent, hnext]
    exact hunget
  · unfold input
    rw [his, hcurrent, hnext]
    exact hinput

theorem runs_add (u y : List Byte) (c : Byte) :
    Runs (At u y) (add c : Action σ PUnit) ⟨⟩ (At u (y ++ [c])) :=
  runs_modify fun lx => ⟨rfl, rfl, rfl, fun h => by rw [← h]⟩

theorem runs_addAll (u y cs : List Byte) :
    Runs (At u y) (addAll cs : Action σ PUnit) ⟨⟩ (At u (y ++ cs)) :=
  runs_modify fun lx => ⟨rfl, rfl, rfl, fun h => by rw [← h]⟩

theorem runs_reset (u y : List Byte) :
    Runs (At u y) (reset : Action σ PUnit) ⟨⟩ (At u []) :=
  runs_modify fun _ => ⟨rfl, rfl, rfl, fun _ => rfl⟩

theorem runs_fail (u y message : List Byte) :
    Runs (At u y) (fail message : Action σ TokenType) .parseError (At u y) := by
  unfold fail
  refine Runs.bind (a := ⟨⟩) (Q := At u y) ?_ (runs_pure _ _)
  exact runs_modify fun _ => ⟨rfl, rfl, rfl, fun h => h⟩

/-- The next character is read. -/
theorem Runs.get_cons {c : Byte} {u y : List Byte} {f : Option Byte → Action σ α} {a : α}
    {Q : Lexer σ → Prop} (h : Runs (At u y) (f (some c)) a Q) :
    Runs (At (c :: u) y) (get >>= f) a Q :=
  (runs_get_cons c u y).bind (h.mono (fun _ hlx => hlx.at') fun _ hlx => hlx)

/-- There is no next character. -/
theorem Runs.get_nil {y : List Byte} {f : Option Byte → Action σ α} {a : α} {Q : Lexer σ → Prop}
    (h : Runs (At [] y) (f none) a Q) : Runs (At [] y) (get >>= f) a Q :=
  (runs_get_nil y).bind (h.mono (fun _ hlx => hlx.at') fun _ hlx => hlx)

/-! ## Strings -/

/-- The action gives the string up, wherever it is then. -/
def Fails (u y : List Byte) (x : Action σ (Option TokenType)) : Prop :=
  Runs (At u y) x (some .parseError) Ready

theorem fails_fail (u y message : List Byte) :
    Fails u y (do return some (← fail message) : Action σ (Option TokenType)) :=
  (runs_fail u y message).bind ((runs_pure _ _).mono (fun _ h => h) fun _ h => h.ready)

theorem hexDigit_eq (c : Byte) : hexDigit (some c) = JsonText.hexValue c := by
  unfold hexDigit JsonText.hexValue
  simp only
  split
  · rfl
  · split
    · next h =>
      have hle := UInt8.le_iff_toNat_le.1 h.1
      exact congrArg some (by simp at hle; omega)
    · split
      · next h =>
        have hle := UInt8.le_iff_toNat_le.1 h.1
        exact congrArg some (by simp at hle; omega)
      · rfl

theorem or_eq_add_of_lt {a b i : Nat} (ha : 2 ^ i ∣ a) (hb : b < 2 ^ i) : a ||| b = b + a := by
  obtain ⟨k, rfl⟩ := ha
  rw [← Nat.two_pow_add_eq_or_of_lt hb, Nat.add_comm]

theorem low_six_bits (n : Nat) : 0x80 ||| (n &&& 0x3f) = n % 0x40 + 0x80 := by
  rw [show n &&& 0x3f = n % 2 ^ 6 from Nat.and_two_pow_sub_one_eq_mod n 6]
  exact or_eq_add_of_lt (i := 7) (by decide) (by omega)

theorem translate_eq {n : Nat} (h : n < 0x110000) : translate n = Utf8.encodeNat n := by
  unfold translate Utf8.encodeNat
  by_cases h1 : n < 0x80
  · have h1' : n ≤ 0x7f := by omega
    rw [if_pos h1, if_pos h1']
  · have h1' : ¬n ≤ 0x7f := by omega
    rw [if_neg h1, if_neg h1']
    by_cases h2 : n ≤ 0x7ff
    · have hlead : 0xc0 ||| n >>> 6 = n / 64 % 0x20 + 0xc0 := by
        rw [Nat.shiftRight_eq_div_pow, or_eq_add_of_lt (i := 6) (by decide) (by omega)]
        omega
      rw [if_pos h2, if_pos h2, hlead, low_six_bits]
    · rw [if_neg h2, if_neg h2]
      by_cases h3 : n ≤ 0xffff
      · have hlead : 0xe0 ||| n >>> 12 = n / 4096 % 0x10 + 0xe0 := by
          rw [Nat.shiftRight_eq_div_pow, or_eq_add_of_lt (i := 5) (by decide) (by omega)]
          omega
        rw [if_pos h3, if_pos h3, hlead, low_six_bits, low_six_bits, Nat.shiftRight_eq_div_pow]
      · have hlead : 0xf0 ||| n >>> 18 = n / 262144 % 0x08 + 0xf0 := by
          rw [Nat.shiftRight_eq_div_pow, or_eq_add_of_lt (i := 4) (by decide) (by omega)]
          omega
        rw [if_neg h3, if_neg h3, hlead, low_six_bits, low_six_bits, low_six_bits,
          Nat.shiftRight_eq_div_pow, Nat.shiftRight_eq_div_pow]

/-- Either there are as many hexadecimal digits as weights, and they are read, or not. -/
theorem runs_getDigits_cons {c : Byte} {digit : Nat} (hc : JsonText.hexValue c = some digit)
    {weight codepoint : Nat} {weights : List Nat} {u y : List Byte} {r : Option Nat}
    {Q : Lexer σ → Prop}
    (h : Runs (At u y) (getDigits weights (codepoint + digit * weight) : Action σ _) r Q) :
    Runs (At (c :: u) y) (getDigits (weight :: weights) codepoint : Action σ _) r Q := by
  rw [getDigits]
  refine Runs.get_cons ?_
  rw [hexDigit_eq, hc]
  exact h

theorem runs_getDigits_none {u y : List Byte}
    (hu : ∀ c w, u = c :: w → JsonText.hexValue c = none) (weight codepoint : Nat)
    (weights : List Nat) :
    Runs (At u y) (getDigits (weight :: weights) codepoint : Action σ _) none Ready := by
  rw [getDigits]
  cases u with
  | nil => exact Runs.get_nil ((runs_pure _ _).mono (fun _ h => h) fun _ h => h.ready)
  | cons c u =>
    refine Runs.get_cons ?_
    rw [hexDigit_eq, hu c u rfl]
    exact (runs_pure _ _).mono (fun _ h => h) fun _ h => h.ready

/-- Four hexadecimal digits are read. -/
theorem runs_getCodepoint {u w : List Byte} {n : Nat} (h : JsonText.HexQuad u n w)
    (y : List Byte) :
    Runs (At u y) (getCodepoint : Action σ _) (some n) (At w y) := by
  obtain ⟨w, ha, hb, hc, hd⟩ := h
  unfold getCodepoint
  refine runs_getDigits_cons ha (runs_getDigits_cons hb (runs_getDigits_cons hc
    (runs_getDigits_cons hd ?_)))
  rw [getDigits, Nat.zero_add, Nat.mul_one]
  exact runs_pure _ _

/-- Anything else gives no code point. -/
theorem getCodepoint_cases (u y : List Byte) :
    (∃ n w, JsonText.HexQuad u n w) ∨
      Runs (At u y) (getCodepoint : Action σ _) none Ready := by
  have hdigit : ∀ v : List Byte, (∃ c w n, v = c :: w ∧ JsonText.hexValue c = some n) ∨
      ∀ c w, v = c :: w → JsonText.hexValue c = none := by
    intro v
    cases v with
    | nil => exact Or.inr fun c w h => by cases h
    | cons c v =>
      cases hc : JsonText.hexValue c with
      | none =>
        refine Or.inr fun d w h => ?_
        rw [← (List.cons.inj h).1]
        exact hc
      | some n => exact Or.inl ⟨c, v, n, rfl, hc⟩
  unfold getCodepoint
  rcases hdigit u with ⟨a, u, m, rfl, ha⟩ | ha
  · rcases hdigit u with ⟨b, u, n, rfl, hb⟩ | hb
    · rcases hdigit u with ⟨c, u, p, rfl, hc⟩ | hc
      · rcases hdigit u with ⟨d, u, q, rfl, hd⟩ | hd
        · exact Or.inl ⟨_, u, .mk u ha hb hc hd⟩
        · exact Or.inr (runs_getDigits_cons ha (runs_getDigits_cons hb (runs_getDigits_cons hc
            (runs_getDigits_none hd _ _ _))))
      · exact Or.inr (runs_getDigits_cons ha (runs_getDigits_cons hb
          (runs_getDigits_none hc _ _ _)))
    · exact Or.inr (runs_getDigits_cons ha (runs_getDigits_none hb _ _ _))
  · exact Or.inr (runs_getDigits_none ha _ _ _)

theorem hexValue_lt {c : Byte} {n : Nat} (h : JsonText.hexValue c = some n) : n < 16 := by
  have hc : c.toNat < 256 := c.toNat_lt
  unfold JsonText.hexValue at h
  split at h
  · next hle =>
    have hhi := UInt8.le_iff_toNat_le.1 hle.2
    cases h
    simp at hhi
    omega
  · split at h
    · next hle =>
      have hhi := UInt8.le_iff_toNat_le.1 hle.2
      cases h
      simp at hhi
      omega
    · split at h
      · next hle =>
        have hhi := UInt8.le_iff_toNat_le.1 hle.2
        cases h
        simp at hhi
        omega
      · cases h

theorem hexQuad_lt {u w : List Byte} {n : Nat} (h : JsonText.HexQuad u n w) : n < 0x10000 := by
  obtain ⟨w, ha, hb, hc, hd⟩ := h
  have ha' := hexValue_lt ha
  have hb' := hexValue_lt hb
  have hc' := hexValue_lt hc
  have hd' := hexValue_lt hd
  omega

/-- An escaped code point that is not a surrogate. -/
theorem runs_unicode {u w : List Byte} {n : Nat} (hu : JsonText.HexQuad u n w)
    (hn : n < 0xd800 ∨ 0xdfff < n) (y : List Byte) :
    Runs (At u y) (scanUnicodeEscape : Action σ _) none
      (At w (y ++ String.utf8EncodeChar (Char.ofNat n))) := by
  have hlt : n < 0x10000 := hexQuad_lt hu
  unfold scanUnicodeEscape
  refine (runs_getCodepoint hu y).bind ?_
  simp only
  rw [if_neg (by omega), if_neg (by omega), translate_eq (by omega),
    ← Utf8.utf8EncodeChar_ofNat (hn.imp_right fun h => ⟨h, by omega⟩)]
  exact (runs_addAll _ _ _).bind (runs_pure _ _)

/-- A pair of escaped surrogates. -/
theorem runs_surrogates {u v w : List Byte} {hi lo : Nat}
    (hu : JsonText.HexQuad u hi (0x5c :: 0x75 :: v)) (hv : JsonText.HexQuad v lo w)
    (hhi : 0xd800 ≤ hi ∧ hi ≤ 0xdbff) (hlo : 0xdc00 ≤ lo ∧ lo ≤ 0xdfff) (y : List Byte) :
    Runs (At u y) (scanUnicodeEscape : Action σ _) none (At w (y ++ String.utf8EncodeChar
      (Char.ofNat ((hi - 0xd800) * 0x400 + (lo - 0xdc00) + 0x10000)))) := by
  have hcodepoint : (hi <<< 10) + lo - 0x35fdc00 =
      (hi - 0xd800) * 0x400 + (lo - 0xdc00) + 0x10000 := by
    rw [Nat.shiftLeft_eq]
    omega
  unfold scanUnicodeEscape
  refine (runs_getCodepoint hu y).bind ?_
  simp only
  rw [if_pos hhi]
  refine Runs.get_cons ?_
  rw [if_pos rfl]
  refine Runs.get_cons ?_
  rw [if_pos rfl]
  refine (runs_getCodepoint hv y).bind ?_
  simp only
  rw [if_pos hlo, hcodepoint, translate_eq (by omega),
    ← Utf8.utf8EncodeChar_ofNat (Or.inr ⟨by omega, by omega⟩)]
  exact (runs_addAll _ _ _).bind (runs_pure _ _)

omit [ByteSource σ] in
/-- What works from every place works from wherever the lexer is. -/
theorem runs_ready [ByteSource σ] {x : Action σ α} {a : α}
    (h : ∀ u y, Runs (At u y) x a Ready) : Runs Ready x a Ready :=
  fun lx hlx => h lx.input lx.yytext lx ⟨hlx, rfl, rfl⟩

theorem runs_ready_fail (message : List Byte) :
    Runs Ready (do return some (← fail message) : Action σ (Option TokenType)) (some .parseError)
      Ready :=
  runs_ready fun u y => fails_fail u y message

/-- A character that is not the one asked for leads to a failure. -/
theorem Fails.get_of_ne {c : Byte} {u y : List Byte}
    {f g : Action σ (Option TokenType)} (hu : ∀ v, u ≠ c :: v) (hg : ∀ v, Fails v y g) :
    Fails u y (get >>= fun d => if d = some c then f else g) := by
  cases u with
  | nil =>
    refine Runs.get_nil ?_
    rw [if_neg (by simp)]
    exact hg []
  | cons d u =>
    have hd : d ≠ c := by
      rintro rfl
      exact hu u rfl
    refine Runs.get_cons ?_
    rw [if_neg (by simpa using hd)]
    exact hg u

theorem scanUnicodeEscape_cases (u y : List Byte) :
    (∃ c w, JsonText.Character (0x5c :: 0x75 :: u) c w) ∨
      Fails u y (scanUnicodeEscape : Action σ _) := by
  rcases getCodepoint_cases (σ := σ) u y with ⟨n, w, hu⟩ | hu
  · by_cases hhigh : 0xd800 ≤ n ∧ n ≤ 0xdbff
    · by_cases hw : ∃ v, w = 0x5c :: v
      · obtain ⟨v, rfl⟩ := hw
        by_cases hv : ∃ x, v = 0x75 :: x
        · obtain ⟨x, rfl⟩ := hv
          rcases getCodepoint_cases (σ := σ) x y with ⟨m, w, hx⟩ | hx
          · by_cases hlow : 0xdc00 ≤ m ∧ m ≤ 0xdfff
            · exact Or.inl ⟨_, w, .surrogates hu hx hhigh hlow⟩
            · refine Or.inr ?_
              unfold scanUnicodeEscape
              refine (runs_getCodepoint hu y).bind ?_
              simp only
              rw [if_pos hhigh]
              refine Runs.get_cons ?_
              rw [if_pos rfl]
              refine Runs.get_cons ?_
              rw [if_pos rfl]
              refine (runs_getCodepoint hx y).bind ?_
              simp only
              rw [if_neg hlow]
              exact fails_fail _ _ _
          · refine Or.inr ?_
            unfold scanUnicodeEscape
            refine (runs_getCodepoint hu y).bind ?_
            simp only
            rw [if_pos hhigh]
            refine Runs.get_cons ?_
            rw [if_pos rfl]
            refine Runs.get_cons ?_
            rw [if_pos rfl]
            exact hx.bind (runs_ready_fail _)
        · refine Or.inr ?_
          unfold scanUnicodeEscape
          refine (runs_getCodepoint hu y).bind ?_
          simp only
          rw [if_pos hhigh]
          refine Runs.get_cons ?_
          rw [if_pos rfl]
          exact Fails.get_of_ne (fun x hx => hv ⟨x, hx⟩) fun _ => fails_fail _ _ _
      · refine Or.inr ?_
        unfold scanUnicodeEscape
        refine (runs_getCodepoint hu y).bind ?_
        simp only
        rw [if_pos hhigh]
        exact Fails.get_of_ne (fun v hv => hw ⟨v, hv⟩) fun _ => fails_fail _ _ _
    · by_cases hlow : 0xdc00 ≤ n ∧ n ≤ 0xdfff
      · refine Or.inr ?_
        unfold scanUnicodeEscape
        refine (runs_getCodepoint hu y).bind ?_
        simp only
        rw [if_neg hhigh, if_pos hlow]
        exact fails_fail _ _ _
      · exact Or.inl ⟨_, w, .unicode hu (by omega)⟩
  · refine Or.inr ?_
    unfold scanUnicodeEscape
    exact hu.bind (runs_ready_fail _)

theorem escapeCharacter_eq (e : Byte) :
    escapeCharacter e = (JsonText.simpleEscape e).map fun c => UInt8.ofNat c.toNat := by
  unfold escapeCharacter JsonText.simpleEscape
  split_ifs <;> rfl

theorem simpleEscape_lt {e : Byte} {c : Char} (h : JsonText.simpleEscape e = some c) :
    c.toNat < 0x80 := by
  unfold JsonText.simpleEscape at h
  split_ifs at h <;> cases h <;> decide

theorem utf8EncodeChar_of_lt {c : Char} (h : c.toNat < 0x80) :
    String.utf8EncodeChar c = [UInt8.ofNat c.toNat] := by
  rw [Utf8.utf8EncodeChar_eq, Utf8.encodeNat, if_pos (by omega)]

theorem runs_simple {e : Byte} {c : Char} (he : JsonText.simpleEscape e = some c)
    (w y : List Byte) :
    Runs (At (e :: w) y) (scanEscape : Action σ _) none (At w (y ++ String.utf8EncodeChar c)) := by
  have hu : e ≠ 0x75 := by
    rintro rfl
    cases he
  unfold scanEscape
  refine Runs.get_cons ?_
  simp only
  rw [if_neg hu, escapeCharacter_eq, he, utf8EncodeChar_of_lt (simpleEscape_lt he)]
  exact (runs_add _ _ _).bind (runs_pure _ _)

theorem scanEscape_u (u y : List Byte) {r : Option TokenType} {Q : Lexer σ → Prop}
    (h : Runs (At u y) (scanUnicodeEscape : Action σ _) r Q) :
    Runs (At (0x75 :: u) y) (scanEscape : Action σ _) r Q := by
  unfold scanEscape
  refine Runs.get_cons ?_
  simp only [if_true]
  exact h

theorem scanEscape_cases (u y : List Byte) :
    (∃ c w, JsonText.Character (0x5c :: u) c w) ∨ Fails u y (scanEscape : Action σ _) := by
  cases u with
  | nil =>
    refine Or.inr ?_
    unfold scanEscape
    exact Runs.get_nil (fails_fail _ _ _)
  | cons e u =>
    by_cases hu : e = 0x75
    · subst hu
      exact (scanUnicodeEscape_cases u y).imp_right fun h => scanEscape_u u y h
    · cases he : JsonText.simpleEscape e with
      | some c => exact Or.inl ⟨c, u, .simple u he⟩
      | none =>
        refine Or.inr ?_
        unfold scanEscape
        refine Runs.get_cons ?_
        simp only
        rw [if_neg hu, escapeCharacter_eq, he]
        exact fails_fail _ _ _

theorem runs_scanTrailing {bs : List Byte} {ranges : List (Nat × Nat)}
    (h : List.Forall₂ Utf8.InRange bs ranges) (w y : List Byte) :
    Runs (At (bs ++ w) y) (scanTrailing ranges : Action σ _) none (At w (y ++ bs)) := by
  induction h generalizing y with
  | nil =>
    rw [List.append_nil]
    exact runs_pure _ _
  | @cons b range bs ranges hb _ ih =>
    obtain ⟨lo, hi⟩ := range
    have hb' : lo ≤ b.toNat ∧ b.toNat ≤ hi := hb
    rw [List.cons_append, scanTrailing]
    refine Runs.get_cons ?_
    simp only
    rw [if_pos hb']
    refine (runs_add _ _ _).bind ?_
    have hrest := ih (y ++ [b])
    rwa [List.append_assoc] at hrest

theorem scanTrailing_cases (ranges : List (Nat × Nat)) (u y : List Byte) :
    (∃ bs w, u = bs ++ w ∧ List.Forall₂ Utf8.InRange bs ranges) ∨
      Fails u y (scanTrailing ranges : Action σ _) := by
  induction ranges generalizing u y with
  | nil => exact Or.inl ⟨[], u, rfl, .nil⟩
  | cons range ranges ih =>
    obtain ⟨lo, hi⟩ := range
    cases u with
    | nil =>
      refine Or.inr ?_
      rw [scanTrailing]
      exact Runs.get_nil (fails_fail _ _ _)
    | cons b u =>
      by_cases hb : lo ≤ b.toNat ∧ b.toNat ≤ hi
      · rcases ih u (y ++ [b]) with ⟨bs, w, rfl, h⟩ | h
        · exact Or.inl ⟨b :: bs, w, rfl, .cons hb h⟩
        · refine Or.inr ?_
          rw [scanTrailing]
          refine Runs.get_cons ?_
          simp only
          rw [if_pos hb]
          exact (runs_add _ _ _).bind h
      · refine Or.inr ?_
        rw [scanTrailing]
        refine Runs.get_cons ?_
        simp only
        rw [if_neg hb]
        exact fails_fail _ _ _

/-- The lead byte of a longer sequence is no ASCII character. -/
theorem lt_of_trailing {lead : Byte} {ranges : List (Nat × Nat)}
    (h : Utf8.trailing lead = some ranges) : 0x7f < lead.toNat := by
  unfold Utf8.trailing at h
  simp only at h
  split_ifs at h <;> omega

theorem scanCharacter_escape {u y : List Byte} {r : Option TokenType} {Q : Lexer σ → Prop}
    (h : Runs (At u y) (scanEscape : Action σ _) r Q) :
    Runs (At (0x5c :: u) y) (scanCharacter : Action σ _) r Q := by
  have hquote : (0x5c : Byte) ≠ 0x22 := by decide
  unfold scanCharacter
  refine Runs.get_cons ?_
  simp only [hquote, if_false, if_true]
  exact h

/-- One character of a string is read. -/
theorem runs_scanCharacter {u w : List Byte} {c : Char} (h : JsonText.Character u c w)
    (y : List Byte) :
    Runs (At u y) (scanCharacter : Action σ _) none (At w (y ++ String.utf8EncodeChar c)) := by
  cases h with
  | unescaped c w hc hquote hbackslash =>
    by_cases hascii : c.toNat < 0x80
    · have hbyte : (UInt8.ofNat c.toNat).toNat = c.toNat := by
        rw [UInt8.toNat_ofNat']
        omega
      have hne : ∀ d : Char, c ≠ d → d.toNat < 0x80 → UInt8.ofNat c.toNat ≠ UInt8.ofNat d.toNat := by
        intro d hd hlt h
        have hnat := congrArg UInt8.toNat h
        rw [hbyte, UInt8.toNat_ofNat', Nat.mod_eq_of_lt (by omega)] at hnat
        exact hd (Char.toNat_inj.1 hnat)
      have hquote' : UInt8.ofNat c.toNat ≠ 0x22 := hne '"' hquote (by decide)
      have hbackslash' : UInt8.ofNat c.toNat ≠ 0x5c := hne '\\' hbackslash (by decide)
      rw [utf8EncodeChar_of_lt hascii]
      unfold scanCharacter
      refine Runs.get_cons ?_
      simp only
      rw [if_neg hquote', if_neg hbackslash',
        if_neg (by rw [UInt8.le_iff_toNat_le, hbyte]; simp; omega),
        if_pos (by rw [UInt8.le_iff_toNat_le, hbyte]; simp; omega)]
      exact (runs_add _ _ _).bind (runs_pure _ _)
    · obtain ⟨lead, bs, ranges, hencode, hlead, hbs⟩ :=
        Utf8.exists_trailing (by omega) (Utf8.isScalar_toNat c)
      have hlt := lt_of_trailing hlead
      have hne : ∀ d : Byte, d.toNat ≤ 0x7f → ¬lead ≤ d := by
        intro d hd hle
        rw [UInt8.le_iff_toNat_le] at hle
        omega
      have hne' : ∀ d : Byte, d.toNat ≤ 0x7f → lead ≠ d := by
        rintro d hd rfl
        omega
      rw [Utf8.utf8EncodeChar_eq, hencode]
      unfold scanCharacter
      refine Runs.get_cons ?_
      simp only
      rw [if_neg (hne' _ (by decide)), if_neg (hne' _ (by decide)), if_neg (hne _ (by decide)),
        if_neg (hne _ (by decide)), hlead]
      refine (runs_add _ _ _).bind ?_
      have hrest := runs_scanTrailing (σ := σ) hbs w (y ++ [lead])
      rwa [List.append_assoc] at hrest
  | simple w he => exact scanCharacter_escape (runs_simple he w y)
  | unicode hu hn => exact scanCharacter_escape (scanEscape_u _ y (runs_unicode hu hn y))
  | surrogates hu hv hhi hlo =>
    exact scanCharacter_escape (scanEscape_u _ y (runs_surrogates hu hv hhi hlo y))

theorem scanCharacter_cases (u y : List Byte) :
    (∃ w, u = 0x22 :: w) ∨ (∃ c w, JsonText.Character u c w) ∨
      Fails u y (scanCharacter : Action σ _) := by
  cases u with
  | nil =>
    refine Or.inr (Or.inr ?_)
    unfold scanCharacter
    exact Runs.get_nil (fails_fail _ _ _)
  | cons b u =>
    by_cases hquote : b = 0x22
    · exact Or.inl ⟨u, by rw [hquote]⟩
    refine Or.inr ?_
    by_cases hbackslash : b = 0x5c
    · subst hbackslash
      exact (scanEscape_cases u y).imp_right scanCharacter_escape
    by_cases hcontrol : b ≤ 0x1f
    · refine Or.inr ?_
      unfold scanCharacter Fails
      refine Runs.get_cons ?_
      simp only
      rw [if_neg hquote, if_neg hbackslash, if_pos hcontrol]
      exact fails_fail _ _ _
    by_cases hascii : b ≤ 0x7f
    · refine Or.inl ⟨Char.ofNat b.toNat, u, ?_⟩
      rw [UInt8.le_iff_toNat_le] at hcontrol hascii
      simp at hcontrol hascii
      have hscalar : Utf8.IsScalar b.toNat := Or.inl (by omega)
      have hencode : String.utf8EncodeChar (Char.ofNat b.toNat) = [b] := by
        rw [Utf8.utf8EncodeChar_ofNat hscalar, Utf8.encodeNat, if_pos hascii, UInt8.ofNat_toNat]
      have hne : ∀ d : Char, b ≠ UInt8.ofNat d.toNat → Char.ofNat b.toNat ≠ d := by
        rintro d hd rfl
        rw [Utf8.toNat_ofNat hscalar, UInt8.ofNat_toNat] at hd
        exact hd rfl
      have hc := JsonText.Character.unescaped (Char.ofNat b.toNat) u
        (by rw [Utf8.toNat_ofNat hscalar]; omega) (hne '"' hquote) (hne '\\' hbackslash)
      rwa [hencode] at hc
    cases hlead : Utf8.trailing b with
    | none =>
      refine Or.inr ?_
      unfold scanCharacter Fails
      refine Runs.get_cons ?_
      simp only
      rw [if_neg hquote, if_neg hbackslash, if_neg hcontrol, if_neg hascii, hlead]
      exact fails_fail _ _ _
    | some ranges =>
      rcases scanTrailing_cases (σ := σ) ranges u (y ++ [b]) with ⟨bs, w, rfl, hbs⟩ | h
      · obtain ⟨n, hn, hscalar, hencode⟩ := Utf8.exists_encodeNat hlead hbs
        refine Or.inl ⟨Char.ofNat n, w, ?_⟩
        have hne : ∀ d : Char, d.toNat < 0x80 → Char.ofNat n ≠ d := by
          rintro d hd rfl
          rw [Utf8.toNat_ofNat hscalar] at hd
          omega
        have hc := JsonText.Character.unescaped (Char.ofNat n) w
          (by rw [Utf8.toNat_ofNat hscalar]; omega) (hne '"' (by decide)) (hne '\\' (by decide))
        rwa [Utf8.utf8EncodeChar_ofNat hscalar, hencode] at hc
      · refine Or.inr ?_
        unfold scanCharacter Fails
        refine Runs.get_cons ?_
        simp only
        rw [if_neg hquote, if_neg hbackslash, if_neg hcontrol, if_neg hascii, hlead]
        exact (runs_add _ _ _).bind h

/-- A character takes up room. -/
theorem character_length {u w : List Byte} {c : Char} (h : JsonText.Character u c w) :
    w.length < u.length := by
  have hquad : ∀ {u w n}, JsonText.HexQuad u n w → w.length < u.length := by
    rintro u w n ⟨w, _, _, _, _⟩
    simp only [List.length_cons]
    omega
  cases h with
  | unescaped c w _ _ _ =>
    have hpos : 0 < (String.utf8EncodeChar c).length := by
      rw [String.length_utf8EncodeChar]
      exact Char.utf8Size_pos c
    rw [List.length_append]
    omega
  | simple w he =>
    simp only [List.length_cons]
    omega
  | unicode hu _ =>
    have hlt := hquad hu
    simp only [List.length_cons]
    omega
  | surrogates hu hv _ _ =>
    have hlt := hquad hu
    have hlt' := hquad hv
    simp only [List.length_cons] at hlt ⊢
    omega

theorem runs_scanCharacters {u w : List Byte} {cs : List Char} (h : JsonText.Characters u cs w)
    {fuel : Nat} (hfuel : u.length ≤ fuel) (y : List Byte) :
    Runs (At u y) (scanCharacters fuel : Action σ _) .valueString
      (At w (y ++ Utf8.encode cs)) := by
  induction h generalizing fuel y with
  | nil w =>
    obtain ⟨fuel, rfl⟩ : ∃ k, fuel = k + 1 := ⟨fuel - 1, by simp at hfuel; omega⟩
    rw [scanCharacters, Utf8.encode, List.flatMap_nil, List.append_nil]
    refine Runs.bind (a := some .valueString) (Q := At w y) ?_ (runs_pure _ _)
    unfold scanCharacter
    refine Runs.get_cons ?_
    exact runs_pure _ _
  | @cons u v w c cs hc hcs ih =>
    have hlt := character_length hc
    obtain ⟨fuel, rfl⟩ : ∃ k, fuel = k + 1 := ⟨fuel - 1, by omega⟩
    rw [scanCharacters]
    refine (runs_scanCharacter hc y).bind ?_
    have hrest := ih (show v.length ≤ fuel by omega) (y ++ String.utf8EncodeChar c)
    rwa [List.append_assoc] at hrest

theorem scanCharacters_cases (fuel : Nat) (u y : List Byte) (hfuel : u.length < fuel) :
    (∃ cs w, JsonText.Characters u cs w) ∨
      Runs (At u y) (scanCharacters fuel : Action σ _) .parseError Ready := by
  induction fuel generalizing u y with
  | zero => omega
  | succ fuel ih =>
    rcases scanCharacter_cases (σ := σ) u y with ⟨w, rfl⟩ | ⟨c, w, hc⟩ | h
    · exact Or.inl ⟨[], w, .nil w⟩
    · have hlt := character_length hc
      rcases ih w (y ++ String.utf8EncodeChar c) (by omega) with ⟨cs, w', hcs⟩ | h
      · exact Or.inl ⟨c :: cs, w', .cons hc hcs⟩
      · exact Or.inr ((runs_scanCharacter hc y).bind h)
    · refine Or.inr ?_
      rw [scanCharacters]
      exact h.bind (runs_pure _ _)

end Wpi.Lexer

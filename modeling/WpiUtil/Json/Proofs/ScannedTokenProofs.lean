import WpiUtil.Json.NumberTable
import WpiUtil.Json.Proofs.DeserializeProofs

/-!
# Strings and numbers where the lexer finds them

A string is scanned after a quote, and a number after its first character, wherever in a text the
lexer has come to.
-/

namespace Wpi.Lexer

open Foundations
open Foundations.JsonText (Blanks Characters Numeral)

variable {σ : Type} [ByteSource σ] {i : σ} {lx lx' : Lexer σ} {fuel : Nat}

/-! ## Where the lexer may be -/

/-- The lexers that come from a new one by scanning tokens. -/
inductive Reached (i : σ) : Lexer σ → Prop
  | new (he : RawIstream.hasError i = false) : Reached i (new i)
  | scan {lx lx' : Lexer σ} {fuel : Nat} {t : TokenType} (h : Reached i lx)
      (hfuel : lx.input.length < fuel) (hrun : (scan fuel).run.run lx = (.ok t, lx')) :
      Reached i lx'

theorem ready_new (he : RawIstream.hasError i = false) : (new i).Ready := by
  constructor
  · intro herror
    have herror' : RawIstream.hasError i = true := herror
    rw [he] at herror'
    cases herror'
  · intro hunget
    cases hunget

theorem ready_of_scan {t : TokenType} (h : lx.Ready) (hfuel : lx.input.length < fuel)
    (hrun : (scan fuel).run.run lx = (.ok t, lx')) : lx'.Ready := by
  have hat : At lx.input lx.yytext lx := ⟨h, rfl, rfl⟩
  rcases scan_cases (σ := σ) lx.input lx.yytext hfuel with ⟨v, t', j, w, hv, hlexeme⟩ | hfail
  · obtain ⟨-, hafter⟩ := (runs_scan hv hlexeme hfuel lx.yytext).result hat hrun
    exact hafter.ready
  · exact (hfail.result hat hrun).2

theorem Reached.ready (h : Reached i lx) : lx.Ready := by
  induction h with
  | new he => exact ready_new he
  | scan _ hfuel hrun ih => exact ready_of_scan ih hfuel hrun

/-- After the white space the first character of a token has been read. -/
theorem atAfter_of_skipWhitespace {c : Option Byte} (h : lx.Ready)
    (hfuel : lx.input.length < fuel) (hrun : (skipWhitespace fuel).run.run lx = (.ok c, lx')) :
    AtAfter c lx'.input lx.yytext lx' ∧ lx'.input.length ≤ lx.input.length := by
  have hat : At lx.input lx.yytext lx := ⟨h, rfl, rfl⟩
  obtain ⟨v, hblanks, hv⟩ := exists_blanks lx.input
  obtain ⟨rfl, hafter⟩ := (runs_skipWhitespace hblanks hv hfuel lx.yytext).result hat hrun
  have hinput : lx'.input = v.tail := hafter.at'.input
  have hle := blanks_length hblanks
  rw [hinput]
  refine ⟨hafter, ?_⟩
  rw [List.length_tail]
  omega

/-! ## Strings -/

/-- After a quote a string is scanned exactly if characters of the grammar and a closing quote come
next. Then the lexer holds the text that they stand for, and is behind the closing quote. -/
theorem scanString_iff_characters (hlx : Reached i lx) (hfuel : lx.input.length < fuel)
    (hquote : (skipWhitespace fuel).run.run lx = (.ok (some 0x22), lx')) :
    ((∃ lx₂, (scanString fuel).run.run lx' = (.ok .valueString, lx₂)) ↔
      ∃ cs w, Characters lx'.input cs w) ∧
    ∀ cs w, Characters lx'.input cs w →
      ∃ lx₂, (scanString fuel).run.run lx' = (.ok .valueString, lx₂) ∧
        lx₂.yytext = Utf8.encode cs ∧ lx₂.input = w := by
  obtain ⟨hafter, hle⟩ := atAfter_of_skipWhitespace hlx.ready hfuel hquote
  have hread : ∀ cs w, Characters lx'.input cs w →
      ∃ lx₂, (scanString fuel).run.run lx' = (.ok .valueString, lx₂) ∧
        lx₂.yytext = Utf8.encode cs ∧ lx₂.input = w := by
    intro cs w h
    obtain ⟨lx₂, hrun, hlx₂⟩ :=
      runs_scanString h (show _ ≤ fuel by omega) lx.yytext lx' hafter.at'
    exact ⟨lx₂, hrun, hlx₂.yytext, hlx₂.input⟩
  refine ⟨⟨?_, ?_⟩, hread⟩
  · rintro ⟨lx₂, hrun⟩
    rcases scanCharacters_cases (σ := σ) fuel lx'.input [] (by omega) with h | hfail
    · exact h
    · have hstring : Runs (At lx'.input lx.yytext) (scanString fuel) .parseError Ready :=
        (runs_reset lx'.input lx.yytext).bind hfail
      have hresult := (hstring.result hafter.at' hrun).1
      cases hresult
  · rintro ⟨cs, w, h⟩
    obtain ⟨lx₂, hrun, -⟩ := hread cs w h
    exact ⟨lx₂, hrun⟩

/-- A text with a string in it, whose character is beyond the first 2 ^ 16. -/
def clefText : RawMemIstream := .ofBytes (bytes " \"\\uD834\\uDD1E\"]")

/-- The lexer behind the opening quote. -/
def clefLexer : Lexer RawMemIstream := ((skipWhitespace 20).run.run (new clefText)).2

theorem scanString_iff_characters_clef :
    ((∃ lx₂, (scanString 20).run.run clefLexer = (.ok .valueString, lx₂)) ↔
      ∃ cs w, Characters clefLexer.input cs w) ∧
    ∀ cs w, Characters clefLexer.input cs w →
      ∃ lx₂, (scanString 20).run.run clefLexer = (.ok .valueString, lx₂) ∧
        lx₂.yytext = Utf8.encode cs ∧ lx₂.input = w := by
  have hnew : Reached clefText (new clefText) := .new rfl
  have hfuel : (new clefText).input.length < 20 := by decide
  have hquote : (skipWhitespace 20).run.run (new clefText) = (.ok (some 0x22), clefLexer) := rfl
  exact scanString_iff_characters hnew hfuel hquote

/-! ## Numbers -/

/-- An entry of the table for a step of the code. -/
def NumberStep.entry : NumberStep → NumberEntry
  | .goto state => .goto state
  | .done => .done
  | .error _ => .error

theorem numberTable_some (state : NumberState) (c : Byte) :
    numberTable (some state) (numberColumn c) = (numberStep state (some c)).entry := by
  unfold numberColumn
  split_ifs with hzero hnonzero hletter hplus hminus hpoint
  · subst hzero
    cases state <;> rfl
  · have hrange := isDigit_iff.1 hnonzero
    have hne : ∀ d : Byte, d.toNat < 0x30 ∨ 0x39 < d.toNat → c ≠ d := by
      rintro d hd rfl
      omega
    have hpoint := hne 0x2e (by decide)
    have hplus := hne 0x2b (by decide)
    have hminus := hne 0x2d (by decide)
    have he := hne 0x65 (by decide)
    have hE := hne 0x45 (by decide)
    cases state <;> simp [numberStep, numberTable, documentedTable, numberRow, NumberStep.entry, *]
  · rcases hletter with rfl | rfl
    · cases state <;> rfl
    · cases state <;> rfl
  · subst hplus
    cases state <;> rfl
  · subst hminus
    cases state <;> rfl
  · subst hpoint
    cases state <;> rfl
  · rw [not_or] at hletter
    cases state <;> simp [numberStep, numberTable, documentedTable, numberRow, NumberStep.entry, *]

theorem numberTable_anything (state : NumberState) :
    numberTable (some state) .anything = (numberStep state none).entry := by
  cases state <;> rfl

/-- The first row of the table. -/
theorem numberTable_none {c : Byte} {state : NumberState} (h : firstState c = some state) :
    numberTable none (numberColumn c) = .goto state := by
  unfold firstState at h
  split_ifs at h with hminus hzero hdigit
  · cases h
    subst hminus
    rfl
  · cases h
    subst hzero
    rfl
  · cases h
    have hcolumn : numberColumn c = .nonzero := by
      rw [numberColumn, if_neg hzero, if_pos hdigit]
    rw [hcolumn]
    rfl

/-- The longest path through the table is the run through the labels. -/
theorem accepts_iff_munch {state : NumberState} {u : List Byte} (type : TokenType) :
    accepts numberTable (some state) u = true ↔
      ∃ x w type', u = x ++ w ∧ Munch state type x type' w := by
  induction u generalizing state type with
  | nil =>
    rw [accepts, beq_iff_eq, numberTable_anything]
    constructor
    · intro h
      cases hstep : numberStep state none with
      | done => exact ⟨[], [], _, rfl, .done type hstep⟩
      | goto state' =>
        rw [hstep] at h
        cases h
      | error message =>
        rw [hstep] at h
        cases h
    · rintro ⟨x, w, type', hnil, h⟩
      obtain ⟨rfl, rfl⟩ := List.append_eq_nil_iff.1 hnil.symm
      cases h with
      | done _ hdone =>
        rw [List.head?_nil] at hdone
        rw [hdone]
        rfl
  | cons c u ih =>
    rw [accepts, numberTable_some]
    cases hstep : numberStep state (some c) with
    | done => exact iff_of_true rfl ⟨[], c :: u, _, rfl, .done type hstep⟩
    | goto state' =>
      change accepts numberTable (some state') u = true ↔ _
      rw [ih (numberType state type)]
      constructor
      · rintro ⟨x, w, type', rfl, h⟩
        exact ⟨c :: x, w, type', rfl, .goto hstep h⟩
      · rintro ⟨x, w, type', heq, h⟩
        cases h with
        | done _ hdone =>
          rw [List.nil_append] at heq
          rw [← heq, List.head?_cons, hstep] at hdone
          cases hdone
        | @goto _ state'' _ _ d x _ hstep' h =>
          rw [List.cons_append, List.cons.injEq] at heq
          obtain ⟨rfl, rfl⟩ := heq
          rw [hstep] at hstep'
          cases hstep'
          exact ⟨x, w, type', rfl, h⟩
    | error message =>
      refine iff_of_false (fun h => nomatch h) ?_
      rintro ⟨x, w, type', heq, h⟩
      cases h with
      | done _ hdone =>
        rw [List.nil_append] at heq
        rw [← heq, List.head?_cons, hstep] at hdone
        cases hdone
      | goto hstep' h =>
        rw [List.cons_append, List.cons.injEq] at heq
        rw [← heq.1, hstep] at hstep'
        cases hstep'

/-- The token `t` for the numeral `n` at the front of `u`, with the lexer behind it. -/
structure NumberRead (u : List Byte) (n : Numeral) (t : TokenType) (lx : Lexer σ) : Prop where
  wf : n.WF
  text : u = n.text ++ lx.input
  longest : ∀ m : Numeral, m.WF → m.text <+: u → m.text.length ≤ n.text.length
  /-- The next character that is read is the one after the number. -/
  next : (get.run.run lx).1 = .ok lx.input.head?
  unsigned : n.isInteger = true → n.negative = false → n.toInt ≤ 2 ^ 64 - 1 →
    t = .valueUnsigned ∧ (lx.valueUnsigned.toNat : Int) = n.toInt
  integer : n.isInteger = true → n.negative = true → -2 ^ 63 ≤ n.toInt →
    t = .valueInteger ∧ lx.valueInteger.toInt = n.toInt
  float : ¬(n.isInteger = true ∧ n.negative = false ∧ n.toInt ≤ 2 ^ 64 - 1) →
    ¬(n.isInteger = true ∧ n.negative = true ∧ -2 ^ 63 ≤ n.toInt) →
    t = .valueFloat ∧ lx.valueFloat = n.toDouble

theorem toInt_nonneg {n : Numeral} (h : n.negative = false) : 0 ≤ n.toInt := by
  rw [Numeral.toInt, h, if_neg (by decide)]
  omega

theorem toInt_nonpos {n : Numeral} (h : n.negative = true) : n.toInt ≤ 0 := by
  rw [Numeral.toInt, h, if_pos rfl]
  omega

theorem numberJson_unsigned {n : Numeral} (hinteger : n.isInteger = true)
    (hnegative : n.negative = false) (hle : n.toInt ≤ 2 ^ 64 - 1) :
    ParseTree.numberJson n = .numberUnsigned (UInt64.ofNat n.toInt.toNat) := by
  have hnonneg := toInt_nonneg hnegative
  have hfits : ParseTree.fits n = true := by
    rw [ParseTree.fits, hinteger, Bool.true_and, decide_eq_true_eq]
    omega
  rw [ParseTree.numberJson, if_pos hfits, hnegative, if_neg (by decide)]

theorem numberJson_integer {n : Numeral} (hinteger : n.isInteger = true)
    (hnegative : n.negative = true) (hle : -2 ^ 63 ≤ n.toInt) :
    ParseTree.numberJson n = .numberInteger (Int64.ofInt n.toInt) := by
  have hnonpos := toInt_nonpos hnegative
  have hfits : ParseTree.fits n = true := by
    rw [ParseTree.fits, hinteger, Bool.true_and, decide_eq_true_eq]
    omega
  rw [ParseTree.numberJson, if_pos hfits, hnegative, if_pos rfl]

theorem numberJson_float {n : Numeral}
    (hunsigned : ¬(n.isInteger = true ∧ n.negative = false ∧ n.toInt ≤ 2 ^ 64 - 1))
    (hinteger : ¬(n.isInteger = true ∧ n.negative = true ∧ -2 ^ 63 ≤ n.toInt)) :
    ParseTree.numberJson n = .numberFloat n.toDouble := by
  have hfits : ¬ParseTree.fits n = true := by
    rw [ParseTree.fits, Bool.and_eq_true, decide_eq_true_eq]
    rintro ⟨hint, hlow, hhigh⟩
    cases hnegative : n.negative with
    | false => exact hunsigned ⟨hint, hnegative, by omega⟩
    | true => exact hinteger ⟨hint, hnegative, hlow⟩
  rw [ParseTree.numberJson, if_neg hfits]

theorem numberRead_of_at {u w y : List Byte} {n : Numeral} (hn : n.WF) (hu : u = n.text ++ w)
    (hlongest : ∀ m : Numeral, m.WF → m.text <+: u → m.text.length ≤ n.text.length)
    (hlx : At w y lx) (hholds : Holds (ParseTree.numberJson n) lx) :
    NumberRead u n (tokenOf (ParseTree.numberJson n)) lx := by
  obtain ⟨_, hget, -⟩ := runs_get w y lx hlx
  obtain rfl := hlx.input
  refine ⟨hn, hu, hlongest, congrArg Prod.fst hget, ?_, ?_, ?_⟩
  · intro hinteger hnegative hle
    have hnonneg := toInt_nonneg hnegative
    rw [numberJson_unsigned hinteger hnegative hle] at hholds ⊢
    have hvalue : lx.valueUnsigned = UInt64.ofNat n.toInt.toNat := hholds
    refine ⟨rfl, ?_⟩
    rw [hvalue, UInt64.toNat_ofNat_of_lt' (by rw [UInt64.size]; omega)]
    omega
  · intro hinteger hnegative hle
    have hnonpos := toInt_nonpos hnegative
    rw [numberJson_integer hinteger hnegative hle] at hholds ⊢
    have hvalue : lx.valueInteger = Int64.ofInt n.toInt := hholds
    refine ⟨rfl, ?_⟩
    rw [hvalue, Int64.toInt_ofInt_of_le hle (by omega)]
  · intro hunsigned hinteger
    rw [numberJson_float hunsigned hinteger] at hholds ⊢
    exact ⟨rfl, hholds⟩

/-- No longer prefix is a numeral. -/
theorem length_le_of_prefix {c : Byte} {state : NumberState} (hstate : firstState c = some state)
    {x w : List Byte} {type' : TokenType} (h : Munch state .valueUnsigned x type' w)
    {m : Numeral} (hm : m.WF) (hfront : m.text <+: c :: (x ++ w)) :
    m.text.length ≤ (c :: x).length := by
  obtain ⟨rest, hrest⟩ := hfront
  obtain ⟨d, y, state', htext, hstate', hy⟩ := munch_numeral hm ends_nil
  rw [htext, List.cons_append, List.cons.injEq] at hrest
  obtain ⟨rfl, htail⟩ := hrest
  rw [hstate] at hstate'
  cases hstate'
  have hle := length_le_of_munch hy h htail.symm
  have hlength := congrArg List.length htail
  rw [List.length_append, List.length_append] at hlength
  rw [htext, List.length_cons, List.length_cons]
  omega

theorem tokenOf_numberJson_ne (n : Numeral) : tokenOf (ParseTree.numberJson n) ≠ .parseError := by
  rw [ParseTree.numberJson]
  split_ifs
  · exact fun h => nomatch h
  · exact fun h => nomatch h
  · exact fun h => nomatch h

/-- A run through the labels is a numeral that is read. -/
theorem scanNumber_of_munch {c : Byte} {y : List Byte} (hlx : AtAfter (some c) lx.input y lx)
    (hfuel : lx.input.length < fuel) {state : NumberState} (hstate : firstState c = some state)
    {x w : List Byte} {type' : TokenType} (hu : lx.input = x ++ w)
    (h : Munch state .valueUnsigned x type' w) :
    ∃ n lx₂, (scanNumber fuel).run.run lx = (.ok (tokenOf (ParseTree.numberJson n)), lx₂) ∧
      NumberRead (c :: lx.input) n (tokenOf (ParseTree.numberJson n)) lx₂ := by
  obtain ⟨n, hn, htext, htype⟩ := numeral_of_munch hstate h
  have hlength : x.length < fuel := by
    rw [hu, List.length_append] at hfuel
    omega
  have hruns := runs_scanNumberFrom (σ := σ) h hlength [c]
  rw [List.singleton_append, htype, ← htext, numberOf_text hn, ← hu] at hruns
  obtain ⟨lx₂, hrun, hat, hholds⟩ := runs_scanNumber hstate hruns lx hlx
  refine ⟨n, lx₂, hrun, numberRead_of_at hn ?_ ?_ hat hholds⟩
  · rw [htext, List.cons_append, hu]
  · intro m hm hfront
    rw [hu] at hfront
    rw [htext]
    exact length_le_of_prefix hstate h hm hfront

/-- A number is scanned exactly if the longest path through the table ends where the number is done.
Then the longest numeral at the front of the text has been read, with its value. -/
theorem scanNumber_iff_accepts {c : Byte} (hlx : Reached i lx) (hfuel : lx.input.length < fuel)
    (hstart : (skipWhitespace fuel).run.run lx = (.ok (some c), lx'))
    (hc : c = 0x2d ∨ isDigit c = true) :
    ((∃ t lx₂, (scanNumber fuel).run.run lx' = (.ok t, lx₂) ∧ t ≠ .parseError) ↔
      accepts numberTable none (c :: lx'.input) = true) ∧
    ∀ t lx₂, (scanNumber fuel).run.run lx' = (.ok t, lx₂) → t ≠ .parseError →
      ∃ n, NumberRead (c :: lx'.input) n t lx₂ := by
  obtain ⟨hafter, hle⟩ := atAfter_of_skipWhitespace hlx.ready hfuel hstart
  obtain ⟨state, hstate⟩ := firstState_of_numberStart hc
  have hfuel' : lx'.input.length < fuel := by omega
  have haccepts : accepts numberTable none (c :: lx'.input) = true ↔
      ∃ x w type', lx'.input = x ++ w ∧ Munch state .valueUnsigned x type' w := by
    rw [accepts, numberTable_none hstate]
    exact accepts_iff_munch .valueUnsigned
  have hsound : ∀ t lx₂, (scanNumber fuel).run.run lx' = (.ok t, lx₂) → t ≠ .parseError →
      ∃ x w type', lx'.input = x ++ w ∧ Munch state .valueUnsigned x type' w := by
    intro t lx₂ hrun ht
    rcases scanNumberFrom_cases (σ := σ) fuel state .valueUnsigned lx'.input [c] hfuel' with
      ⟨x, w, type', h⟩ | hfail
    · exact ⟨x, w, type', h⟩
    · exact absurd ((runs_scanNumber hstate hfail).result hafter hrun).1 ht
  rw [haccepts]
  refine ⟨⟨?_, ?_⟩, ?_⟩
  · rintro ⟨t, lx₂, hrun, ht⟩
    exact hsound t lx₂ hrun ht
  · rintro ⟨x, w, type', hu, h⟩
    obtain ⟨n, lx₂, hrun, -⟩ := scanNumber_of_munch hafter hfuel' hstate hu h
    exact ⟨_, lx₂, hrun, tokenOf_numberJson_ne n⟩
  · intro t lx₂ hrun ht
    obtain ⟨x, w, type', hu, h⟩ := hsound t lx₂ hrun ht
    obtain ⟨n, lx₃, hrun', hread⟩ := scanNumber_of_munch hafter hfuel' hstate hu h
    rw [hrun] at hrun'
    cases hrun'
    exact ⟨n, hread⟩

/-- A number with a fraction. -/
def fractionText : RawMemIstream := .ofBytes (bytes "1.5")

/-- The lexer behind its first digit. -/
def fractionLexer : Lexer RawMemIstream := ((skipWhitespace 4).run.run (new fractionText)).2

theorem scanNumber_iff_accepts_fraction :
    ((∃ t lx₂, (scanNumber 4).run.run fractionLexer = (.ok t, lx₂) ∧ t ≠ .parseError) ↔
      accepts numberTable none (0x31 :: fractionLexer.input) = true) ∧
    ∀ t lx₂, (scanNumber 4).run.run fractionLexer = (.ok t, lx₂) → t ≠ .parseError →
      ∃ n, NumberRead (0x31 :: fractionLexer.input) n t lx₂ := by
  have hnew : Reached fractionText (new fractionText) := .new rfl
  have hfuel : (new fractionText).input.length < 4 := by decide
  have hstart : (skipWhitespace 4).run.run (new fractionText) = (.ok (some 0x31), fractionLexer) :=
    rfl
  exact scanNumber_iff_accepts hnew hfuel hstart (Or.inr rfl)

/-- By the table of the documentation no other digit than zero comes first after the point. -/
theorem not_accepts_documentedTable :
    ¬∀ (i : RawMemIstream) (lx lx' : Lexer RawMemIstream) (fuel : Nat) (c : Byte), Reached i lx →
      lx.input.length < fuel → (skipWhitespace fuel).run.run lx = (.ok (some c), lx') →
      c = 0x2d ∨ isDigit c = true →
      ((∃ t lx₂, (scanNumber fuel).run.run lx' = (.ok t, lx₂) ∧ t ≠ .parseError) ↔
        accepts documentedTable none (c :: lx'.input) = true) := by
  intro h
  have hstart : (skipWhitespace 4).run.run (new fractionText) = (.ok (some 0x31), fractionLexer) :=
    rfl
  have hfraction := h fractionText (new fractionText) fractionLexer 4 0x31 (.new rfl) (by decide)
    hstart (Or.inr rfl)
  have hafter : AtAfter (some 0x31) fractionLexer.input [] fractionLexer :=
    (atAfter_of_skipWhitespace (ready_new rfl) (by decide) hstart).1
  have hshort : fractionLexer.input.length < 4 := by decide
  have hmunch : accepts numberTable (some .any1) fractionLexer.input = true := by decide
  obtain ⟨x, w, type', hu, hx⟩ := (accepts_iff_munch .valueUnsigned).1 hmunch
  obtain ⟨n, lx₂, hrun, -⟩ := scanNumber_of_munch hafter hshort rfl hu hx
  have haccepts : accepts documentedTable none (0x31 :: fractionLexer.input) = true :=
    hfraction.1 ⟨_, lx₂, hrun, tokenOf_numberJson_ne n⟩
  exact absurd haccepts (by decide)

end Wpi.Lexer

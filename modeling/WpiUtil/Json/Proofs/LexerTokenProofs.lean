import WpiUtil.Json.Proofs.LexerNumberProofs

/-!
# What the lexer makes of a text

`Lexeme` says which token is at the front of a text that does not start with white space.
-/

namespace Wpi.Lexer

open Foundations
open Foundations.JsonText (Blanks isBlank ascii Characters)

variable {σ : Type} [ByteSource σ]

/-- A token, the value that comes with it, and what is left. -/
inductive Lexeme : List Byte → TokenType → Json → List Byte → Prop where
  | symbol {c : Byte} {t : TokenType} (w : List Byte) (h : symbolToken c = some t) :
      Lexeme (c :: w) t .null w
  | null (w : List Byte) : Lexeme (ascii "null" ++ w) .literalNull .null w
  | true (w : List Byte) : Lexeme (ascii "true" ++ w) .literalTrue (.boolean Bool.true) w
  | false (w : List Byte) : Lexeme (ascii "false" ++ w) .literalFalse (.boolean Bool.false) w
  | string {u w : List Byte} {cs : List Char} (h : Characters u cs w) :
      Lexeme (0x22 :: u) .valueString (.string (Utf8.encode cs)) w
  | number {c : Byte} {state : NumberState} {type : TokenType} {x w : List Byte}
      (hc : firstState c = some state) (h : Munch state .valueUnsigned x type w) :
      Lexeme (c :: (x ++ w)) (tokenOf (numberOf type (c :: x))) (numberOf type (c :: x)) w
  | endOfInput : Lexeme [] .endOfInput .null []
  | nul (w : List Byte) : Lexeme (0x00 :: w) .endOfInput .null w

/-! ## White space -/

theorem isBlank_iff {c : Byte} :
    isBlank c = true ↔ some c = some 0x20 ∨ some c = some 0x09 ∨ some c = some 0x0a ∨
      some c = some 0x0d := by
  simp [isBlank, or_assoc]

theorem runs_skipWhitespace {u v : List Byte} (h : Blanks u v)
    (hv : ∀ c, v.head? = some c → isBlank c = false) {fuel : Nat} (hfuel : u.length < fuel)
    (y : List Byte) :
    Runs (At u y) (skipWhitespace fuel : Action σ _) v.head? (AtAfter v.head? v.tail y) := by
  induction h generalizing fuel with
  | nil v =>
    obtain ⟨fuel, rfl⟩ : ∃ k, fuel = k + 1 := ⟨fuel - 1, by omega⟩
    rw [skipWhitespace]
    refine (runs_get _ y).bind ?_
    have hblank : ¬(v.head? = some 0x20 ∨ v.head? = some 0x09 ∨ v.head? = some 0x0a ∨
        v.head? = some 0x0d) := by
      cases hc : v.head? with
      | none => simp
      | some c =>
        rw [← isBlank_iff, hv c hc]
        decide
    rw [if_neg hblank]
    exact runs_pure _ _
  | @cons c u v hc _ ih =>
    obtain ⟨fuel, rfl⟩ : ∃ k, fuel = k + 1 := ⟨fuel - 1, by omega⟩
    rw [skipWhitespace]
    refine Runs.get_cons ?_
    rw [if_pos (isBlank_iff.1 hc)]
    exact ih hv (by simpa using hfuel)

/-- White space ends somewhere. -/
theorem exists_blanks (u : List Byte) :
    ∃ v, Blanks u v ∧ ∀ c, v.head? = some c → isBlank c = false := by
  induction u with
  | nil => exact ⟨[], .nil [], fun c hc => by cases hc⟩
  | cons c u ih =>
    cases hc : isBlank c with
    | false =>
      refine ⟨c :: u, .nil _, fun d hd => ?_⟩
      cases hd
      exact hc
    | true =>
      obtain ⟨v, hblanks, hv⟩ := ih
      exact ⟨v, .cons hc hblanks, hv⟩

theorem blanks_length {u v : List Byte} (h : Blanks u v) : v.length ≤ u.length := by
  induction h with
  | nil => exact Nat.le_refl _
  | cons _ _ ih =>
    rw [List.length_cons]
    omega

/-! ## Literals -/

theorem runs_expectText (text w y : List Byte) :
    Runs (At (text ++ w) y) (expectText text : Action σ Bool) true (At w y) := by
  induction text with
  | nil => exact runs_pure _ _
  | cons c text ih =>
    rw [expectText, List.cons_append]
    refine Runs.get_cons ?_
    rw [if_pos rfl]
    exact ih

theorem expectText_cases (text u y : List Byte) :
    (∃ w, u = text ++ w) ∨ Runs (At u y) (expectText text : Action σ Bool) false Ready := by
  induction text generalizing u with
  | nil => exact Or.inl ⟨u, rfl⟩
  | cons c text ih =>
    rw [expectText]
    cases u with
    | nil =>
      refine Or.inr (Runs.get_nil ?_)
      rw [if_neg (by simp)]
      exact (runs_pure _ _).mono (fun _ h => h) fun _ h => h.ready
    | cons d u =>
      by_cases hd : d = c
      · subst hd
        rcases ih u with ⟨w, rfl⟩ | h
        · exact Or.inl ⟨w, rfl⟩
        · refine Or.inr (Runs.get_cons ?_)
          rw [if_pos rfl]
          exact h
      · refine Or.inr (Runs.get_cons ?_)
        rw [if_neg (by simpa using hd)]
        exact (runs_pure _ _).mono (fun _ h => h) fun _ h => h.ready

theorem runs_scanLiteral (text message w y : List Byte) (type : TokenType) :
    Runs (At (text ++ w) y) (scanLiteral text type message : Action σ _) type (At w y) := by
  unfold scanLiteral
  refine (runs_expectText text w y).bind ?_
  rw [if_pos rfl]
  exact runs_pure _ _

theorem scanLiteral_cases (text message u y : List Byte) (type : TokenType) :
    (∃ w, u = text ++ w) ∨
      Runs (At u y) (scanLiteral text type message : Action σ _) .parseError Ready := by
  refine (expectText_cases (σ := σ) text u y).imp_right fun h => ?_
  unfold scanLiteral
  refine h.bind ?_
  rw [if_neg (by decide)]
  exact fun lx hlx => by
    obtain ⟨lx', hrun, hlx'⟩ := runs_fail lx.input lx.yytext message lx ⟨hlx, rfl, rfl⟩
    exact ⟨lx', hrun, hlx'.ready⟩

/-! ## Numbers and strings -/

/-- After its first character a number is read from the label for that character. -/
theorem runs_scanNumber {c : Byte} {state : NumberState} (hc : firstState c = some state)
    {u y : List Byte} {fuel : Nat} {t : TokenType} {Q : Lexer σ → Prop}
    (h : Runs (At u [c]) (scanNumberFrom fuel state .valueUnsigned : Action σ _) t Q) :
    Runs (AtAfter (some c) u y) (scanNumber fuel : Action σ _) t Q := by
  unfold scanNumber
  refine Runs.bind (a := ⟨⟩) (Q := AtAfter (some c) u []) ?_ ?_
  · refine runs_modifyGet fun lx hlx => ⟨rfl, ⟨⟨?_, ?_⟩, hlx.at'.input, rfl⟩, hlx.current,
      hlx.nextUnget⟩
    · exact hlx.at'.ready.error
    · exact hlx.at'.ready.unget
  refine Runs.get fun lx hlx => ?_
  rw [hlx.current]
  refine Runs.bind (a := ⟨⟩) (Q := At u [c]) ?_ ?_
  · exact (runs_addAll u [] [c]).mono (fun lx' hlx' => hlx' ▸ hlx.at') fun _ hlx' => hlx'
  unfold firstState at hc
  split_ifs at hc with hminus hzero hdigit
  · cases hc
    rw [hminus, if_pos rfl]
    rwa [hminus] at h
  · cases hc
    rw [hzero, if_neg (by decide), if_pos rfl]
    rwa [hzero] at h
  · cases hc
    rw [if_neg (by simpa using hminus), if_neg (by simpa using hzero)]
    exact h

theorem runs_scanString {u w : List Byte} {cs : List Char} (h : Characters u cs w) {fuel : Nat}
    (hfuel : u.length ≤ fuel) (y : List Byte) :
    Runs (At u y) (scanString fuel : Action σ _) .valueString (At w (Utf8.encode cs)) :=
  (runs_reset u y).bind (runs_scanCharacters h hfuel [])

/-! ## Tokens -/

/-- `w` is left to read, and the lexer holds `j`. -/
structure After (w : List Byte) (j : Json) (lx : Lexer σ) : Prop where
  ready : lx.Ready
  input : lx.input = w
  holds : Holds j lx

theorem At.after {w y : List Byte} {j : Json} {lx : Lexer σ} (h : At w y lx) (hj : Holds j lx) :
    After w j lx :=
  ⟨h.ready, h.input, hj⟩

theorem runs_symbol {c : Byte} {t : TokenType} (h : symbolToken c = some t) (fuel : Nat)
    (P : Lexer σ → Prop) : Runs P (scanToken fuel (some c) : Action σ _) t P := by
  unfold scanToken
  simp only [h]
  exact runs_pure _ _

theorem numberStart_of_firstState {c : Byte} {state : NumberState}
    (h : firstState c = some state) : c = 0x2d ∨ isDigit c = true := by
  unfold firstState at h
  split_ifs at h with hminus hzero hdigit
  · exact Or.inl hminus
  · rw [hzero]
    exact Or.inr rfl
  · exact Or.inr hdigit

theorem firstState_of_numberStart {c : Byte} (h : c = 0x2d ∨ isDigit c = true) :
    ∃ state, firstState c = some state := by
  unfold firstState
  split_ifs with hminus hzero hdigit
  · exact ⟨_, rfl⟩
  · exact ⟨_, rfl⟩
  · exact ⟨_, rfl⟩
  · exact absurd h (by simp [hminus, hdigit])

theorem numberStart_range {c : Byte} (h : c = 0x2d ∨ isDigit c = true) :
    0x2d ≤ c.toNat ∧ c.toNat ≤ 0x39 := by
  rcases h with rfl | h
  · decide
  · have hrange := isDigit_iff.1 h
    omega

/-- The other tokens do not start like numbers. -/
theorem scanToken_number {c : Byte} (hc : c = 0x2d ∨ isDigit c = true) (fuel : Nat) :
    (scanToken fuel (some c) : Action σ _) = scanNumber fuel := by
  have hrange := numberStart_range hc
  have hne : ∀ d : Byte, d.toNat < 0x2d ∨ 0x39 < d.toNat → c ≠ d := by
    rintro d hd rfl
    omega
  have hsymbol : symbolToken c = none := by
    unfold symbolToken
    rw [if_neg (hne _ (by decide)), if_neg (hne _ (by decide)), if_neg (hne _ (by decide)),
      if_neg (hne _ (by decide)), if_neg (hne _ (by decide)), if_neg (hne _ (by decide))]
  unfold scanToken
  simp only [hsymbol]
  rw [if_neg (hne _ (by decide)), if_neg (hne _ (by decide)), if_neg (hne _ (by decide)),
    if_neg (hne _ (by decide)), if_pos hc]

theorem isBlank_of_firstState {c : Byte} {state : NumberState} (h : firstState c = some state) :
    isBlank c = false := by
  have hrange := numberStart_range (numberStart_of_firstState h)
  rw [Bool.eq_false_iff]
  intro hblank
  simp only [isBlank_iff, Option.some.injEq] at hblank
  rcases hblank with rfl | rfl | rfl | rfl <;> simp at hrange

theorem lexeme_head {v w : List Byte} {t : TokenType} {j : Json} (h : Lexeme v t j w) {c : Byte}
    (hc : v.head? = some c) : isBlank c = false := by
  cases h with
  | symbol w h =>
    cases hc
    unfold symbolToken at h
    split_ifs at h with h1 h2 h3 h4 h5 h6
    · rw [h1]; rfl
    · rw [h2]; rfl
    · rw [h3]; rfl
    · rw [h4]; rfl
    · rw [h5]; rfl
    · rw [h6]; rfl
  | null w | true w | false w | string h | nul w =>
    cases hc
    rfl
  | number hfirst h =>
    cases hc
    exact isBlank_of_firstState hfirst
  | endOfInput => cases hc

/-- The token at the front of the text is found. -/
theorem runs_scanToken {v w : List Byte} {t : TokenType} {j : Json} (h : Lexeme v t j w)
    {fuel : Nat} (hfuel : v.length < fuel) (y : List Byte) :
    Runs (AtAfter v.head? v.tail y) (scanToken fuel v.head? : Action σ _) t (After w j) := by
  have hat : ∀ {c : Option Byte} {u y : List Byte} (lx : Lexer σ), AtAfter c u y lx → At u y lx :=
    fun _ h => h.at'
  cases h with
  | symbol w h =>
    exact (runs_symbol h fuel _).mono (fun _ h => h) fun _ h => h.at'.after trivial
  | null w =>
    exact (runs_scanLiteral (bytes "ull") _ w y _).mono hat fun _ h => h.after trivial
  | true w =>
    exact (runs_scanLiteral (bytes "rue") _ w y _).mono hat fun _ h => h.after trivial
  | false w =>
    exact (runs_scanLiteral (bytes "alse") _ w y _).mono hat fun _ h => h.after trivial
  | string h =>
    refine (runs_scanString h (show _ ≤ fuel by simp at hfuel; omega) y).mono hat ?_
    exact fun _ h => h.after h.yytext
  | @number c state type x w hfirst h =>
    rw [List.head?_cons, scanToken_number (numberStart_of_firstState hfirst)]
    refine runs_scanNumber hfirst ?_
    refine (runs_scanNumberFrom h (by simp at hfuel; omega) [c]).mono (fun _ h => h) ?_
    exact fun _ h => h.1.after h.2
  | endOfInput => exact (runs_pure _ _).mono (fun _ h => h) fun _ h => h.at'.after trivial
  | nul w => exact (runs_pure _ _).mono (fun _ h => h) fun _ h => h.at'.after trivial

theorem scanToken_cases (v y : List Byte) {fuel : Nat} (hfuel : v.length < fuel) :
    (∃ t j w, Lexeme v t j w) ∨
      Runs (AtAfter v.head? v.tail y) (scanToken fuel v.head? : Action σ _) .parseError Ready := by
  have hat : ∀ {c : Option Byte} {u y : List Byte} (lx : Lexer σ), AtAfter c u y lx → At u y lx :=
    fun _ h => h.at'
  cases v with
  | nil => exact Or.inl ⟨_, _, _, .endOfInput⟩
  | cons c u =>
    rw [List.length_cons] at hfuel
    rw [List.head?_cons, List.tail_cons]
    cases hsymbol : symbolToken c with
    | some t => exact Or.inl ⟨t, _, u, .symbol u hsymbol⟩
    | none =>
      by_cases ht : c = 0x74
      · subst ht
        rcases scanLiteral_cases (σ := σ) (bytes "rue")
          (bytes "invalid literal; expected 'true'") u y .literalTrue with ⟨w, rfl⟩ | h
        · exact Or.inl ⟨_, _, w, .true w⟩
        · exact Or.inr (h.mono hat fun _ h => h)
      by_cases hf : c = 0x66
      · subst hf
        rcases scanLiteral_cases (σ := σ) (bytes "alse")
          (bytes "invalid literal; expected 'false'") u y .literalFalse with ⟨w, rfl⟩ | h
        · exact Or.inl ⟨_, _, w, .false w⟩
        · exact Or.inr (h.mono hat fun _ h => h)
      by_cases hn : c = 0x6e
      · subst hn
        rcases scanLiteral_cases (σ := σ) (bytes "ull")
          (bytes "invalid literal; expected 'null'") u y .literalNull with ⟨w, rfl⟩ | h
        · exact Or.inl ⟨_, _, w, .null w⟩
        · exact Or.inr (h.mono hat fun _ h => h)
      by_cases hquote : c = 0x22
      · subst hquote
        rcases scanCharacters_cases (σ := σ) fuel u [] (by omega) with ⟨cs, w, h⟩ | h
        · exact Or.inl ⟨_, _, w, .string h⟩
        · exact Or.inr (((runs_reset u y).bind h).mono hat fun _ h => h)
      by_cases hnumber : c = 0x2d ∨ isDigit c = true
      · obtain ⟨state, hfirst⟩ := firstState_of_numberStart hnumber
        rcases scanNumberFrom_cases (σ := σ) fuel state .valueUnsigned u [c] (by omega) with
          ⟨x, w, type, rfl, h⟩ | h
        · exact Or.inl ⟨_, _, w, .number hfirst h⟩
        · refine Or.inr ?_
          rw [scanToken_number hnumber]
          exact runs_scanNumber hfirst h
      by_cases hnul : c = 0x00
      · subst hnul
        exact Or.inl ⟨_, _, u, .nul u⟩
      refine Or.inr ?_
      unfold scanToken
      simp only [hsymbol, ht, hf, hn, hquote, hnumber, hnul, if_false]
      exact (runs_fail u y _).mono hat fun _ h => h.ready

/-- The next token of the text, whatever white space comes before it. -/
theorem runs_scan {u v w : List Byte} {t : TokenType} {j : Json} (hu : Blanks u v)
    (h : Lexeme v t j w) {fuel : Nat} (hfuel : u.length < fuel) (y : List Byte) :
    Runs (At u y) (scan fuel : Action σ _) t (After w j) := by
  have hle := blanks_length hu
  unfold scan
  exact (runs_skipWhitespace hu (fun c hc => lexeme_head h hc) hfuel y).bind
    (runs_scanToken h (by omega) y)

theorem scan_cases (u y : List Byte) {fuel : Nat} (hfuel : u.length < fuel) :
    (∃ v t j w, Blanks u v ∧ Lexeme v t j w) ∨
      Runs (At u y) (scan fuel : Action σ _) .parseError Ready := by
  obtain ⟨v, hu, hv⟩ := exists_blanks u
  have hle := blanks_length hu
  rcases scanToken_cases (σ := σ) v y (show v.length < fuel by omega) with ⟨t, j, w, h⟩ | h
  · exact Or.inl ⟨v, t, j, w, hu, h⟩
  · refine Or.inr ?_
    unfold scan
    exact (runs_skipWhitespace hu hv hfuel y).bind h

/-! ## The text of a token -/

/-- The next token of a text, white space aside. -/
def Scans (u : List Byte) (t : TokenType) (j : Json) (w : List Byte) : Prop :=
  ∃ v, Blanks u v ∧ Lexeme v t j w

theorem characters_length {u w : List Byte} {cs : List Char} (h : Characters u cs w) :
    w.length < u.length := by
  induction h with
  | nil w =>
    rw [List.length_cons]
    omega
  | cons hc _ ih =>
    have hlt := character_length hc
    omega

theorem tokenOf_ne_symbol {c : Byte} {t : TokenType} (h : symbolToken c = some t) (j : Json) :
    tokenOf j ≠ t := by
  rintro rfl
  unfold symbolToken at h
  split_ifs at h
  all_goals
    rw [Option.some.injEq] at h
    cases j with
    | boolean b => cases b <;> cases h
    | _ => cases h

theorem symbolToken_injective {c d : Byte} {t : TokenType} (hc : symbolToken c = some t)
    (hd : symbolToken d = some t) : c = d := by
  unfold symbolToken at hc hd
  split_ifs at hc hd <;> cases hc <;> cases hd <;> simp_all

/-- The text of a token of one character. -/
theorem symbol_of_lexeme {c : Byte} {t : TokenType} (hc : symbolToken c = some t)
    {v w : List Byte} {j : Json} (h : Lexeme v t j w) : v = c :: w := by
  have hno : ∀ j : Json, tokenOf j = t → False := fun j hj => tokenOf_ne_symbol hc j hj
  cases h with
  | symbol w hd => rw [symbolToken_injective hc hd]
  | null w => exact (hno .null rfl).elim
  | true w => exact (hno (.boolean Bool.true) rfl).elim
  | false w => exact (hno (.boolean Bool.false) rfl).elim
  | @string _ _ cs _ => exact (hno (.string (Utf8.encode cs)) rfl).elim
  | number _ _ => exact (hno _ rfl).elim
  | endOfInput | nul w =>
    unfold symbolToken at hc
    split_ifs at hc <;> cases hc

theorem tokenOf_numberOf (type : TokenType) (s : List Byte) :
    tokenOf (numberOf type s) = .valueUnsigned ∨ tokenOf (numberOf type s) = .valueInteger ∨
      tokenOf (numberOf type s) = .valueFloat := by
  unfold numberOf
  split
  · split
    · exact Or.inl rfl
    · exact Or.inr (Or.inr rfl)
  · split
    · split
      · exact Or.inr (Or.inl rfl)
      · exact Or.inr (Or.inr rfl)
    · exact Or.inr (Or.inr rfl)

/-- The text of a string. -/
theorem string_of_lexeme {v w : List Byte} {j : Json} (h : Lexeme v .valueString j w) :
    ∃ u cs, v = 0x22 :: u ∧ Characters u cs w ∧ j = .string (Utf8.encode cs) := by
  generalize ht : TokenType.valueString = t at h
  cases h with
  | @string u _ cs h => exact ⟨u, cs, rfl, h, rfl⟩
  | symbol _ h => exact absurd ht (tokenOf_ne_symbol h (.string []))
  | @number c _ type x _ _ _ =>
    rcases tokenOf_numberOf type (c :: x) with h | h | h <;> rw [h] at ht <;> cases ht
  | _ => cases ht

theorem endOfInput_of_lexeme {v w : List Byte} {j : Json} (h : Lexeme v .endOfInput j w) :
    v = [] ∨ v = 0x00 :: w := by
  generalize ht : TokenType.endOfInput = t at h
  cases h with
  | endOfInput => exact Or.inl rfl
  | nul w => exact Or.inr rfl
  | symbol _ h =>
    unfold symbolToken at h
    split_ifs at h <;> cases h <;> cases ht
  | @number c _ type x _ _ _ =>
    rcases tokenOf_numberOf type (c :: x) with h | h | h <;> rw [h] at ht <;> cases ht
  | _ => cases ht

end Wpi.Lexer

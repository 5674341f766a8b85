import WpiUtil.Json.Proofs.LexerNumberProofs
import WpiUtil.Support.CountedIstream

/-!
# How far the lexer reads

Every token takes a character, and after the end of the input nothing is read. A character that is
given back is taken off the count.
-/

namespace Wpi.Lexer

open Foundations MeteredSource

variable {σ α β : Type} [MeteredSource σ] {n k m : Nat} {lx : Lexer σ}

/-! ## States -/

/-- What counts for the state of the input. -/
def place (lx : Lexer σ) : σ × Option Byte × Bool × Nat :=
  (lx.is, lx.current, lx.nextUnget, lx.charsRead)

/-- There are `m` of the `n` characters left, and what has been given back is one of them. -/
def OpenAt (n m : Nat) : σ × Option Byte × Bool × Nat → Prop
  | (is, _, false, charsRead) => RawIstream.hasError is = false ∧
      (ByteSource.content is).length = m ∧ charsRead + m = n ∧ Asked is charsRead
  | (is, some _, true, charsRead) => RawIstream.hasError is = false ∧
      (ByteSource.content is).length + 1 = m ∧ charsRead + m = n ∧ Asked is (charsRead + 1)
  | (is, none, true, charsRead) => RawIstream.hasError is = true ∧ m = 0 ∧ charsRead = n ∧
      Asked is (n + 1)

def Open (n m : Nat) (lx : Lexer σ) : Prop := OpenAt n m lx.place

/-- The last read has met the end of the input. -/
structure Closed (n : Nat) (lx : Lexer σ) : Prop where
  hasError : RawIstream.hasError lx.is = true
  current_eq : lx.current = none
  charsRead_eq : lx.charsRead = n + 1
  asked : Asked lx.is (n + 1)

/-- The position is one of a character or of the end. -/
structure Ended (n : Nat) (lx : Lexer σ) : Prop where
  one_le : 1 ≤ lx.charsRead
  le : lx.charsRead ≤ n + 1
  within : Within n lx.is

/-- Fewer than `k` of the `n` characters are left. -/
def Below (n k : Nat) (lx : Lexer σ) : Prop := k ≤ n ∧ ∃ m < k, Open n m lx

theorem Open.charsRead_add (h : Open n m lx) : lx.charsRead + m = n := by
  rcases lx with ⟨is, current, nextUnget, charsRead, _⟩
  cases nextUnget with
  | false => exact h.2.2.1
  | true =>
    cases current with
    | none =>
      obtain ⟨-, rfl, hread, -⟩ := h
      exact hread
    | some c => exact h.2.2.1

theorem Open.within (h : Open n m lx) : Within n lx.is := by
  rcases lx with ⟨is, current, nextUnget, charsRead, _⟩
  have hread : charsRead + m = n := h.charsRead_add
  cases nextUnget with
  | false => exact ⟨charsRead, by omega, h.2.2.2⟩
  | true =>
    cases current with
    | none => exact ⟨n + 1, Nat.le_refl _, h.2.2.2⟩
    | some c => exact ⟨charsRead + 1, by omega, h.2.2.2⟩

theorem Open.ended (h : Open n m lx) (hm : m < n) : Ended n lx := by
  have hread := h.charsRead_add
  exact ⟨by omega, by omega, h.within⟩

theorem Closed.ended (h : Closed n lx) : Ended n lx := by
  have hread := h.charsRead_eq
  exact ⟨by omega, by omega, n + 1, Nat.le_refl _, h.asked⟩

theorem Below.ended (h : Below n k lx) : Ended n lx := by
  obtain ⟨hk, m, hm, hopen⟩ := h
  exact hopen.ended (by omega)

theorem Open.below (h : Open n m lx) (hm : m < k) (hk : k ≤ n) : Below n k lx := ⟨hk, m, hm, h⟩

theorem Below.mono {k' : Nat} (h : Below n k lx) (hk : k ≤ k') (hk' : k' ≤ n) : Below n k' lx := by
  obtain ⟨-, m, hm, hopen⟩ := h
  exact ⟨hk', m, Nat.lt_of_lt_of_le hm hk, hopen⟩

/-- The states of an input do not depend on the rest of the lexer. -/
theorem Open.of_place {lx' : Lexer σ} (h : Open n m lx) (hplace : lx'.place = lx.place) :
    Open n m lx' := by
  unfold Open
  rw [hplace]
  exact h

/-! ## Outcomes -/

/-- The outcome of an action that has fewer than `k` characters to leave: after a good result there
are some left, after another one no more is read. -/
def Outcome (n k : Nat) (good : α → Prop) (r : Except Failure α) (lx : Lexer σ) : Prop :=
  ∃ a, r = .ok a ∧ Ended n lx ∧ (good a → Below n k lx)

variable {good : α → Prop} {good' : β → Prop}

theorem outcome_pure {a : α} (h : Below n k lx) :
    Meets lx (pure a : Action σ α) (Outcome n k good) :=
  meets_pure ⟨a, rfl, h.ended, fun _ => h⟩

theorem outcome_stop {a : α} (h : Ended n lx) (ha : ¬good a) :
    Meets lx (pure a : Action σ α) (Outcome n k good) :=
  meets_pure ⟨a, rfl, h, fun hgood => absurd hgood ha⟩

theorem outcome_bind {x : Action σ α} {f : α → Action σ β} {T : Except Failure β → Lexer σ → Prop}
    (hx : Meets lx x (Outcome n k good))
    (hgood : ∀ a lx', good a → Below n k lx' → Meets lx' (f a) T)
    (hbad : ∀ a lx', ¬good a → Ended n lx' → Meets lx' (f a) T) : Meets lx (x >>= f) T := by
  refine hx.bind ?_ ?_
  · rintro a lx' ⟨a', ha, hended, hbelow⟩
    cases ha
    by_cases hgood' : good a
    · exact hgood a lx' hgood' (hbelow hgood')
    · exact hbad a lx' hgood' hended
  · rintro e lx' ⟨a, ha, -⟩
    cases ha

/-- A change of what does not belong to the input. -/
theorem Open.meets_modify_bind {f : Lexer σ → Lexer σ} {g : PUnit → Action σ α}
    {T : Except Failure α → Lexer σ → Prop} (h : Open n m lx) (hf : (f lx).place = lx.place)
    (hg : ∀ lx', Open n m lx' → Meets lx' (g ⟨⟩) T) : Meets lx (modify f >>= g) T :=
  hg _ (h.of_place hf)

theorem outcome_fail {good : TokenType → Prop} (message : List Byte) (h : Ended n lx)
    (hgood : ¬good .parseError) :
    Meets lx (fail message : Action σ TokenType) (Outcome n k good) :=
  ⟨.parseError, rfl, ⟨h.one_le, h.le, h.within⟩, fun hp => absurd hp hgood⟩

/-- To go on with a string, or to be done with it. -/
def Goes (t : Option TokenType) : Prop := t ≠ some .parseError

theorem outcome_fail_some (message : List Byte) (h : Ended n lx) :
    Meets lx (fail message >>= fun t => pure (some t) : Action σ (Option TokenType))
      (Outcome n k Goes) :=
  ⟨some .parseError, rfl, ⟨h.one_le, h.le, h.within⟩, fun hp => absurd rfl hp⟩

/-! ## Reading one character -/

/-- What comes after a character, and what comes after the end. -/
theorem meets_get {f : Option Byte → Action σ α} {T : Except Failure α → Lexer σ → Prop}
    (h : Open n m lx) (hnone : ∀ lx', Closed n lx' → Meets lx' (f none) T)
    (hsome : ∀ c m' lx', m = m' + 1 → Open n m' lx' → lx'.current = some c →
      lx'.nextUnget = false → Meets lx' (f (some c)) T) :
    Meets lx (get >>= f) T := by
  have hrun : (get : Action σ (Option Byte)).run.run lx = (.ok lx.next.1, lx.next.2) := rfl
  rw [Meets, run_bind, hrun]
  rcases lx with ⟨is, current, nextUnget, charsRead, _⟩
  have hread : charsRead + m = n := h.charsRead_add
  cases nextUnget with
  | true =>
    cases current with
    | none =>
      obtain ⟨he, rfl, rfl, hasked⟩ := h
      exact hnone _ ⟨he, rfl, rfl, hasked⟩
    | some c =>
      obtain ⟨he, hlength, -, hasked⟩ := h
      have hlength' : (ByteSource.content is).length + 1 = m := hlength
      refine hsome c _ _ hlength'.symm ⟨he, rfl, ?_, hasked⟩ rfl rfl
      exact show charsRead + 1 + _ = n by omega
  | false =>
    obtain ⟨he, hlength, -, hasked⟩ := h
    have hasked' : Asked (RawIstream.read is 1).2 (charsRead + 1) := asked_read hasked
    unfold next
    cases hcontent : ByteSource.content is with
    | nil =>
      obtain ⟨he', -⟩ := ByteSource.read_nil hcontent
      have herror : RawIstream.hasError (RawIstream.read is 1).2 = true := he'
      rw [hcontent, List.length_nil] at hlength
      have hn : charsRead = n := by omega
      simp only [herror, Bool.false_eq_true, if_false, if_true]
      rw [hn] at hasked' ⊢
      exact hnone _ ⟨herror, rfl, rfl, hasked'⟩
    | cons c bs =>
      obtain ⟨is', hread', he', hcontent'⟩ := ByteSource.read_cons he hcontent
      have heq : RawIstream.read is 1 = ([c], is') := hread'
      rw [heq] at hasked'
      rw [hcontent, List.length_cons] at hlength
      simp only [heq, he', Bool.false_eq_true, if_false]
      refine hsome c bs.length _ hlength.symm ⟨he', by rw [hcontent'], ?_, hasked'⟩ rfl rfl
      exact show charsRead + 1 + _ = n by omega

theorem Below.meets_get {f : Option Byte → Action σ α} {T : Except Failure α → Lexer σ → Prop}
    (h : Below n k lx) (hnone : ∀ lx', Closed n lx' → Meets lx' (f none) T)
    (hsome : ∀ c lx', Below n k lx' → Meets lx' (f (some c)) T) : Meets lx (get >>= f) T := by
  obtain ⟨hk, m, hm, hopen⟩ := h
  refine Lexer.meets_get hopen hnone ?_
  intro c m' lx' hm' hopen' _ _
  exact hsome c lx' (hopen'.below (by omega) hk)

/-! ## Strings -/

theorem outcome_getDigits (weights : List Nat) (codepoint : Nat) (h : Below n k lx) :
    Meets lx (getDigits weights codepoint : Action σ (Option Nat))
      (Outcome n k fun digits => digits ≠ none) := by
  induction weights generalizing codepoint lx with
  | nil => exact outcome_pure h
  | cons weight weights ih =>
    refine h.meets_get (fun lx' hclosed => outcome_stop hclosed.ended (fun h => h rfl)) ?_
    intro c lx' hbelow
    cases hdigit : hexDigit (some c) with
    | none => exact outcome_stop hbelow.ended fun h => h rfl
    | some digit => exact ih _ hbelow

theorem outcome_getCodepoint_bind {f : Option Nat → Action σ (Option TokenType)}
    (h : Below n k lx) (hnone : ∀ lx', Ended n lx' → Meets lx' (f none) (Outcome n k Goes))
    (hsome : ∀ codepoint lx', Below n k lx' → Meets lx' (f (some codepoint)) (Outcome n k Goes)) :
    Meets lx (getCodepoint >>= f) (Outcome n k Goes) := by
  refine outcome_bind (outcome_getDigits _ 0 h) ?_ ?_
  · intro digits lx' hdigits hbelow
    cases digits with
    | none => exact absurd rfl hdigits
    | some codepoint => exact hsome codepoint lx' hbelow
  · intro digits lx' hdigits hended
    obtain rfl : digits = none := not_not.1 hdigits
    exact hnone lx' hended

/-- Characters are collected. -/
theorem outcome_addAll_bind {f : PUnit → Action σ α} (cs : List Byte) (h : Below n k lx)
    (hf : ∀ lx', Below n k lx' → Meets lx' (f ⟨⟩) (Outcome n k good)) :
    Meets lx (addAll cs >>= f) (Outcome n k good) := by
  obtain ⟨hk, m, hm, hopen⟩ := h
  exact hopen.meets_modify_bind rfl fun lx' hopen' => hf lx' (hopen'.below hm hk)

theorem outcome_scanUnicodeEscape (h : Below n k lx) :
    Meets lx (scanUnicodeEscape : Action σ (Option TokenType)) (Outcome n k Goes) := by
  refine outcome_getCodepoint_bind h (fun lx' hended => outcome_fail_some _ hended) ?_
  intro codepoint₁ lx₁ h₁
  refine .ite (fun _ => ?_) fun _ => .ite (fun _ => outcome_fail_some _ h₁.ended) fun _ => ?_
  · -- a low surrogate has to follow
    refine h₁.meets_get (fun lx' hclosed => outcome_fail_some _ hclosed.ended) ?_
    intro c lx₂ h₂
    refine .ite (fun _ => ?_) fun _ => outcome_fail_some _ h₂.ended
    refine h₂.meets_get (fun lx' hclosed => outcome_fail_some _ hclosed.ended) ?_
    intro c' lx₃ h₃
    refine .ite (fun _ => ?_) fun _ => outcome_fail_some _ h₃.ended
    refine outcome_getCodepoint_bind h₃ (fun lx' hended => outcome_fail_some _ hended) ?_
    intro codepoint₂ lx₄ h₄
    refine .ite (fun _ => ?_) fun _ => outcome_fail_some _ h₄.ended
    exact outcome_addAll_bind _ h₄ fun _ hbelow => outcome_pure hbelow
  · exact outcome_addAll_bind _ h₁ fun _ hbelow => outcome_pure hbelow

theorem outcome_scanEscape (h : Below n k lx) :
    Meets lx (scanEscape : Action σ (Option TokenType)) (Outcome n k Goes) := by
  refine h.meets_get (fun lx' hclosed => outcome_fail_some _ hclosed.ended) ?_
  intro c lx' hbelow
  refine .ite (fun _ => outcome_scanUnicodeEscape hbelow) fun _ => ?_
  cases hc : escapeCharacter c with
  | some d => exact outcome_addAll_bind [d] hbelow fun _ h' => outcome_pure h'
  | none => exact outcome_fail_some _ hbelow.ended

theorem outcome_scanTrailing (ranges : List (Nat × Nat)) (h : Below n k lx) :
    Meets lx (scanTrailing ranges : Action σ (Option TokenType)) (Outcome n k Goes) := by
  induction ranges generalizing lx with
  | nil => exact outcome_pure h
  | cons range ranges ih =>
    obtain ⟨lo, hi⟩ := range
    refine h.meets_get (fun lx' hclosed => outcome_fail_some _ hclosed.ended) ?_
    intro c lx' hbelow
    refine .ite (fun _ => ?_) fun _ => outcome_fail_some _ hbelow.ended
    exact outcome_addAll_bind [c] hbelow fun _ h' => ih h'

/-- A round takes a character. -/
theorem outcome_scanCharacter (h : Open n m lx) (hm : m ≤ n) :
    Meets lx (scanCharacter : Action σ (Option TokenType)) (Outcome n m Goes) := by
  refine meets_get h (fun lx' hclosed => outcome_fail_some _ hclosed.ended) ?_
  intro c m' lx' hm' hopen _ _
  have hbelow : Below n m lx' := hopen.below (by omega) hm
  refine .ite (fun _ => outcome_pure hbelow) fun _ => ?_
  refine .ite (fun _ => outcome_scanEscape hbelow) fun _ => ?_
  refine .ite (fun _ => outcome_fail_some _ hbelow.ended) fun _ => ?_
  refine .ite (fun _ => outcome_addAll_bind [c] hbelow fun _ h' => outcome_pure h') fun _ => ?_
  cases hranges : Utf8.trailing c with
  | some ranges => exact outcome_addAll_bind [c] hbelow fun _ h' => outcome_scanTrailing ranges h'
  | none => exact outcome_fail_some _ hbelow.ended

/-- A token that the parser can do something with. -/
def Real (t : TokenType) : Prop := t ≠ .parseError ∧ t ≠ .endOfInput

instance (t : TokenType) : Decidable (Real t) := inferInstanceAs (Decidable (_ ∧ _))

theorem outcome_fail_real (message : List Byte) (h : Ended n lx) :
    Meets lx (fail message : Action σ TokenType) (Outcome n k Real) :=
  outcome_fail message h fun hreal => hreal.1 rfl

theorem outcome_scanCharacters (fuel : Nat) (h : Open n m lx) (hm : m < k) (hk : k ≤ n)
    (hfuel : m < fuel) :
    Meets lx (scanCharacters fuel : Action σ TokenType) (Outcome n k Real) := by
  induction fuel generalizing m lx with
  | zero => exact absurd hfuel (Nat.not_lt_zero m)
  | succ fuel ih =>
    refine outcome_bind (outcome_scanCharacter h (by omega)) ?_ ?_
    · intro t lx' ht hbelow
      cases t with
      | some t => exact outcome_pure (hbelow.mono (by omega) hk)
      | none =>
        obtain ⟨-, m', hm', hopen⟩ := hbelow
        exact ih hopen (by omega) (by omega)
    · intro t lx' ht hended
      obtain rfl : t = some .parseError := not_not.1 ht
      exact outcome_stop hended fun hreal => hreal.1 rfl

theorem outcome_scanString {fuel : Nat} (h : Open n m lx) (hm : m < k) (hk : k ≤ n)
    (hfuel : m < fuel) :
    Meets lx (scanString fuel : Action σ TokenType) (Outcome n k Real) :=
  h.meets_modify_bind rfl fun _ hopen => outcome_scanCharacters fuel hopen hm hk hfuel

/-! ## Numbers -/

theorem outcome_store {f : Lexer σ → Lexer σ} {t : TokenType} (h : Below n k lx)
    (hf : ∀ lx, (f lx).place = lx.place) :
    Meets lx (modify f >>= fun _ => pure t : Action σ TokenType) (Outcome n k Real) := by
  obtain ⟨hk, m, hm, hopen⟩ := h
  exact hopen.meets_modify_bind (hf lx) fun _ hopen' => outcome_pure (hopen'.below hm hk)

/-- What was read last is given back. -/
theorem outcome_scanNumberDone (type : TokenType)
    (h : Below n k { lx with charsRead := lx.charsRead - 1, nextUnget := true }) :
    Meets lx (scanNumberDone type : Action σ TokenType) (Outcome n k Real) := by
  unfold scanNumberDone
  have hfloat {lx' : Lexer σ} (h' : Below n k lx') : Meets lx' (modify (fun lx => { lx with
      valueFloat := strtod lx.yytext }) >>= fun _ => pure .valueFloat : Action σ TokenType)
      (Outcome n k Real) := outcome_store h' fun _ => rfl
  refine Meets.bind (O := fun r lx' => r = .ok ⟨⟩ ∧ Below n k lx') ⟨rfl, h⟩ ?_ ?_
  · rintro _ lx' ⟨-, h'⟩
    refine meets_get_bind (.ite (fun _ => ?_) fun _ => .ite (fun _ => ?_) fun _ => hfloat h')
    · cases strtoull lx'.yytext with
      | some x => exact outcome_store h' fun _ => rfl
      | none => exact hfloat h'
    · cases strtoll lx'.yytext with
      | some x => exact outcome_store h' fun _ => rfl
      | none => exact hfloat h'
  · rintro e lx' ⟨he, -⟩
    cases he

theorem Open.below_unget {c : Byte} (h : Open n m lx) (hcurrent : lx.current = some c)
    (hunget : lx.nextUnget = false) (hm : m + 1 < k) (hk : k ≤ n) :
    Below n k { lx with charsRead := lx.charsRead - 1, nextUnget := true } := by
  rcases lx with ⟨is, current, nextUnget, charsRead, _⟩
  obtain rfl : current = some c := hcurrent
  obtain rfl : nextUnget = false := hunget
  obtain ⟨he, hlength, hread, hasked⟩ : RawIstream.hasError is = false ∧
    (ByteSource.content is).length = m ∧ charsRead + m = n ∧ Asked is charsRead := h
  obtain ⟨read, rfl⟩ : ∃ read, charsRead = read + 1 := ⟨charsRead - 1, by omega⟩
  refine ⟨hk, m + 1, hm, he, by rw [← hlength], ?_, hasked⟩
  exact show read + (m + 1) = n by omega

theorem Closed.below_unget (h : Closed n lx) (hk : 0 < k) (hkn : k ≤ n) :
    Below n k { lx with charsRead := lx.charsRead - 1, nextUnget := true } := by
  rcases lx with ⟨is, current, nextUnget, charsRead, _⟩
  obtain ⟨he, hcurrent, hread, hasked⟩ := h
  obtain rfl : current = none := hcurrent
  obtain rfl : charsRead = n + 1 := hread
  exact ⟨hkn, 0, hk, he, rfl, rfl, hasked⟩

/-- Every round but the last one takes a character. -/
theorem outcome_scanNumberFrom (fuel : Nat) (state : NumberState) (type : TokenType)
    (h : Open n m lx) (hm : m < k) (hk : k ≤ n) (hfuel : m < fuel) :
    Meets lx (scanNumberFrom fuel state type : Action σ TokenType) (Outcome n k Real) := by
  induction fuel generalizing state type m lx with
  | zero => exact absurd hfuel (Nat.not_lt_zero m)
  | succ fuel ih =>
    refine meets_get h ?_ ?_
    · intro lx' hclosed
      cases hstep : numberStep state none with
      | goto state' => cases state <;> cases hstep
      | done => exact outcome_scanNumberDone _ (hclosed.below_unget (by omega) hk)
      | error message => exact outcome_fail_real message hclosed.ended
    · intro c m' lx' hm' hopen hcurrent hunget
      cases hstep : numberStep state (some c) with
      | goto state' =>
        exact hopen.meets_modify_bind rfl fun _ hopen' => ih _ _ hopen' (by omega) (by omega)
      | done => exact outcome_scanNumberDone _ (hopen.below_unget hcurrent hunget (by omega) hk)
      | error message => exact outcome_fail_real message (hopen.ended (by omega))

theorem outcome_scanNumber {fuel : Nat} (h : Open n m lx) (hm : m < k) (hk : k ≤ n)
    (hfuel : m < fuel) :
    Meets lx (scanNumber fuel : Action σ TokenType) (Outcome n k Real) := by
  refine h.meets_modify_bind rfl fun lx₁ h₁ => meets_get_bind ?_
  refine h₁.meets_modify_bind rfl fun lx₂ h₂ => ?_
  have hfrom (state : NumberState) :
      Meets lx₂ (scanNumberFrom fuel state .valueUnsigned : Action σ TokenType)
        (Outcome n k Real) := outcome_scanNumberFrom fuel state _ h₂ hm hk hfuel
  exact .ite (fun _ => hfrom .minus) fun _ => .ite (fun _ => hfrom .zero) fun _ => hfrom .any1

/-! ## Tokens -/

theorem outcome_expectText (text : List Byte) (h : Below n k lx) :
    Meets lx (expectText text : Action σ Bool) (Outcome n k fun found => found = true) := by
  induction text generalizing lx with
  | nil => exact outcome_pure h
  | cons c text ih =>
    refine h.meets_get (fun lx' hclosed => ?_) fun c' lx' hbelow => ?_
    · exact .ite (fun he => nomatch he) fun _ => outcome_stop hclosed.ended Bool.false_ne_true
    · exact .ite (fun _ => ih hbelow) fun _ => outcome_stop hbelow.ended Bool.false_ne_true

theorem outcome_scanLiteral (text : List Byte) (type : TokenType) (message : List Byte)
    (h : Below n k lx) :
    Meets lx (scanLiteral text type message : Action σ TokenType) (Outcome n k Real) := by
  refine outcome_bind (outcome_expectText text h) ?_ ?_
  · intro found lx' hfound hbelow
    exact .ite (fun _ => outcome_pure hbelow) fun hnot => absurd hfound hnot
  · intro found lx' hfound hended
    exact .ite (fun hf => absurd hf hfound) fun _ => outcome_fail_real message hended

theorem outcome_skipWhitespace (fuel : Nat) (h : Open n m lx) (hm : m ≤ k) (hk : k ≤ n)
    (hfuel : m < fuel) :
    Meets lx (skipWhitespace fuel : Action σ (Option Byte)) (Outcome n k fun c => c ≠ none) := by
  induction fuel generalizing m lx with
  | zero => exact absurd hfuel (Nat.not_lt_zero m)
  | succ fuel ih =>
    refine meets_get h ?_ ?_
    · intro lx' hclosed
      refine .ite (fun hspace => ?_) fun _ => outcome_stop hclosed.ended fun hc => hc rfl
      rcases hspace with hc | hc | hc | hc <;> cases hc
    · intro c m' lx' hm' hopen _ _
      refine .ite (fun _ => ih hopen (by omega) (by omega)) fun _ => ?_
      exact outcome_pure (hopen.below (by omega) hk)

theorem outcome_scanToken {fuel : Nat} (c : Byte) (h : Below n k lx) (hfuel : k ≤ fuel) :
    Meets lx (scanToken fuel (some c) : Action σ TokenType) (Outcome n k Real) := by
  have hliteral (text : List Byte) (type : TokenType) (message : List Byte) :
      Meets lx (scanLiteral text type message : Action σ TokenType) (Outcome n k Real) :=
    outcome_scanLiteral text type message h
  have hended := h.ended
  have hpure (t : TokenType) : Meets lx (pure t : Action σ TokenType) (Outcome n k Real) :=
    outcome_pure h
  obtain ⟨hk, m, hm, hopen⟩ := h
  dsimp only [scanToken]
  cases symbolToken c with
  | some t => exact hpure t
  | none =>
    refine .ite (fun _ => hliteral _ _ _) fun _ => ?_
    refine .ite (fun _ => hliteral _ _ _) fun _ => ?_
    refine .ite (fun _ => hliteral _ _ _) fun _ => ?_
    refine .ite (fun _ => outcome_scanString hopen hm hk (by omega)) fun _ => ?_
    refine .ite (fun _ => outcome_scanNumber hopen hm hk (by omega)) fun _ => ?_
    exact .ite (fun _ => hpure _) fun _ => outcome_fail_real _ hended

/-- A token takes a character. -/
theorem outcome_scan {fuel : Nat} (h : Open n m lx) (hm : m ≤ n) (hfuel : m < fuel) :
    Meets lx (scan fuel : Action σ TokenType) (Outcome n m Real) := by
  refine outcome_bind (outcome_skipWhitespace fuel h (Nat.le_refl m) hm hfuel) ?_ ?_
  · intro c lx' hc hbelow
    cases c with
    | none => exact absurd rfl hc
    | some c => exact outcome_scanToken c hbelow (by omega)
  · intro c lx' hc hended
    obtain rfl : c = none := not_not.1 hc
    exact outcome_stop hended fun hreal => hreal.2 rfl

end Wpi.Lexer

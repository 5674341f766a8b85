import WpiUtil.Json.Proofs.LexerNumberProofs

/-!
# When the lexer gives a character back

It does so after a number, and after no other token.
-/

namespace Wpi

/-- The token is one of those for numbers. -/
def TokenType.isNumber : TokenType → Bool
  | .valueUnsigned => true
  | .valueInteger => true
  | .valueFloat => true
  | _ => false

namespace Lexer

open Foundations

variable {σ α β : Type} [ByteSource σ] {P : α → Prop} {Q : β → Prop}

/-! ## Actions that give nothing back -/

/-- There is nothing that has been given back, before and after it, and the result is in `P`. -/
def Quiet (P : α → Prop) (x : Action σ α) : Prop :=
  ∀ lx : Lexer σ, lx.nextUnget = false →
    Meets lx x fun r lx' => lx'.nextUnget = false ∧ ∀ a, r = .ok a → P a

omit [ByteSource σ] in
theorem quiet_pure {a : α} (ha : P a) : Quiet P (pure a : Action σ α) := by
  intro lx hlx
  refine ⟨hlx, ?_⟩
  intro b hb
  cases hb
  exact ha

omit [ByteSource σ] in
theorem quiet_throw (e : Failure) : Quiet P (throw e : Action σ α) := by
  intro lx hlx
  refine ⟨hlx, ?_⟩
  intro b hb
  cases hb

omit [ByteSource σ] in
theorem Quiet.bind {x : Action σ α} {f : α → Action σ β} (hx : Quiet P x)
    (hf : ∀ a, P a → Quiet Q (f a)) : Quiet Q (x >>= f) := by
  intro lx hlx
  apply (hx lx hlx).bind
  · rintro a lx' ⟨hunget, ha⟩
    exact hf a (ha a rfl) lx' hunget
  · rintro e lx' ⟨hunget, -⟩
    refine ⟨hunget, ?_⟩
    intro b hb
    cases hb

omit [ByteSource σ] in
theorem Quiet.ite {p : Prop} [Decidable p] {x y : Action σ α} (hx : p → Quiet P x)
    (hy : ¬p → Quiet P y) : Quiet P (if p then x else y) := by
  by_cases hp : p
  · rw [if_pos hp]
    exact hx hp
  · rw [if_neg hp]
    exact hy hp

omit [ByteSource σ] in
theorem quiet_modify {f : Lexer σ → Lexer σ} (hf : ∀ lx, (f lx).nextUnget = lx.nextUnget) :
    Quiet (fun _ => True) (modify f : Action σ PUnit) := by
  intro lx hlx
  exact ⟨(hf lx).trans hlx, fun _ _ => trivial⟩

/-- A read takes what has been given back. -/
theorem meets_get_unget (lx : Lexer σ) :
    Meets lx (get : Action σ (Option Byte)) fun _ lx' => lx'.nextUnget = false := by
  have hrun : ((get : Action σ (Option Byte)).run.run lx).2 = lx.next.2 := rfl
  rw [Meets, hrun]
  unfold next
  cases hunget : lx.nextUnget with
  | true => rfl
  | false =>
    simp only [Bool.false_eq_true, if_false]
    split
    · rfl
    · rfl

theorem quiet_get_bind {f : Option Byte → Action σ α} (hf : ∀ c, Quiet P (f c)) :
    Quiet P (get >>= f) := by
  have hget : Quiet (fun _ => True) (get : Action σ (Option Byte)) :=
    fun lx _ => ⟨meets_get_unget lx, fun _ _ => trivial⟩
  exact hget.bind fun c _ => hf c

omit [ByteSource σ] in
theorem quiet_fail {P : TokenType → Prop} (message : List Byte) (hP : P .parseError) :
    Quiet P (fail message : Action σ TokenType) :=
  (quiet_modify fun _ => rfl).bind fun _ _ => quiet_pure hP

/-! ## Strings and literals -/

/-- The token is no number. -/
def NoNumber (t : TokenType) : Prop := t.isNumber = false

/-- There is no token yet, or it is no number. -/
def NoneOrNoNumber (t : Option TokenType) : Prop := ∀ t', t = some t' → NoNumber t'

omit [ByteSource σ] in
theorem quiet_go : Quiet NoneOrNoNumber (pure none : Action σ (Option TokenType)) :=
  quiet_pure fun t ht => by cases ht

omit [ByteSource σ] in
theorem quiet_stop {t : TokenType} (ht : NoNumber t) :
    Quiet NoneOrNoNumber (pure (some t) : Action σ (Option TokenType)) := by
  apply quiet_pure
  intro t' ht'
  cases ht'
  exact ht

omit [ByteSource σ] in
theorem quiet_fail_some (message : List Byte) : Quiet NoneOrNoNumber
    (fail message >>= fun t => pure (some t) : Action σ (Option TokenType)) := by
  have hfail : Quiet NoNumber (fail message : Action σ TokenType) := quiet_fail message rfl
  exact hfail.bind fun _ ht => quiet_stop ht

omit [ByteSource σ] in
theorem quiet_addAll_bind (cs : List Byte) {x : Action σ α} (hx : Quiet P x) :
    Quiet P (addAll cs >>= fun _ => x) := by
  have hadd : Quiet (fun _ => True) (addAll cs : Action σ Unit) := quiet_modify fun _ => rfl
  exact hadd.bind fun _ _ => hx

theorem quiet_getDigits (weights : List Nat) (codepoint : Nat) :
    Quiet (fun _ => True) (getDigits weights codepoint : Action σ (Option Nat)) := by
  induction weights generalizing codepoint with
  | nil => exact quiet_pure trivial
  | cons weight weights ih =>
    refine quiet_get_bind fun c => ?_
    cases hexDigit c with
    | none => exact quiet_pure trivial
    | some digit => exact ih _

theorem quiet_getCodepoint_bind {f : Option Nat → Action σ α} (hf : ∀ n, Quiet P (f n)) :
    Quiet P (getCodepoint >>= f) :=
  (quiet_getDigits _ 0).bind fun n _ => hf n

theorem quiet_scanUnicodeEscape :
    Quiet NoneOrNoNumber (scanUnicodeEscape : Action σ (Option TokenType)) := by
  refine quiet_getCodepoint_bind fun codepoint₁ => ?_
  cases codepoint₁ with
  | none => exact quiet_fail_some _
  | some codepoint₁ =>
    refine .ite (fun _ => ?_) fun _ => .ite (fun _ => quiet_fail_some _) fun _ => ?_
    · refine quiet_get_bind fun _ => .ite (fun _ => ?_) fun _ => quiet_fail_some _
      refine quiet_get_bind fun _ => .ite (fun _ => ?_) fun _ => quiet_fail_some _
      refine quiet_getCodepoint_bind fun codepoint₂ => ?_
      cases codepoint₂ with
      | none => exact quiet_fail_some _
      | some codepoint₂ =>
        exact .ite (fun _ => quiet_addAll_bind _ quiet_go) fun _ => quiet_fail_some _
    · exact quiet_addAll_bind _ quiet_go

theorem quiet_scanEscape : Quiet NoneOrNoNumber (scanEscape : Action σ (Option TokenType)) := by
  refine quiet_get_bind fun c => ?_
  cases c with
  | none => exact quiet_fail_some _
  | some c =>
    refine .ite (fun _ => quiet_scanUnicodeEscape) fun _ => ?_
    cases escapeCharacter c with
    | some d => exact quiet_addAll_bind [d] quiet_go
    | none => exact quiet_fail_some _

theorem quiet_scanTrailing (ranges : List (Nat × Nat)) :
    Quiet NoneOrNoNumber (scanTrailing ranges : Action σ (Option TokenType)) := by
  induction ranges with
  | nil => exact quiet_go
  | cons range ranges ih =>
    refine quiet_get_bind fun c => ?_
    cases c with
    | none => exact quiet_fail_some _
    | some c => exact .ite (fun _ => quiet_addAll_bind [c] ih) fun _ => quiet_fail_some _

theorem quiet_scanCharacter :
    Quiet NoneOrNoNumber (scanCharacter : Action σ (Option TokenType)) := by
  refine quiet_get_bind fun c => ?_
  cases c with
  | none => exact quiet_fail_some _
  | some c =>
    refine .ite (fun _ => quiet_stop rfl) fun _ => ?_
    refine .ite (fun _ => quiet_scanEscape) fun _ => ?_
    refine .ite (fun _ => quiet_fail_some _) fun _ => ?_
    refine .ite (fun _ => quiet_addAll_bind [c] quiet_go) fun _ => ?_
    cases Utf8.trailing c with
    | some ranges => exact quiet_addAll_bind [c] (quiet_scanTrailing ranges)
    | none => exact quiet_fail_some _

theorem quiet_scanCharacters (fuel : Nat) :
    Quiet NoNumber (scanCharacters fuel : Action σ TokenType) := by
  induction fuel with
  | zero => exact quiet_throw _
  | succ fuel ih =>
    refine quiet_scanCharacter.bind fun t ht => ?_
    cases t with
    | none => exact ih
    | some t => exact quiet_pure (ht t rfl)

theorem quiet_scanString (fuel : Nat) : Quiet NoNumber (scanString fuel : Action σ TokenType) := by
  have hreset : Quiet (fun _ => True) (reset : Action σ Unit) := quiet_modify fun _ => rfl
  exact hreset.bind fun _ _ => quiet_scanCharacters fuel

theorem quiet_expectText (text : List Byte) :
    Quiet (fun _ => True) (expectText text : Action σ Bool) := by
  induction text with
  | nil => exact quiet_pure trivial
  | cons c text ih =>
    exact quiet_get_bind fun _ => .ite (fun _ => ih) fun _ => quiet_pure trivial

theorem quiet_scanLiteral (text message : List Byte) {type : TokenType} (htype : NoNumber type) :
    Quiet NoNumber (scanLiteral text type message : Action σ TokenType) :=
  (quiet_expectText text).bind fun _ _ =>
    .ite (fun _ => quiet_pure htype) fun _ => quiet_fail message rfl

/-! ## Numbers -/

/-- A character has been given back if the token is a number. -/
def Gives (r : Except Failure TokenType) (lx : Lexer σ) : Prop :=
  ∀ t, r = .ok t → lx.nextUnget = t.isNumber

omit [ByteSource σ] in
theorem Quiet.gives {x : Action σ TokenType} (hx : Quiet NoNumber x) {lx : Lexer σ}
    (hlx : lx.nextUnget = false) : Meets lx x Gives := by
  apply (hx lx hlx).mono
  rintro r lx' ⟨hunget, hr⟩ t ht
  rw [hunget]
  exact (hr t ht).symm

omit [ByteSource σ] in
theorem gives_store {f : Lexer σ → Lexer σ} (hf : ∀ lx, (f lx).nextUnget = lx.nextUnget)
    {t : TokenType} (ht : t.isNumber = true) {lx : Lexer σ} (hlx : lx.nextUnget = true) :
    Meets lx (modify f >>= fun _ => pure t : Action σ TokenType) Gives := by
  intro t' ht'
  cases ht'
  exact (hf lx).trans (hlx.trans ht.symm)

omit [ByteSource σ] in
theorem gives_scanNumberDone (type : TokenType) (lx : Lexer σ) :
    Meets lx (scanNumberDone type : Action σ TokenType) Gives := by
  unfold scanNumberDone
  have hfloat {lx' : Lexer σ} (h' : lx'.nextUnget = true) : Meets lx' (modify (fun lx => { lx with
      valueFloat := strtod lx.yytext }) >>= fun _ => pure .valueFloat : Action σ TokenType) Gives :=
    gives_store (fun _ => rfl) rfl h'
  refine Meets.bind (O := fun r lx' => r = .ok ⟨⟩ ∧ lx'.nextUnget = true) ⟨rfl, rfl⟩ ?_ ?_
  · rintro _ lx' ⟨-, h'⟩
    refine meets_get_bind (.ite (fun _ => ?_) fun _ => .ite (fun _ => ?_) fun _ => hfloat h')
    · cases strtoull lx'.yytext with
      | some x => exact gives_store (fun _ => rfl) rfl h'
      | none => exact hfloat h'
    · cases strtoll lx'.yytext with
      | some x => exact gives_store (fun _ => rfl) rfl h'
      | none => exact hfloat h'
  · rintro e lx' ⟨he, -⟩
    cases he

theorem gives_scanNumberFrom (fuel : Nat) (state : NumberState) (type : TokenType)
    (lx : Lexer σ) : Meets lx (scanNumberFrom fuel state type : Action σ TokenType) Gives := by
  induction fuel generalizing state type lx with
  | zero =>
    intro t ht
    cases ht
  | succ fuel ih =>
    apply (meets_get_unget lx).bind
    · intro c lx' hunget
      rcases hstep : numberStep state c with state' | _ | message
      · exact ih state' _ _
      · exact gives_scanNumberDone _ lx'
      · have hfail : Quiet NoNumber (fail message : Action σ TokenType) := quiet_fail message rfl
        exact hfail.gives hunget
    · intro e lx' _ t ht
      cases ht

theorem gives_scanNumber (fuel : Nat) (lx : Lexer σ) :
    Meets lx (scanNumber fuel : Action σ TokenType) Gives := by
  have hfrom (state : NumberState) (lx' : Lexer σ) :
      Meets lx' (scanNumberFrom fuel state .valueUnsigned : Action σ TokenType) Gives :=
    gives_scanNumberFrom fuel state _ lx'
  refine .ite (fun _ => hfrom .minus _) fun _ => ?_
  exact .ite (fun _ => hfrom .zero _) fun _ => hfrom .any1 _

/-! ## Tokens -/

theorem noNumber_symbolToken {c : Byte} {t : TokenType} (h : symbolToken c = some t) :
    NoNumber t := by
  unfold symbolToken at h
  split_ifs at h <;> cases h <;> rfl

theorem gives_scanToken (fuel : Nat) (current : Option Byte) {lx : Lexer σ}
    (hlx : lx.nextUnget = false) :
    Meets lx (scanToken fuel current : Action σ TokenType) Gives := by
  have hquiet {x : Action σ TokenType} (hx : Quiet NoNumber x) : Meets lx x Gives := hx.gives hlx
  cases current with
  | none => exact hquiet (quiet_pure rfl)
  | some c =>
    dsimp only [scanToken]
    cases hsymbol : symbolToken c with
    | some t => exact hquiet (quiet_pure (noNumber_symbolToken hsymbol))
    | none =>
      refine .ite (fun _ => hquiet (quiet_scanLiteral _ _ rfl)) fun _ => ?_
      refine .ite (fun _ => hquiet (quiet_scanLiteral _ _ rfl)) fun _ => ?_
      refine .ite (fun _ => hquiet (quiet_scanLiteral _ _ rfl)) fun _ => ?_
      refine .ite (fun _ => hquiet (quiet_scanString fuel)) fun _ => ?_
      refine .ite (fun _ => gives_scanNumber fuel lx) fun _ => ?_
      exact .ite (fun _ => hquiet (quiet_pure rfl)) fun _ => hquiet (quiet_fail _ rfl)

theorem meets_skipWhitespace (fuel : Nat) (lx : Lexer σ) :
    Meets lx (skipWhitespace fuel : Action σ (Option Byte))
      fun r lx' => ∀ c, r = .ok c → lx'.nextUnget = false := by
  induction fuel generalizing lx with
  | zero =>
    intro c hc
    cases hc
  | succ fuel ih =>
    apply (meets_get_unget lx).bind
    · intro c lx' hunget
      exact .ite (fun _ => ih lx') fun _ => meets_pure fun _ _ => hunget
    · intro e lx' _ c hc
      cases hc

/-- Whatever has been given back before. -/
theorem gives_scan (fuel : Nat) (lx : Lexer σ) :
    Meets lx (scan fuel : Action σ TokenType) Gives := by
  apply (meets_skipWhitespace fuel lx).bind
  · intro c lx' hunget
    exact gives_scanToken fuel c (hunget c rfl)
  · intro e lx' _ t ht
    cases ht

end Lexer

end Wpi

import WpiUtil.Json.ParseTree
import WpiUtil.Json.Proofs.LexerProofs

/-!
# What the lexer makes of numbers

`Munch` is a run through the labels of `scan_number`. The runs from the first label on are the
numerals of the grammar.
-/

namespace Wpi.Lexer

open Foundations
open Foundations.JsonText (Numeral Exponent Digits IntDigits)

variable {σ : Type} [ByteSource σ]

/-- From the label `state`, with `type` as the type so far, the text `x` is read, and `w` is not. -/
inductive Munch : NumberState → TokenType → List Byte → TokenType → List Byte → Prop where
  | done {state : NumberState} (type : TokenType) {w : List Byte}
      (h : numberStep state w.head? = .done) : Munch state type [] (numberType state type) w
  | goto {state state' : NumberState} {type type' : TokenType} {c : Byte} {x w : List Byte}
      (h : numberStep state (some c) = .goto state')
      (hx : Munch state' (numberType state type) x type' w) : Munch state type (c :: x) type' w

/-! ## The end of a number -/

/-- What `scan_number` makes of the text of a number. -/
def numberOf (type : TokenType) (s : List Byte) : Json :=
  if type = .valueUnsigned then
    match strtoull s with
    | some x => .numberUnsigned x
    | none => .numberFloat (strtod s)
  else if type = .valueInteger then
    match strtoll s with
    | some x => .numberInteger x
    | none => .numberFloat (strtod s)
  else .numberFloat (strtod s)

/-- The token for a value that is not a container. -/
def tokenOf : Json → TokenType
  | .null => .literalNull
  | .boolean true => .literalTrue
  | .boolean false => .literalFalse
  | .string _ => .valueString
  | .numberUnsigned _ => .valueUnsigned
  | .numberInteger _ => .valueInteger
  | .numberFloat _ => .valueFloat
  | _ => .uninitialized

/-- The lexer holds the value `j` after its token. -/
def Holds (j : Json) (lx : Lexer σ) : Prop :=
  match j with
  | .null => True
  | .boolean _ => True
  | .string s => lx.yytext = s
  | .numberUnsigned n => lx.valueUnsigned = n
  | .numberInteger n => lx.valueInteger = n
  | .numberFloat bits => lx.valueFloat = bits
  | _ => False

/-- The last character is given back. -/
theorem at_unget {w y : List Byte} {lx lx' : Lexer σ} (h : AtAfter w.head? w.tail y lx)
    (his : lx'.is = lx.is) (hcurrent : lx'.current = lx.current) (hunget : lx'.nextUnget = true)
    (hyytext : lx'.yytext = lx.yytext) : At w y lx' := by
  obtain ⟨⟨⟨herror, _⟩, hinput, hy⟩, hc, hn⟩ := h
  unfold input at hinput
  rw [hn, if_neg (by decide), List.nil_append] at hinput
  refine ⟨⟨?_, ?_⟩, ?_, ?_⟩
  · rw [his]
    exact herror
  · intro _ hnone
    rw [hcurrent, hc, List.head?_eq_none_iff] at hnone
    rw [his, hinput, hnone, List.tail_nil]
  · unfold input
    rw [hunget, if_pos rfl, his, hinput, hcurrent, hc]
    cases w with
    | nil => rfl
    | cons c w => rfl
  · rw [hyytext, hy]

/-- A number is stored without reading. -/
theorem runs_store (j : Json) {w y : List Byte} {lx : Lexer σ} {f : Lexer σ → Lexer σ}
    (hlx : At w y lx)
    (hf : (f lx).is = lx.is ∧ (f lx).current = lx.current ∧ (f lx).nextUnget = lx.nextUnget ∧
      (f lx).yytext = lx.yytext ∧ Holds j (f lx)) :
    Runs (· = lx) (do modify f; return tokenOf j : Action σ _) (tokenOf j)
      (fun lx => At w y lx ∧ Holds j lx) := by
  obtain ⟨his, hcurrent, hunget, hyytext, hj⟩ := hf
  refine Runs.bind (a := ⟨⟩) (Q := fun lx => At w y lx ∧ Holds j lx) ?_ (runs_pure _ _)
  refine runs_modifyGet fun lx' hlx' => ⟨rfl, ?_⟩
  subst hlx'
  obtain ⟨⟨herror, hnone⟩, hinput, hy⟩ := hlx
  refine ⟨⟨⟨?_, ?_⟩, ?_, ?_⟩, hj⟩
  · rw [his]
    exact herror
  · rw [hunget, hcurrent, his]
    exact hnone
  · unfold input
    rw [hunget, hcurrent, his]
    exact hinput
  · rw [hyytext, hy]

theorem runs_scanNumberDone (type : TokenType) (w y : List Byte) :
    Runs (AtAfter w.head? w.tail y) (scanNumberDone type : Action σ _) (tokenOf (numberOf type y))
      (fun lx => At w y lx ∧ Holds (numberOf type y) lx) := by
  unfold scanNumberDone
  refine Runs.bind (a := ⟨⟩) (Q := At w y) ?_ ?_
  · exact runs_modifyGet fun lx hlx => ⟨rfl, at_unget hlx rfl rfl rfl rfl⟩
  refine Runs.get fun lx hlx => ?_
  obtain rfl := hlx.yytext
  unfold numberOf
  by_cases hunsigned : type = .valueUnsigned
  · rw [if_pos hunsigned, if_pos hunsigned]
    cases hs : strtoull lx.yytext with
    | some x => exact runs_store (.numberUnsigned x) hlx ⟨rfl, rfl, rfl, rfl, rfl⟩
    | none => exact runs_store (.numberFloat _) hlx ⟨rfl, rfl, rfl, rfl, rfl⟩
  · rw [if_neg hunsigned, if_neg hunsigned]
    by_cases hinteger : type = .valueInteger
    · rw [if_pos hinteger, if_pos hinteger]
      cases hs : strtoll lx.yytext with
      | some x => exact runs_store (.numberInteger x) hlx ⟨rfl, rfl, rfl, rfl, rfl⟩
      | none => exact runs_store (.numberFloat _) hlx ⟨rfl, rfl, rfl, rfl, rfl⟩
    · rw [if_neg hinteger, if_neg hinteger]
      exact runs_store (.numberFloat _) hlx ⟨rfl, rfl, rfl, rfl, rfl⟩

/-! ## The labels -/

theorem runs_get (u y : List Byte) :
    Runs (At u y) (get : Action σ (Option Byte)) u.head? (AtAfter u.head? u.tail y) := by
  cases u with
  | nil => exact runs_get_nil y
  | cons c u => exact runs_get_cons c u y

theorem runs_scanNumberFrom {state : NumberState} {type type' : TokenType} {x w : List Byte}
    (h : Munch state type x type' w) {fuel : Nat} (hfuel : x.length < fuel) (y : List Byte) :
    Runs (At (x ++ w) y) (scanNumberFrom fuel state type : Action σ _)
      (tokenOf (numberOf type' (y ++ x)))
      (fun lx => At w (y ++ x) lx ∧ Holds (numberOf type' (y ++ x)) lx) := by
  induction h generalizing fuel y with
  | done type h =>
    obtain ⟨fuel, rfl⟩ : ∃ k, fuel = k + 1 := ⟨fuel - 1, by omega⟩
    rw [scanNumberFrom, List.nil_append, List.append_nil]
    refine (runs_get _ y).bind ?_
    rw [h]
    exact runs_scanNumberDone _ _ _
  | @goto state state' type type' c x w h _ ih =>
    obtain ⟨fuel, rfl⟩ : ∃ k, fuel = k + 1 := ⟨fuel - 1, by omega⟩
    rw [scanNumberFrom]
    refine Runs.get_cons ?_
    rw [h]
    refine (runs_addAll _ _ _).bind ?_
    have hrest := ih (show x.length < fuel by simpa using hfuel) (y ++ [c])
    rwa [List.append_assoc] at hrest

/-- Every number is read as far as it goes, or there is an error. -/
theorem scanNumberFrom_cases (fuel : Nat) (state : NumberState) (type : TokenType)
    (u y : List Byte) (hfuel : u.length < fuel) :
    (∃ x w type', u = x ++ w ∧ Munch state type x type' w) ∨
      Runs (At u y) (scanNumberFrom fuel state type : Action σ _) .parseError Ready := by
  induction fuel generalizing state type u y with
  | zero => omega
  | succ fuel ih =>
    cases hstep : numberStep state u.head? with
    | done => exact Or.inl ⟨[], u, _, rfl, .done type hstep⟩
    | error message =>
      refine Or.inr ?_
      rw [scanNumberFrom]
      refine (runs_get u y).bind ?_
      rw [hstep]
      exact (runs_fail _ _ _).mono (fun _ h => h.at') fun _ h => h.ready
    | goto state' =>
      cases u with
      | nil => cases state <;> cases hstep
      | cons c u =>
        rcases ih state' (numberType state type) u (y ++ [c]) (by simpa using hfuel) with
          ⟨x, w, type', rfl, hx⟩ | h
        · exact Or.inl ⟨c :: x, w, type', rfl, .goto hstep hx⟩
        · refine Or.inr ?_
          rw [scanNumberFrom]
          refine Runs.get_cons ?_
          rw [List.head?_cons] at hstep
          rw [hstep]
          exact (runs_addAll _ _ _).bind h

/-! ## From numerals to runs -/

/-- No number goes on with `w`. -/
def Ends (w : List Byte) : Prop :=
  ∀ c, w.head? = some c → isDigit c = false ∧ c ≠ 0x2e ∧ c ≠ 0x65 ∧ c ≠ 0x45

/-- The labels at which a number may end. -/
def Final (state : NumberState) : Prop :=
  state = .zero ∨ state = .any1 ∨ state = .decimal2 ∨ state = .any2

theorem numberStep_ends {state : NumberState} (hstate : Final state) {w : List Byte} (hw : Ends w) :
    numberStep state w.head? = .done := by
  cases hc : w.head? with
  | none => rcases hstate with rfl | rfl | rfl | rfl <;> rfl
  | some c =>
    obtain ⟨hdigit, hpoint, he, hE⟩ := hw c hc
    rcases hstate with rfl | rfl | rfl | rfl <;> simp [numberStep, hdigit, hpoint, he, hE]

/-- The labels that are followed by themselves as long as there are digits. -/
theorem munch_digits {state : NumberState}
    (hstate : state = .any1 ∨ state = .decimal2 ∨ state = .any2) {ds x w : List Byte}
    (hds : Digits ds) {type type' : TokenType} (hx : Munch state type x type' w) :
    Munch state type (ds ++ x) type' w := by
  induction ds with
  | nil => exact hx
  | cons d ds ih =>
    have hd : isDigit d = true := hds d List.mem_cons_self
    have hrest := ih fun c hc => hds c (List.mem_cons_of_mem d hc)
    rcases hstate with rfl | rfl | rfl
    · exact .goto (by simp [numberStep, hd]) hrest
    · exact .goto (by simp [numberStep, hd]) hrest
    · exact .goto (by simp [numberStep, hd]) hrest

theorem munch_exponent {e : Exponent} (he : e.WF) {w : List Byte} (hw : Ends w)
    (type : TokenType) : Munch .exponent type (e.sign.toList ++ e.digits) .valueFloat w := by
  obtain ⟨d, ds, hdigits⟩ := List.exists_cons_of_ne_nil he.ne_nil
  have hd : isDigit d = true := he.digits d (by rw [hdigits]; exact List.mem_cons_self)
  have hds : Digits ds := fun c hc => he.digits c (by rw [hdigits]; exact List.mem_cons_of_mem d hc)
  have hend : Munch .any2 .valueFloat [] .valueFloat w :=
    .done _ (numberStep_ends (by simp [Final]) hw)
  have hmore : Munch .any2 .valueFloat ds .valueFloat w := by
    have h := munch_digits (by simp) hds hend
    rwa [List.append_nil] at h
  have hsign : d ≠ 0x2b ∧ d ≠ 0x2d := by
    rw [isDigit_iff] at hd
    constructor <;> rintro rfl <;> simp at hd
  rw [hdigits]
  cases hs : e.sign with
  | none => exact .goto (by simp [numberStep, hd, hsign]) hmore
  | some s =>
    have hstep : numberStep .exponent (some s) = .goto .sign := by
      simp [numberStep, he.sign s hs]
    exact .goto hstep (.goto (by simp [numberStep, hd]) hmore)

/-- What may come after the digits of a number. -/
theorem munch_exp {state : NumberState}
    (hstate : state = .zero ∨ state = .any1 ∨ state = .decimal2) {exp : Option Exponent}
    (hexp : ∀ e, exp = some e → e.WF) {w : List Byte} (hw : Ends w) (type : TokenType) :
    Munch state type (exp.elim [] Exponent.text)
      (if exp.isNone then type else .valueFloat) w := by
  cases exp with
  | none =>
    rcases hstate with rfl | rfl | rfl
    · exact .done type (numberStep_ends (by simp [Final]) hw)
    · exact .done type (numberStep_ends (by simp [Final]) hw)
    · exact .done type (numberStep_ends (by simp [Final]) hw)
  | some e =>
    have hrest := munch_exponent (hexp e rfl) hw type
    have hletter := (hexp e rfl).letter
    have hdigit : isDigit e.letter = false := by
      rcases hletter with h | h <;> rw [h] <;> rfl
    have hpoint : e.letter ≠ 0x2e := by
      rcases hletter with h | h <;> rw [h] <;> decide
    rcases hstate with rfl | rfl | rfl
    · exact .goto (by simp [numberStep, hpoint, hletter]) hrest
    · exact .goto (by simp [numberStep, hdigit, hpoint, hletter]) hrest
    · exact .goto (by simp [numberStep, hdigit, hletter]) hrest

theorem munch_frac {state : NumberState} (hstate : state = .zero ∨ state = .any1)
    {frac : Option (List Byte)} (hfrac : ∀ ds, frac = some ds → Digits ds ∧ ds ≠ [])
    {exp : Option Exponent} (hexp : ∀ e, exp = some e → e.WF) {w : List Byte} (hw : Ends w)
    (type : TokenType) :
    Munch state type ((frac.elim [] fun ds => 0x2e :: ds) ++ exp.elim [] Exponent.text)
      (if frac.isNone && exp.isNone then type else .valueFloat) w := by
  cases frac with
  | none => exact munch_exp (hstate.imp_right Or.inl) hexp hw type
  | some ds =>
    obtain ⟨hdigits, hne⟩ := hfrac ds rfl
    obtain ⟨d, ds, rfl⟩ := List.exists_cons_of_ne_nil hne
    have hd : isDigit d = true := hdigits d List.mem_cons_self
    have hds : Digits ds := fun c hc => hdigits c (List.mem_cons_of_mem d hc)
    have hexp' := munch_exp (Or.inr (Or.inr rfl)) hexp hw .valueFloat
    rw [ite_self] at hexp'
    have hrest : Munch .decimal1 type (d :: (ds ++ exp.elim [] Exponent.text)) .valueFloat w :=
      .goto (by simp [numberStep, hd]) (munch_digits (by simp) hds hexp')
    have hpoint : isDigit 0x2e = false := rfl
    rcases hstate with rfl | rfl
    · exact .goto (by simp [numberStep]) hrest
    · exact .goto (by simp [numberStep, hpoint]) hrest

/-- The label for the first character of a number. -/
def firstState (c : Byte) : Option NumberState :=
  if c = 0x2d then some .minus
  else if c = 0x30 then some .zero
  else if isDigit c then some .any1
  else none

/-- The type of the token for a number, if it is in range. -/
def numeralType (n : Numeral) : TokenType :=
  if n.isInteger then if n.negative then .valueInteger else .valueUnsigned else .valueFloat

/-- The digits before the decimal point lead to the rest of the number. -/
theorem munch_int {int : List Byte} (hint : IntDigits int) {frac : Option (List Byte)}
    (hfrac : ∀ ds, frac = some ds → Digits ds ∧ ds ≠ []) {exp : Option Exponent}
    (hexp : ∀ e, exp = some e → e.WF) {w : List Byte} (hw : Ends w) (type : TokenType) :
    ∃ c x state, int ++ (frac.elim [] fun ds => 0x2e :: ds) ++ exp.elim [] Exponent.text = c :: x ∧
      firstState c = some state ∧ numberStep .minus (some c) = .goto state ∧
      Munch state type x (if frac.isNone && exp.isNone then type else .valueFloat) w := by
  rcases hint with rfl | ⟨c, cs, rfl, hzero, hdigits⟩
  · exact ⟨0x30, _, .zero, rfl, rfl, rfl, munch_frac (Or.inl rfl) hfrac hexp hw type⟩
  · have hc : isDigit c = true := hdigits c List.mem_cons_self
    have hcs : Digits cs := fun d hd => hdigits d (List.mem_cons_of_mem c hd)
    have hminus : c ≠ 0x2d := by
      rintro rfl
      cases hc
    refine ⟨c, _, .any1, rfl, by simp [firstState, hminus, hzero, hc],
      by simp [numberStep, hzero, hc], ?_⟩
    have hrest := munch_digits (by simp) hcs (munch_frac (Or.inr rfl) hfrac hexp hw type)
    rwa [← List.append_assoc] at hrest

/-- A numeral is read to its end. -/
theorem munch_numeral {n : Numeral} (hn : n.WF) {w : List Byte} (hw : Ends w) :
    ∃ c x state, n.text = c :: x ∧ firstState c = some state ∧
      Munch state .valueUnsigned x (numeralType n) w := by
  obtain ⟨negative, int, frac, exp⟩ := n
  obtain ⟨hint, hfrac, hexp⟩ := hn
  unfold Numeral.text numeralType Numeral.isInteger
  cases negative with
  | false =>
    obtain ⟨c, x, state, htext, hfirst, _, hx⟩ := munch_int hint hfrac hexp hw .valueUnsigned
    exact ⟨c, x, state, htext, hfirst, hx⟩
  | true =>
    obtain ⟨c, x, state, htext, _, hstep, hx⟩ := munch_int hint hfrac hexp hw .valueInteger
    refine ⟨0x2d, c :: x, .minus, ?_, rfl, .goto hstep hx⟩
    simp only [if_true]
    rw [← htext]
    simp

/-! ## From runs to numerals -/

theorem digits_cons {d : Byte} {ds : List Byte} (hd : isDigit d = true) (hds : Digits ds) :
    Digits (d :: ds) := by
  intro c hc
  rcases List.mem_cons.1 hc with rfl | hc
  · exact hd
  · exact hds c hc

theorem digits_nil : Digits [] := fun c hc => by cases hc

theorem any2_of_munch {type type' : TokenType} {x w : List Byte}
    (h : Munch .any2 type x type' w) : Digits x ∧ type' = type := by
  induction x with
  | nil =>
    cases h
    exact ⟨digits_nil, rfl⟩
  | cons c x ih =>
    cases h with
    | goto hstep hx =>
      unfold numberStep at hstep
      simp only at hstep
      split_ifs at hstep with hc
      cases hstep
      exact ⟨digits_cons hc (ih hx).1, (ih hx).2⟩

theorem final_of_done {state : NumberState} {c : Option Byte} (h : numberStep state c = .done) :
    Final state := by
  unfold Final
  by_contra hstate
  unfold numberStep at h
  cases state <;> simp only [reduceCtorEq, or_false, or_true, not_true] at hstate
  all_goals
    cases c with
    | none => cases h
    | some c =>
      simp only at h
      split_ifs at h

/-- At a label where a number may not end there is another character. -/
theorem goto_of_munch {state : NumberState} (hstate : ¬Final state) {type type' : TokenType}
    {x w : List Byte} (h : Munch state type x type' w) :
    ∃ c v state', x = c :: v ∧ numberStep state (some c) = .goto state' ∧
      Munch state' (numberType state type) v type' w := by
  cases h with
  | done _ hdone => exact absurd (final_of_done hdone) hstate
  | @goto _ state' _ _ c v _ hstep hv => exact ⟨c, v, state', rfl, hstep, hv⟩

theorem sign_of_munch {type type' : TokenType} {x w : List Byte}
    (h : Munch .sign type x type' w) : Digits x ∧ x ≠ [] ∧ type' = type := by
  obtain ⟨c, v, state', rfl, hstep, hv⟩ := goto_of_munch (by simp [Final]) h
  unfold numberStep at hstep
  simp only at hstep
  split_ifs at hstep with hc
  cases hstep
  obtain ⟨hdigits, htype⟩ := any2_of_munch hv
  exact ⟨digits_cons hc hdigits, List.cons_ne_nil c v, htype⟩

theorem exponent_of_munch {type type' : TokenType} {x w : List Byte}
    (h : Munch .exponent type x type' w) :
    ∃ (sign : Option Byte) (ds : List Byte), x = sign.toList ++ ds ∧
      (∀ s, sign = some s → s = 0x2b ∨ s = 0x2d) ∧ Digits ds ∧ ds ≠ [] ∧ type' = .valueFloat := by
  obtain ⟨c, v, state', rfl, hstep, hv⟩ := goto_of_munch (by simp [Final]) h
  unfold numberStep at hstep
  simp only at hstep
  split_ifs at hstep with hsign hc
  · cases hstep
    obtain ⟨hdigits, hne, htype⟩ := sign_of_munch hv
    refine ⟨some c, v, rfl, fun s hs => ?_, hdigits, hne, htype⟩
    cases hs
    exact hsign
  · cases hstep
    obtain ⟨hdigits, htype⟩ := any2_of_munch hv
    exact ⟨none, c :: v, rfl, fun s hs => (by cases hs), digits_cons hc hdigits,
      List.cons_ne_nil c v, htype⟩

/-- After the letter of an exponent. -/
theorem exp_of_munch {letter : Byte} (hletter : letter = 0x65 ∨ letter = 0x45)
    {type type' : TokenType} {x w : List Byte} (h : Munch .exponent type x type' w) :
    ∃ e : Exponent, e.WF ∧ letter :: x = e.text ∧ type' = .valueFloat := by
  obtain ⟨sign, ds, rfl, hsign, hdigits, hne, htype⟩ := exponent_of_munch h
  exact ⟨⟨letter, sign, ds⟩, ⟨hletter, hsign, hdigits, hne⟩, rfl, htype⟩

theorem decimal2_of_munch {type' : TokenType} {x w : List Byte}
    (h : Munch .decimal2 .valueFloat x type' w) :
    ∃ (ds : List Byte) (exp : Option Exponent), x = ds ++ exp.elim [] Exponent.text ∧ Digits ds ∧
      (∀ e, exp = some e → e.WF) ∧ type' = .valueFloat := by
  induction x with
  | nil =>
    cases h
    exact ⟨[], none, rfl, digits_nil, fun e he => (by cases he), rfl⟩
  | cons c x ih =>
    cases h with
    | goto hstep hx =>
      unfold numberStep at hstep
      simp only at hstep
      split_ifs at hstep with hc hletter
      · cases hstep
        obtain ⟨ds, exp, rfl, hdigits, hexp, htype⟩ := ih hx
        exact ⟨c :: ds, exp, rfl, digits_cons hc hdigits, hexp, htype⟩
      · cases hstep
        obtain ⟨e, he, htext, htype⟩ := exp_of_munch hletter hx
        refine ⟨[], some e, htext, digits_nil, fun e' he' => ?_, htype⟩
        cases he'
        exact he

/-- The fraction and the exponent of a number. -/
structure Tail (frac : Option (List Byte)) (exp : Option Exponent) (x : List Byte)
    (type type' : TokenType) : Prop where
  text : x = (frac.elim [] fun ds => 0x2e :: ds) ++ exp.elim [] Exponent.text
  fracWF : ∀ ds, frac = some ds → Digits ds ∧ ds ≠ []
  expWF : ∀ e, exp = some e → e.WF
  type : type' = if frac.isNone && exp.isNone then type else .valueFloat

theorem tail_nil (type : TokenType) : Tail none none [] type type :=
  ⟨rfl, fun ds hds => (by cases hds), fun e he => (by cases he), rfl⟩

theorem tail_of_decimal1 {type type' : TokenType} {x w : List Byte}
    (h : Munch .decimal1 type x type' w) : ∃ frac exp, Tail frac exp (0x2e :: x) type type' := by
  obtain ⟨c, v, state', rfl, hstep, hv⟩ := goto_of_munch (by simp [Final]) h
  unfold numberStep at hstep
  simp only at hstep
  split_ifs at hstep with hc
  cases hstep
  obtain ⟨ds, exp, rfl, hdigits, hexp, htype⟩ := decimal2_of_munch hv
  refine ⟨some (c :: ds), exp, rfl, fun ds' hds' => ?_, hexp, htype⟩
  cases hds'
  exact ⟨digits_cons hc hdigits, List.cons_ne_nil c ds⟩

theorem tail_of_exponent {letter : Byte} (hletter : letter = 0x65 ∨ letter = 0x45)
    {type type' : TokenType} {x w : List Byte} (h : Munch .exponent type x type' w) :
    ∃ frac exp, Tail frac exp (letter :: x) type type' := by
  obtain ⟨e, he, htext, htype⟩ := exp_of_munch hletter h
  refine ⟨none, some e, htext, fun ds hds => (by cases hds), fun e' he' => ?_, htype⟩
  cases he'
  exact he

theorem tail_of_zero {type type' : TokenType} {x w : List Byte} (h : Munch .zero type x type' w) :
    ∃ frac exp, Tail frac exp x type type' := by
  cases h with
  | done _ _ => exact ⟨none, none, tail_nil type⟩
  | goto hstep hx =>
    unfold numberStep at hstep
    simp only at hstep
    split_ifs at hstep with hpoint hletter
    · cases hstep
      rw [hpoint]
      exact tail_of_decimal1 hx
    · cases hstep
      exact tail_of_exponent hletter hx

theorem tail_of_any1 {type type' : TokenType} {x w : List Byte} (h : Munch .any1 type x type' w) :
    ∃ ds v frac exp, x = ds ++ v ∧ Digits ds ∧ Tail frac exp v type type' := by
  induction x with
  | nil =>
    cases h
    exact ⟨[], [], none, none, rfl, digits_nil, tail_nil type⟩
  | cons c x ih =>
    cases h with
    | goto hstep hx =>
      unfold numberStep at hstep
      simp only at hstep
      split_ifs at hstep with hc hpoint hletter
      · cases hstep
        obtain ⟨ds, v, frac, exp, rfl, hdigits, htail⟩ := ih hx
        exact ⟨c :: ds, v, frac, exp, rfl, digits_cons hc hdigits, htail⟩
      · cases hstep
        obtain ⟨frac, exp, htail⟩ := tail_of_decimal1 hx
        exact ⟨[], _, frac, exp, rfl, digits_nil, by rwa [hpoint]⟩
      · cases hstep
        obtain ⟨frac, exp, htail⟩ := tail_of_exponent hletter hx
        exact ⟨[], _, frac, exp, rfl, digits_nil, htail⟩

/-- What comes after a possible sign. -/
theorem int_of_munch {c : Byte} {state : NumberState}
    (hstate : c = 0x30 ∧ state = .zero ∨ c ≠ 0x30 ∧ isDigit c = true ∧ state = .any1)
    {type type' : TokenType} {x w : List Byte} (h : Munch state type x type' w) :
    ∃ int v frac exp, c :: x = int ++ v ∧ IntDigits int ∧ Tail frac exp v type type' := by
  rcases hstate with ⟨rfl, rfl⟩ | ⟨hzero, hc, rfl⟩
  · obtain ⟨frac, exp, htail⟩ := tail_of_zero h
    exact ⟨[0x30], x, frac, exp, rfl, Or.inl rfl, htail⟩
  · obtain ⟨ds, v, frac, exp, rfl, hdigits, htail⟩ := tail_of_any1 h
    exact ⟨c :: ds, v, frac, exp, rfl, Or.inr ⟨c, ds, rfl, hzero, digits_cons hc hdigits⟩, htail⟩

/-- What is read from the first label on is a numeral. -/
theorem numeral_of_munch {c : Byte} {state : NumberState} (hfirst : firstState c = some state)
    {type' : TokenType} {x w : List Byte} (h : Munch state .valueUnsigned x type' w) :
    ∃ n : Numeral, n.WF ∧ n.text = c :: x ∧ type' = numeralType n := by
  unfold firstState at hfirst
  split_ifs at hfirst with hminus hzero hdigit
  · cases hfirst
    obtain ⟨d, v, state', rfl, hstep, hv⟩ := goto_of_munch (by simp [Final]) h
    have hstate : d = 0x30 ∧ state' = .zero ∨ d ≠ 0x30 ∧ isDigit d = true ∧ state' = .any1 := by
      unfold numberStep at hstep
      simp only at hstep
      split_ifs at hstep with hzero hdigit
      · cases hstep
        exact Or.inl ⟨hzero, rfl⟩
      · cases hstep
        exact Or.inr ⟨hzero, hdigit, rfl⟩
    obtain ⟨int, v', frac, exp, htext, hint, htail⟩ := int_of_munch hstate hv
    refine ⟨⟨true, int, frac, exp⟩, ⟨hint, htail.fracWF, htail.expWF⟩, ?_, htail.type⟩
    rw [htext, htail.text, hminus, Numeral.text]
    simp
  · cases hfirst
    obtain ⟨int, v', frac, exp, htext, hint, htail⟩ := int_of_munch (Or.inl ⟨hzero, rfl⟩) h
    refine ⟨⟨false, int, frac, exp⟩, ⟨hint, htail.fracWF, htail.expWF⟩, ?_, htail.type⟩
    rw [htext, htail.text, Numeral.text]
    simp
  · cases hfirst
    obtain ⟨int, v', frac, exp, htext, hint, htail⟩ :=
      int_of_munch (Or.inr ⟨hzero, hdigit, rfl⟩) h
    refine ⟨⟨false, int, frac, exp⟩, ⟨hint, htail.fracWF, htail.expWF⟩, ?_, htail.type⟩
    rw [htext, htail.text, Numeral.text]
    simp

/-! ## The values of numbers -/

theorem takeWhile_all {ds : List Byte} (hds : Digits ds) : ds.takeWhile isDigit = ds :=
  List.takeWhile_eq_self_iff.2 hds

theorem digits_of_int {int : List Byte} (h : IntDigits int) : Digits int ∧ int ≠ [] := by
  rcases h with rfl | ⟨c, cs, rfl, _, h⟩
  · exact ⟨digits_cons rfl digits_nil, List.cons_ne_nil _ _⟩
  · exact ⟨h, List.cons_ne_nil _ _⟩

/-- There is no sign. -/
theorem takeSign_of_ne {s : List Byte} (h : ∀ c, s.head? = some c → c ≠ 0x2d ∧ c ≠ 0x2b) :
    takeSign s = (false, s) := by
  unfold takeSign
  split
  · exact absurd rfl (h _ rfl).1
  · exact absurd rfl (h _ rfl).2
  · rfl

theorem takeSign_digits {ds v : List Byte} (hds : Digits ds) (hne : ds ≠ []) :
    takeSign (ds ++ v) = (false, ds ++ v) := by
  obtain ⟨d, ds, rfl⟩ := List.exists_cons_of_ne_nil hne
  have hd := isDigit_iff.1 (hds d List.mem_cons_self)
  refine takeSign_of_ne fun c hc => ?_
  rw [List.cons_append, List.head?_cons, Option.some.injEq] at hc
  subst hc
  constructor
  · rintro rfl
    simp at hd
  · rintro rfl
    simp at hd

theorem scanExponentPart_text {e : Exponent} (he : e.WF) : scanExponentPart e.text = e.toInt := by
  unfold Exponent.text scanExponentPart Exponent.toInt
  simp only
  rw [if_pos he.letter]
  cases hs : e.sign with
  | none =>
    have hsign := takeSign_digits (v := []) he.digits he.ne_nil
    rw [List.append_nil] at hsign
    rw [Option.toList_none, List.nil_append, hsign]
    simp [takeWhile_all he.digits]
  | some s =>
    rw [Option.toList_some, List.singleton_append]
    rcases he.sign s hs with rfl | rfl
    · simp [takeSign, takeWhile_all he.digits]
    · simp [takeSign, takeWhile_all he.digits]

theorem exp_head {exp : Option Exponent} (hexp : ∀ e, exp = some e → e.WF) {c : Byte}
    (hc : (exp.elim [] Exponent.text).head? = some c) : isDigit c = false ∧ c ≠ 0x2e := by
  cases exp with
  | none => cases hc
  | some e =>
    rw [Option.elim_some, Exponent.text, List.head?_cons, Option.some.injEq] at hc
    subst hc
    rcases (hexp e rfl).letter with h | h <;> rw [h] <;> decide

theorem scanFraction_text {frac : Option (List Byte)}
    (hfrac : ∀ ds, frac = some ds → Digits ds ∧ ds ≠ []) {exp : Option Exponent}
    (hexp : ∀ e, exp = some e → e.WF) :
    scanFraction ((frac.elim [] fun ds => 0x2e :: ds) ++ exp.elim [] Exponent.text) =
      (frac.getD [], exp.elim [] Exponent.text) := by
  cases frac with
  | none =>
    rw [Option.elim_none, List.nil_append, Option.getD_none]
    unfold scanFraction
    split
    · next h => rw [h]
    · next c s h =>
      have hpoint : c ≠ 0x2e := (exp_head hexp (by rw [h, List.head?_cons])).2
      rw [if_neg hpoint, h]
  | some ds =>
    have htake := takeWhile_dropWhile_append (hfrac ds rfl).1 fun c hc => (exp_head hexp hc).1
    rw [Option.elim_some, List.cons_append, scanFraction, if_pos rfl, htake.1, htake.2,
      Option.getD_some]

theorem takeSign_text {n : Numeral} (hn : n.WF) :
    takeSign n.text = (n.negative, n.int ++ ((n.frac.elim [] fun ds => 0x2e :: ds) ++
      n.exp.elim [] Exponent.text)) := by
  have hint := digits_of_int hn.int
  unfold Numeral.text
  rw [List.append_assoc, List.append_assoc]
  cases n.negative with
  | true => rfl
  | false =>
    rw [if_neg (by decide), List.nil_append]
    exact takeSign_digits hint.1 hint.2

theorem strtod_text {n : Numeral} (hn : n.WF) : strtod n.text = n.toDouble := by
  have hint := digits_of_int hn.int
  have hstop : ∀ c, ((n.frac.elim [] fun ds => 0x2e :: ds) ++
      n.exp.elim [] Exponent.text).head? = some c → isDigit c = false := by
    intro c hc
    cases hfrac : n.frac with
    | none =>
      rw [hfrac, Option.elim_none, List.nil_append] at hc
      exact (exp_head hn.exp hc).1
    | some ds =>
      rw [hfrac, Option.elim_some, List.cons_append, List.head?_cons, Option.some.injEq] at hc
      rw [← hc]
      rfl
  have htake := takeWhile_dropWhile_append hint.1 hstop
  have hexp : scanExponentPart (n.exp.elim [] Exponent.text) = n.exp.elim 0 Exponent.toInt := by
    cases he : n.exp with
    | none => rfl
    | some e => exact scanExponentPart_text (hn.exp e he)
  unfold strtod Numeral.toDouble
  rw [takeSign_text hn]
  simp only
  rw [htake.1, htake.2, scanFraction_text hn.frac hn.exp]
  simp only
  rw [hexp]

theorem parts_of_isInteger {n : Numeral} (h : n.isInteger = true) :
    n.frac = none ∧ n.exp = none := by
  simpa only [Numeral.isInteger, Bool.and_eq_true, Option.isNone_iff_eq_none] using h

theorem strtoull_text {n : Numeral} (hn : n.WF) (hinteger : n.isInteger = true)
    (hnegative : n.negative = false) : strtoull n.text =
      if ParseTree.fits n then some (UInt64.ofNat n.toInt.toNat) else none := by
  have htext : n.text = n.int := by
    rw [Numeral.text, hnegative, (parts_of_isInteger hinteger).1, (parts_of_isInteger hinteger).2]
    simp
  have hvalue : n.toInt = (ofDecimal 0 n.int : ℕ) := by
    rw [Numeral.toInt, hnegative, if_neg (by decide)]
  have hfits : ParseTree.fits n = true ↔ ofDecimal 0 n.int < 2 ^ 64 := by
    rw [ParseTree.fits, hinteger, Bool.true_and, decide_eq_true_eq]
    omega
  unfold strtoull
  rw [htext, takeWhile_all (digits_of_int hn.int).1, hvalue]
  by_cases hlt : ofDecimal 0 n.int < 2 ^ 64
  · simp only [hfits.2 hlt, hlt, if_true, Int.toNat_natCast]
  · simp only [mt hfits.1 hlt, hlt, if_false, Bool.false_eq_true]

theorem strtoll_text {n : Numeral} (hn : n.WF) (hinteger : n.isInteger = true)
    (hnegative : n.negative = true) : strtoll n.text =
      if ParseTree.fits n then some (Int64.ofInt n.toInt) else none := by
  have htext : takeSign n.text = (true, n.int) := by
    rw [takeSign_text hn, hnegative, (parts_of_isInteger hinteger).1,
      (parts_of_isInteger hinteger).2]
    simp
  have hvalue : n.toInt = -(ofDecimal 0 n.int : ℕ) := by
    rw [Numeral.toInt, hnegative, if_pos rfl]
  have hfits : ParseTree.fits n = true ↔
      -2 ^ 63 ≤ -(ofDecimal 0 n.int : ℤ) ∧ -(ofDecimal 0 n.int : ℤ) < 2 ^ 63 := by
    rw [ParseTree.fits, hinteger, Bool.true_and, decide_eq_true_eq]
    omega
  unfold strtoll
  simp only [htext, takeWhile_all (digits_of_int hn.int).1, if_true]
  rw [hvalue]
  by_cases hlt : -2 ^ 63 ≤ -(ofDecimal 0 n.int : ℤ) ∧ -(ofDecimal 0 n.int : ℤ) < 2 ^ 63
  · rw [if_pos hlt, if_pos (hfits.2 hlt)]
  · rw [if_neg hlt, if_neg (mt hfits.1 hlt)]

/-- A number has the value that the text denotes. -/
theorem numberOf_text {n : Numeral} (hn : n.WF) :
    numberOf (numeralType n) n.text = ParseTree.numberJson n := by
  unfold numberOf numeralType ParseTree.numberJson
  rw [strtod_text hn]
  cases hinteger : n.isInteger with
  | false => simp [ParseTree.fits, hinteger]
  | true =>
    cases hnegative : n.negative with
    | false =>
      rw [strtoull_text hn hinteger hnegative]
      cases ParseTree.fits n <;> rfl
    | true =>
      rw [strtoll_text hn hinteger hnegative]
      cases ParseTree.fits n <;> rfl

end Wpi.Lexer

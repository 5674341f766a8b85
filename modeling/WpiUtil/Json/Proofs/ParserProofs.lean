import WpiUtil.Json.Proofs.LexerTokenProofs

/-!
# What the parser makes of a JSON text

From the text of a tree `parse_internal` gets the value of the tree.
-/

namespace Wpi.Parser

open Foundations
open Foundations.JsonText (Blanks Phrase Derives Tree)
open Lexer (Scans Lexeme Holds)

variable {σ : Type} [ByteSource σ]

/-- `w` is left to read. -/
structure Reads (cb : Option ParserCallback) (s : Calls) (w : List Byte) (p : Parser σ) :
    Prop where
  callback : p.callback = cb
  calls : p.calls = s
  ready : p.lexer.Ready
  input : p.lexer.input = w

/-- The token `t` with the value `j` has been read, and `w` is left to read. -/
structure Looks (cb : Option ParserCallback) (s : Calls) (t : TokenType) (j : Json)
    (w : List Byte) (p : Parser σ) : Prop where
  reads : Reads cb s w p
  lastToken : p.lastToken = t
  holds : Holds j p.lexer

variable {cb : Option ParserCallback} {s : Calls} {t : TokenType} {j : Json} {u w : List Byte}

theorem runs_getToken_of {fuel : Nat} {Q : Lexer σ → Prop}
    (h : ∀ y, Runs (Lexer.At u y) (Lexer.scan fuel) t Q) :
    Runs (Reads cb s u) (getToken fuel : Action σ _) t
      (fun p => p.callback = cb ∧ p.calls = s ∧ p.lastToken = t ∧ Q p.lexer) := by
  unfold getToken
  refine Runs.get fun p hp => ?_
  obtain ⟨lx, hrun, hlx⟩ := h p.lexer.yytext p.lexer ⟨hp.ready, hp.input, rfl⟩
  rw [hrun]
  exact Runs.bind (a := ⟨⟩) (runs_set ⟨hp.callback, hp.calls, rfl, hlx⟩) (runs_pure _ _)

theorem runs_getToken (h : Scans u t j w) {fuel : Nat} (hfuel : u.length < fuel) :
    Runs (Reads cb s u) (getToken fuel : Action σ _) t (Looks cb s t j w) := by
  obtain ⟨v, hu, hv⟩ := h
  refine (runs_getToken_of fun y => Lexer.runs_scan hu hv hfuel y).mono (fun _ h => h) ?_
  rintro p ⟨hcallback, hcalls, htoken, hp⟩
  exact ⟨⟨hcallback, hcalls, hp.ready, hp.input⟩, htoken, hp.holds⟩

omit [ByteSource σ] in
theorem runs_withCalls [ByteSource σ] {α : Type} (x : Option ParserCallback → StateM Calls α) :
    Runs (Looks cb s t j w) (withCalls x : Action σ α) ((x cb).run s).1
      (Looks cb ((x cb).run s).2 t j w) := by
  refine runs_modifyGet fun p hp => ?_
  obtain ⟨⟨rfl, rfl, hready, hinput⟩, htoken, hj⟩ := hp
  exact ⟨rfl, ⟨rfl, rfl, hready, hinput⟩, htoken, hj⟩

theorem runs_expect : Runs (Looks cb s t j w) (expect t : Action σ _) ⟨⟩ (Looks cb s t j w) := by
  unfold expect
  refine Runs.get fun p hp => ?_
  rw [if_neg (not_not_intro hp.lastToken.symm)]
  exact (runs_pure _ _).mono (fun _ h => h) fun _ h => h ▸ hp

/-- The last token is read. -/
theorem Runs.look {α : Type} {f : Parser σ → Action σ α} {a : α} {Q : Parser σ → Prop}
    (h : ∀ p, Looks cb s t j w p → Runs (Looks cb s t j w) (f p) a Q) :
    Runs (Looks cb s t j w) (MonadState.get >>= f) a Q :=
  Runs.get fun p hp => (h p hp).mono (fun _ h => h ▸ hp) fun _ h => h

/-! ## Values that are not containers -/

/-- The value is no container, and a number in it is finite. -/
def IsScalar : Json → Prop
  | .null => True
  | .boolean _ => True
  | .string _ => True
  | .numberUnsigned _ => True
  | .numberInteger _ => True
  | .numberFloat bits => Binary64.isFinite bits = true
  | _ => False

theorem runs_scalar (hj : IsScalar j) (fuel : Nat) (keep : Bool) :
    Runs (Looks cb s (Lexer.tokenOf j) j w) (parseInternal (fuel + 1) keep : Action σ _)
      ((Calls.endValue cb keep j).run s).1 (Reads cb ((Calls.endValue cb keep j).run s).2 w) := by
  rw [parseInternal]
  refine Runs.look fun p hp => ?_
  rw [hp.lastToken]
  have hcalls : Runs (Looks cb s (Lexer.tokenOf j) j w)
      (withCalls (Calls.endValue · keep j) : Action σ _) ((Calls.endValue cb keep j).run s).1
      (Reads cb ((Calls.endValue cb keep j).run s).2 w) :=
    (runs_withCalls _).mono (fun _ h => h) fun _ h => h.reads
  have hholds := hp.holds
  cases j with
  | null => exact hcalls
  | boolean b => cases b <;> exact hcalls
  | string text =>
    obtain rfl : p.lexer.yytext = text := hholds
    exact hcalls
  | numberUnsigned n =>
    obtain rfl : p.lexer.valueUnsigned = n := hholds
    exact hcalls
  | numberInteger n =>
    obtain rfl : p.lexer.valueInteger = n := hholds
    exact hcalls
  | numberFloat bits =>
    obtain rfl : p.lexer.valueFloat = bits := hholds
    have hfinite : Binary64.isFinite p.lexer.valueFloat = true := hj
    simp only [Lexer.tokenOf, hfinite, if_true]
    exact hcalls
  | _ => exact hj.elim

/-! ## Trees -/

open ParseTree (eval evalElements evalMembers)

theorem run_eval_array (keep : Bool) (ts : List Tree) :
    (eval cb keep (.array ts)).run s =
      let start := (Calls.startContainer cb .arrayStart Json.emptyArray keep).run s
      let result := (evalElements cb start.1.1 start.1.2 ts).run start.2
      (Calls.endContainer cb .arrayEnd (start.1.1 || ts.isEmpty) result.1).run result.2 := by
  rw [eval]
  rfl

theorem run_eval_object (keep : Bool) (ms : List (List Char × Tree)) :
    (eval cb keep (.object ms)).run s =
      let start := (Calls.startContainer cb .objectStart Json.emptyObject keep).run s
      let result := (evalMembers cb start.1.1 start.1.2 ms).run start.2
      (Calls.endContainer cb .objectEnd start.1.1 result.1).run result.2 := by
  rw [eval]
  rfl

theorem run_evalElements_cons (keep : Bool) (result : Json) (t : Tree) (ts : List Tree) :
    (evalElements cb keep result (t :: ts)).run s =
      let value := (eval cb keep t).run s
      (evalElements cb keep
        (if keep && !value.1.isDiscarded then pushBack result value.1 else result) ts).run
        value.2 := by
  rw [evalElements]
  rfl

theorem run_evalMembers_cons (keep : Bool) (result : Json) (cs : List Char) (t : Tree)
    (ms : List (List Char × Tree)) :
    (evalMembers cb keep result ((cs, t) :: ms)).run s =
      let keepTag := (Calls.keepTag cb keep (Utf8.encode cs)).run s
      let value := (eval cb keep t).run keepTag.2
      (evalMembers cb keep (if keep && keepTag.1 && !value.1.isDiscarded then
        assignMember result (Utf8.encode cs) value.1 else result) ms).run value.2 := by
  rw [evalMembers]
  rfl

/-- The start of a container: the callback is asked, and the next token is read. -/
theorem runs_open {event : ParseEvent} {container j' : Json} {keep : Bool} {first : TokenType}
    {v : List Byte} (hu : Scans u t j v) {fuel : Nat} (hfuel : u.length < fuel)
    {f : Bool × Json → TokenType → Action σ Json} {r : Json} {Q : Parser σ → Prop}
    (h : let start := (Calls.startContainer cb event container keep).run s
      Runs (Looks cb start.2 t j v) (f start.1 t) r Q) :
    Runs (Looks cb s first j' u)
      (do
        let start ← withCalls fun cb => Calls.startContainer cb event container keep
        f start (← getToken fuel)) r Q :=
  (runs_withCalls _).bind
    (Runs.bind ((runs_getToken hu hfuel).mono (fun _ h => h.reads) fun _ h => h) h)

theorem runs_array {keep : Bool} {ts : List Tree} (hts : ts ≠ []) {t : TokenType} {j : Json}
    {v : List Byte} (hu : Scans u t j v) (ht : t ≠ .endArray) {fuel : Nat}
    (hfuel : u.length < fuel)
    (h : ∀ keep result s, Runs (Looks cb s t j v) (parseElements fuel keep result : Action σ _)
      ((evalElements cb keep result ts).run s).1
      (Looks cb ((evalElements cb keep result ts).run s).2 .endArray .null w)) {j' : Json} :
    Runs (Looks cb s .beginArray j' u) (parseInternal (fuel + 1) keep : Action σ _)
      ((eval cb keep (.array ts)).run s).1 (Reads cb ((eval cb keep (.array ts)).run s).2 w) := by
  rw [parseInternal, run_eval_array]
  refine Runs.look fun p hp => ?_
  rw [hp.lastToken]
  refine runs_open hu hfuel ?_
  dsimp only
  rw [if_neg ht, List.isEmpty_eq_false_iff.2 hts, Bool.or_false]
  refine (h _ _ _).bind ?_
  exact (runs_withCalls _).mono (fun _ h => h) fun _ h => h.reads

theorem runs_emptyArray {keep : Bool} {j' : Json} (hu : Scans u .endArray .null w) {fuel : Nat}
    (hfuel : u.length < fuel) :
    Runs (Looks cb s .beginArray j' u) (parseInternal (fuel + 1) keep : Action σ _)
      ((eval cb keep (.array [])).run s).1 (Reads cb ((eval cb keep (.array [])).run s).2 w) := by
  rw [parseInternal, run_eval_array]
  refine Runs.look fun p hp => ?_
  rw [hp.lastToken]
  refine runs_open hu hfuel ?_
  dsimp only
  rw [if_pos rfl, evalElements, List.isEmpty_nil, Bool.or_true]
  exact (runs_withCalls _).mono (fun _ h => h) fun _ h => h.reads

theorem runs_object {keep : Bool} {ms : List (List Char × Tree)} {j j' : Json}
    {v : List Byte} (hu : Scans u .valueString j v) {fuel : Nat} (hfuel : u.length < fuel)
    (h : ∀ keep result s,
      Runs (Looks cb s .valueString j v) (parseMembers fuel keep result : Action σ _)
        ((evalMembers cb keep result ms).run s).1
        (Looks cb ((evalMembers cb keep result ms).run s).2 .endObject .null w)) :
    Runs (Looks cb s .beginObject j' u) (parseInternal (fuel + 1) keep : Action σ _)
      ((eval cb keep (.object ms)).run s).1 (Reads cb ((eval cb keep (.object ms)).run s).2 w) := by
  rw [parseInternal, run_eval_object]
  refine Runs.look fun p hp => ?_
  rw [hp.lastToken]
  refine runs_open hu hfuel ?_
  dsimp only
  rw [if_neg (by decide)]
  refine (h _ _ _).bind ?_
  exact (runs_withCalls _).mono (fun _ h => h) fun _ h => h.reads

theorem runs_emptyObject {keep : Bool} {j' : Json} (hu : Scans u .endObject .null w) {fuel : Nat}
    (hfuel : u.length < fuel) :
    Runs (Looks cb s .beginObject j' u) (parseInternal (fuel + 1) keep : Action σ _)
      ((eval cb keep (.object [])).run s).1 (Reads cb ((eval cb keep (.object [])).run s).2 w) := by
  rw [parseInternal, run_eval_object]
  refine Runs.look fun p hp => ?_
  rw [hp.lastToken]
  refine runs_open hu hfuel ?_
  dsimp only
  rw [if_pos rfl, evalMembers]
  exact (runs_withCalls _).mono (fun _ h => h) fun _ h => h.reads

section Loops

variable {keep : Bool} {x v : List Byte} {t' : Tree} {fuel : Nat}

theorem runs_lastElement
    (h : Runs (Looks cb s t j v) (parseInternal fuel keep : Action σ _)
      ((eval cb keep t').run s).1 (Reads cb ((eval cb keep t').run s).2 x))
    (hx : Scans x .endArray .null w) (hfuel : x.length < fuel) (result : Json) :
    Runs (Looks cb s t j v) (parseElements (fuel + 1) keep result : Action σ _)
      ((evalElements cb keep result [t']).run s).1
      (Looks cb ((evalElements cb keep result [t']).run s).2 .endArray .null w) := by
  rw [parseElements, run_evalElements_cons]
  dsimp only
  refine h.bind ?_
  refine Runs.bind (runs_getToken hx hfuel) ?_
  rw [if_neg (by decide), evalElements]
  exact runs_expect.bind (runs_pure _ _)

theorem runs_element {t₂ : TokenType} {j₂ : Json} {u' v₂ : List Byte} {ts : List Tree}
    (h : Runs (Looks cb s t j v) (parseInternal fuel keep : Action σ _)
      ((eval cb keep t').run s).1 (Reads cb ((eval cb keep t').run s).2 x))
    (hx : Scans x .valueSeparator .null u') (hfuel : x.length < fuel) (hu' : Scans u' t₂ j₂ v₂)
    (hfuel' : u'.length < fuel)
    (hts : ∀ result s, Runs (Looks cb s t₂ j₂ v₂) (parseElements fuel keep result : Action σ _)
      ((evalElements cb keep result ts).run s).1
      (Looks cb ((evalElements cb keep result ts).run s).2 .endArray .null w)) (result : Json) :
    Runs (Looks cb s t j v) (parseElements (fuel + 1) keep result : Action σ _)
      ((evalElements cb keep result (t' :: ts)).run s).1
      (Looks cb ((evalElements cb keep result (t' :: ts)).run s).2 .endArray .null w) := by
  rw [parseElements, run_evalElements_cons]
  dsimp only
  refine h.bind ?_
  refine Runs.bind (runs_getToken hx hfuel) ?_
  rw [if_pos rfl]
  refine Runs.bind ((runs_getToken hu' hfuel').mono (fun _ h => h.reads) fun _ h => h) ?_
  exact hts _ _

theorem runs_parseKey {k u' : List Byte} {cs : List Char}
    (hk : Scans k .nameSeparator .null u') (hfuel : k.length < fuel) (hu' : Scans u' t j v)
    (hfuel' : u'.length < fuel) :
    Runs (Looks cb s .valueString (.string (Utf8.encode cs)) k) (parseKey fuel keep : Action σ _)
      (Utf8.encode cs, ((Calls.keepTag cb keep (Utf8.encode cs)).run s).1)
      (Looks cb ((Calls.keepTag cb keep (Utf8.encode cs)).run s).2 t j v) := by
  unfold parseKey
  refine runs_expect.bind ?_
  refine Runs.look fun p hp => ?_
  have hkey : p.lexer.yytext = Utf8.encode cs := hp.holds
  rw [hkey]
  refine (runs_withCalls _).bind ?_
  refine Runs.bind ((runs_getToken hk hfuel).mono (fun _ h => h.reads) fun _ h => h) ?_
  refine runs_expect.bind ?_
  refine Runs.bind ((runs_getToken hu' hfuel').mono (fun _ h => h.reads) fun _ h => h) ?_
  exact runs_pure _ _

theorem runs_lastMember {k u' : List Byte} {cs : List Char}
    (hk : Scans k .nameSeparator .null u') (hfuel : k.length < fuel) (hu' : Scans u' t j v)
    (hfuel' : u'.length < fuel)
    (h : ∀ s, Runs (Looks cb s t j v) (parseInternal fuel keep : Action σ _)
      ((eval cb keep t').run s).1 (Reads cb ((eval cb keep t').run s).2 x))
    (hx : Scans x .endObject .null w) (hfuelx : x.length < fuel) (result : Json) :
    Runs (Looks cb s .valueString (.string (Utf8.encode cs)) k)
      (parseMembers (fuel + 1) keep result : Action σ _)
      ((evalMembers cb keep result [(cs, t')]).run s).1
      (Looks cb ((evalMembers cb keep result [(cs, t')]).run s).2 .endObject .null w) := by
  rw [parseMembers, run_evalMembers_cons]
  dsimp only
  refine (runs_parseKey hk hfuel hu' hfuel').bind ?_
  refine (h _).bind ?_
  refine Runs.bind (runs_getToken hx hfuelx) ?_
  rw [if_neg (by decide), evalMembers]
  exact runs_expect.bind (runs_pure _ _)

theorem runs_member {k u' z v₂ : List Byte} {cs : List Char} {j₂ : Json}
    {ms : List (List Char × Tree)}
    (hk : Scans k .nameSeparator .null u') (hfuel : k.length < fuel) (hu' : Scans u' t j v)
    (hfuel' : u'.length < fuel)
    (h : ∀ s, Runs (Looks cb s t j v) (parseInternal fuel keep : Action σ _)
      ((eval cb keep t').run s).1 (Reads cb ((eval cb keep t').run s).2 x))
    (hx : Scans x .valueSeparator .null z) (hfuelx : x.length < fuel)
    (hz : Scans z .valueString j₂ v₂) (hfuelz : z.length < fuel)
    (hms : ∀ result s,
      Runs (Looks cb s .valueString j₂ v₂) (parseMembers fuel keep result : Action σ _)
        ((evalMembers cb keep result ms).run s).1
        (Looks cb ((evalMembers cb keep result ms).run s).2 .endObject .null w)) (result : Json) :
    Runs (Looks cb s .valueString (.string (Utf8.encode cs)) k)
      (parseMembers (fuel + 1) keep result : Action σ _)
      ((evalMembers cb keep result ((cs, t') :: ms)).run s).1
      (Looks cb ((evalMembers cb keep result ((cs, t') :: ms)).run s).2 .endObject .null w) := by
  rw [parseMembers, run_evalMembers_cons]
  dsimp only
  refine (runs_parseKey hk hfuel hu' hfuel').bind ?_
  refine (h _).bind ?_
  refine Runs.bind (runs_getToken hx hfuelx) ?_
  rw [if_pos rfl]
  refine Runs.bind ((runs_getToken hz hfuelz).mono (fun _ h => h.reads) fun _ h => h) ?_
  exact hms _ _

end Loops

/-! ## From derivations to runs -/

theorem scans_symbol {c : Byte} (hu : Blanks u (c :: w)) (hc : Lexer.symbolToken c = some t) :
    Scans u t .null w :=
  ⟨c :: w, hu, .symbol w hc⟩

/-- A number ends before a symbol. -/
theorem ends_symbol {c : Byte} (hc : Lexer.symbolToken c ≠ none) (w : List Byte) :
    Lexer.Ends (c :: w) := by
  rintro d hd
  cases hd
  unfold Lexer.symbolToken at hc
  split_ifs at hc with h h h h h h
  all_goals first | exact absurd rfl hc | (rw [h]; decide)

/-- A number ends before white space. -/
theorem ends_of_blanks (hu : Blanks u w) (hw : Lexer.Ends w) : Lexer.Ends u := by
  cases hu with
  | nil => exact hw
  | cons hblank _ =>
    rintro d hd
    cases hd
    simp only [Lexer.isBlank_iff, Option.some.injEq] at hblank
    rcases hblank with rfl | rfl | rfl | rfl <;> decide

theorem isScalar_numberJson {n : JsonText.Numeral} (h : ParseTree.Finite (.number n)) :
    IsScalar (ParseTree.numberJson n) := by
  unfold ParseTree.numberJson
  cases hfits : ParseTree.fits n with
  | false => exact h hfits
  | true => cases n.negative <;> trivial

theorem tokenOf_scalar (hj : IsScalar j) :
    Lexer.tokenOf j ≠ .endArray ∧ Lexer.tokenOf j ≠ .endOfInput := by
  cases j with
  | boolean b => cases b <;> exact ⟨by decide, by decide⟩
  | object m => exact hj.elim
  | array xs => exact hj.elim
  | discarded => exact hj.elim
  | _ => exact ⟨by simp [Lexer.tokenOf], by simp [Lexer.tokenOf]⟩

theorem lexeme_number {n : JsonText.Numeral} (hn : n.WF) (hw : Lexer.Ends w) :
    Lexeme (n.text ++ w) (Lexer.tokenOf (ParseTree.numberJson n)) (ParseTree.numberJson n) w := by
  obtain ⟨c, x, state, htext, hfirst, hx⟩ := Lexer.munch_numeral hn hw
  rw [← Lexer.numberOf_text hn, htext]
  exact .number hfirst hx

/-- What is to be shown of a phrase: its first token is recognised, and the rest is read by the
function for it. -/
def Parses (σ : Type) [ByteSource σ] (cb : Option ParserCallback) :
    Phrase → List Byte → List Byte → Prop
  | .value t, u, w => ParseTree.Finite t → Lexer.Ends w →
      ∃ tok j v, Lexeme u tok j v ∧ tok ≠ .endArray ∧ tok ≠ .endOfInput ∧
        ∀ fuel keep s, 2 * u.length + 1 ≤ fuel →
          Runs (Looks cb s tok j v) (parseInternal fuel keep : Action σ _)
            ((eval cb keep t).run s).1 (Reads cb ((eval cb keep t).run s).2 w)
  | .elements ts, u, w => ParseTree.FiniteElements ts → ts ≠ [] ∧
      ∃ tok j v, Scans u tok j v ∧ tok ≠ .endArray ∧
        ∀ fuel keep result s, 2 * u.length + 2 ≤ fuel →
          Runs (Looks cb s tok j v) (parseElements fuel keep result : Action σ _)
            ((evalElements cb keep result ts).run s).1
            (Looks cb ((evalElements cb keep result ts).run s).2 .endArray .null w)
  | .members ms, u, w => ParseTree.FiniteMembers ms →
      ∃ j v, Scans u .valueString j v ∧
        ∀ fuel keep result s, 2 * u.length + 2 ≤ fuel →
          Runs (Looks cb s .valueString j v) (parseMembers fuel keep result : Action σ _)
            ((evalMembers cb keep result ms).run s).1
            (Looks cb ((evalMembers cb keep result ms).run s).2 .endObject .null w)

/-- What `Parses` says of a value, whatever comes after it. -/
def ReadsValue (σ : Type) [ByteSource σ] (cb : Option ParserCallback) (t : Tree)
    (u w : List Byte) : Prop :=
  ∃ tok j v, Lexeme u tok j v ∧ tok ≠ .endArray ∧ tok ≠ .endOfInput ∧
    ∀ fuel keep s, 2 * u.length + 1 ≤ fuel →
      Runs (Looks cb s tok j v) (parseInternal fuel keep : Action σ _)
        ((eval cb keep t).run s).1 (Reads cb ((eval cb keep t).run s).2 w)

theorem readsValue_scalar {t : Tree} (heval : ∀ keep, eval cb keep t = Calls.endValue cb keep j)
    (hj : IsScalar j) (hu : Lexeme u (Lexer.tokenOf j) j w) : ReadsValue σ cb t u w := by
  obtain ⟨hend, hinput⟩ := tokenOf_scalar hj
  refine ⟨Lexer.tokenOf j, j, w, hu, hend, hinput, fun fuel keep s hfuel => ?_⟩
  obtain ⟨fuel, rfl⟩ : ∃ k, fuel = k + 1 := ⟨fuel - 1, by omega⟩
  rw [heval]
  exact runs_scalar hj fuel keep

theorem readsValue_null (w : List Byte) :
    ReadsValue σ cb .null (JsonText.ascii "null" ++ w) w :=
  readsValue_scalar (j := .null) (fun keep => by rw [eval]) trivial (.null w)

theorem readsValue_true (w : List Byte) :
    ReadsValue σ cb (.boolean true) (JsonText.ascii "true" ++ w) w :=
  readsValue_scalar (j := .boolean true) (fun keep => by rw [eval]) trivial (.true w)

theorem readsValue_false (w : List Byte) :
    ReadsValue σ cb (.boolean false) (JsonText.ascii "false" ++ w) w :=
  readsValue_scalar (j := .boolean false) (fun keep => by rw [eval]) trivial (.false w)

theorem readsValue_string {cs : List Char} (h : JsonText.Characters u cs w) :
    ReadsValue σ cb (.string cs) (0x22 :: u) w :=
  readsValue_scalar (j := .string (Utf8.encode cs)) (fun keep => by rw [eval]) trivial (.string h)

theorem readsValue_number {n : JsonText.Numeral} (hn : n.WF)
    (hfinite : ParseTree.Finite (.number n)) (hw : Lexer.Ends w) :
    ReadsValue σ cb (.number n) (n.text ++ w) w :=
  readsValue_scalar (fun keep => by rw [eval]) (isScalar_numberJson hfinite) (lexeme_number hn hw)

theorem readsValue_emptyArray (hu : Blanks u (0x5d :: w)) :
    ReadsValue σ cb (.array []) (0x5b :: u) w := by
  refine ⟨.beginArray, .null, u, .symbol u rfl, by decide, by decide, fun fuel keep s hfuel => ?_⟩
  obtain ⟨fuel, rfl⟩ : ∃ k, fuel = k + 1 := ⟨fuel - 1, by omega⟩
  rw [List.length_cons] at hfuel
  exact runs_emptyArray (scans_symbol hu rfl) (by omega)

theorem readsValue_array {ts : List Tree} (h : Parses σ cb (.elements ts) u w)
    (hfinite : ParseTree.FiniteElements ts) : ReadsValue σ cb (.array ts) (0x5b :: u) w := by
  obtain ⟨hts, tok, j, v, hu, htok, hrun⟩ := h hfinite
  refine ⟨.beginArray, .null, u, .symbol u rfl, by decide, by decide, fun fuel keep s hfuel => ?_⟩
  obtain ⟨fuel, rfl⟩ : ∃ k, fuel = k + 1 := ⟨fuel - 1, by omega⟩
  rw [List.length_cons] at hfuel
  exact runs_array hts hu htok (by omega) fun keep result s => hrun fuel keep result s (by omega)

theorem readsValue_emptyObject (hu : Blanks u (0x7d :: w)) :
    ReadsValue σ cb (.object []) (0x7b :: u) w := by
  refine ⟨.beginObject, .null, u, .symbol u rfl, by decide, by decide,
    fun fuel keep s hfuel => ?_⟩
  obtain ⟨fuel, rfl⟩ : ∃ k, fuel = k + 1 := ⟨fuel - 1, by omega⟩
  rw [List.length_cons] at hfuel
  exact runs_emptyObject (scans_symbol hu rfl) (by omega)

theorem readsValue_object {ms : List (List Char × Tree)} (h : Parses σ cb (.members ms) u w)
    (hfinite : ParseTree.FiniteMembers ms) : ReadsValue σ cb (.object ms) (0x7b :: u) w := by
  obtain ⟨j, v, hu, hrun⟩ := h hfinite
  refine ⟨.beginObject, .null, u, .symbol u rfl, by decide, by decide,
    fun fuel keep s hfuel => ?_⟩
  obtain ⟨fuel, rfl⟩ : ∃ k, fuel = k + 1 := ⟨fuel - 1, by omega⟩
  rw [List.length_cons] at hfuel
  exact runs_object hu (by omega) fun keep result s => hrun fuel keep result s (by omega)

theorem derives_length {ph : Phrase} (h : Derives ph u w) : w.length ≤ u.length := by
  obtain ⟨z, rfl, _⟩ := h.framed
  rw [List.length_append]
  omega

theorem characters_lt {cs : List Char} (h : JsonText.Characters u cs w) : w.length < u.length :=
  Lexer.characters_length h

theorem parses_of_derives {ph : Phrase} (h : Derives ph u w) : Parses σ cb ph u w := by
  induction h with
  | null w =>
    intro _ _
    exact readsValue_null w
  | true w =>
    intro _ _
    exact readsValue_true w
  | false w =>
    intro _ _
    exact readsValue_false w
  | string h =>
    intro _ _
    exact readsValue_string h
  | number w hn =>
    intro hfinite hw
    exact readsValue_number hn hfinite hw
  | emptyArray hu =>
    intro _ _
    exact readsValue_emptyArray hu
  | array _ ih =>
    intro hfinite _
    exact readsValue_array ih hfinite
  | emptyObject hu =>
    intro _ _
    exact readsValue_emptyObject hu
  | object _ ih =>
    intro hfinite _
    exact readsValue_object ih hfinite
  | @lastElement u v v' w t hu ht hv ih =>
    rintro ⟨hfinite, _⟩
    obtain ⟨tok, j, x, hlex, htok, _, hrun⟩ :=
      ih hfinite (ends_of_blanks hv (ends_symbol (by decide) _))
    have huv := Lexer.blanks_length hu
    have hvv := derives_length ht
    refine ⟨List.cons_ne_nil _ _, tok, j, x, ⟨v, hu, hlex⟩, htok, fun fuel keep result s hfuel => ?_⟩
    obtain ⟨fuel, rfl⟩ : ∃ k, fuel = k + 1 := ⟨fuel - 1, by omega⟩
    exact runs_lastElement (hrun fuel keep s (by omega)) (scans_symbol hv rfl) (by omega) result
  | @element u v v' u' w t ts hu ht hv _ ih ih' =>
    rintro ⟨hfinite, hfinite'⟩
    obtain ⟨tok, j, x, hlex, htok, _, hrun⟩ :=
      ih hfinite (ends_of_blanks hv (ends_symbol (by decide) _))
    obtain ⟨_, tok₂, j₂, x₂, hu', _, hrun'⟩ := ih' hfinite'
    have huv := Lexer.blanks_length hu
    have hvv := derives_length ht
    have hsep := Lexer.blanks_length hv
    rw [List.length_cons] at hsep
    refine ⟨List.cons_ne_nil _ _, tok, j, x, ⟨v, hu, hlex⟩, htok, fun fuel keep result s hfuel => ?_⟩
    obtain ⟨fuel, rfl⟩ : ∃ k, fuel = k + 1 := ⟨fuel - 1, by omega⟩
    exact runs_element (hrun fuel keep s (by omega)) (scans_symbol hv rfl) (by omega) hu' (by omega)
      (fun result s => hrun' fuel keep result s (by omega)) result
  | @lastMember u k k' x v v' w cs t hu hk hk' hx ht hv ih =>
    rintro ⟨hfinite, _⟩
    obtain ⟨tok, j, y, hlex, _, _, hrun⟩ := ih hfinite (ends_of_blanks hv (ends_symbol (by decide) _))
    have huk := Lexer.blanks_length hu
    have hkk := characters_lt hk
    have hkx := Lexer.blanks_length hk'
    have hxv := Lexer.blanks_length hx
    have hvv := derives_length ht
    rw [List.length_cons] at huk hkx
    refine ⟨_, k', ⟨_, hu, .string hk⟩, fun fuel keep result s hfuel => ?_⟩
    obtain ⟨fuel, rfl⟩ : ∃ k, fuel = k + 1 := ⟨fuel - 1, by omega⟩
    exact runs_lastMember (scans_symbol hk' rfl) (by omega) ⟨v, hx, hlex⟩ (by omega)
      (fun s => hrun fuel keep s (by omega)) (scans_symbol hv rfl) (by omega) result
  | @member u k k' x v v' u' w cs t ms hu hk hk' hx ht hv _ ih ih' =>
    rintro ⟨hfinite, hfinite'⟩
    obtain ⟨tok, j, y, hlex, _, _, hrun⟩ := ih hfinite (ends_of_blanks hv (ends_symbol (by decide) _))
    obtain ⟨j₂, y₂, hu', hrun'⟩ := ih' hfinite'
    have huk := Lexer.blanks_length hu
    have hkk := characters_lt hk
    have hkx := Lexer.blanks_length hk'
    have hxv := Lexer.blanks_length hx
    have hvv := derives_length ht
    have hsep := Lexer.blanks_length hv
    rw [List.length_cons] at huk hkx hsep
    refine ⟨_, k', ⟨_, hu, .string hk⟩, fun fuel keep result s hfuel => ?_⟩
    obtain ⟨fuel, rfl⟩ : ∃ k, fuel = k + 1 := ⟨fuel - 1, by omega⟩
    exact runs_member (scans_symbol hk' rfl) (by omega) ⟨v, hx, hlex⟩ (by omega)
      (fun s => hrun fuel keep s (by omega)) (scans_symbol hv rfl) (by omega) hu' (by omega)
      (fun result s => hrun' fuel keep result s (by omega)) result

/-- Only a number depends on what comes after it. -/
theorem readsValue_of_derives {t : Tree} (h : Derives (.value t) u w)
    (hfinite : ParseTree.Finite t) (hw : (∃ n, t = .number n) → Lexer.Ends w) :
    ReadsValue σ cb t u w := by
  cases h with
  | null w => exact readsValue_null w
  | true w => exact readsValue_true w
  | false w => exact readsValue_false w
  | string h => exact readsValue_string h
  | number w hn => exact readsValue_number hn hfinite (hw ⟨_, rfl⟩)
  | emptyArray hu => exact readsValue_emptyArray hu
  | array hts => exact readsValue_array (parses_of_derives hts) hfinite
  | emptyObject hu => exact readsValue_emptyObject hu
  | object hms => exact readsValue_object (parses_of_derives hms) hfinite

end Wpi.Parser

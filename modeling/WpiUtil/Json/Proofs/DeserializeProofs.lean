import WpiUtil.Json.Deserialize
import WpiUtil.Json.Proofs.LexerUngetProofs
import WpiUtil.Json.Proofs.ParseProofs
import WpiUtil.Json.Proofs.ParserBoundsProofs

/-!
# What deserialization leaves in the stream

The character after a number has been read when the number is known, and it is given back to the
lexer, not to the stream.
-/

namespace Wpi

open Foundations
open Foundations.JsonText (Blanks Derives Tree)

/-! ## The last token of a value -/

namespace Parser

variable {σ : Type} [ByteSource σ] {p p' : Parser σ} {fuel : Nat} {keep : Bool} {r : Json}

/-- A character has been given back if the last token is a number. -/
def Tidy (p : Parser σ) : Prop := p.lexer.nextUnget = p.lastToken.isNumber

theorem tidy_of_getToken {t : TokenType}
    (h : (getToken fuel : Action σ _).run.run p = (.ok t, p')) : p'.lastToken = t ∧ Tidy p' := by
  unfold getToken at h
  obtain ⟨q, p₁, hget, h⟩ := exists_of_run_bind h
  cases hget
  rcases hscan : (Lexer.scan fuel).run.run p.lexer with ⟨e | t', lexer⟩
  · rw [hscan] at h
    cases h
  · rw [hscan] at h
    cases h
    have hgives := Lexer.gives_scan fuel p.lexer
    rw [Meets, hscan] at hgives
    exact ⟨rfl, hgives t rfl⟩

omit [ByteSource σ] in
/-- A closing bracket that has to stand there. -/
theorem unget_of_expect {t : TokenType} {a : Unit} (hp : Tidy p) (ht : t.isNumber = false)
    (h : (expect t : Action σ Unit).run.run p = (.ok a, p')) : p'.lexer.nextUnget = false := by
  obtain ⟨rfl, htoken⟩ := expect_ok h
  rw [hp, htoken]
  exact ht

/-- After an item of a container there is another one or the closing bracket. -/
theorem unget_of_next {close : TokenType} {rest : Action σ Json} {result : Json}
    (hclose : close.isNumber = false)
    (hrest : ∀ p p', rest.run.run p = (.ok r, p') → p'.lexer.nextUnget = false)
    (h : (getToken fuel >>= fun t =>
      if t = .valueSeparator then getToken fuel >>= fun _ => rest
      else expect close >>= fun _ => pure result : Action σ Json).run.run p = (.ok r, p')) :
    p'.lexer.nextUnget = false := by
  obtain ⟨t, p₁, hx, h⟩ := exists_of_run_bind h
  obtain ⟨-, hp₁⟩ := tidy_of_getToken hx
  by_cases hsep : t = .valueSeparator
  · rw [if_pos hsep] at h
    obtain ⟨_, p₂, -, h⟩ := exists_of_run_bind h
    exact hrest p₂ p' h
  · rw [if_neg hsep] at h
    obtain ⟨_, p₂, hx, hreturn⟩ := exists_of_run_bind h
    cases hreturn
    exact unget_of_expect hp₁ hclose hx

theorem unget_of_parseMembers (fuel : Nat) (keep : Bool) (result : Json) (p p' : Parser σ)
    (h : (parseMembers fuel keep result).run.run p = (.ok r, p')) :
    p'.lexer.nextUnget = false := by
  induction fuel generalizing result p p' with
  | zero =>
    rw [parseMembers] at h
    cases h
  | succ fuel ih =>
    rw [parseMembers] at h
    obtain ⟨⟨key, keepTag⟩, p₁, -, h⟩ := exists_of_run_bind h
    obtain ⟨value, p₂, -, h⟩ := exists_of_run_bind h
    exact unget_of_next rfl (ih _) h

theorem unget_of_parseElements (fuel : Nat) (keep : Bool) (result : Json) (p p' : Parser σ)
    (h : (parseElements fuel keep result).run.run p = (.ok r, p')) :
    p'.lexer.nextUnget = false := by
  induction fuel generalizing result p p' with
  | zero =>
    rw [parseElements] at h
    cases h
  | succ fuel ih =>
    rw [parseElements] at h
    obtain ⟨value, p₁, -, h⟩ := exists_of_run_bind h
    exact unget_of_next rfl (ih _) h

/-- The end of a container, with its members or elements before it. -/
theorem unget_of_container {start : Option ParserCallback → StateM Calls (Bool × Json)}
    {close : TokenType} {empty : Bool × Json → Option ParserCallback → StateM Calls Json}
    {fill : Bool × Json → Action σ Json}
    {finish : Bool × Json → Json → Option ParserCallback → StateM Calls Json}
    (hclose : close.isNumber = false)
    (hfill : ∀ s p p' r, (fill s).run.run p = (.ok r, p') → p'.lexer.nextUnget = false)
    (h : (withCalls start >>= fun s => getToken fuel >>= fun t =>
      if t = close then withCalls (empty s)
      else fill s >>= fun result => withCalls (finish s result) : Action σ Json).run.run p =
        (.ok r, p')) : p'.lexer.nextUnget = false := by
  obtain ⟨s, p₁, -, h⟩ := exists_of_run_bind h
  obtain ⟨t, p₂, hx, h⟩ := exists_of_run_bind h
  obtain ⟨htoken, hp₂⟩ := tidy_of_getToken hx
  by_cases hend : t = close
  · rw [if_pos hend] at h
    rw [(lexer_of_withCalls h).1, hp₂, htoken, hend]
    exact hclose
  · rw [if_neg hend] at h
    obtain ⟨result, p₃, hx, h⟩ := exists_of_run_bind h
    rw [(lexer_of_withCalls h).1]
    exact hfill s p₂ p₃ result hx

/-- After a value a character has been given back if the value is a number. -/
theorem unget_of_parseInternal (hp : Tidy p)
    (h : (parseInternal fuel keep).run.run p = (.ok r, p')) :
    p'.lexer.nextUnget = p.lastToken.isNumber := by
  cases fuel with
  | zero =>
    rw [parseInternal] at h
    cases h
  | succ fuel =>
    rw [parseInternal] at h
    obtain ⟨q, p₁, hget, h⟩ := exists_of_run_bind h
    cases hget
    have hscalar {x : Option ParserCallback → StateM Calls Json}
        (hx : (withCalls x : Action σ Json).run.run p = (.ok r, p')) :
        p'.lexer.nextUnget = p.lastToken.isNumber := by
      rw [(lexer_of_withCalls hx).1]
      exact hp
    cases ht : p.lastToken with
    | beginObject =>
      rw [ht] at h
      exact unget_of_container rfl
        (fun s p p' r hx => unget_of_parseMembers fuel s.1 s.2 p p' hx) h
    | beginArray =>
      rw [ht] at h
      exact unget_of_container rfl
        (fun s p p' r hx => unget_of_parseElements fuel s.1 s.2 p p' hx) h
    | valueFloat =>
      rw [← ht]
      rw [ht] at h
      by_cases hfinite : Binary64.isFinite p.lexer.valueFloat = true
      · rw [if_pos hfinite] at h
        exact hscalar h
      · rw [if_neg hfinite] at h
        cases h
    | literalNull | valueString | literalTrue | literalFalse | valueUnsigned | valueInteger =>
      rw [← ht]
      rw [ht] at h
      exact hscalar h
    | _ =>
      rw [ht] at h
      exact (unexpect_ok h).elim

theorem lexer_of_number (hp : p.lastToken.isNumber = true)
    (h : (parseInternal fuel keep).run.run p = (.ok r, p')) : p'.lexer = p.lexer := by
  cases fuel with
  | zero =>
    rw [parseInternal] at h
    cases h
  | succ fuel =>
    rw [parseInternal] at h
    obtain ⟨q, p₁, hget, h⟩ := exists_of_run_bind h
    cases hget
    cases ht : p.lastToken with
    | valueFloat =>
      rw [ht] at h
      by_cases hfinite : Binary64.isFinite p.lexer.valueFloat = true
      · rw [if_pos hfinite] at h
        exact (lexer_of_withCalls h).1
      · rw [if_neg hfinite] at h
        cases h
    | valueUnsigned | valueInteger =>
      rw [ht] at h
      exact (lexer_of_withCalls h).1
    | _ =>
      rw [ht] at hp
      cases hp

theorem token_of_parseInternal (h : (parseInternal fuel keep).run.run p = (.ok r, p')) :
    p.lastToken ≠ .parseError := by
  intro ht
  cases fuel with
  | zero =>
    rw [parseInternal] at h
    cases h
  | succ fuel =>
    rw [parseInternal] at h
    obtain ⟨q, p₁, hget, h⟩ := exists_of_run_bind h
    cases hget
    rw [ht] at h
    exact unexpect_ok h

/-- The first token, and the value from it on. -/
theorem exists_of_parse (h : (parse fuel false).run.run p = (.ok r, p')) :
    ∃ t p₁ r', (getToken fuel).run.run p = (.ok t, p₁) ∧
      (parseInternal fuel true).run.run p₁ = (.ok r', p') := by
  unfold parse at h
  obtain ⟨t, p₁, hx, h⟩ := exists_of_run_bind h
  obtain ⟨r', p₂, hx', h⟩ := exists_of_run_bind h
  cases h
  exact ⟨t, p₁, r', hx, hx'⟩

theorem unget_of_parse {cb : Option ParserCallback} {s : Calls} {u w : List Byte} {t : TokenType}
    {j : Json} (hu : Lexer.Scans u t j w) (hp : Reads cb s u p) (hfuel : u.length < fuel)
    (h : (parse fuel false).run.run p = (.ok r, p')) : p'.lexer.nextUnget = t.isNumber := by
  obtain ⟨t', p₁, r', hrun₁, hrun₂⟩ := exists_of_parse h
  obtain ⟨rfl, -⟩ := (runs_getToken hu hfuel).result hp hrun₁
  obtain ⟨hlast, htidy⟩ := tidy_of_getToken hrun₁
  rw [unget_of_parseInternal htidy hrun₂, hlast]

/-- White space and a value are read, whatever comes after them. -/
theorem runs_parse_prefix {cb : Option ParserCallback} {t : Tree} {u v w : List Byte}
    (hu : Blanks u v) (hv : ReadsValue σ cb t v w) (hfuel : 2 * u.length + 1 ≤ fuel) (s : Calls) :
    Runs (Reads cb s u) (parse fuel false : Action σ _)
      (if ((ParseTree.eval cb true t).run s).1.isDiscarded then .null
        else ((ParseTree.eval cb true t).run s).1)
      (Reads cb ((ParseTree.eval cb true t).run s).2 w) := by
  obtain ⟨tok, j, x, hlex, -, -, hrun⟩ := hv
  have hlength := Lexer.blanks_length hu
  unfold parse
  apply Runs.bind (runs_getToken ⟨v, hu, hlex⟩ (by omega))
  apply Runs.bind (hrun fuel true s (by omega))
  rw [if_neg Bool.false_ne_true]
  exact runs_pure _ _

/-- The error flag is raised where the character that has been given back is the end. -/
theorem hasError_of_parse {i : σ} {cb : Option ParserCallback}
    (he : RawIstream.hasError i = false)
    (h : (parse (2 * (ByteSource.content i).length + 1) false).run.run (Parser.new i cb) =
      (.ok r, p')) :
    (p'.lexer.nextUnget = false → RawIstream.hasError p'.lexer.is = false) ∧
      (p'.lexer.nextUnget = true → p'.lexer.current = none →
        RawIstream.hasError p'.lexer.is = true) := by
  let _ : MeteredSource σ := .ofByteSource σ
  have hopen : Lexer.Open (ByteSource.content i).length (ByteSource.content i).length
      (Parser.new i cb).lexer := ⟨he, rfl, Nat.zero_add _, trivial⟩
  have houtcome := outcome_parse hopen (Nat.le_refl _)
  rw [Meets, h] at houtcome
  obtain ⟨-, m, -, hopen'⟩ := houtcome
  rcases p' with ⟨calls, callback, lastToken, is, current, nextUnget, charsRead, _⟩
  constructor
  · intro hunget
    obtain rfl : nextUnget = false := hunget
    exact hopen'.1
  · intro hunget hcurrent
    obtain rfl : nextUnget = true := hunget
    obtain rfl : current = none := hcurrent
    exact hopen'.1

end Parser

/-! ## The first token of a value -/

namespace Lexer

/-- The text starts like a number. -/
def StartsNumber (v : List Byte) : Prop := ∃ c x state, v = c :: x ∧ firstState c = some state

theorem isNumber_tokenOf_numberOf (type : TokenType) (s : List Byte) :
    (tokenOf (numberOf type s)).isNumber = true := by
  rcases tokenOf_numberOf type s with h | h | h <;> rw [h] <;> rfl

theorem firstState_symbol {c : Byte} {t : TokenType} (h : symbolToken c = some t) :
    firstState c = none := by
  unfold symbolToken at h
  split_ifs at h with h1 h2 h3 h4 h5 h6
  · rw [h1]; rfl
  · rw [h2]; rfl
  · rw [h3]; rfl
  · rw [h4]; rfl
  · rw [h5]; rfl
  · rw [h6]; rfl

theorem not_startsNumber {c : Byte} {x : List Byte} (hc : firstState c = none) :
    ¬StartsNumber (c :: x) := by
  rintro ⟨c', x', state, heq, hstate⟩
  cases heq
  rw [hc] at hstate
  cases hstate

theorem isNumber_iff_startsNumber {v w : List Byte} {t : TokenType} {j : Json}
    (h : Lexeme v t j w) : t.isNumber = true ↔ StartsNumber v := by
  have hno {c : Byte} {x : List Byte} {t : TokenType} (ht : t.isNumber = false)
      (hc : firstState c = none) : t.isNumber = true ↔ StartsNumber (c :: x) := by
    rw [ht]
    exact ⟨fun hf => (Bool.false_ne_true hf).elim, fun hs => (not_startsNumber hc hs).elim⟩
  cases h with
  | symbol w hsymbol => exact hno (noNumber_symbolToken hsymbol) (firstState_symbol hsymbol)
  | null w | true w | false w | string h | nul w => exact hno rfl rfl
  | @number c state type x w hfirst hx =>
    exact ⟨fun _ => ⟨c, _, state, rfl, hfirst⟩, fun _ => isNumber_tokenOf_numberOf _ _⟩
  | endOfInput =>
    constructor
    · intro hf
      cases hf
    · rintro ⟨c, x, state, heq, -⟩
      cases heq

theorem ends_nil : Ends [] := Parser.ends_of_atEnd (Or.inl rfl)

theorem startsNumber_iff_of_derives {t : Tree} {u w : List Byte} (h : Derives (.value t) u w) :
    StartsNumber u ↔ ∃ n, t = .number n := by
  have hno {c : Byte} {x : List Byte} {t : Tree} (hc : firstState c = none)
      (ht : ∀ n, t ≠ .number n) : StartsNumber (c :: x) ↔ ∃ n, t = .number n :=
    ⟨fun hs => (not_startsNumber hc hs).elim, fun ⟨n, hn⟩ => (ht n hn).elim⟩
  cases h with
  | @number n w hn =>
    obtain ⟨c, x, state, htext, hfirst, -⟩ := munch_numeral hn ends_nil
    refine ⟨fun _ => ⟨n, rfl⟩, fun _ => ⟨c, x ++ w, state, ?_, hfirst⟩⟩
    rw [htext, List.cons_append]
  | _ => exact hno rfl fun n hn => by cases hn

/-- The labels depend on what is read only. -/
theorem length_le_of_munch {state : NumberState} {type type₁ type₂ : TokenType}
    {x y w rest : List Byte} (hx : Munch state type x type₁ []) (hy : Munch state type y type₂ w)
    (h : y ++ w = x ++ rest) : w.length ≤ rest.length := by
  induction x generalizing state type y with
  | nil =>
    rw [List.nil_append] at h
    rw [← h, List.length_append]
    omega
  | cons c x ih =>
    cases hx with
    | goto hstep hx =>
      cases hy with
      | done _ hdone =>
        rw [List.nil_append] at h
        rw [h, List.cons_append, List.head?_cons, hstep] at hdone
        cases hdone
      | goto hstep' hy =>
        rw [List.cons_append, List.cons_append, List.cons.injEq] at h
        obtain ⟨rfl, h⟩ := h
        rw [hstep] at hstep'
        cases hstep'
        exact ih hx hy h

/-- The text of a number is read to its end at least. -/
theorem length_le_of_lexeme {n : JsonText.Numeral} (hn : n.WF) {rest w : List Byte}
    {t : TokenType} {j : Json} (h : Lexeme (n.text ++ rest) t j w) : w.length ≤ rest.length := by
  obtain ⟨c, x, state, htext, hfirst, hx⟩ := munch_numeral hn ends_nil
  have hstarts : StartsNumber (n.text ++ rest) := ⟨c, x ++ rest, state, by rw [htext]; rfl, hfirst⟩
  have hnumber := (isNumber_iff_startsNumber h).2 hstarts
  generalize hv : n.text ++ rest = v at h
  rw [htext, List.cons_append] at hv
  cases h with
  | @number c' state' type y w hfirst' hy =>
    rw [List.cons.injEq] at hv
    obtain ⟨rfl, hv⟩ := hv
    rw [hfirst] at hfirst'
    cases hfirst'
    exact length_le_of_munch hx hy hv.symm
  | symbol w hsymbol =>
    rw [noNumber_symbolToken hsymbol] at hnumber
    cases hnumber
  | _ => cases hnumber

theorem StartsNumber.head {v : List Byte} (h : StartsNumber v) (c : Byte)
    (hc : v.head? = some c) : JsonText.isBlank c = false := by
  obtain ⟨c', x, state, rfl, hfirst⟩ := h
  cases hc
  exact isBlank_of_firstState hfirst

theorem text_of_derives {n : JsonText.Numeral} {u w : List Byte}
    (h : Derives (.value (.number n)) u w) : u = n.text ++ w ∧ n.WF := by
  cases h with
  | number w hn => exact ⟨rfl, hn⟩

theorem head_of_derives {t : Tree} {u w : List Byte} (h : Derives (.value t) u w) (c : Byte)
    (hc : u.head? = some c) : JsonText.isBlank c = false := by
  cases h with
  | number w hn =>
    have hstarts := (startsNumber_iff_of_derives (.number w hn)).2 ⟨_, rfl⟩
    exact StartsNumber.head hstarts c hc
  | _ =>
    cases hc
    rfl

/-- White space ends where something else starts. -/
theorem blanks_unique {u v v' : List Byte} (h : Blanks u v) (h' : Blanks u v')
    (hv : ∀ c, v.head? = some c → JsonText.isBlank c = false)
    (hv' : ∀ c, v'.head? = some c → JsonText.isBlank c = false) : v = v' := by
  induction h with
  | nil v =>
    cases h' with
    | nil => rfl
    | cons hc _ =>
      rw [hv _ rfl] at hc
      cases hc
  | cons hc _ ih =>
    cases h' with
    | nil =>
      rw [hv' _ rfl] at hc
      cases hc
    | cons _ h' => exact ih h' hv

end Lexer

/-! ## What is left in the stream -/

namespace Json

variable {σ : Type} [ByteSource σ] {i : σ} {t rest : List Byte} {tree : Tree}

/-- The text in front of anything else. -/
theorem IsValueText.append (h : IsValueText t tree) (rest : List Byte) :
    ∃ u, Blanks (t ++ rest) u ∧ Derives (.value tree) u rest := by
  obtain ⟨u, hu, ht⟩ := h
  obtain ⟨z, rfl, -, hblanks⟩ := hu.framed
  obtain ⟨x, rfl, -, hvalue⟩ := ht.framed
  refine ⟨x ++ rest, ?_, hvalue rest⟩
  rw [List.append_nil, List.append_assoc]
  exact hblanks (x ++ rest)

theorem IsValueText.isJsonText (h : IsValueText t tree) : IsJsonText t tree := by
  obtain ⟨u, hu, ht⟩ := h
  exact ⟨u, [], hu, ht, .nil []⟩

theorem reads_new_of_hasError (he : RawIstream.hasError i = false) :
    Parser.Reads none ⟨0, []⟩ (ByteSource.content i) (Parser.new i none) := by
  refine ⟨rfl, rfl, ⟨?_, ?_⟩, rfl⟩
  · intro herror
    exact absurd (he.symm.trans herror) Bool.false_ne_true
  · intro hunget
    cases hunget

theorem isNumber_value : (ParseTree.value tree).isNumber = true ↔ ∃ n, tree = .number n := by
  cases tree with
  | number n =>
    refine ⟨fun _ => ⟨n, rfl⟩, fun _ => ?_⟩
    rw [ParseTree.value]
    unfold ParseTree.numberValue
    split
    · rfl
    · rfl
  | _ =>
    rw [ParseTree.value]
    constructor
    · intro hf
      cases hf
    · rintro ⟨n, hn⟩
      cases hn

/-- What has been read when there is a value, and what is left of it. -/
theorem extracts_iff_of_run {p : Parser σ} {r : Json} {v : Value}
    (h : (Parser.parse (2 * (ByteSource.content i).length + 1) false).run.run
      (Parser.new i none) = (.ok r, p)) :
    Extracts i v rest ↔ r.denote = v ∧ ByteSource.content p.lexer.is = rest ∧
      RawIstream.hasError p.lexer.is = false := by
  have hrun : deserialize i = (.ok r, p.lexer.is) := by
    unfold deserialize
    rw [h]
  constructor
  · rintro ⟨⟨j, hj, hv⟩, hcontent, herror⟩
    rw [hrun] at hj hcontent herror
    cases hj
    exact ⟨hv, hcontent, herror⟩
  · rintro ⟨hv, hcontent, herror⟩
    constructor
    · exact ⟨r, by rw [hrun], hv⟩
    · rw [hrun]
      exact hcontent
    · rw [hrun]
      exact herror

/-- A value that is not a number is read to its end and no further. -/
theorem extracts_of_not_number (ht : IsValueText t tree) (hfinite : ParseTree.Finite tree)
    (hfits : ParseTree.TextFits t) (hnumber : ¬∃ n, tree = .number n)
    (hi : ByteSource.content i = t ++ rest)
    (he : RawIstream.hasError i = false) : Extracts i (ParseTree.value tree) rest := by
  obtain ⟨u, hu, hderives⟩ := ht.append rest
  rw [← hi] at hu
  have hvalue : Parser.ReadsValue σ none tree u rest :=
    Parser.readsValue_of_derives hderives hfinite fun hn => (hnumber hn).elim
  have hnew := reads_new_of_hasError he
  have hnames := ParseTree.shortNames_of_fits (hfits.names ht.isJsonText)
  obtain ⟨r, heval, hkept, hdenote, -⟩ := ParseTree.run_eval tree hnames ⟨0, []⟩
  have hruns := Parser.runs_parse_prefix hu hvalue (Nat.le_refl _) ⟨0, []⟩
  rw [heval, hkept, if_neg Bool.false_ne_true] at hruns
  obtain ⟨p, hrun, hp⟩ := hruns _ hnew
  have hunget : p.lexer.nextUnget = false := by
    obtain ⟨tok, j, v, hlex, -⟩ := hvalue
    rw [Parser.unget_of_parse ⟨u, hu, hlex⟩ hnew (by omega) hrun, Bool.eq_false_iff, Ne,
      Lexer.isNumber_iff_startsNumber hlex, Lexer.startsNumber_iff_of_derives hderives]
    exact hnumber
  have herror := (Parser.hasError_of_parse he hrun).1 hunget
  have hinput := hp.input
  unfold Lexer.input at hinput
  rw [hunget, if_neg Bool.false_ne_true, List.nil_append] at hinput
  exact (extracts_iff_of_run hrun).2 ⟨hdenote, hinput, herror⟩

theorem exists_run_of_extracts {v : Value} (h : Extracts i v rest) :
    ∃ r p, (Parser.parse (2 * (ByteSource.content i).length + 1) false).run.run
      (Parser.new i none) = (.ok r, p) := by
  obtain ⟨r, hr, -⟩ := h.value
  unfold deserialize at hr
  exact ⟨r, _, Prod.ext hr rfl⟩

/-- A number that is read to its end is read too far. -/
theorem not_extracts_number {n : JsonText.Numeral} (ht : IsValueText t (.number n))
    (hi : ByteSource.content i = t ++ rest) (he : RawIstream.hasError i = false) (v : Value) :
    ¬Extracts i v rest := by
  intro hextracts
  obtain ⟨r, p, hrun⟩ := exists_run_of_extracts hextracts
  obtain ⟨-, hcontent, herror⟩ := (extracts_iff_of_run hrun).1 hextracts
  obtain ⟨tok, p₁, r', hrun₁, hrun₂⟩ := Parser.exists_of_parse hrun
  have hnew := reads_new_of_hasError he
  obtain ⟨rfl, hsaw⟩ := Parser.saw_of_getToken ⟨hnew.ready, hnew.input⟩ (by omega) hrun₁
  obtain ⟨-, htidy⟩ := Parser.tidy_of_getToken hrun₁
  obtain ⟨j, ⟨v', hv, hlex⟩, -⟩ := hsaw.token.resolve_left (Parser.token_of_parseInternal hrun₂)
  obtain ⟨u, hu, hderives⟩ := ht.append rest
  have hstarts := (Lexer.startsNumber_iff_of_derives hderives).2 ⟨n, rfl⟩
  have huv : v' = u := by
    rw [hi] at hv
    exact Lexer.blanks_unique hv hu (fun _ => Lexer.lexeme_head hlex) hstarts.head
  rw [← huv] at hstarts hderives
  have hnumber := (Lexer.isNumber_iff_startsNumber hlex).2 hstarts
  have hlength : p.lexer.input.length ≤ rest.length := by
    obtain ⟨htext, hn⟩ := Lexer.text_of_derives hderives
    rw [Parser.lexer_of_number hnumber hrun₂]
    rw [htext] at hlex
    exact Lexer.length_le_of_lexeme hn hlex
  have hunget : p.lexer.nextUnget = true := by
    rw [Parser.unget_of_parseInternal htidy hrun₂]
    exact hnumber
  cases hcurrent : p.lexer.current with
  | none =>
    have hraised := (Parser.hasError_of_parse he hrun).2 hunget hcurrent
    exact absurd (herror.symm.trans hraised) Bool.false_ne_true
  | some c =>
    unfold Lexer.input at hlength
    rw [hunget, if_pos rfl, hcurrent, hcontent, Option.toList_some, List.singleton_append,
      List.length_cons] at hlength
    omega

/-- Everything but a number can be read from a stream without a loss. -/
theorem extracts_iff {v : Value} (ht : HasValue t v) (hfits : ParseTree.TextFits t)
    (hi : ByteSource.content i = t ++ rest) (he : RawIstream.hasError i = false) :
    Extracts i v rest ↔ v.isNumber = false := by
  obtain ⟨tree, htext, hfinite, rfl⟩ := ht
  rw [Bool.eq_false_iff, Ne, isNumber_value]
  constructor
  · rintro hextracts ⟨n, rfl⟩
    exact not_extracts_number htext hi he _ hextracts
  · intro hnumber
    exact extracts_of_not_number htext hfinite hfits hnumber hi he

/-- Nothing goes on with a number that no character of it may follow. -/
theorem isLongest_number {n : JsonText.Numeral} (ht : IsValueText t (.number n))
    (hrest : Lexer.Ends rest) : IsLongest t rest := by
  rintro t' ⟨s, hs⟩ hlt tree ⟨u', hu', hderives'⟩
  obtain ⟨x, rfl, hx⟩ : ∃ x, t' = t ++ x ∧ rest = x ++ s := by
    rcases List.append_eq_append_iff.1 hs with ⟨y, rfl, -⟩ | ⟨x, rfl, hx⟩
    · rw [List.length_append] at hlt
      omega
    · exact ⟨x, rfl, hx⟩
  have hends : Lexer.Ends x := by
    intro c hc
    apply hrest c
    rw [hx, List.head?_append, hc, Option.some_or]
  obtain ⟨u, hu, hderives⟩ := ht.append x
  have huu : u' = u := Lexer.blanks_unique hu' hu (Lexer.head_of_derives hderives')
    (Lexer.head_of_derives hderives)
  have hstarts := (Lexer.startsNumber_iff_of_derives hderives).2 ⟨n, rfl⟩
  rw [← huu] at hstarts hderives
  obtain ⟨n', rfl⟩ := (Lexer.startsNumber_iff_of_derives hderives').1 hstarts
  obtain ⟨htext, hn⟩ := Lexer.text_of_derives hderives
  obtain ⟨htext', hn'⟩ := Lexer.text_of_derives hderives'
  have hlex := Parser.lexeme_number hn hends
  rw [← htext, htext'] at hlex
  have hlength := Lexer.length_le_of_lexeme hn' hlex
  rw [List.length_nil, Nat.le_zero, List.length_eq_zero_iff] at hlength
  rw [hlength, List.append_nil] at hlt
  omega

/-- The number 1. -/
def one : JsonText.Numeral := ⟨false, [0x31], none, none⟩

theorem one_wf : one.WF := by
  constructor
  · refine Or.inr ⟨0x31, [], rfl, by decide, ?_⟩
    intro c hc
    rw [List.mem_singleton.1 hc]
    rfl
  · intro ds hds
    cases hds
  · intro e he
    cases he

theorem finite_one : ParseTree.Finite (.number one) := by
  intro hfits
  exact absurd hfits (by decide)

theorem extracts_array :
    Extracts (RawMemIstream.ofBytes (bytes " [1]2")) (.array [.integer 1]) (bytes "2") := by
  have htext : IsValueText (bytes " [1]") (.array [.number one]) :=
    ⟨bytes "[1]", .cons rfl (.nil _), .array (.lastElement (.nil _) (.number _ one_wf) (.nil _))⟩
  have hfits : ParseTree.TextFits (bytes " [1]") := ParseTree.textFits_of_length_le (by decide)
  exact (extracts_iff ⟨_, htext, ⟨finite_one, trivial⟩, rfl⟩ hfits rfl rfl).2 rfl

/-- The comma is lost. -/
theorem not_extracts_one :
    HasValue (bytes "1") (.integer 1) ∧ ParseTree.TextFits (bytes "1") ∧
      IsLongest (bytes "1") (bytes ",") ∧
      ¬Extracts (RawMemIstream.ofBytes (bytes "1,")) (.integer 1) (bytes ",") := by
  have htext : IsValueText (bytes "1") (.number one) := ⟨_, .nil _, .number [] one_wf⟩
  refine ⟨⟨_, htext, finite_one, rfl⟩, ParseTree.textFits_of_length_le (by decide),
    isLongest_number htext ?_, not_extracts_number htext rfl rfl _⟩
  intro c hc
  cases hc
  decide

end Json

end Wpi

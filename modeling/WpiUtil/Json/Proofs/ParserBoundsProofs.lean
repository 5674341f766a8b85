import WpiUtil.Json.Proofs.BinaryBoundsProofs
import WpiUtil.Json.Proofs.LexerBoundsProofs

/-!
# What parsing can come to

A level of nesting takes two rounds and at least one character, so the rounds suffice.
-/

namespace Wpi

namespace Parser

open Foundations MeteredSource
open Lexer (Real)

variable {σ α β : Type} [MeteredSource σ] {n k m fuel : Nat} {p : Parser σ}
  {Q R : Parser σ → Prop}

/-! ## States -/

/-- Fewer than `k` of the `n` characters are left. -/
def Below (n k : Nat) (p : Parser σ) : Prop := Lexer.Below n k p.lexer

/-- The last token has been read, and if it stands in the input fewer than `k` of the `n` characters
are left. -/
structure Seen (n k : Nat) (p : Parser σ) : Prop where
  ended : Lexer.Ended n p.lexer
  below : Real p.lastToken → Below n k p

/-- The outcome of an action that leaves a state in `Q` or throws what is documented. -/
def Outcome (n : Nat) (Q : Parser σ → Prop) (r : Except Failure α) (p : Parser σ) : Prop :=
  match r with
  | .ok _ => Q p
  | .error e => Json.Documented n true (.error e) ∧ Within n p.lexer.is

theorem outcome_bind {x : Action σ α} {f : α → Action σ β} (hx : Meets p x (Outcome n Q))
    (hf : ∀ a p', Q p' → Meets p' (f a) (Outcome n R)) : Meets p (x >>= f) (Outcome n R) :=
  hx.bind hf fun _ _ h => h

theorem outcome_mono {x : Action σ α} (hx : Meets p x (Outcome n Q)) (hQ : ∀ p', Q p' → R p') :
    Meets p x (Outcome n R) := by
  refine hx.mono ?_
  intro r p' h
  cases r with
  | ok a => exact hQ p' h
  | error e => exact h

theorem outcome_throw {e : JsonException} (h : Json.Documented n true (.error (.thrown e)))
    (hp : Lexer.Ended n p.lexer) :
    Meets p (throw (.thrown e) : Action σ α) (Outcome n Q) := meets_throw ⟨h, hp.within⟩

theorem outcome_syntaxError (whatArg : List Byte) (h : Lexer.Ended n p.lexer) :
    Meets p (throw (.thrown (parseError 101 p.lexer.charsRead whatArg)) : Action σ α)
      (Outcome n Q) := outcome_throw (.parseError _ rfl h.one_le h.le) h

/-- The callback does not read. -/
theorem meets_withCalls_bind {x : Option ParserCallback → StateM Calls α} {f : α → Action σ β}
    (h : ∀ a p', p'.lexer = p.lexer → Meets p' (f a) (Outcome n R)) :
    Meets p (withCalls x >>= f) (Outcome n R) := h _ _ rfl

theorem outcome_withCalls {x : Option ParserCallback → StateM Calls α} (h : Below n k p) :
    Meets p (withCalls x : Action σ α) (Outcome n (Below n k)) := h

/-! ## Tokens -/

theorem meets_getToken_bind {f : TokenType → Action σ α} (h : Lexer.Open n m p.lexer) (hm : m ≤ n)
    (hfuel : m < fuel) (hf : ∀ p', Seen n m p' → Meets p' (f p'.lastToken) (Outcome n R)) :
    Meets p (getToken fuel >>= f) (Outcome n R) := by
  obtain ⟨t, hrun, hended, hbelow⟩ := Lexer.outcome_scan h hm hfuel
  have htoken : (getToken fuel : Action σ TokenType).run.run p = (.ok t, { p with
      lastToken := t, lexer := ((Lexer.scan fuel).run.run p.lexer).2 }) := by
    unfold getToken
    rcases hscan : (Lexer.scan fuel).run.run p.lexer with ⟨r, lexer⟩
    rw [hscan] at hrun
    obtain rfl : r = .ok t := hrun
    have hget : (MonadState.get : Action σ (Parser σ)).run.run p = (.ok p, p) := rfl
    rw [run_bind, hget]
    simp only [hscan]
    rfl
  rw [Meets, run_bind, htoken]
  exact hf { p with lastToken := t, lexer := _ } ⟨hended, hbelow⟩

theorem outcome_expect {t : TokenType} (h : Lexer.Ended n p.lexer)
    (hQ : t = p.lastToken → Q p) : Meets p (expect t : Action σ Unit) (Outcome n Q) :=
  meets_get_bind (.ite (fun _ => outcome_syntaxError _ h) fun ht => meets_pure (hQ (not_not.1 ht)))

/-- A token that has to stand there. -/
theorem Seen.expect {t : TokenType} (h : Seen n k p) (ht : Real t) :
    Meets p (expect t : Action σ Unit) (Outcome n (Below n k)) := by
  refine outcome_expect h.ended fun htoken => ?_
  subst htoken
  exact h.below ht

theorem outcome_unexpect (h : Seen n k p) : Meets p (unexpect : Action σ Json) (Outcome n Q) :=
  meets_get_bind (outcome_syntaxError _ h.ended)

/-! ## Values -/

/-- The next token is read. -/
theorem Below.getToken_bind {f : TokenType → Action σ α} (h : Below n k p) (hfuel : k ≤ fuel)
    (hf : ∀ m p', m < k → m ≤ n → Seen n m p' → Meets p' (f p'.lastToken) (Outcome n R)) :
    Meets p (getToken fuel >>= f) (Outcome n R) := by
  obtain ⟨hk, m, hm, hopen⟩ := h
  exact meets_getToken_bind hopen (by omega) (by omega) fun p' => hf m p' hm (by omega)

theorem Below.mono {k' : Nat} (h : Below n k p) (hk : k ≤ k') (hk' : k' ≤ n) : Below n k' p :=
  Lexer.Below.mono h hk hk'

theorem Seen.mono {k' : Nat} (h : Seen n k p) (hk : k ≤ k') (hk' : k' ≤ n) : Seen n k' p :=
  ⟨h.ended, fun ht => (h.below ht).mono hk hk'⟩

theorem outcome_parseKey (keep : Bool) (h : Seen n k p) (hk : k ≤ n) (hfuel : k ≤ fuel) :
    Meets p (parseKey fuel keep : Action σ _) (Outcome n (Seen n k)) := by
  refine outcome_bind (h.expect (by decide)) fun _ p₁ h₁ => meets_get_bind ?_
  refine meets_withCalls_bind fun _ p₂ hp₂ => ?_
  have h₂ : Below n k p₂ := by
    unfold Below
    rw [hp₂]
    exact h₁
  refine h₂.getToken_bind hfuel fun m₃ p₃ hm₃ _ h₃ => ?_
  refine outcome_bind (h₃.expect (by decide)) fun _ p₄ h₄ => ?_
  refine h₄.getToken_bind (by omega) fun m₅ p₅ hm₅ _ h₅ => ?_
  exact meets_pure (h₅.mono (by omega) hk)

/-- What a value is good for that starts with the last token. -/
def Evaluates (n fuel : Nat) (x : Action σ Json) : Prop :=
  ∀ k p, Seen n k p → k ≤ n → 2 * k + 1 ≤ fuel → Meets p x (Outcome n (Below n k))

/-- The same for what is left of a container. -/
def Fills (n fuel : Nat) (x : Action σ Json) : Prop :=
  ∀ k p, Seen n k p → k ≤ n → 2 * k + 2 ≤ fuel → Meets p x (Outcome n (Below n k))

/-- After an item of a container there is another one or the closing bracket. -/
theorem Below.next {close : TokenType} {rest : Action σ Json} {result : Json} (h : Below n k p)
    (hfuel : k ≤ fuel) (hclose : Real close)
    (hrest : ∀ m p', m + 2 ≤ k → m ≤ n → Seen n m p' → Meets p' rest (Outcome n (Below n m))) :
    Meets p (getToken fuel >>= fun t =>
      if t = .valueSeparator then getToken fuel >>= fun _ => rest
      else expect close >>= fun _ => pure result : Action σ Json) (Outcome n (Below n k)) := by
  have hk : k ≤ n := h.1
  refine h.getToken_bind hfuel fun m₁ p₁ hm₁ hn₁ h₁ => .ite (fun ht => ?_) fun _ => ?_
  · have hbelow : Below n m₁ p₁ := by
      apply h₁.below
      rw [ht]
      decide
    refine hbelow.getToken_bind (by omega) fun m₂ p₂ hm₂ hn₂ h₂ => ?_
    exact outcome_mono (hrest m₂ p₂ (by omega) hn₂ h₂) fun _ h' => h'.mono (by omega) hk
  · refine outcome_bind (h₁.expect hclose) fun _ p₂ h₂ => ?_
    exact meets_pure (h₂.mono (by omega) hk)

theorem fills_parseMembers {keep : Bool} (result : Json)
    (hvalue : Evaluates n fuel (parseInternal fuel keep : Action σ Json))
    (hrest : ∀ result, Fills n fuel (parseMembers fuel keep result : Action σ Json)) :
    Fills n (fuel + 1) (parseMembers (fuel + 1) keep result : Action σ Json) := by
  intro k p h hk hfuel
  rw [parseMembers]
  refine outcome_bind (outcome_parseKey keep h hk (by omega)) fun _ p₁ h₁ => ?_
  refine outcome_bind (hvalue k p₁ h₁ hk (by omega)) fun _ p₂ h₂ => ?_
  apply h₂.next (by omega) (by decide)
  intro m p₃ hm hn h₃
  exact hrest _ m p₃ h₃ hn (by omega)

theorem fills_parseElements {keep : Bool} (result : Json)
    (hvalue : Evaluates n fuel (parseInternal fuel keep : Action σ Json))
    (hrest : ∀ result, Fills n fuel (parseElements fuel keep result : Action σ Json)) :
    Fills n (fuel + 1) (parseElements (fuel + 1) keep result : Action σ Json) := by
  intro k p h hk hfuel
  rw [parseElements]
  refine outcome_bind (hvalue k p h hk (by omega)) fun _ p₁ h₁ => ?_
  apply h₁.next (by omega) (by decide)
  intro m p₂ hm hn h₂
  exact hrest _ m p₂ h₂ hn (by omega)

/-- A container from its opening bracket on. -/
theorem outcome_container {start : Option ParserCallback → StateM Calls (Bool × Json)}
    {close : TokenType} {empty : Bool × Json → Option ParserCallback → StateM Calls Json}
    {fill : Bool × Json → Action σ Json}
    {finish : Bool × Json → Json → Option ParserCallback → StateM Calls Json}
    (h : Below n k p) (hclose : Real close) (hfuel : 2 * k ≤ fuel)
    (hfill : ∀ s, Fills n fuel (fill s)) :
    Meets p (withCalls start >>= fun s => getToken fuel >>= fun t =>
      if t = close then withCalls (empty s)
      else fill s >>= fun result => withCalls (finish s result) : Action σ Json)
      (Outcome n (Below n k)) := by
  have hk : k ≤ n := h.1
  refine meets_withCalls_bind fun s p₁ hp₁ => ?_
  have h₁ : Below n k p₁ := by
    unfold Below
    rw [hp₁]
    exact h
  refine h₁.getToken_bind (by omega) fun m₂ p₂ hm₂ hn₂ h₂ => .ite (fun ht₂ => ?_) fun _ => ?_
  · apply outcome_withCalls
    apply (h₂.below _).mono (Nat.le_of_lt hm₂) hk
    rw [ht₂]
    exact hclose
  · refine outcome_bind (hfill s m₂ p₂ h₂ hn₂ (by omega)) fun _ p₃ h₃ => ?_
    exact outcome_withCalls (h₃.mono (Nat.le_of_lt hm₂) hk)

theorem evaluates_succ (keep : Bool)
    (hmembers : ∀ keep result, Fills n fuel (parseMembers fuel keep result : Action σ Json))
    (helements : ∀ keep result, Fills n fuel (parseElements fuel keep result : Action σ Json)) :
    Evaluates n (fuel + 1) (parseInternal (fuel + 1) keep : Action σ Json) := by
  intro k p h hk hfuel
  rw [parseInternal]
  refine meets_get_bind ?_
  have hvalue (j : Json) (hreal : Real p.lastToken) :
      Meets p (withCalls (Calls.endValue · keep j) : Action σ Json) (Outcome n (Below n k)) :=
    outcome_withCalls (h.below hreal)
  cases ht : p.lastToken with
  | beginObject =>
    have hbelow : Below n k p := h.below (by rw [ht]; decide)
    exact outcome_container hbelow (by decide) (by omega) fun s => hmembers s.1 s.2
  | beginArray =>
    have hbelow : Below n k p := h.below (by rw [ht]; decide)
    exact outcome_container hbelow (by decide) (by omega) fun s => helements s.1 s.2
  | valueFloat =>
    refine .ite (fun _ => hvalue _ (by rw [ht]; decide)) fun _ => ?_
    exact outcome_throw (.outOfRange _ rfl rfl rfl) h.ended
  | literalNull | valueString | literalTrue | literalFalse | valueUnsigned | valueInteger =>
    exact hvalue _ (by rw [ht]; decide)
  | _ => exact outcome_unexpect h

theorem evaluates_parseInternal (fuel : Nat) :
    (∀ keep, Evaluates n fuel (parseInternal fuel keep : Action σ Json)) ∧
      (∀ keep result, Fills n fuel (parseMembers fuel keep result : Action σ Json)) ∧
        ∀ keep result, Fills n fuel (parseElements fuel keep result : Action σ Json) := by
  induction fuel with
  | zero =>
    refine ⟨?_, ?_, ?_⟩
    · intro _ k p _ _ hfuel
      omega
    · intro _ _ k p _ _ hfuel
      omega
    · intro _ _ k p _ _ hfuel
      omega
  | succ fuel ih =>
    obtain ⟨hvalue, hmembers, helements⟩ := ih
    refine ⟨?_, ?_, ?_⟩
    · intro keep
      exact evaluates_succ keep hmembers helements
    · intro keep result
      exact fills_parseMembers result (hvalue keep) (hmembers keep)
    · intro keep result
      exact fills_parseElements result (hvalue keep) (helements keep)

/-! ## Whole inputs -/

/-- A value from its first token on, and what is done with it. -/
theorem outcome_value_bind {f : Json → Action σ Json} (h : Lexer.Open n n p.lexer)
    (hfuel : 2 * n + 1 ≤ fuel)
    (hf : ∀ result p', Below n n p' → Meets p' (f result) (Outcome n R)) :
    Meets p (getToken fuel >>= fun _ => parseInternal fuel true >>= f) (Outcome n R) := by
  refine meets_getToken_bind h (Nat.le_refl n) (by omega) fun p₁ h₁ => ?_
  exact outcome_bind ((evaluates_parseInternal fuel).1 true n p₁ h₁ (Nat.le_refl n) hfuel) hf

theorem outcome_parse_strict (h : Lexer.Open n n p.lexer) (hfuel : 2 * n + 1 ≤ fuel) :
    Meets p (parse fuel true : Action σ Json) (Outcome n fun p' => Within n p'.lexer.is) := by
  refine outcome_value_bind h hfuel fun result p₂ h₂ => ?_
  refine h₂.getToken_bind (by omega) fun m₃ p₃ _ _ h₃ => ?_
  have hend : Meets p₃ (expect .endOfInput : Action σ Unit)
      (Outcome n fun p' => Within n p'.lexer.is) :=
    outcome_expect h₃.ended fun _ => h₃.ended.within
  exact outcome_bind hend fun _ _ h' => meets_pure h'

theorem outcome_parse (h : Lexer.Open n n p.lexer) (hfuel : 2 * n + 1 ≤ fuel) :
    Meets p (parse fuel false : Action σ Json) (Outcome n (Below n n)) :=
  outcome_value_bind h hfuel fun _ _ h₂ => meets_pure h₂

end Parser

namespace Json

open MeteredSource

variable {σ : Type} [MeteredSource σ] (is : σ)

/-- With a callback as well. -/
theorem documented_parseStream (cb : Option ParserCallback) (he : RawIstream.hasError is = false)
    (hasked : Asked is 0) (hfits : ∀ j, (parseStream is cb).1 = .ok j → j.KeysFit) :
    Documented (ByteSource.content is).length true (parseStream is cb).1 ∧
      Within (ByteSource.content is).length (parseStream is cb).2.lexer.is := by
  have hopen : Lexer.Open (ByteSource.content is).length (ByteSource.content is).length
      (Parser.new is cb).lexer := ⟨he, rfl, Nat.zero_add _, hasked⟩
  have houtcome := Parser.outcome_parse_strict hopen (Nat.le_refl _)
  revert hfits
  unfold parseStream
  rw [Foundations.Meets] at houtcome
  revert houtcome
  generalize (Parser.parse _ true).run.run (Parser.new is cb) = run
  rcases run with ⟨e | j, p⟩
  · intro h _
    exact h
  · intro h hfits
    exact ⟨.value j (hfits j rfl), h⟩

end Json

end Wpi

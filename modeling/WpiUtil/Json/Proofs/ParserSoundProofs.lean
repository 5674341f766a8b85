import WpiUtil.Json.Proofs.ParserProofs

/-!
# What the parser accepts

Whenever `parse_internal` returns, what it has read is the text of a tree.
-/

namespace Wpi.Parser

open Foundations
open Foundations.JsonText (Blanks Phrase Derives Tree)
open Lexer (Scans Lexeme Holds)

variable {σ : Type} [ByteSource σ]

/-- `w` is left to read. -/
structure Left (w : List Byte) (p : Parser σ) : Prop where
  ready : p.lexer.Ready
  input : p.lexer.input = w

/-- The last token is the first one of `u`. -/
structure Saw (u : List Byte) (p : Parser σ) : Prop where
  ready : p.lexer.Ready
  token : p.lastToken = .parseError ∨
    ∃ j, Scans u p.lastToken j p.lexer.input ∧ Holds j p.lexer

variable {u w : List Byte} {p p' : Parser σ} {fuel : Nat} {keep : Bool}

theorem Saw.left (h : Saw u p) : Left p.lexer.input p := ⟨h.ready, rfl⟩

/-! ## What the parts leave behind -/

theorem saw_of_getToken {t : TokenType} (hp : Left u p) (hfuel : u.length < fuel)
    (h : (getToken fuel : Action σ _).run.run p = (.ok t, p')) : t = p'.lastToken ∧ Saw u p' := by
  have hreads : Reads p.callback p.calls u p := ⟨rfl, rfl, hp.ready, hp.input⟩
  by_cases hscans : ∃ v t j w, Blanks u v ∧ Lexeme v t j w
  · obtain ⟨v, t', j, w, hu, hv⟩ := hscans
    obtain ⟨rfl, hp'⟩ := (runs_getToken ⟨v, hu, hv⟩ hfuel).result hreads h
    refine ⟨hp'.lastToken.symm, hp'.reads.ready, Or.inr ⟨j, ?_, hp'.holds⟩⟩
    rw [hp'.lastToken, hp'.reads.input]
    exact ⟨v, hu, hv⟩
  · have herror : ∀ y, Runs (Lexer.At u y) (Lexer.scan fuel : Lexer.Action σ _) .parseError _ :=
      fun y => (Lexer.scan_cases u y hfuel).resolve_left hscans
    obtain ⟨rfl, _, _, htoken, hready⟩ := (runs_getToken_of herror).result hreads h
    exact ⟨htoken.symm, hready, Or.inl htoken⟩

omit [ByteSource σ] in
theorem lexer_of_withCalls {α : Type} {x : Option ParserCallback → StateM Calls α} {a : α}
    (h : (withCalls x : Action σ α).run.run p = (.ok a, p')) :
    p'.lexer = p.lexer ∧ p'.lastToken = p.lastToken := by
  cases h
  exact ⟨rfl, rfl⟩

theorem Left.withCalls {α : Type} {x : Option ParserCallback → StateM Calls α} {a : α}
    (hp : Left w p) (h : (Parser.withCalls x : Action σ α).run.run p = (.ok a, p')) :
    Left w p' := by
  obtain ⟨hlexer, _⟩ := lexer_of_withCalls h
  constructor
  · rw [hlexer]
    exact hp.ready
  · rw [hlexer]
    exact hp.input

omit [ByteSource σ] in
theorem expect_ok {t : TokenType} {a : Unit}
    (h : (expect t : Action σ Unit).run.run p = (.ok a, p')) : p' = p ∧ p.lastToken = t := by
  unfold expect at h
  obtain ⟨q, p'', hget, h⟩ := exists_of_run_bind h
  cases hget
  by_cases ht : t = p.lastToken
  · rw [if_neg (not_not_intro ht)] at h
    cases h
    exact ⟨rfl, ht.symm⟩
  · rw [if_pos ht] at h
    cases h

omit [ByteSource σ] in
theorem unexpect_ok {a : Json} (h : (unexpect : Action σ Json).run.run p = (.ok a, p')) : False := by
  unfold unexpect at h
  obtain ⟨q, p'', hget, h⟩ := exists_of_run_bind h
  cases h

/-- The last token is a symbol. -/
theorem Saw.symbol (h : Saw u p) {c : Byte} {t : TokenType} (ht : p.lastToken = t)
    (hc : Lexer.symbolToken c = some t) : Blanks u (c :: p.lexer.input) := by
  rcases h.token with herror | ⟨j, ⟨v, hu, hv⟩, _⟩
  · rw [herror] at ht
    unfold Lexer.symbolToken at hc
    split_ifs at hc <;> cases hc <;> cases ht
  · rw [ht] at hv
    rwa [← Lexer.symbol_of_lexeme hc hv]

theorem Saw.string (h : Saw u p) (ht : p.lastToken = .valueString) :
    ∃ k cs, Blanks u (0x22 :: k) ∧ JsonText.Characters k cs p.lexer.input := by
  rcases h.token with herror | ⟨j, ⟨v, hu, hv⟩, _⟩
  · rw [herror] at ht
    cases ht
  · rw [ht] at hv
    obtain ⟨k, cs, rfl, hk, _⟩ := Lexer.string_of_lexeme hv
    exact ⟨k, cs, hu, hk⟩

/-! ## From runs to derivations -/

/-- What `parse_internal` reads is a value. -/
def ValueSound (σ : Type) [ByteSource σ] (fuel : Nat) : Prop :=
  ∀ (keep : Bool) (u : List Byte) (p p' : Parser σ) (r : Json), 2 * u.length + 1 ≤ fuel → Saw u p →
    (parseInternal fuel keep).run.run p = (.ok r, p') →
    ∃ v t w, Blanks u v ∧ Derives (.value t) v w ∧ ParseTree.Finite t ∧ Left w p'

def ElementsSound (σ : Type) [ByteSource σ] (fuel : Nat) : Prop :=
  ∀ (keep : Bool) (result : Json) (u : List Byte) (p p' : Parser σ) (r : Json),
    2 * u.length + 2 ≤ fuel → Saw u p →
    (parseElements fuel keep result).run.run p = (.ok r, p') →
    ∃ ts w, Derives (.elements ts) u w ∧ ParseTree.FiniteElements ts ∧ Left w p'

def MembersSound (σ : Type) [ByteSource σ] (fuel : Nat) : Prop :=
  ∀ (keep : Bool) (result : Json) (u : List Byte) (p p' : Parser σ) (r : Json),
    2 * u.length + 2 ≤ fuel → Saw u p →
    (parseMembers fuel keep result).run.run p = (.ok r, p') →
    ∃ ms w, Derives (.members ms) u w ∧ ParseTree.FiniteMembers ms ∧ Left w p'

theorem elementsSound_succ (hvalue : ValueSound σ fuel) (helements : ElementsSound σ fuel) :
    ElementsSound σ (fuel + 1) := by
  intro keep result u p p' r hfuel hp h
  rw [parseElements] at h
  obtain ⟨value, p₁, hx, h⟩ := exists_of_run_bind h
  obtain ⟨v, t, v', hu, ht, hfinite, hp₁⟩ := hvalue keep u p p₁ value (by omega) hp hx
  have huv := Lexer.blanks_length hu
  have hvv := derives_length ht
  dsimp only at h
  obtain ⟨tok, p₂, hx, h⟩ := exists_of_run_bind h
  obtain ⟨rfl, hp₂⟩ := saw_of_getToken hp₁ (by omega) hx
  by_cases hsep : p₂.lastToken = .valueSeparator
  · rw [if_pos hsep] at h
    have hblanks := hp₂.symbol hsep (c := 0x2c) rfl
    have hlen := Lexer.blanks_length hblanks
    rw [List.length_cons] at hlen
    obtain ⟨tok, p₃, hx, h⟩ := exists_of_run_bind h
    obtain ⟨_, hp₃⟩ := saw_of_getToken hp₂.left (by omega) hx
    obtain ⟨ts, w, hts, hfinite', hp'⟩ := helements _ _ _ p₃ p' r (by omega) hp₃ h
    exact ⟨t :: ts, w, .element hu ht hblanks hts, ⟨hfinite, hfinite'⟩, hp'⟩
  · rw [if_neg hsep] at h
    obtain ⟨_, p₃, hx, hreturn⟩ := exists_of_run_bind h
    obtain ⟨rfl, hend⟩ := expect_ok hx
    cases hreturn
    exact ⟨[t], _, .lastElement hu ht (hp₂.symbol hend rfl), ⟨hfinite, trivial⟩, hp₂.left⟩

/-- A key, white space, a colon and the first token of a value. -/
theorem key_sound {r : Key × Bool} (hp : Saw u p) (hfuel : u.length < fuel)
    (h : (parseKey fuel keep).run.run p = (.ok r, p')) :
    ∃ k cs k' x, Blanks u (0x22 :: k) ∧ JsonText.Characters k cs k' ∧ Blanks k' (0x3a :: x) ∧
      Saw x p' := by
  unfold parseKey at h
  obtain ⟨_, p₁, hx, h₁⟩ := exists_of_run_bind h
  obtain ⟨rfl, hstring⟩ := expect_ok hx
  obtain ⟨k, cs, hu, hk⟩ := hp.string hstring
  have hlen := Lexer.blanks_length hu
  have hlen' := characters_lt hk
  rw [List.length_cons] at hlen
  obtain ⟨q, p₂, hget, h₂⟩ := exists_of_run_bind h₁
  cases hget
  obtain ⟨keepTag, p₃, hx, h₃⟩ := exists_of_run_bind h₂
  have hp₃ := hp.left.withCalls hx
  obtain ⟨_, p₄, hx, h₄⟩ := exists_of_run_bind h₃
  obtain ⟨rfl, hp₄⟩ := saw_of_getToken hp₃ (by omega) hx
  obtain ⟨_, p₅, hx, h₅⟩ := exists_of_run_bind h₄
  obtain ⟨rfl, hcolon⟩ := expect_ok hx
  have hk' := hp₄.symbol hcolon (c := 0x3a) rfl
  have hlen₂ := Lexer.blanks_length hk'
  rw [List.length_cons] at hlen₂
  obtain ⟨_, p₆, hx, h₆⟩ := exists_of_run_bind h₅
  obtain ⟨_, hp₆⟩ := saw_of_getToken hp₄.left (by omega) hx
  cases h₆
  exact ⟨k, cs, _, _, hu, hk, hk', hp₆⟩

theorem membersSound_succ (hvalue : ValueSound σ fuel) (hmembers : MembersSound σ fuel) :
    MembersSound σ (fuel + 1) := by
  intro keep result u p p' r hfuel hp h
  rw [parseMembers] at h
  obtain ⟨⟨key, keepTag⟩, p₁, hx, h⟩ := exists_of_run_bind h
  obtain ⟨k, cs, k', x, hu, hk, hk', hp₁⟩ := key_sound hp (by omega) hx
  have hlen := Lexer.blanks_length hu
  have hlen' := characters_lt hk
  have hlen₂ := Lexer.blanks_length hk'
  rw [List.length_cons] at hlen hlen₂
  obtain ⟨value, p₂, hx, h⟩ := exists_of_run_bind h
  obtain ⟨v, t, v', hxv, ht, hfinite, hp₂⟩ := hvalue keep x p₁ p₂ value (by omega) hp₁ hx
  have hlen₃ := Lexer.blanks_length hxv
  have hlen₄ := derives_length ht
  dsimp only at h
  obtain ⟨tok, p₃, hx, h⟩ := exists_of_run_bind h
  obtain ⟨rfl, hp₃⟩ := saw_of_getToken hp₂ (by omega) hx
  by_cases hsep : p₃.lastToken = .valueSeparator
  · rw [if_pos hsep] at h
    have hblanks := hp₃.symbol hsep (c := 0x2c) rfl
    have hlen₅ := Lexer.blanks_length hblanks
    rw [List.length_cons] at hlen₅
    obtain ⟨tok, p₄, hx, h⟩ := exists_of_run_bind h
    obtain ⟨_, hp₄⟩ := saw_of_getToken hp₃.left (by omega) hx
    obtain ⟨ms, w, hms, hfinite', hp'⟩ := hmembers _ _ _ p₄ p' r (by omega) hp₄ h
    exact ⟨(cs, t) :: ms, w, .member hu hk hk' hxv ht hblanks hms, ⟨hfinite, hfinite'⟩, hp'⟩
  · rw [if_neg hsep] at h
    obtain ⟨_, p₄, hx, hreturn⟩ := exists_of_run_bind h
    obtain ⟨rfl, hend⟩ := expect_ok hx
    cases hreturn
    exact ⟨[(cs, t)], _, .lastMember hu hk hk' hxv ht (hp₃.symbol hend rfl), ⟨hfinite, trivial⟩,
      hp₃.left⟩

/-- The start of a container that is read to its end. -/
theorem saw_of_open {v : List Byte} {event : ParseEvent} {container r : Json} (hp : Left v p)
    (hfuel : v.length < fuel) {f : Bool × Json → TokenType → Action σ Json}
    (h : (do
      let start ← withCalls fun cb => Calls.startContainer cb event container keep
      f start (← getToken fuel) : Action σ Json).run.run p = (.ok r, p')) :
    ∃ start p₂, Saw v p₂ ∧ (f start p₂.lastToken).run.run p₂ = (.ok r, p') := by
  obtain ⟨start, p₁, hx, h⟩ := exists_of_run_bind h
  have hp₁ := hp.withCalls hx
  obtain ⟨tok, p₂, hx, h⟩ := exists_of_run_bind h
  obtain ⟨rfl, hp₂⟩ := saw_of_getToken hp₁ hfuel hx
  exact ⟨start, p₂, hp₂, h⟩

/-- An array, from after its opening bracket on. -/
theorem array_sound {v : List Byte} {r : Json} (helements : ElementsSound σ fuel)
    (hfuel : 2 * v.length + 2 ≤ fuel) (hp : Left v p)
    (h : (do
      let (keep, result) ← withCalls fun cb =>
        Calls.startContainer cb .arrayStart Json.emptyArray keep
      if (← getToken fuel) = .endArray then withCalls (Calls.endContainer · .arrayEnd true result)
      else do
        let result ← parseElements fuel keep result
        withCalls (Calls.endContainer · .arrayEnd keep result) : Action σ Json).run.run p =
      (.ok r, p')) :
    ∃ ts w, Derives (.value (.array ts)) (0x5b :: v) w ∧ ParseTree.FiniteElements ts ∧
      Left w p' := by
  obtain ⟨⟨keep', result⟩, p₂, hp₂, h⟩ := saw_of_open hp (by omega) h
  dsimp only at h
  by_cases hend : p₂.lastToken = .endArray
  · rw [if_pos hend] at h
    exact ⟨[], _, .emptyArray (hp₂.symbol hend rfl), trivial, hp₂.left.withCalls h⟩
  · rw [if_neg hend] at h
    obtain ⟨result, p₃, hx, h⟩ := exists_of_run_bind h
    obtain ⟨ts, w, hts, hfinite, hp₃⟩ := helements _ _ v p₂ p₃ result hfuel hp₂ hx
    exact ⟨ts, w, .array hts, hfinite, hp₃.withCalls h⟩

/-- An object, from after its opening bracket on. -/
theorem object_sound {v : List Byte} {r : Json} (hmembers : MembersSound σ fuel)
    (hfuel : 2 * v.length + 2 ≤ fuel) (hp : Left v p)
    (h : (do
      let (keep, result) ← withCalls fun cb =>
        Calls.startContainer cb .objectStart Json.emptyObject keep
      if (← getToken fuel) = .endObject then withCalls (Calls.endContainer · .objectEnd keep result)
      else do
        let result ← parseMembers fuel keep result
        withCalls (Calls.endContainer · .objectEnd keep result) : Action σ Json).run.run p =
      (.ok r, p')) :
    ∃ ms w, Derives (.value (.object ms)) (0x7b :: v) w ∧ ParseTree.FiniteMembers ms ∧
      Left w p' := by
  obtain ⟨⟨keep', result⟩, p₂, hp₂, h⟩ := saw_of_open hp (by omega) h
  dsimp only at h
  by_cases hend : p₂.lastToken = .endObject
  · rw [if_pos hend] at h
    exact ⟨[], _, .emptyObject (hp₂.symbol hend rfl), trivial, hp₂.left.withCalls h⟩
  · rw [if_neg hend] at h
    obtain ⟨result, p₃, hx, h⟩ := exists_of_run_bind h
    obtain ⟨ms, w, hms, hfinite, hp₃⟩ := hmembers _ _ v p₂ p₃ result hfuel hp₂ hx
    exact ⟨ms, w, .object hms, hfinite, hp₃.withCalls h⟩

theorem valueSound_succ (helements : ElementsSound σ fuel) (hmembers : MembersSound σ fuel) :
    ValueSound σ (fuel + 1) := by
  intro keep u p p' r hfuel hp h
  rw [parseInternal] at h
  obtain ⟨q, p₁, hget, h⟩ := exists_of_run_bind h
  cases hget
  rcases hp.token with herror | ⟨j, ⟨v, hu, hv⟩, hj⟩
  · rw [herror] at h
    exact (unexpect_ok h).elim
  · have hlen := Lexer.blanks_length hu
    have hleft := hp.left
    generalize p.lastToken = tok at h hv
    generalize hw : p.lexer.input = w at hv hleft
    cases hv with
    | @symbol c tok w hc =>
      rw [List.length_cons] at hlen
      unfold Lexer.symbolToken at hc
      split_ifs at hc with h1 h2 h3 h4 h5 h6
      · cases hc
        obtain ⟨ts, w', hts, hfinite, hp'⟩ := array_sound helements (by omega) hleft h
        exact ⟨_, .array ts, w', hu, by rwa [h1], hfinite, hp'⟩
      · cases hc
        exact (unexpect_ok h).elim
      · cases hc
        obtain ⟨ms, w', hms, hfinite, hp'⟩ := object_sound hmembers (by omega) hleft h
        exact ⟨_, .object ms, w', hu, by rwa [h3], hfinite, hp'⟩
      · cases hc
        exact (unexpect_ok h).elim
      · cases hc
        exact (unexpect_ok h).elim
      · cases hc
        exact (unexpect_ok h).elim
    | null w => exact ⟨_, .null, w, hu, .null w, trivial, hleft.withCalls h⟩
    | true w => exact ⟨_, .boolean true, w, hu, .true w, trivial, hleft.withCalls h⟩
    | false w => exact ⟨_, .boolean false, w, hu, .false w, trivial, hleft.withCalls h⟩
    | @string k w cs hk => exact ⟨_, .string cs, w, hu, .string hk, trivial, hleft.withCalls h⟩
    | @number c state type x w hfirst hx =>
      obtain ⟨n, hn, htext, rfl⟩ := Lexer.numeral_of_munch hfirst hx
      rw [← htext, Lexer.numberOf_text hn] at h hj
      have hderives : Derives (.value (.number n)) (c :: (x ++ w)) w := by
        have hnumber := Derives.number w hn
        rwa [htext] at hnumber
      unfold ParseTree.numberJson at h hj
      cases hfits : ParseTree.fits n with
      | true =>
        have hfinite : ParseTree.Finite (.number n) := fun hnot => by
          rw [hfits] at hnot
          cases hnot
        rw [hfits, if_pos rfl] at h
        cases hnegative : n.negative with
        | false =>
          rw [hnegative] at h
          exact ⟨_, .number n, w, hu, hderives, hfinite, hleft.withCalls h⟩
        | true =>
          rw [hnegative] at h
          exact ⟨_, .number n, w, hu, hderives, hfinite, hleft.withCalls h⟩
      | false =>
        rw [hfits, if_neg (by decide)] at h hj
        have hvalue : p.lexer.valueFloat = n.toDouble := hj
        simp only [Lexer.tokenOf] at h
        by_cases hfinite : Binary64.isFinite p.lexer.valueFloat = true
        · rw [if_pos hfinite] at h
          rw [hvalue] at hfinite
          exact ⟨_, .number n, w, hu, hderives, fun _ => hfinite, hleft.withCalls h⟩
        · rw [if_neg hfinite] at h
          cases h
    | endOfInput => exact (unexpect_ok h).elim
    | nul w => exact (unexpect_ok h).elim

theorem sound (fuel : Nat) :
    ValueSound σ fuel ∧ ElementsSound σ fuel ∧ MembersSound σ fuel := by
  induction fuel with
  | zero =>
    refine ⟨fun keep u p p' r hfuel => ?_, fun keep result u p p' r hfuel => ?_,
      fun keep result u p p' r hfuel => ?_⟩
    · omega
    · omega
    · omega
  | succ fuel ih =>
    obtain ⟨hvalue, helements, hmembers⟩ := ih
    exact ⟨valueSound_succ helements hmembers, elementsSound_succ hvalue helements,
      membersSound_succ hvalue hmembers⟩

end Wpi.Parser

import WpiUtil.Foundations.Lockstep
import WpiUtil.Json.ParserAccept
import WpiUtil.Json.Proofs.ParseProofs

/-!
# What is accepted is parsed

Without a callback `accept_internal` and `parse_internal` read the same tokens and take the same
decisions, but for a number that is too large for a double.
-/

namespace Wpi

open Foundations
open Foundations.JsonText (Blanks)

namespace Parser

variable {σ : Type} [ByteSource σ] {u v w : List Byte} {p p' : Parser σ} {fuel : Nat}

/-- The exceptions of the parser. -/
def Thrown (e : Failure) : Prop := ∃ x, e = .thrown x

/-- A number is too large. -/
def Overflow (e : Failure) : Prop := ∃ what, e = .thrown (outOfRange 406 what)

/-- `w` is left to read, and there is no callback. -/
structure Comes (w : List Byte) (p : Parser σ) : Prop where
  left : Left w p
  callback : p.callback = none

/-- The last token is the first one of `u`, and there is no callback. -/
structure Stands (u : List Byte) (p : Parser σ) : Prop where
  saw : Saw u p
  callback : p.callback = none

/-- Less than `u` is left to read. -/
def Advances (u : List Byte) (p : Parser σ) : Prop := ∃ w, Comes w p ∧ w.length < u.length

theorem Advances.mono (h : Advances v p) (hle : v.length ≤ u.length) : Advances u p := by
  obtain ⟨w, hp, hlt⟩ := h
  exact ⟨w, hp, by omega⟩

theorem Stands.comes (h : Stands u p) : Comes p.lexer.input p := ⟨h.saw.left, h.callback⟩

/-! ## Steps -/

theorem stands_of_getToken (hp : Comes u p) (hfuel : u.length < fuel) :
    ∃ p', (getToken fuel : Action σ _).run.run p = (.ok p'.lastToken, p') ∧ Stands u p' := by
  have hreads : Reads none p.calls u p := ⟨hp.callback, rfl, hp.left.ready, hp.left.input⟩
  by_cases hscans : ∃ v t j w, Blanks u v ∧ Lexer.Lexeme v t j w
  · obtain ⟨v, t, j, w, hu, hv⟩ := hscans
    obtain ⟨p', hrun, hp'⟩ := runs_getToken ⟨v, hu, hv⟩ hfuel p hreads
    obtain ⟨ht, hsaw⟩ := saw_of_getToken hp.left hfuel hrun
    rw [ht] at hrun
    exact ⟨p', hrun, hsaw, hp'.reads.callback⟩
  · have herror : ∀ y, Runs (Lexer.At u y) (Lexer.scan fuel : Lexer.Action σ _) .parseError _ :=
      fun y => (Lexer.scan_cases u y hfuel).resolve_left hscans
    obtain ⟨p', hrun, hp'⟩ := runs_getToken_of herror p hreads
    obtain ⟨ht, hsaw⟩ := saw_of_getToken hp.left hfuel hrun
    rw [ht] at hrun
    exact ⟨p', hrun, hsaw, hp'.1⟩

section Steps

variable {α : Type} {Q : Parser σ → Prop}

/-- Both read a token. -/
theorem lockstep_getToken (hp : Comes u p) (hfuel : u.length < fuel) {x : TokenType → Action σ Bool}
    {y : TokenType → Action σ α}
    (h : ∀ p', Stands u p' → Lockstep Thrown Overflow Q p' (x p'.lastToken) (y p'.lastToken)) :
    Lockstep Thrown Overflow Q p (getToken fuel >>= x) (getToken fuel >>= y) := by
  obtain ⟨p', hrun, hp'⟩ := stands_of_getToken hp hfuel
  exact lockstep_step hrun (h p' hp')

omit [ByteSource σ] in
theorem run_get (p : Parser σ) :
    (MonadState.get : Action σ (Parser σ)).run.run p = (.ok p, p) := rfl

omit [ByteSource σ] in
/-- The token has to be `t`. -/
theorem lockstep_expect {t : TokenType} {x : Action σ Bool} {y : Unit → Action σ α}
    (h : p.lastToken = t → Lockstep Thrown Overflow Q p x (y ())) :
    Lockstep Thrown Overflow Q p (if p.lastToken ≠ t then pure false else x) (expect t >>= y) := by
  by_cases ht : p.lastToken = t
  · have hexpect : (expect t : Action σ Unit).run.run p = (.ok (), p) := by
      change (if t ≠ p.lastToken then _ else _ : Action σ Unit).run.run p = _
      rw [if_neg (not_not.2 ht.symm)]
      rfl
    rw [if_neg (not_not.2 ht)]
    exact lockstep_right hexpect (h ht)
  · have hexpect : ∃ e, (expect t : Action σ Unit).run.run p = (.error (.thrown e), p) := by
      refine ⟨parseError 101 p.lexer.charsRead
        (syntaxError p (bytes "; last read: '") ++ bytes "; expected " ++ t.name), ?_⟩
      change (if t ≠ p.lastToken then _ else _ : Action σ Unit).run.run p = _
      rw [if_pos (Ne.symm ht)]
      rfl
    obtain ⟨e, hexpect⟩ := hexpect
    rw [if_pos ht]
    refine .rejects p p (.thrown e) rfl ?_ ⟨e, rfl⟩
    rw [run_bind, hexpect]

omit [ByteSource σ] in
/-- Without a callback nothing happens where it would be called. -/
theorem run_withCalls (hp : p.callback = none) {z : Option ParserCallback → StateM Calls α}
    {a : α} (hz : ∀ s, (z none).run s = (a, s)) :
    (withCalls z : Action σ α).run.run p = (.ok a, p) := by
  have hrun : (withCalls z : Action σ α).run.run p = (.ok ((z p.callback).run p.calls).1,
    { p with calls := ((z p.callback).run p.calls).2 }) := rfl
  rw [hp, hz] at hrun
  rw [hrun]
  exact Prod.ext rfl (by rw [← hp])

theorem startContainer_none (event : ParseEvent) (container : Json) (keep : Bool) :
    ∃ a, ∀ s, (Calls.startContainer none event container keep).run s = (a, s) := by
  cases keep with
  | false => exact ⟨_, fun _ => rfl⟩
  | true => exact ⟨_, fun _ => rfl⟩

theorem endContainer_none (event : ParseEvent) (keep : Bool) (result : Json) :
    ∃ a, ∀ s, (Calls.endContainer none event keep result).run s = (a, s) := by
  cases keep with
  | false => exact ⟨_, fun _ => rfl⟩
  | true => exact ⟨_, fun _ => rfl⟩

theorem endValue_none (keep : Bool) (result : Json) :
    ∃ a, ∀ s, (Calls.endValue none keep result).run s = (a, s) := by
  cases keep with
  | false => exact ⟨_, fun _ => rfl⟩
  | true => exact ⟨_, fun _ => rfl⟩

theorem keepTag_none (keep : Bool) (key : Key) :
    ∃ a, ∀ s, (Calls.keepTag none keep key).run s = (a, s) := by
  cases keep with
  | false => exact ⟨_, fun _ => rfl⟩
  | true => exact ⟨_, fun _ => rfl⟩

end Steps

/-! ## Values -/

instance : Nonempty Json := ⟨.null⟩

/-- Both functions do the same from a first token on. -/
def ValueAgree (σ : Type) [ByteSource σ] (fuel : Nat) : Prop :=
  ∀ (keep : Bool) (u : List Byte) (p : Parser σ), 2 * u.length + 1 ≤ fuel → Stands u p →
    Lockstep Thrown Overflow (Advances u) p (acceptInternal fuel) (parseInternal fuel keep)

def ElementsAgree (σ : Type) [ByteSource σ] (fuel : Nat) : Prop :=
  ∀ (keep : Bool) (result : Json) (u : List Byte) (p : Parser σ), 2 * u.length + 2 ≤ fuel →
    Stands u p →
    Lockstep Thrown Overflow (Advances u) p (acceptElements fuel) (parseElements fuel keep result)

def MembersAgree (σ : Type) [ByteSource σ] (fuel : Nat) : Prop :=
  ∀ (keep : Bool) (result : Json) (u : List Byte) (p : Parser σ), 2 * u.length + 2 ≤ fuel →
    Stands u p →
    Lockstep Thrown Overflow (Advances u) p (acceptMembers fuel) (parseMembers fuel keep result)

/-- A token that stands in the text takes up room. -/
theorem length_lt_of_lexeme {t : TokenType} {j : Json} (h : Lexer.Lexeme v t j w)
    (ht : t ≠ .endOfInput) : w.length < v.length := by
  cases h with
  | symbol w _ => simp
  | null w | true w | false w =>
    simp [JsonText.ascii]
    omega
  | string h =>
    have hlt := characters_lt h
    rw [List.length_cons]
    omega
  | @number c state type x w _ _ =>
    rw [List.length_cons, List.length_append]
    omega
  | endOfInput => exact absurd rfl ht
  | nul w => exact absurd rfl ht

theorem Stands.advances (h : Stands u p) (herror : p.lastToken ≠ .parseError)
    (hend : p.lastToken ≠ .endOfInput) : Advances u p := by
  obtain ⟨j, ⟨v, hu, hv⟩, -⟩ := h.saw.token.resolve_left herror
  have hle := Lexer.blanks_length hu
  have hlt := length_lt_of_lexeme hv hend
  exact ⟨_, h.comes, by omega⟩

/-- After an item there is another one or the closing bracket. -/
theorem lockstep_next {close : TokenType} {c : Byte} (hclose : Lexer.symbolToken c = some close)
    (hp : Comes w p) (hw : w.length < u.length) (hfuel : u.length < fuel) {x : Action σ Bool}
    {y : Action σ Json} (result : Json)
    (h : ∀ v p', Stands v p' → v.length < w.length →
      Lockstep Thrown Overflow (Advances v) p' x y) :
    Lockstep Thrown Overflow (Advances u) p
      (getToken fuel >>= fun t =>
        if t = .valueSeparator then getToken fuel >>= fun _ => x
        else if t ≠ close then pure false else pure true)
      (getToken fuel >>= fun t =>
        if t = .valueSeparator then getToken fuel >>= fun _ => y
        else expect close >>= fun _ => pure result) := by
  refine lockstep_getToken hp (by omega) fun p' hp' => ?_
  by_cases hsep : p'.lastToken = .valueSeparator
  · rw [if_pos hsep, if_pos hsep]
    have hlength := Lexer.blanks_length (hp'.saw.symbol hsep (c := 0x2c) rfl)
    rw [List.length_cons] at hlength
    refine lockstep_getToken hp'.comes (by omega) fun p'' hp'' => ?_
    exact (h _ p'' hp'' (by omega)).mono fun _ hs => hs.mono (by omega)
  · rw [if_neg hsep, if_neg hsep]
    refine lockstep_expect fun hend => ?_
    have hlength := Lexer.blanks_length (hp'.saw.symbol hend hclose)
    rw [List.length_cons] at hlength
    exact lockstep_pure result ⟨_, hp'.comes, by omega⟩

theorem elementsAgree_succ (hvalue : ValueAgree σ fuel) (helements : ElementsAgree σ fuel) :
    ElementsAgree σ (fuel + 1) := by
  intro keep result u p hfuel hp
  rw [acceptElements, parseElements]
  refine (hvalue keep u p (by omega) hp).bind fun value p' hp' => ?_
  obtain ⟨w, hp', hw⟩ := hp'
  refine lockstep_next (c := 0x5d) rfl hp' hw (by omega) _ fun v p'' hp'' hv => ?_
  exact helements keep _ v p'' (by omega) hp''

theorem membersAgree_succ (hvalue : ValueAgree σ fuel) (hmembers : MembersAgree σ fuel) :
    MembersAgree σ (fuel + 1) := by
  intro keep result u p hfuel hp
  rw [acceptMembers, parseMembers, parseKey]
  simp only [bind_assoc, pure_bind]
  refine lockstep_left (run_get p) ?_
  refine lockstep_expect fun hstring => ?_
  obtain ⟨k, cs, hu, hk⟩ := hp.saw.string hstring
  have hlength := Lexer.blanks_length hu
  have hlength' := characters_lt hk
  rw [List.length_cons] at hlength
  obtain ⟨keepTag, hkeep⟩ := keepTag_none keep p.lexer.yytext
  refine lockstep_right (run_get p) ?_
  refine lockstep_right (run_withCalls hp.callback hkeep) ?_
  refine lockstep_getToken hp.comes (by omega) fun p₁ hp₁ => ?_
  refine lockstep_expect fun hcolon => ?_
  have hlength₁ := Lexer.blanks_length (hp₁.saw.symbol hcolon (c := 0x3a) rfl)
  rw [List.length_cons] at hlength₁
  refine lockstep_getToken hp₁.comes (by omega) fun p₂ hp₂ => ?_
  refine (hvalue keep _ p₂ (by omega) hp₂).bind fun value p₃ hp₃ => ?_
  obtain ⟨w, hp₃, hw⟩ := hp₃
  refine lockstep_next (c := 0x7d) rfl hp₃ (by omega) (by omega) _ fun v p₄ hp₄ hv => ?_
  exact hmembers keep _ v p₄ (by omega) hp₄

/-- A container, from after its opening bracket on. -/
theorem lockstep_container {close : TokenType} {c : Byte}
    (hclose : Lexer.symbolToken c = some close) (hp : Comes w p) (hw : w.length < u.length)
    (hfuel : w.length < fuel) {start : Option ParserCallback → StateM Calls (Bool × Json)}
    {empty : Bool × Json → Option ParserCallback → StateM Calls Json}
    {finish : Bool × Json → Json → Option ParserCallback → StateM Calls Json}
    (hstart : ∃ a, ∀ s, (start none).run s = (a, s))
    (hempty : ∀ b, ∃ a, ∀ s, (empty b none).run s = (a, s))
    (hfinish : ∀ b r, ∃ a, ∀ s, (finish b r none).run s = (a, s)) {x : Action σ Bool}
    {y : Bool × Json → Action σ Json}
    (h : ∀ b p', Stands w p' → Lockstep Thrown Overflow (Advances w) p' x (y b)) :
    Lockstep Thrown Overflow (Advances u) p
      (getToken fuel >>= fun t => if t = close then pure true else x)
      (withCalls start >>= fun b => getToken fuel >>= fun t =>
        if t = close then withCalls (empty b)
        else y b >>= fun result => withCalls (finish b result)) := by
  obtain ⟨b, hb⟩ := hstart
  refine lockstep_right (run_withCalls hp.callback hb) ?_
  refine lockstep_getToken hp hfuel fun p' hp' => ?_
  by_cases hend : p'.lastToken = close
  · rw [if_pos hend, if_pos hend]
    have hlength := Lexer.blanks_length (hp'.saw.symbol hend hclose)
    rw [List.length_cons] at hlength
    obtain ⟨a, ha⟩ := hempty b
    exact .accepts a p' rfl (run_withCalls hp'.callback ha) ⟨_, hp'.comes, by omega⟩
  · rw [if_neg hend, if_neg hend]
    have hfill : Lockstep Thrown Overflow (Advances u) p' x (y b) :=
      (h b p' hp').mono fun _ hs => hs.mono (by omega)
    refine hfill.map fun result p'' hp'' => ?_
    obtain ⟨a, ha⟩ := hfinish b result
    obtain ⟨w', hcomes, -⟩ := hp''
    exact ⟨a, run_withCalls hcomes.callback ha⟩

theorem valueAgree_succ (helements : ElementsAgree σ fuel) (hmembers : MembersAgree σ fuel) :
    ValueAgree σ (fuel + 1) := by
  intro keep u p hfuel hp
  rw [acceptInternal, parseInternal]
  refine lockstep_left (run_get p) ?_
  refine lockstep_right (run_get p) ?_
  have hscalar (value : Json) (hadvances : Advances u p) :
      Lockstep Thrown Overflow (Advances u) p (pure true)
        (withCalls (Calls.endValue · keep value)) := by
    obtain ⟨a, ha⟩ := endValue_none keep value
    exact .accepts a p rfl (run_withCalls hp.callback ha) hadvances
  have hreject : Lockstep Thrown Overflow (Advances u) p (pure false) unexpect :=
    .rejects p p _ rfl rfl ⟨_, rfl⟩
  cases ht : p.lastToken with
  | beginObject =>
    have hlength := Lexer.blanks_length (hp.saw.symbol ht (c := 0x7b) rfl)
    rw [List.length_cons] at hlength
    refine lockstep_container (c := 0x7d) rfl hp.comes (by omega) (by omega)
      (startContainer_none .objectStart Json.emptyObject keep)
      (fun b => endContainer_none .objectEnd b.1 b.2)
      (fun b => endContainer_none .objectEnd b.1) fun b p' hp' => ?_
    exact hmembers b.1 b.2 _ p' (by omega) hp'
  | beginArray =>
    have hlength := Lexer.blanks_length (hp.saw.symbol ht (c := 0x5b) rfl)
    rw [List.length_cons] at hlength
    refine lockstep_container (c := 0x5d) rfl hp.comes (by omega) (by omega)
      (startContainer_none .arrayStart Json.emptyArray keep)
      (fun b => endContainer_none .arrayEnd true b.2)
      (fun b => endContainer_none .arrayEnd b.1) fun b p' hp' => ?_
    exact helements b.1 b.2 _ p' (by omega) hp'
  | literalTrue | literalFalse | literalNull | valueString | valueUnsigned | valueInteger =>
    exact hscalar _ (hp.advances (by simp [ht]) (by simp [ht]))
  | valueFloat =>
    have hadvances : Advances u p := hp.advances (by simp [ht]) (by simp [ht])
    dsimp only
    by_cases hfinite : Binary64.isFinite p.lexer.valueFloat = true
    · rw [if_pos hfinite]
      exact hscalar _ hadvances
    · rw [if_neg hfinite]
      exact .stops true p p _ rfl (fun _ => hadvances) rfl ⟨_, rfl⟩
  | _ => exact hreject

theorem agree (fuel : Nat) : ValueAgree σ fuel ∧ ElementsAgree σ fuel ∧ MembersAgree σ fuel := by
  induction fuel with
  | zero =>
    refine ⟨fun keep u p hfuel => ?_, fun keep result u p hfuel => ?_,
      fun keep result u p hfuel => ?_⟩
    · omega
    · omega
    · omega
  | succ fuel ih =>
    obtain ⟨hvalue, helements, hmembers⟩ := ih
    exact ⟨valueAgree_succ helements hmembers, elementsAgree_succ hvalue helements,
      membersAgree_succ hvalue hmembers⟩

theorem lockstep_parse {strict : Bool} (hp : Comes u p) (hfuel : 2 * u.length + 1 ≤ fuel) :
    Lockstep Thrown Overflow (fun _ => True) p (accept fuel strict) (parse fuel strict) := by
  rw [accept, parse]
  refine lockstep_getToken hp (by omega) fun p₁ hp₁ => ?_
  refine ((agree fuel).1 true u p₁ hfuel hp₁).bind fun result p₂ hp₂ => ?_
  cases strict with
  | false => exact lockstep_pure _ trivial
  | true =>
    obtain ⟨w, hcomes, hw⟩ := hp₂
    rw [if_pos rfl, if_pos rfl]
    refine lockstep_getToken hcomes (by omega) fun p₃ hp₃ => ?_
    exact lockstep_expect fun _ => lockstep_pure _ trivial

end Parser

namespace Json

theorem lockstep_text (s : List Byte) (strict : Bool) :
    Lockstep Parser.Thrown Parser.Overflow (fun _ => True)
      (Parser.new (RawMemIstream.ofBytes s) none) (Parser.accept (2 * s.length + 1) strict)
      (Parser.parse (2 * s.length + 1) strict) := by
  have hreads := reads_new s none
  have hcomes : Parser.Comes s (Parser.new (RawMemIstream.ofBytes s) none) :=
    ⟨⟨hreads.ready, hreads.input⟩, hreads.callback⟩
  exact Parser.lockstep_parse hcomes (Nat.le_refl _)

/-- A text is parsed exactly if it is accepted and parsing it does not come to a number that is too
large for a double. -/
theorem parseText_iff_accept (s : List Byte) (strict : Bool) :
    (∃ b, accept s strict = .ok b) ∧
    ((∃ j, parseText s strict = .ok j) ↔
      accept s strict = .ok true ∧
        ¬∃ what, parseText s strict = .error (.thrown (outOfRange 406 what))) := by
  have h := lockstep_text s strict
  refine ⟨h.answers, ?_⟩
  have hiff := h.returns_iff
  constructor
  · intro hparse
    obtain ⟨haccept, hno⟩ := hiff.1 hparse
    refine ⟨haccept, ?_⟩
    rintro ⟨what, hwhat⟩
    exact hno _ hwhat ⟨what, rfl⟩
  · rintro ⟨haccept, hno⟩
    refine hiff.2 ⟨haccept, ?_⟩
    rintro e he ⟨what, rfl⟩
    exact hno ⟨what, he⟩

/-- The number is in the grammar, but it is no double. -/
theorem not_accept_iff_parseText :
    ¬∀ (s : List Byte) (strict : Bool),
      accept s strict = .ok true ↔ ∃ j, parseText s strict = .ok j := by
  intro h
  have haccept : accept (bytes "1e400") true = .ok true := by decide +kernel
  have hparse : (parseText (bytes "1e400") true).isOk = false := by decide +kernel
  obtain ⟨j, hj⟩ := (h _ _).1 haccept
  rw [hj] at hparse
  cases hparse

end Json

end Wpi

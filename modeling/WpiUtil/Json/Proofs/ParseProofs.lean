import WpiUtil.Json.Proofs.JsonProofs
import WpiUtil.Json.Proofs.ParserSoundProofs

/-!
# Parsing a whole text
-/

namespace Wpi

open Foundations
open Foundations.JsonText (Blanks Characters Derives Framed Numeral Phrase Tree)

/-! ## The parser on a whole text -/

namespace Parser

/-- White space, a value and white space, and `w` after that. -/
def Text (t : Tree) (u w : List Byte) : Prop :=
  ∃ a b, Blanks u a ∧ Derives (.value t) a b ∧ Blanks b w

theorem Text.framed {t : Tree} {u w : List Byte} (h : Text t u w) : Framed (Text t) u w := by
  obtain ⟨a, b, ha, ht, hb⟩ := h
  refine (ha.framed.comp (ht.framed.comp hb.framed)).mono ?_
  rintro x y ⟨a, ha, b, ht, hb⟩
  exact ⟨a, b, ha, ht, hb⟩

/-- There is nothing left to read for the lexer. -/
def AtEnd (w : List Byte) : Prop := w = [] ∨ ∃ x, w = 0x00 :: x

theorem scans_of_atEnd {u w : List Byte} (hu : Blanks u w) (hw : AtEnd w) :
    ∃ x, Lexer.Scans u .endOfInput .null x := by
  rcases hw with rfl | ⟨x, rfl⟩
  · exact ⟨[], [], hu, .endOfInput⟩
  · exact ⟨x, _, hu, .nul x⟩

theorem ends_of_atEnd {w : List Byte} (hw : AtEnd w) : Lexer.Ends w := by
  rcases hw with rfl | ⟨x, rfl⟩
  · intro c hc
    cases hc
  · rintro c hc
    cases hc
    decide

variable {σ : Type} [ByteSource σ]

theorem runs_parse {t : Tree} {u w : List Byte} (h : Text t u w) (hw : AtEnd w)
    (hfinite : ParseTree.Finite t) {fuel : Nat} (hfuel : 2 * u.length + 1 ≤ fuel)
    (cb : Option ParserCallback) (s : Calls) :
    Runs (Reads cb s u) (parse fuel true : Action σ _)
      (if ((ParseTree.eval cb true t).run s).1.isDiscarded then .null
        else ((ParseTree.eval cb true t).run s).1)
      (fun p => p.calls = ((ParseTree.eval cb true t).run s).2) := by
  obtain ⟨a, b, ha, ht, hb⟩ := h
  have hparses : Parses σ cb (.value t) a b := parses_of_derives ht
  obtain ⟨tok, j, v, hlex, _, _, hrun⟩ := hparses hfinite (ends_of_blanks hb (ends_of_atEnd hw))
  obtain ⟨x, hend⟩ := scans_of_atEnd hb hw
  have hlen := Lexer.blanks_length ha
  have hlen' := derives_length ht
  unfold parse
  refine (runs_getToken ⟨a, ha, hlex⟩ (by omega)).bind ?_
  refine (hrun fuel true s (by omega)).bind ?_
  rw [if_pos rfl]
  refine Runs.bind (runs_getToken hend (by omega)) ?_
  refine runs_expect.bind ?_
  exact (runs_pure _ _).mono (fun _ h => h) fun _ h => h.reads.calls

theorem text_of_parse {u : List Byte} {p p' : Parser σ} {r : Json} {fuel : Nat} (hp : Left u p)
    (hfuel : 2 * u.length + 1 ≤ fuel) (h : (parse fuel true).run.run p = (.ok r, p')) :
    ∃ t w, Text t u w ∧ AtEnd w ∧ ParseTree.Finite t := by
  unfold parse at h
  obtain ⟨tok, p₁, hx, h₁⟩ := exists_of_run_bind h
  obtain ⟨_, hp₁⟩ := saw_of_getToken hp (by omega) hx
  obtain ⟨result, p₂, hx, h₂⟩ := exists_of_run_bind h₁
  obtain ⟨a, t, b, ha, ht, hfinite, hp₂⟩ := (sound fuel).1 _ _ _ _ _ hfuel hp₁ hx
  have hlen := Lexer.blanks_length ha
  have hlen' := derives_length ht
  rw [if_pos rfl] at h₂
  obtain ⟨tok, p₃, hx, h₃⟩ := exists_of_run_bind h₂
  obtain ⟨_, hp₃⟩ := saw_of_getToken hp₂ (by omega) hx
  obtain ⟨_, p₄, hx, h₄⟩ := exists_of_run_bind h₃
  obtain ⟨rfl, hend⟩ := expect_ok hx
  rcases hp₃.token with herror | ⟨j, ⟨v, hb, hv⟩, _⟩
  · rw [herror] at hend
    cases hend
  · rw [hend] at hv
    refine ⟨t, v, ⟨a, b, ha, ht, hb⟩, ?_, hfinite⟩
    exact (Lexer.endOfInput_of_lexeme hv).imp_right fun h => ⟨_, h⟩

end Parser

namespace ParseTree

/-! ## Up to the first zero byte -/

theorem exists_untilNul (s : List Byte) : ∃ r, s = untilNul s ++ r ∧ Parser.AtEnd r := by
  refine ⟨s.dropWhile (· ≠ 0), List.takeWhile_append_dropWhile.symm, ?_⟩
  cases hr : s.dropWhile (· ≠ 0) with
  | nil => exact Or.inl rfl
  | cons c r =>
    have hc := List.head?_dropWhile_not (· ≠ 0) s
    rw [hr, List.head?_cons] at hc
    have hzero : c = 0 := by simpa using hc
    exact Or.inr ⟨r, by rw [hzero]⟩

theorem untilNul_append {z w : List Byte} (hz : ∀ c ∈ z, c ≠ 0) (hw : Parser.AtEnd w) :
    untilNul (z ++ w) = z := by
  unfold untilNul
  rw [List.takeWhile_append_of_pos (by simpa using hz)]
  rcases hw with rfl | ⟨x, rfl⟩
  · rw [List.takeWhile_nil, List.append_nil]
  · rw [List.takeWhile_cons_of_neg (by decide), List.append_nil]

/-- The lexer gets to its end after a text if there is a text before the first zero byte. -/
theorem text_iff {s : List Byte} {t : Tree} :
    (∃ w, Parser.Text t s w ∧ Parser.AtEnd w) ↔ IsJsonText (untilNul s) t := by
  constructor
  · rintro ⟨w, h, hw⟩
    obtain ⟨z, rfl, hz, htext⟩ := h.framed
    rw [untilNul_append hz hw]
    have h := htext []
    rwa [List.append_nil] at h
  · intro h
    obtain ⟨r, hs, hr⟩ := exists_untilNul s
    have htext : Parser.Text t (untilNul s) [] := h
    obtain ⟨z, hz, _, htext⟩ := htext.framed
    refine ⟨r, ?_, hr⟩
    rw [List.append_nil] at hz
    rw [hs, hz]
    exact htext r

/-! ## Without a callback -/

theorem numberJson_isDiscarded (n : Numeral) : (numberJson n).isDiscarded = false := by
  unfold numberJson
  cases fits n with
  | false => rfl
  | true => cases n.negative <;> rfl

theorem denote_numberJson (n : Numeral) : (numberJson n).denote = numberValue n := by
  unfold numberJson numberValue
  cases hfits : fits n with
  | false => rfl
  | true =>
    simp only [fits, Bool.and_eq_true, decide_eq_true_eq] at hfits
    obtain ⟨_, hlow, hhigh⟩ := hfits
    cases hnegative : n.negative with
    | true =>
      have hle : n.toInt ≤ 0 := by
        rw [Numeral.toInt, hnegative, if_pos rfl]
        omega
      simp only [if_true]
      rw [Json.denote, Int64.toInt_ofInt_of_le hlow (by omega)]
    | false =>
      have hle : 0 ≤ n.toInt := by
        rw [Numeral.toInt, hnegative, if_neg (by decide)]
        omega
      simp only [if_true, Bool.false_eq_true, if_false]
      rw [Json.denote, UInt64.toNat_ofNat', Nat.mod_eq_of_lt (by omega), Int.toNat_of_nonneg hle]

theorem all_numberJson (n : Numeral) : (numberJson n).All Json.MapWF := by
  unfold numberJson
  cases fits n with
  | false => trivial
  | true => cases n.negative <;> trivial

mutual

theorem Names.mono {P Q : Key → Prop} (h : ∀ key, P key → Q key) (t : Tree) (ht : Names P t) :
    Names Q t := by
  cases t with
  | array ts => exact NamesElements.mono h ts ht
  | object ms => exact NamesMembers.mono h ms ht
  | null | boolean | number | string => trivial

theorem NamesElements.mono {P Q : Key → Prop} (h : ∀ key, P key → Q key) (ts : List Tree)
    (hts : NamesElements P ts) : NamesElements Q ts := by
  cases ts with
  | nil => trivial
  | cons t ts => exact ⟨Names.mono h t hts.1, NamesElements.mono h ts hts.2⟩

theorem NamesMembers.mono {P Q : Key → Prop} (h : ∀ key, P key → Q key)
    (ms : List (List Char × Tree)) (hms : NamesMembers P ms) : NamesMembers Q ms := by
  cases ms with
  | nil => trivial
  | cons m ms => exact ⟨h _ hms.1, Names.mono h m.2 hms.2.1, NamesMembers.mono h ms hms.2.2⟩

end

mutual

theorem run_eval (t : Tree) (ht : ShortNames t) (s : Calls) :
    ∃ j, (eval none true t).run s = (j, s) ∧ j.isDiscarded = false ∧ j.denote = value t ∧
      j.All Json.MapWF := by
  cases t with
  | null => exact ⟨.null, by rw [eval]; rfl, rfl, rfl, trivial⟩
  | boolean b => exact ⟨.boolean b, by rw [eval]; rfl, rfl, rfl, trivial⟩
  | number n =>
    exact ⟨numberJson n, by rw [eval]; rfl, numberJson_isDiscarded n, denote_numberJson n,
      all_numberJson n⟩
  | string cs => exact ⟨.string (Utf8.encode cs), by rw [eval]; rfl, rfl, rfl, trivial⟩
  | array ts =>
    obtain ⟨xs, hrun, hdenote, hall⟩ := run_evalElements ts ht [] s
    refine ⟨.array xs, ?_, rfl, ?_, (Json.all_array xs).2 ⟨trivial, hall⟩⟩
    · rw [Parser.run_eval_array]
      exact congrArg (fun x => (Calls.endContainer none .arrayEnd true x.1).run x.2) hrun
    · rw [Json.denote_array, hdenote, value]
  | object ms =>
    have hempty : ∀ e ∈ (StringMap.empty : StringMap Json).toList, e.2.All Json.MapWF := by
      intro e he
      cases he
    obtain ⟨m, hrun, hm, hdenote, hall⟩ := run_evalMembers ms ht StringMap.WF.empty hempty s
    refine ⟨.object m, ?_, rfl, ?_, (Json.all_object m).2 ⟨hm, hall⟩⟩
    · rw [Parser.run_eval_object]
      exact congrArg (fun x => (Calls.endContainer none .objectEnd true x.1).run x.2) hrun
    · rw [Json.denote_object hm, value]
      congr 1
      funext key
      rw [hdenote]
      exact Option.or_none

theorem run_evalElements (ts : List Tree) (hts : NamesElements (fun key => key.length < 2 ^ 32) ts)
    (xs : List Json) (s : Calls) :
    ∃ ys, (evalElements none true (.array xs) ts).run s = (.array (xs ++ ys), s) ∧
      ys.map Json.denote = elements ts ∧ ∀ y ∈ ys, y.All Json.MapWF := by
  cases ts with
  | nil =>
    refine ⟨[], by rw [evalElements, List.append_nil]; rfl, rfl, ?_⟩
    intro y hy
    cases hy
  | cons t ts =>
    obtain ⟨j, hj, hkept, hdenote, hall⟩ := run_eval t hts.1 s
    obtain ⟨ys, hys, hdenotes, halls⟩ := run_evalElements ts hts.2 (xs ++ [j]) s
    refine ⟨j :: ys, ?_, ?_, List.forall_mem_cons.2 ⟨hall, halls⟩⟩
    · rw [Parser.run_evalElements_cons]
      simp only [hj, hkept]
      rw [List.append_assoc] at hys
      exact hys
    · rw [List.map_cons, hdenote, hdenotes, elements]

theorem run_evalMembers (ms : List (List Char × Tree))
    (hms : NamesMembers (fun key => key.length < 2 ^ 32) ms) {m : StringMap Json} (hm : m.WF)
    (hall : ∀ e ∈ m.toList, e.2.All Json.MapWF) (s : Calls) :
    ∃ m', (evalMembers none true (.object m) ms).run s = (.object m', s) ∧ m'.WF ∧
      (∀ key, (m'.lookup? key).map Json.denote =
        (members ms key).or ((m.lookup? key).map Json.denote)) ∧
      ∀ e ∈ m'.toList, e.2.All Json.MapWF := by
  cases ms with
  | nil => exact ⟨m, by rw [evalMembers]; rfl, hm, fun key => (by rw [members]; rfl), hall⟩
  | cons member ms =>
    obtain ⟨cs, t⟩ := member
    obtain ⟨hname, ht, hrest⟩ := hms
    obtain ⟨j, hj, hkept, hdenote, hmap⟩ := run_eval t ht s
    have htakes : m.Takes (Utf8.encode cs) := .of_lt hname
    have hm' := Json.assign_wf hm htakes j
    have hall' : ∀ e ∈ (Json.assign m (Utf8.encode cs) j).toList, e.2.All Json.MapWF := by
      rintro ⟨key, value⟩ he
      rcases Json.mem_assign hm htakes he with heq | he
      · cases heq
        exact hmap
      · exact hall _ he
    obtain ⟨m', hrun, hwf, hlookup, halls⟩ := run_evalMembers ms hrest hm' hall' s
    refine ⟨m', ?_, hwf, fun key => ?_, halls⟩
    · rw [Parser.run_evalMembers_cons]
      have hkeep : (Calls.keepTag none true (Utf8.encode cs)).run s = (true, s) := rfl
      simp only [hkeep, hj, hkept]
      exact hrun
    · rw [hlookup, Json.lookup?_assign hm htakes, members, Function.update_apply]
      cases members ms key with
      | some x => rfl
      | none =>
        by_cases hkey : key = Utf8.encode cs
        · rw [if_pos hkey, if_pos hkey, Option.map_some, hdenote]
          rfl
        · rw [if_neg hkey, if_neg hkey]

end

/-! ## The names in a text -/

/-- Every name in a phrase is a string in front of a colon in the text of the phrase. -/
theorem names_of_derives {P : Key → Prop} {ph : Phrase} {u w : List Byte} (h : Derives ph u w)
    (hP : ∀ k cs k' x, 0x22 :: k <:+ u → Characters k cs k' → Blanks k' (0x3a :: x) →
      P (Utf8.encode cs)) :
    match ph with
    | .value t => Names P t
    | .elements ts => NamesElements P ts
    | .members ms => NamesMembers P ms := by
  induction h with
  | null | true | false | number | string | emptyArray | emptyObject => trivial
  | array _ ih | object _ ih =>
    exact ih fun k cs k' x hsuffix => hP k cs k' x (hsuffix.trans (List.suffix_cons _ _))
  | lastElement hu _ _ ih =>
    exact ⟨ih fun k cs k' x hsuffix => hP k cs k' x (hsuffix.trans hu.framed.suffix), trivial⟩
  | element hu ht hv _ ih ih' =>
    refine ⟨ih fun k cs k' x hsuffix => hP k cs k' x (hsuffix.trans hu.framed.suffix),
      ih' fun k cs k' x hsuffix => hP k cs k' x ?_⟩
    exact ((hsuffix.trans (List.suffix_cons _ _)).trans hv.framed.suffix).trans
      (ht.framed.suffix.trans hu.framed.suffix)
  | lastMember hu hk hk' hx _ _ ih =>
    refine ⟨hP _ _ _ _ hu.framed.suffix hk hk', ih fun k cs k' x hsuffix => hP k cs k' x ?_, trivial⟩
    exact (hsuffix.trans hx.framed.suffix).trans ((List.suffix_cons _ _).trans
      (hk'.framed.suffix.trans (hk.framed.suffix.trans ((List.suffix_cons _ _).trans
        hu.framed.suffix))))
  | member hu hk hk' hx ht hv _ ih ih' =>
    have hvalue := hx.framed.suffix.trans ((List.suffix_cons _ _).trans (hk'.framed.suffix.trans
      (hk.framed.suffix.trans ((List.suffix_cons _ _).trans hu.framed.suffix))))
    refine ⟨hP _ _ _ _ hu.framed.suffix hk hk',
      ih fun k cs k' x hsuffix => hP k cs k' x (hsuffix.trans hvalue),
      ih' fun k cs k' x hsuffix => hP k cs k' x ?_⟩
    exact ((hsuffix.trans (List.suffix_cons _ _)).trans hv.framed.suffix).trans
      (ht.framed.suffix.trans hvalue)

/-- The names in a text that fits do so as well. -/
theorem TextFits.names {s : List Byte} {t : Tree} (hs : TextFits s) (h : IsJsonText s t) :
    Names Json.EntryFits t := by
  obtain ⟨u, w, hu, ht, -⟩ := h
  exact names_of_derives ht fun k cs k' x hsuffix => hs.2 k cs k' x (hsuffix.trans hu.framed.suffix)

theorem shortNames_of_fits {t : Tree} (h : Names Json.EntryFits t) : ShortNames t :=
  h.mono (fun _ => Json.EntryFits.lt) t

/-- A text fits when it has no more bytes than a table can have items. -/
theorem textFits_of_length_le {s : List Byte} (hs : s.length ≤ StringMap.maxItems) :
    TextFits s := by
  refine ⟨List.count_le_length.trans hs, fun k cs k' x hsuffix hk _ => ?_⟩
  have hle := hsuffix.length_le
  have hkey := hk.length_le
  rw [List.length_cons] at hle
  unfold StringMap.maxItems at hs
  exact Json.entryFits_iff.2 (by omega)

end ParseTree

namespace Json

theorem reads_new (s : List Byte) (cb : Option ParserCallback) :
    Parser.Reads cb ⟨0, []⟩ s (Parser.new (RawMemIstream.ofBytes s) cb) :=
  ⟨rfl, rfl, ⟨fun h => (by cases h), fun h => by cases h⟩, rfl⟩

/-- A text is parsed to what its tree is evaluated to. -/
theorem parse_of_isJsonText {s : List Byte} {t : Tree} (h : IsJsonText (ParseTree.untilNul s) t)
    (hfinite : ParseTree.Finite t) (cb : Option ParserCallback) :
    (parse s cb).1 = .ok (if ((ParseTree.eval cb true t).run ⟨0, []⟩).1.isDiscarded then .null
      else ((ParseTree.eval cb true t).run ⟨0, []⟩).1) ∧
    (parse s cb).2.calls = ((ParseTree.eval cb true t).run ⟨0, []⟩).2 := by
  obtain ⟨w, htext, hw⟩ := ParseTree.text_iff.2 h
  obtain ⟨p, hrun, hp⟩ := Parser.runs_parse (σ := RawMemIstream) htext hw hfinite
    (Nat.le_refl _) cb ⟨0, []⟩ _ (reads_new s cb)
  unfold parse
  rw [hrun]
  exact ⟨rfl, hp⟩

/-- What is parsed without an error is a text. -/
theorem isJsonText_of_parse {s : List Byte} {cb : Option ParserCallback} {r : Json}
    (h : (parse s cb).1 = .ok r) :
    ∃ t, IsJsonText (ParseTree.untilNul s) t ∧ ParseTree.Finite t := by
  have hleft : Parser.Left s (Parser.new (RawMemIstream.ofBytes s) cb) :=
    ⟨(reads_new s cb).ready, (reads_new s cb).input⟩
  obtain ⟨t, w, htext, hw, hfinite⟩ := Parser.text_of_parse hleft (Nat.le_refl _)
    (Prod.ext h rfl : parse s cb = (.ok r, (parse s cb).2))
  exact ⟨t, ParseTree.text_iff.1 ⟨w, htext, hw⟩, hfinite⟩

/-- Without a callback this is the value of the text. -/
theorem exists_parse {s : List Byte} {t : Tree} (h : IsJsonText (ParseTree.untilNul s) t)
    (hfinite : ParseTree.Finite t) (hnames : ParseTree.ShortNames t) :
    ∃ j, (parse s none).1 = .ok j ∧ j.denote = ParseTree.value t ∧ j.All MapWF := by
  obtain ⟨j, hrun, hkept, hdenote, hall⟩ := ParseTree.run_eval t hnames ⟨0, []⟩
  have hparse := (parse_of_isJsonText h hfinite none).1
  rw [hrun, hkept, if_neg (by decide)] at hparse
  exact ⟨j, hparse, hdenote, hall⟩

/-- Parsing returns a value exactly for the texts whose numbers are finite, and then it returns the
value of the text. -/
theorem parse_iff {s : List Byte} (hs : ParseTree.TextFits (ParseTree.untilNul s)) (v : Value) :
    (∃ j, (parse s none).1 = .ok j ∧ j.denote = v) ↔
      ∃ t, IsJsonText (ParseTree.untilNul s) t ∧ ParseTree.Finite t ∧ ParseTree.value t = v := by
  constructor
  · rintro ⟨j, hj, rfl⟩
    obtain ⟨t, htext, hfinite⟩ := isJsonText_of_parse hj
    obtain ⟨j', hj', hdenote, _⟩ :=
      exists_parse htext hfinite (ParseTree.shortNames_of_fits (hs.names htext))
    rw [hj] at hj'
    cases hj'
    exact ⟨t, htext, hfinite, hdenote.symm⟩
  · rintro ⟨t, htext, hfinite, rfl⟩
    obtain ⟨j, hj, hdenote, _⟩ :=
      exists_parse htext hfinite (ParseTree.shortNames_of_fits (hs.names htext))
    exact ⟨j, hj, hdenote⟩

theorem parse_iff_null :
    (∃ j, (parse (bytes "null") none).1 = .ok j ∧ j.denote = .null) ↔
      ∃ t, IsJsonText (ParseTree.untilNul (bytes "null")) t ∧ ParseTree.Finite t ∧
        ParseTree.value t = .null :=
  parse_iff (ParseTree.textFits_of_length_le (by decide)) .null

/-! ## A name that is too long -/

/-- An object with one member, whose name has `n` bytes. -/
def longText (n : Nat) : List Byte :=
  0x7b :: 0x22 :: (longName n ++ (0x22 :: 0x3a :: bytes "null\x7d"))

def longTree (n : Nat) : Tree := .object [(List.replicate n 'a', .null)]

theorem characters_longName (n : Nat) (w : List Byte) :
    Characters (longName n ++ 0x22 :: w) (List.replicate n 'a') w := by
  rw [longName]
  induction n with
  | zero => exact .nil w
  | succ n ih =>
    rw [List.replicate_succ, List.replicate_succ, List.cons_append]
    exact .cons (.unescaped 'a' _ (by decide) (by decide) (by decide)) ih

theorem encode_replicate (n : Nat) : Utf8.encode (List.replicate n 'a') = longName n := by
  rw [longName]
  induction n with
  | zero => rfl
  | succ n ih =>
    unfold Utf8.encode at ih ⊢
    rw [List.replicate_succ, List.flatMap_cons, ih, List.replicate_succ]
    rfl

theorem untilNul_longText (n : Nat) : ParseTree.untilNul (longText n) = longText n := by
  refine List.takeWhile_eq_self_iff.2 fun c hc => decide_eq_true ?_
  rw [longText, longName, List.mem_cons, List.mem_cons, List.mem_append, List.mem_replicate] at hc
  rintro rfl
  rcases hc with hc | hc | ⟨-, hc⟩ | hc
  · cases hc
  · cases hc
  · cases hc
  · exact absurd hc (by decide)

theorem isJsonText_longText (n : Nat) :
    IsJsonText (ParseTree.untilNul (longText n)) (longTree n) := by
  rw [untilNul_longText]
  exact ⟨_, _, .nil _, .object (.lastMember (.nil _) (characters_longName n _) (.nil _) (.nil _)
    (.null _) (.nil _)), .nil _⟩

/-- The member that is parsed has the name that is left in its entry. -/
theorem parse_longText (n : Nat) :
    (parse (longText n) none).1 = .ok (object (assign .empty (longName n) null)) := by
  rw [(parse_of_isJsonText (isJsonText_longText n) ⟨trivial, trivial⟩ none).1, ← encode_replicate]
  rfl

theorem denote_longText : (object (assign .empty (longName (2 ^ 32)) null)).denote ≠
    ParseTree.value (longTree (2 ^ 32)) := by
  rw [denote_singleton, createKey_longName, longTree, ParseTree.value]
  intro h
  have hname := congrFun (Value.object.inj h) (longName (2 ^ 32))
  have hne : longName (2 ^ 32) ≠ [] := by
    intro hnil
    have hlength := length_longName (2 ^ 32)
    rw [hnil] at hlength
    cases hlength
  rw [if_neg hne, ParseTree.members, encode_replicate] at hname
  simp [ParseTree.members] at hname

/-- A zero byte after the value, and anything after it, are not part of any JSON text; and a name of
`2 ^ 32` bytes is not the one of the member that is made for it. -/
theorem not_parse_iff :
    ¬((∃ j, (parse (bytes "null\x00x") none).1 = .ok j ∧ j.denote = .null) ↔
      ∃ t, IsJsonText (bytes "null\x00x") t ∧ ParseTree.Finite t ∧ ParseTree.value t = .null) ∧
    ¬((∃ j, (parse (longText (2 ^ 32)) none).1 = .ok j ∧
        j.denote = ParseTree.value (longTree (2 ^ 32))) ↔
      ∃ t, IsJsonText (longText (2 ^ 32)) t ∧ ParseTree.Finite t ∧
        ParseTree.value t = ParseTree.value (longTree (2 ^ 32))) := by
  constructor
  · have htext : IsJsonText (ParseTree.untilNul (bytes "null\x00x")) .null :=
      ⟨_, _, .nil _, .null [], .nil _⟩
    intro h
    obtain ⟨j, hj, hdenote, _⟩ := exists_parse htext trivial trivial
    obtain ⟨t, ht, _⟩ := h.1 ⟨j, hj, hdenote⟩
    obtain ⟨z, hz, hne, _⟩ := Parser.Text.framed (w := []) ht
    rw [List.append_nil] at hz
    rw [← hz] at hne
    exact hne 0x00 (by decide) rfl
  · intro h
    have htext := isJsonText_longText (2 ^ 32)
    rw [untilNul_longText] at htext
    obtain ⟨j, hj, hdenote⟩ := h.2 ⟨longTree (2 ^ 32), htext, ⟨trivial, trivial⟩, rfl⟩
    rw [parse_longText] at hj
    cases hj
    exact denote_longText hdenote

end Json

end Wpi

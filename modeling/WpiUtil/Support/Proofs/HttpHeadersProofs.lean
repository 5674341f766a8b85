import Mathlib.Data.Bool.AllAny
import Mathlib.Data.List.Forall2
import WpiUtil.Support.HttpHeaders
import WpiUtil.Support.Proofs.GetlineProofs

/-!
# What the pieces of header lines do

The parser over a stream is the parser over the pieces of the lines. From this follow when a header
section is read to its end and when the value of an ignored field stays without effect.
-/

namespace Wpi

open StringRef Foundations

variable {σ : Type} [ByteSource σ]

/-! ## Lines -/

theorem endsLine_headerPieces {line : List Byte} (hline : IsHeaderLine line) {p : List Byte}
    (hp : p ∈ headerPieces line) : EndsLine 1024 p := by
  have hw : ∀ c ∈ line ++ [0x0d], c ≠ 0x0a := by
    intro c hc
    rcases List.mem_append.1 hc with hc | hc
    · rintro rfl
      exact hline.2.2 hc
    · rw [List.mem_singleton.1 hc]
      decide
  rw [headerPieces, show line ++ crlf = (line ++ [0x0d]) ++ [0x0a] by simp [crlf]] at hp
  rcases mem_chunks_append_singleton (by decide) hp with ⟨hlength, hmem⟩ | ⟨q, hq, hlength, hmem⟩
  · exact Or.inl ⟨hlength, fun h => hw _ (hmem _ h) rfl⟩
  · exact Or.inr ⟨q, hq, hlength, fun h => hw _ (hmem _ h) rfl⟩

theorem flatten_headerPieces (lines : List (List Byte)) :
    (lines.flatMap headerPieces).flatten = lines.flatMap (· ++ crlf) := by
  induction lines with
  | nil => rfl
  | cons line lines ih =>
    rw [List.flatMap_cons, List.flatten_append, ih, headerPieces, flatten_chunks (by decide)]
    rfl

/-! ## The parser over pieces -/

theorem contains_whitespace (c : Byte) : whitespace.contains c = isspace c := by
  rw [Bool.eq_iff_iff, List.contains_iff_mem]
  simp only [whitespace, List.mem_cons, List.not_mem_nil, or_false, isspace, Bool.or_eq_true,
    beq_iff_eq, Bool.and_eq_true, decide_eq_true_eq, UInt8.le_iff_toNat_le, ← UInt8.toNat_inj,
    UInt8.reduceToNat]
  omega

/-- A piece is taken for the empty line if there is nothing but white space in it. -/
theorem headerText_eq_nil_iff (p : List Byte) :
    headerText p = [] ↔ ∀ c ∈ p, isspace c = true := by
  rw [headerText, rtrim, List.rdropWhile_eq_nil_iff]
  constructor
  · intro h c hc
    by_cases hcr : c = 0x0d
    · rw [hcr]
      rfl
    · rw [← contains_whitespace]
      exact h c (List.mem_filter.2 ⟨hc, by simpa using hcr⟩)
  · intro h c hc
    rw [contains_whitespace]
    exact h c (List.mem_of_mem_filter hc)

theorem loop_hear {pieces : List (List Byte)} (hpieces : ∀ p ∈ pieces, EndsLine 1024 p)
    {rest : List Byte} (fuel : Nat) {st : HeaderState} {is : σ}
    (herror : RawIstream.hasError is = false)
    (hc : ByteSource.content is = pieces.flatten ++ rest) :
    (∃ st' left is', hear st pieces = (st', some left) ∧
      ParseHttpHeaders.loop (fuel + pieces.length) st is = (true, st', is') ∧
      ByteSource.content is' = left.flatten ++ rest) ∨
    ∃ st' is', hear st pieces = (st', none) ∧
      ParseHttpHeaders.loop (fuel + pieces.length) st is = ParseHttpHeaders.loop fuel st' is' ∧
      RawIstream.hasError is' = false ∧ ByteSource.content is' = rest := by
  induction pieces generalizing st is with
  | nil => exact Or.inr ⟨st, is, rfl, rfl, herror, hc⟩
  | cons p pieces ih =>
    rw [List.forall_mem_cons] at hpieces
    rw [List.flatten_cons, List.append_assoc] at hc
    obtain ⟨is', hline, herror', hcontent⟩ := getlineLoop_spec hpieces.1 [] herror hc
    rw [List.nil_append] at hline
    have hloop : ParseHttpHeaders.loop (fuel + (p :: pieces).length) st is =
        if headerText p = [] then (true, st, is')
        else ParseHttpHeaders.loop (fuel + pieces.length) (st.processLine (headerText p)) is' := by
      rw [List.length_cons, ← Nat.add_assoc, ParseHttpHeaders.loop, RawIstream.getline, hline]
      simp only [herror', Bool.false_eq_true, if_false]
      rfl
    by_cases hblank : headerText p = []
    · rw [if_pos hblank] at hloop
      exact Or.inl ⟨st, pieces, is', by rw [hear, if_pos hblank], hloop, hcontent⟩
    · rw [if_neg hblank] at hloop
      rw [hear, if_neg hblank, hloop]
      exact ih hpieces.2 herror' hcontent

theorem hear_append (st : HeaderState) (pieces pieces' : List (List Byte)) :
    hear st (pieces ++ pieces') =
      match hear st pieces with
      | (st, none) => hear st pieces'
      | (st, some left) => (st, some (left ++ pieces')) := by
  induction pieces generalizing st with
  | nil => rfl
  | cons p pieces ih =>
    rw [List.cons_append, hear, hear]
    by_cases hblank : headerText p = []
    · rw [if_pos hblank, if_pos hblank]
    · rw [if_neg hblank, if_neg hblank, ih]

/-- The pieces of a header section. -/
def sectionPieces (lines : List (List Byte)) : List (List Byte) :=
  lines.flatMap headerPieces ++ [crlf]

/-- The empty line at the end of the section is taken for what it is, if not something before it. -/
theorem exists_hear_section (st : HeaderState) (lines : List (List Byte)) :
    ∃ st' left, hear st (sectionPieces lines) = (st', some left) := by
  rw [sectionPieces, hear_append]
  rcases hear st (lines.flatMap headerPieces) with ⟨st', _ | left⟩
  · exact ⟨st', [], rfl⟩
  · exact ⟨st', _, rfl⟩

theorem parseHttpHeaders_section {lines : List (List Byte)} (hlines : ∀ l ∈ lines, IsHeaderLine l)
    {body : List Byte} {is : σ} (herror : RawIstream.hasError is = false)
    (hc : ByteSource.content is = headerSection lines ++ body)
    (contentType contentLength : Option (List Byte)) {st' : HeaderState}
    {left : List (List Byte)} (hhear : hear ⟨false, false, contentType.map fun _ => [],
      contentLength.map fun _ => []⟩ (sectionPieces lines) = (st', some left)) :
    ∃ is', parseHttpHeaders is contentType contentLength =
        (true, st'.contentType, st'.contentLength, is') ∧
      ByteSource.content is' = left.flatten ++ body := by
  have hends : ∀ p ∈ sectionPieces lines, EndsLine 1024 p := by
    intro p hp
    rw [sectionPieces, List.mem_append, List.mem_flatMap, List.mem_singleton] at hp
    rcases hp with ⟨line, hline, hp⟩ | rfl
    · exact endsLine_headerPieces (hlines line hline) hp
    · exact Or.inr ⟨[0x0d], rfl, by decide, by decide⟩
  have hflatten : ByteSource.content is = (sectionPieces lines).flatten ++ body := by
    rw [hc, headerSection, sectionPieces, List.flatten_append, flatten_headerPieces]
    simp
  have hlength : (sectionPieces lines).length ≤ (ByteSource.content is).length := by
    have hle := length_le_length_flatten fun p hp => (hends p hp).ne_nil (by decide)
    rw [hflatten, List.length_append]
    omega
  obtain ⟨extra, hextra⟩ := Nat.exists_eq_add_of_le hlength
  rcases loop_hear hends (extra + 1) herror hflatten with
    ⟨st'', left', is', hhear', hloop, hcontent⟩ | ⟨st'', is', hhear', -⟩
  · rw [hhear, Prod.mk.injEq, Option.some.injEq] at hhear'
    obtain ⟨rfl, rfl⟩ := hhear'
    refine ⟨is', ?_, hcontent⟩
    have hfuel : (ByteSource.content is).length + 1 = extra + 1 + (sectionPieces lines).length := by
      omega
    rw [parseHttpHeaders, hfuel]
    simp only [hloop]
  · rw [hhear] at hhear'
    cases hhear'

/-! ## The end of the headers -/

theorem hear_eq_none_iff {st : HeaderState} {pieces : List (List Byte)} :
    (hear st pieces).2 = none ↔ ∀ p ∈ pieces, ∃ c ∈ p, isspace c = false := by
  induction pieces generalizing st with
  | nil => simp [hear]
  | cons p pieces ih =>
    have hblank : headerText p ≠ [] ↔ ∃ c ∈ p, isspace c = false := by
      rw [Ne, headerText_eq_nil_iff]
      push Not
      simp only [Bool.not_eq_true]
    rw [hear, List.forall_mem_cons, ← hblank]
    by_cases h : headerText p = []
    · rw [if_pos h]
      simp [h]
    · rw [if_neg h, ih]
      simp [h]

/-- The result is true and the stream is at the body exactly when every piece of every line has
something else than white space in it. -/
theorem consumesSection_iff {lines : List (List Byte)} (hlines : ∀ l ∈ lines, IsHeaderLine l)
    {body : List Byte} {is : σ} (herror : RawIstream.hasError is = false)
    (hc : ByteSource.content is = headerSection lines ++ body)
    (contentType contentLength : Option (List Byte)) :
    ((parseHttpHeaders is contentType contentLength).1 = true ∧
      ByteSource.content (parseHttpHeaders is contentType contentLength).2.2.2 = body) ↔
    ∀ l ∈ lines, ∀ p ∈ headerPieces l, ∃ c ∈ p, isspace c = false := by
  have hnone : (hear ⟨false, false, contentType.map fun _ => [], contentLength.map fun _ => []⟩
        (lines.flatMap headerPieces)).2 = none ↔
      ∀ l ∈ lines, ∀ p ∈ headerPieces l, ∃ c ∈ p, isspace c = false := by
    rw [hear_eq_none_iff, List.forall_mem_flatMap]
  rw [← hnone]
  have hsection := hear_append ⟨false, false, contentType.map fun _ => [],
    contentLength.map fun _ => []⟩ (lines.flatMap headerPieces) [crlf]
  rcases hhear : hear ⟨false, false, contentType.map fun _ => [], contentLength.map fun _ => []⟩
    (lines.flatMap headerPieces) with ⟨st', _ | left⟩
  · rw [hhear] at hsection
    obtain ⟨is', hparse, hcontent⟩ :=
      parseHttpHeaders_section hlines herror hc contentType contentLength hsection
    rw [hparse]
    exact iff_of_true ⟨rfl, hcontent⟩ rfl
  · rw [hhear] at hsection
    obtain ⟨is', hparse, hcontent⟩ :=
      parseHttpHeaders_section hlines herror hc contentType contentLength hsection
    rw [hparse]
    refine iff_of_false ?_ (by simp)
    rintro ⟨-, hbody⟩
    have hlength := congrArg List.length (hcontent.symm.trans hbody)
    rw [List.flatten_append, List.length_append, List.length_append] at hlength
    have hpos : 0 < [crlf].flatten.length := by decide
    omega

theorem consumesSection_iff_host :
    ((parseHttpHeaders (RawMemIstream.ofBytes (headerSection [bytes "Host: a"])) none none).1 =
        true ∧
      ByteSource.content (parseHttpHeaders (RawMemIstream.ofBytes (headerSection [bytes "Host: a"]))
        none none).2.2.2 = []) ↔
    ∀ l ∈ [bytes "Host: a"], ∀ p ∈ headerPieces l, ∃ c ∈ p, isspace c = false :=
  consumesSection_iff (by decide) rfl rfl none none

/-- A line with a space is taken for the empty line. -/
theorem not_consumesSection_space :
    ¬((parseHttpHeaders (RawMemIstream.ofBytes (headerSection [[0x20]])) none none).1 = true ∧
      ByteSource.content (parseHttpHeaders (RawMemIstream.ofBytes (headerSection [[0x20]]))
        none none).2.2.2 = []) := by
  decide

/-! ## What is saved -/

namespace HeaderState

/-- No field is being saved. -/
def Quiet (st : HeaderState) : Prop := st.inContentType = false ∧ st.inContentLength = false

def clear (st : HeaderState) : HeaderState :=
  { st with inContentType := false, inContentLength := false }

/-- Both pointers are there. -/
def Saves (st : HeaderState) : Prop :=
  st.contentType.isSome = true ∧ st.contentLength.isSome = true

/-- How much has been saved. -/
def savedLength (st : HeaderState) : Nat :=
  (st.contentType.getD []).length + (st.contentLength.getD []).length

theorem savedLength_eq_of_clear_eq {st st' : HeaderState} (h : st'.clear = st.clear) :
    st'.savedLength = st.savedLength := by
  change st'.clear.savedLength = st.clear.savedLength
  rw [h]

theorem Quiet.clear_eq {st : HeaderState} (h : st.Quiet) : st.clear = st := by
  obtain ⟨inContentType, inContentLength, contentType, contentLength⟩ := st
  obtain ⟨rfl, rfl⟩ := h
  rfl

theorem Quiet.save_eq {st : HeaderState} (h : st.Quiet) (line : List Byte) :
    st.save line = st := by
  rw [save, h.1, h.2]
  rfl

theorem save_of_ltrim_eq_nil {st : HeaderState} {line : List Byte} (h : ltrim line = []) :
    st.save line = st := by
  obtain ⟨inContentType, inContentLength, contentType, contentLength⟩ := st
  rw [save, h]
  simp only [List.append_nil, Option.map_id']
  split_ifs
  · rfl
  · rfl
  · rfl

theorem save_spec {st : HeaderState} (hsaves : st.Saves) (line : List Byte) :
    (st.save line).Saves ∧ ((st.save line).Quiet ↔ st.Quiet) ∧
      (st.Quiet → (st.save line).savedLength = st.savedLength) ∧
      (¬st.Quiet → (st.save line).savedLength = st.savedLength + (ltrim line).length) := by
  obtain ⟨inContentType, inContentLength, contentType, contentLength⟩ := st
  obtain ⟨htype, hlength⟩ := hsaves
  obtain ⟨ct, rfl⟩ := Option.isSome_iff_exists.1 htype
  obtain ⟨cl, rfl⟩ := Option.isSome_iff_exists.1 hlength
  cases inContentType with
  | true => simp [save, Saves, Quiet, savedLength]; omega
  | false =>
    cases inContentLength with
    | true => simp [save, Saves, Quiet, savedLength]; omega
    | false => simp [save, Saves, Quiet]

end HeaderState

/-- What a line does: it continues a field, starts one that is ignored, or starts one that is
saved. -/
theorem processLine_cases (st : HeaderState) (p : List Byte) :
    startsField p = false ∧ st.processLine (headerText p) = st.save (headerText p) ∨
    startsField p = true ∧ isSavedName (StringRef.split (headerText p) colon).1 = false ∧
      st.processLine (headerText p) = st.clear ∨
    startsField p = true ∧ isSavedName (StringRef.split (headerText p) colon).1 = true ∧
      ∃ st' : HeaderState, ¬st'.Quiet ∧ st'.clear = st.clear ∧
        st.processLine (headerText p) = st'.save (StringRef.split (headerText p) colon).2 := by
  rcases hstarts : startsField p with _ | _
  · refine Or.inl ⟨rfl, ?_⟩
    unfold startsField at hstarts
    rw [HeaderState.processLine, hstarts]
    rfl
  · refine Or.inr ?_
    unfold startsField at hstarts
    rw [HeaderState.processLine, hstarts, isSavedName]
    simp only [if_true]
    rcases equalsLower (rtrim (StringRef.split (headerText p) colon).1) (bytes "content-type")
      with _ | _
    · rcases equalsLower (rtrim (StringRef.split (headerText p) colon).1) (bytes "content-length")
        with _ | _
      · exact Or.inl ⟨trivial, rfl, rfl⟩
      · refine Or.inr ⟨trivial, rfl, { st with inContentType := false, inContentLength := true },
          ?_, rfl, rfl⟩
        rintro ⟨-, h⟩
        cases h
    · refine Or.inr ⟨trivial, rfl, { st with inContentType := true, inContentLength := false }, ?_,
        rfl, rfl⟩
      rintro ⟨h, -⟩
      cases h

/-- Pieces that are inert leave nothing behind. -/
theorem hear_inert {pieces : List (List Byte)} (h : Inert pieces) {st : HeaderState}
    (hst : st.Quiet ∨ ∃ next ∈ pieces.head?, startsField next = true) :
    hear st pieces = (st.clear, none) := by
  induction pieces generalizing st with
  | nil =>
    rcases hst with hst | ⟨next, hnext, -⟩
    · rw [hear, hst.clear_eq]
    · cases hnext
  | cons p pieces ih =>
    obtain ⟨hblank, hnext, hrest⟩ := h
    rw [hear, if_neg hblank]
    rcases processLine_cases st p with
      ⟨hstarts, heq⟩ | ⟨-, -, heq⟩ | ⟨hstarts, hname, st', hmode, hclear, heq⟩
    · rcases hst with hst | ⟨next, hhead, htrue⟩
      · rw [heq, hst.save_eq]
        exact ih hrest (Or.inl hst)
      · cases hhead
        rw [hstarts] at htrue
        cases htrue
    · rw [heq]
      exact ih hrest (Or.inl ⟨rfl, rfl⟩)
    · obtain ⟨hempty, hhead⟩ := hnext hstarts hname
      rw [heq, HeaderState.save_of_ltrim_eq_nil hempty, ih hrest (Or.inr hhead), hclear]

theorem processLine_saves {st : HeaderState} (hsaves : st.Saves) (p : List Byte) :
    (st.processLine (headerText p)).Saves ∧
      st.savedLength ≤ (st.processLine (headerText p)).savedLength := by
  have hsave : ∀ st' : HeaderState, st'.clear = st.clear → ∀ line, (st'.save line).Saves ∧
      st.savedLength ≤ (st'.save line).savedLength := by
    intro st' hclear line
    have hsaves' : st'.Saves := by
      have hboth : st'.clear.Saves := hclear ▸ hsaves
      exact hboth
    have hlength := HeaderState.savedLength_eq_of_clear_eq hclear
    obtain ⟨hsaves'', -, hquiet, hloud⟩ := HeaderState.save_spec hsaves' line
    refine ⟨hsaves'', ?_⟩
    by_cases hmode : st'.Quiet
    · rw [hquiet hmode, hlength]
    · rw [hloud hmode, hlength]
      exact Nat.le_add_right _ _
  rcases processLine_cases st p with
    ⟨-, heq⟩ | ⟨-, -, heq⟩ | ⟨-, -, st', -, hclear, heq⟩
  · rw [heq]
    exact hsave st rfl _
  · rw [heq]
    exact ⟨hsaves, le_refl _⟩
  · rw [heq]
    exact hsave st' hclear _

theorem savedLength_le_hear {st : HeaderState} (hsaves : st.Saves) (pieces : List (List Byte)) :
    (hear st pieces).1.Saves ∧ st.savedLength ≤ (hear st pieces).1.savedLength := by
  induction pieces generalizing st with
  | nil => exact ⟨hsaves, le_refl _⟩
  | cons p pieces ih =>
    rw [hear]
    split_ifs
    · exact ⟨hsaves, le_refl _⟩
    · obtain ⟨hsaves', hle⟩ := processLine_saves hsaves p
      obtain ⟨hsaves'', hle'⟩ := ih hsaves'
      exact ⟨hsaves'', hle.trans hle'⟩

theorem ltrim_headerText_ne_nil {p : List Byte} (h : headerText p ≠ []) :
    ltrim (headerText p) ≠ [] := by
  intro hnil
  rw [ltrim, List.dropWhile_eq_nil_iff] at hnil
  exact List.rdropWhile_last_not _ _ h (hnil _ (List.getLast_mem h))

/-- Pieces that leave nothing behind are inert. -/
theorem inert_of_hear {pieces : List (List Byte)} {st : HeaderState} (hsaves : st.Saves)
    (hnone : (hear st pieces).2 = none) (hquiet : (hear st pieces).1.Quiet)
    (hlength : (hear st pieces).1.savedLength = st.savedLength) :
    Inert pieces ∧ (¬st.Quiet → ∃ next ∈ pieces.head?, startsField next = true) := by
  induction pieces generalizing st with
  | nil => exact ⟨trivial, fun hmode => absurd hquiet hmode⟩
  | cons p pieces ih =>
    rw [hear] at hnone hquiet hlength
    by_cases hblank : headerText p = []
    · rw [if_pos hblank] at hnone
      cases hnone
    · rw [if_neg hblank] at hnone hquiet hlength
      obtain ⟨hsaves', hle⟩ := processLine_saves hsaves p
      have hle' := (savedLength_le_hear hsaves' pieces).2
      obtain ⟨hrest, hnext⟩ := ih hsaves' hnone hquiet (by omega)
      have hsame : (st.processLine (headerText p)).savedLength = st.savedLength := by omega
      rcases processLine_cases st p with
        ⟨hstarts, heq⟩ | ⟨hstarts, hname, -⟩ | ⟨hstarts, -, st', hmode, hclear, heq⟩
      · refine ⟨⟨hblank, fun htrue => ?_, hrest⟩, fun hmode => ?_⟩
        · rw [hstarts] at htrue
          cases htrue
        · have hloud := (HeaderState.save_spec hsaves (headerText p)).2.2.2 hmode
          have hpos := List.length_pos_iff.2 (ltrim_headerText_ne_nil hblank)
          rw [heq] at hsame
          omega
      · refine ⟨⟨hblank, fun _ htrue => ?_, hrest⟩, fun _ => ⟨p, rfl, hstarts⟩⟩
        rw [hname] at htrue
        cases htrue
      · refine ⟨⟨hblank, fun _ _ => ?_, hrest⟩, fun _ => ⟨p, rfl, hstarts⟩⟩
        have hboth : st'.clear.Saves := hclear ▸ hsaves
        have hsaves'' : st'.Saves := hboth
        have hequal := HeaderState.savedLength_eq_of_clear_eq hclear
        obtain ⟨-, hquiet', -, hloud⟩ := HeaderState.save_spec hsaves''
          (StringRef.split (headerText p) colon).2
        have hloud' := hloud hmode
        rw [heq] at hsame hnext
        refine ⟨List.length_eq_zero_iff.1 (by omega), hnext ?_⟩
        rwa [hquiet']

/-! ## Ignored fields -/

theorem startsField_cons {c : Byte} (hc : isspace c = false) (w : List Byte) :
    startsField (c :: w) = true := by
  have hne : headerText (c :: w) ≠ [] := by
    rw [Ne, headerText_eq_nil_iff]
    intro h
    rw [h c (List.mem_cons_self ..)] at hc
    cases hc
  have hcr : c ≠ 0x0d := by
    rintro rfl
    cases hc
  have hprefix : headerText (c :: w) <+: c :: w.filter (· ≠ 0x0d) := by
    rw [headerText, List.filter_cons_of_pos (by simpa using hcr)]
    exact List.rdropWhile_prefix ..
  obtain ⟨d, text, htext⟩ := List.exists_cons_of_ne_nil hne
  rw [htext, List.cons_prefix_cons] at hprefix
  rw [startsField, htext, List.headD_cons, hprefix.1, hc]
  rfl

theorem head_fieldLine {name : List Byte} (hname : IsIgnoredName name) (value : List Byte) :
    ∃ next ∈ (headerPieces (fieldLine name value)).head?, startsField next = true := by
  obtain ⟨c, name, rfl⟩ := List.exists_cons_of_ne_nil hname.ne_nil
  have hhead := hname.head
  rw [List.headD_cons] at hhead
  rw [headerPieces, chunks_of_ne_nil (by decide) (by simp [fieldLine])]
  exact ⟨_, rfl, startsField_cons hhead _⟩

theorem sectionPieces_cons (line : List Byte) (lines : List (List Byte)) :
    sectionPieces (line :: lines) = headerPieces line ++ sectionPieces lines := by
  rw [sectionPieces, List.flatMap_cons, List.append_assoc, sectionPieces]

section

variable {P : List Byte → List Byte → Prop}

theorem hear_eq_of_inert (hP : IgnoredValues P)
    (hinert : ∀ name value, P name value → Inert (headerPieces (fieldLine name value)))
    {lines lines' : List (List Byte)} (h : List.Forall₂ (SameUpTo P) lines lines')
    (st : HeaderState) :
    (hear st (sectionPieces lines)).1 = (hear st (sectionPieces lines')).1 := by
  induction h generalizing st with
  | nil => rfl
  | @cons line line' lines lines' hline _ ih =>
    rw [sectionPieces_cons, sectionPieces_cons, hear_append, hear_append]
    rcases hline with rfl | ⟨name, value, value', hvalue, hvalue', rfl, rfl⟩
    · rcases hear st (headerPieces line) with ⟨st', _ | left⟩
      · exact ih st'
      · rfl
    · have hname := (hP name value hvalue).1
      rw [hear_inert (hinert name value hvalue) (Or.inr (head_fieldLine hname value)),
        hear_inert (hinert name value' hvalue') (Or.inr (head_fieldLine hname value'))]
      exact ih st.clear

theorem SameUpTo.isHeaderLine (hP : IgnoredValues P) {line line' : List Byte}
    (hline : IsHeaderLine line) (h : SameUpTo P line line') : IsHeaderLine line' := by
  rcases h with rfl | ⟨name, value, value', -, hvalue', -, rfl⟩
  · exact hline
  · exact (hP name value' hvalue').2.1

theorem isHeaderLine_of_forall₂ (hP : IgnoredValues P) {lines lines' : List (List Byte)}
    (h : List.Forall₂ (SameUpTo P) lines lines') (hlines : ∀ line ∈ lines, IsHeaderLine line) :
    ∀ line ∈ lines', IsHeaderLine line := by
  induction h with
  | nil => exact hlines
  | cons hline _ ih =>
    rw [List.forall_mem_cons] at hlines ⊢
    exact ⟨hline.isHeaderLine hP hlines.1, ih hlines.2⟩

theorem neverInfluence_of_inert (hP : IgnoredValues P)
    (hinert : ∀ name value, P name value → Inert (headerPieces (fieldLine name value))) :
    NeverInfluence P := by
  intro σ σ' _ _ is is' lines lines' body body' contentType contentLength hlines hsame herror
    herror' hc hc'
  have hlines' := isHeaderLine_of_forall₂ hP hsame hlines
  have heq := hear_eq_of_inert hP hinert hsame ⟨false, false, contentType.map fun _ => [],
    contentLength.map fun _ => []⟩
  obtain ⟨st, left, hhear⟩ := exists_hear_section ⟨false, false, contentType.map fun _ => [],
    contentLength.map fun _ => []⟩ lines
  obtain ⟨st', left', hhear'⟩ := exists_hear_section ⟨false, false, contentType.map fun _ => [],
    contentLength.map fun _ => []⟩ lines'
  obtain ⟨_, hparse, -⟩ :=
    parseHttpHeaders_section hlines herror hc contentType contentLength hhear
  obtain ⟨_, hparse', -⟩ :=
    parseHttpHeaders_section hlines' herror' hc' contentType contentLength hhear'
  rw [hhear, hhear'] at heq
  dsimp only at heq
  rw [hparse, hparse', heq]
  exact ⟨rfl, rfl⟩

/-- The state of the parser at the start, when both values are asked for. -/
def startState : HeaderState := ⟨false, false, some [], some []⟩

theorem NeverInfluence.hear_eq (h : NeverInfluence P) (hP : IgnoredValues P)
    {name value value' : List Byte}
    (hvalue : P name value) (hvalue' : P name value') (after : List (List Byte))
    (hafter : ∀ line ∈ after, IsHeaderLine line) :
    (hear startState (headerPieces (fieldLine name value) ++ sectionPieces after)).1.contentType =
        (hear startState (headerPieces (fieldLine name value') ++
          sectionPieces after)).1.contentType ∧
      (hear startState (headerPieces (fieldLine name value) ++
          sectionPieces after)).1.contentLength =
        (hear startState (headerPieces (fieldLine name value') ++
          sectionPieces after)).1.contentLength := by
  have hsame : List.Forall₂ (SameUpTo P) (fieldLine name value :: after)
      (fieldLine name value' :: after) :=
    .cons (Or.inr ⟨name, value, value', hvalue, hvalue', rfl, rfl⟩)
      (List.forall₂_same.2 fun _ _ => Or.inl rfl)
  have hlines : ∀ line ∈ fieldLine name value :: after, IsHeaderLine line := by
    rw [List.forall_mem_cons]
    exact ⟨(hP name value hvalue).2.1, hafter⟩
  have hlines' := isHeaderLine_of_forall₂ hP hsame hlines
  have hcontent : ∀ lines, ByteSource.content (RawMemIstream.ofBytes (headerSection lines)) =
      headerSection lines ++ [] := fun lines => (List.append_nil _).symm
  have hparse :=
    h RawMemIstream RawMemIstream _ _ _ _ [] [] (some []) (some []) hlines hsame rfl rfl
    (hcontent _) (hcontent _)
  rw [← sectionPieces_cons, ← sectionPieces_cons]
  obtain ⟨st, left, hhear⟩ := exists_hear_section startState (fieldLine name value :: after)
  obtain ⟨st', left', hhear'⟩ := exists_hear_section startState (fieldLine name value' :: after)
  obtain ⟨_, heq, -⟩ :=
    parseHttpHeaders_section hlines rfl (hcontent _) (some []) (some []) hhear
  obtain ⟨_, heq', -⟩ :=
    parseHttpHeaders_section hlines' rfl (hcontent _) (some []) (some []) hhear'
  rw [heq, heq'] at hparse
  rw [hhear, hhear']
  exact hparse

theorem sectionPieces_short {line : List Byte} (h : line.length ≤ 1022) :
    sectionPieces [line] = [line ++ crlf, crlf] := by
  have hlength : (line ++ crlf).length ≤ 1024 := by
    rw [List.length_append]
    exact Nat.add_le_add_right h 2
  rw [sectionPieces_cons, headerPieces, chunks_of_length_le (by simp [crlf]) hlength]
  rfl

theorem hear_startState_field : hear startState (sectionPieces [bytes "Content-Type:z"]) =
    (⟨true, false, some [0x7a], some []⟩, some []) := by
  rw [sectionPieces_short (by decide)]
  decide

theorem hear_continuation (st : HeaderState) :
    hear st (sectionPieces [bytes " z"]) = (st.save (bytes " z"), some []) := by
  rw [sectionPieces_short (by decide)]
  rfl

theorem headerText_of_forall {p : List Byte} (h : ∀ c ∈ p, isspace c = false) :
    headerText p = p := by
  rw [headerText, List.filter_eq_self.2 fun c hc => ?_, rtrim, List.rdropWhile_eq_self_iff]
  · intro hne hlast
    rw [contains_whitespace, h _ (List.getLast_mem hne)] at hlast
    cases hlast
  · rw [decide_eq_true_eq]
    rintro rfl
    cases h _ hc

/-- In front of an empty rest, in front of a field that is saved and in front of the continuation of
a field, pieces that are not inert show. -/
theorem inert_of_neverInfluence (hP : IgnoredValues P) (h : NeverInfluence P)
    {name value value' : List Byte} (hvalue : P name value) (hvalue' : P name value')
    (hinert : Inert (headerPieces (fieldLine name value'))) :
    Inert (headerPieces (fieldLine name value)) := by
  have hname := (hP name value hvalue).1
  have hquiet : hear startState (headerPieces (fieldLine name value')) = (startState, none) :=
    hear_inert hinert (Or.inr (head_fieldLine hname value'))
  have hempty := h.hear_eq hP hvalue hvalue' [] (by decide)
  have hfield := h.hear_eq hP hvalue hvalue' [bytes "Content-Type:z"] (by decide)
  have hcontinued := h.hear_eq hP hvalue hvalue' [bytes " z"] (by decide)
  simp only [hear_append, hquiet] at hempty hfield hcontinued
  rw [hear_startState_field] at hfield
  rw [hear_continuation] at hcontinued
  have hstart : startState.Saves := ⟨rfl, rfl⟩
  have hsaves := (savedLength_le_hear hstart (headerPieces (fieldLine name value))).1
  rcases hhear : hear startState (headerPieces (fieldLine name value)) with ⟨st, _ | left⟩
  · rw [hhear] at hempty hcontinued hsaves
    have hcrlf : hear st (sectionPieces []) = (st, some []) := rfl
    have hcrlf' : hear startState (sectionPieces []) = (startState, some []) := rfl
    simp only [hcrlf, hcrlf', hear_continuation] at hempty hcontinued
    have hlength : st.savedLength = 0 := by
      rw [HeaderState.savedLength, hempty.1, hempty.2]
      rfl
    have hmode : st.Quiet := by
      by_contra hmode
      have hloud := (HeaderState.save_spec hsaves (bytes " z")).2.2.2 hmode
      rw [HeaderState.savedLength, hcontinued.1, hcontinued.2, hlength] at hloud
      exact absurd hloud (by decide)
    refine (inert_of_hear hstart ?_ ?_ ?_).1
    · rw [hhear]
    · rw [hhear]
      exact hmode
    · rw [hhear]
      exact hlength
  · rw [hhear] at hempty hfield
    have hsaved := hempty.1.symm.trans hfield.1
    cases hsaved

/-- Values of ignored fields never influence what is saved exactly when their lines are inert. For
each field, one value that is allowed has to be inert to start with. -/
theorem neverInfluence_iff (hP : IgnoredValues P)
    (hinert : ∀ name value, P name value →
      ∃ value', P name value' ∧ Inert (headerPieces (fieldLine name value'))) :
    NeverInfluence P ↔
      ∀ name value, P name value → Inert (headerPieces (fieldLine name value)) := by
  constructor
  · intro h name value hvalue
    obtain ⟨value', hvalue', hinert'⟩ := hinert name value hvalue
    exact inert_of_neverInfluence hP h hvalue hvalue' hinert'
  · exact neverInfluence_of_inert hP

theorem neverInfluence_iff_short :
    NeverInfluence (fun name value => name = bytes "X" ∧ (value = bytes "y" ∨ value = bytes "z")) ↔
      ∀ name value, name = bytes "X" ∧ (value = bytes "y" ∨ value = bytes "z") →
        Inert (headerPieces (fieldLine name value)) := by
  refine neverInfluence_iff ?_ ?_
  · rintro name value ⟨rfl, rfl | rfl⟩
    · exact ⟨⟨by decide, by decide, by decide, by decide⟩, by decide, by decide⟩
    · exact ⟨⟨by decide, by decide, by decide, by decide⟩, by decide, by decide⟩
  · rintro name value ⟨rfl, -⟩
    refine ⟨bytes "y", ⟨rfl, Or.inl rfl⟩, ?_⟩
    rw [headerPieces, chunks_of_length_le (by decide) (by decide)]
    refine ⟨by decide, fun _ h => ?_, trivial⟩
    exact absurd h (by decide)

/-- A value that fills the piece with the name, and goes on like a field that is saved. -/
def longValue : List Byte := List.replicate 1022 0x61 ++ bytes "Content-Length:5"

theorem hear_longValue :
    hear startState (sectionPieces [fieldLine (bytes "X") longValue]) =
      (⟨false, true, some [], some [0x35]⟩, some []) := by
  have hlength : (fieldLine (bytes "X") (List.replicate 1022 0x61)).length = 1024 := by
    rw [fieldLine, List.length_append, List.length_cons, List.length_replicate]
    rfl
  have hsplit : fieldLine (bytes "X") longValue ++ crlf =
      fieldLine (bytes "X") (List.replicate 1022 0x61) ++ (bytes "Content-Length:5" ++ crlf) := by
    simp only [fieldLine, longValue, List.append_assoc, List.cons_append]
  have hpieces : sectionPieces [fieldLine (bytes "X") longValue] =
      [fieldLine (bytes "X") (List.replicate 1022 0x61), bytes "Content-Length:5" ++ crlf,
        crlf] := by
    rw [sectionPieces_cons, headerPieces, hsplit,
      chunks_of_ne_nil (by decide) (List.append_ne_nil_of_right_ne_nil _ (by decide)),
      List.take_left' hlength, List.drop_left' hlength,
      chunks_of_length_le (by decide) (by decide)]
    rfl
  have hfirst : ∀ c ∈ fieldLine (bytes "X") (List.replicate 1022 0x61), isspace c = false := by
    intro c hc
    rw [fieldLine, List.mem_append, List.mem_cons, List.mem_replicate] at hc
    rcases hc with hc | rfl | ⟨-, rfl⟩
    · rw [List.mem_singleton.1 hc]
      rfl
    · rfl
    · rfl
  have hname : StringRef.split (fieldLine (bytes "X") (List.replicate 1022 0x61)) colon =
      (bytes "X", List.replicate 1022 0x61) := rfl
  have htext := headerText_of_forall hfirst
  rw [hpieces, hear, if_neg (by rw [htext]; exact List.cons_ne_nil _ _)]
  rcases processLine_cases startState (fieldLine (bytes "X") (List.replicate 1022 0x61)) with
    ⟨hstarts, -⟩ | ⟨-, -, heq⟩ | ⟨-, hsaved, -⟩
  · rw [show fieldLine (bytes "X") _ = 0x58 :: _ from rfl, startsField_cons rfl] at hstarts
    cases hstarts
  · rw [heq]
    decide
  · rw [htext, hname] at hsaved
    exact absurd hsaved (by decide)

/-- The end of a long value is saved as the length of the content. -/
theorem not_neverInfluence_longValue :
    (parseHttpHeaders (RawMemIstream.ofBytes (headerSection [fieldLine (bytes "X") longValue]))
        (some []) (some [])).2.2.1 ≠
      (parseHttpHeaders (RawMemIstream.ofBytes (headerSection [fieldLine (bytes "X") (bytes "a")]))
        (some []) (some [])).2.2.1 := by
  have hline : IsHeaderLine (fieldLine (bytes "X") longValue) := by
    have hmem : ∀ c ∈ fieldLine (bytes "X") longValue, c ≠ 0x0d ∧ c ≠ 0x0a := by
      intro c hc
      rw [fieldLine, longValue, List.mem_append, List.mem_cons, List.mem_append,
        List.mem_replicate] at hc
      rcases hc with hc | rfl | ⟨-, rfl⟩ | hc
      · rw [List.mem_singleton.1 hc]
        decide
      · decide
      · decide
      · have hlast : ∀ c ∈ bytes "Content-Length:5", c ≠ 0x0d ∧ c ≠ 0x0a :=
          List.all_iff_forall_prop.1 (by decide)
        exact hlast c hc
    exact ⟨List.cons_ne_nil _ _, fun h => (hmem _ h).1 rfl, fun h => (hmem _ h).2 rfl⟩
  have hcontent :
      ByteSource.content (RawMemIstream.ofBytes (headerSection [fieldLine (bytes "X") longValue])) =
        headerSection [fieldLine (bytes "X") longValue] ++ [] :=
    (List.append_nil _).symm
  obtain ⟨is, hparse, -⟩ :=
    parseHttpHeaders_section (List.forall_mem_singleton.2 hline) rfl hcontent
    (some []) (some []) hear_longValue
  have hshort : (parseHttpHeaders (RawMemIstream.ofBytes (headerSection [fieldLine (bytes "X")
      (bytes "a")])) (some []) (some [])).2.2.1 = some [] := by decide
  rw [hparse, hshort]
  exact fun h => nomatch h

end

end Wpi

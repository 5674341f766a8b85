import WpiUtil.Json.ParseTree
import WpiUtil.Json.Proofs.JsonProofs
import WpiUtil.Json.RoundTrip
import WpiUtil.Json.Serializer

/-!
# What the serializer writes

The text of a value is derived from a tree that stands for the same value.
-/

namespace Wpi

open Foundations
open Foundations.JsonText

namespace Serializer

/-! ## Strings -/

theorem dumpEscaped_append (s s' : List Byte) :
    dumpEscaped (s ++ s') = dumpEscaped s ++ dumpEscaped s' :=
  List.flatMap_append

/-- Nothing is escaped outside ASCII. -/
theorem dumpEscaped_of_le {s : List Byte} (h : ∀ b ∈ s, 0x80 ≤ b.toNat) : dumpEscaped s = s := by
  induction s with
  | nil => rfl
  | cons b s ih =>
    rw [List.forall_mem_cons] at h
    have hne : ∀ d : Byte, d.toNat < 0x80 → b ≠ d := by
      rintro d hd rfl
      omega
    have hlow : ¬b ≤ 0x1f := by
      rw [UInt8.le_iff_toNat_le, show (0x1f : Byte).toNat = 0x1f from rfl]
      omega
    have hescape : escape b = [b] := by
      unfold escape
      simp (disch := first | exact hlow | exact hne _ (by decide)) only [if_neg]
    rw [dumpEscaped, List.flatMap_cons, hescape, ← dumpEscaped, ih h.2]
    rfl

theorem hexValue_hexdigit {x : Nat} (h : x < 16) : hexValue (hexdigit x true) = some x := by
  interval_cases x <;> rfl

/-- The escape sequences for the control characters that have no short one. -/
theorem hexQuad_hexdigit {n : Nat} (h : n < 256) (w : List Byte) :
    HexQuad (0x30 :: 0x30 :: hexdigit (n / 16) true :: hexdigit (n % 16) true :: w) n w := by
  have hquad := HexQuad.mk w (a := 0x30) (b := 0x30) (m := 0) (n := 0) rfl rfl
    (hexValue_hexdigit (show n / 16 < 16 by omega)) (hexValue_hexdigit (show n % 16 < 16 by omega))
  rwa [show 0 * 0x1000 + 0 * 0x100 + n / 16 * 0x10 + n % 16 = n by omega] at hquad

/-- What is written for an ASCII character. -/
theorem character_escape {b : Byte} (hb : b.toNat < 0x80) (w : List Byte) :
    Character (escape b ++ w) (Char.ofNat b.toNat) w := by
  unfold escape
  split
  · next h => rw [h]; exact .simple w rfl
  split
  · next h => rw [h]; exact .simple w rfl
  split
  · next h => rw [h]; exact .simple w rfl
  split
  · next h => rw [h]; exact .simple w rfl
  split
  · next h => rw [h]; exact .simple w rfl
  split
  · next h => rw [h]; exact .simple w rfl
  split
  · next h => rw [h]; exact .simple w rfl
  split
  · exact .unicode (hexQuad_hexdigit (by omega) w) (Or.inl (by omega))
  · next hquote hbackslash _ _ _ _ _ hcontrol =>
    have hscalar : Utf8.IsScalar b.toNat := Or.inl (by omega)
    have hencode : String.utf8EncodeChar (Char.ofNat b.toNat) = [b] := by
      rw [Utf8.utf8EncodeChar_ofNat hscalar, Utf8.encodeNat_of_lt hb, UInt8.ofNat_toNat]
    have hne : ∀ d : Byte, b ≠ d → d.toNat < 0x80 → Char.ofNat b.toNat ≠ Char.ofNat d.toNat := by
      intro d hd hlt h
      have hnat := congrArg Char.toNat h
      rw [Utf8.toNat_ofNat hscalar, Utf8.toNat_ofNat (Or.inl (by omega))] at hnat
      exact hd (UInt8.toNat_inj.1 hnat)
    rw [UInt8.le_iff_toNat_le, show (0x1f : Byte).toNat = 0x1f from rfl] at hcontrol
    rw [← hencode]
    refine .unescaped _ w ?_ (hne 0x22 hquote (by decide)) (hne 0x5c hbackslash (by decide))
    rw [Utf8.toNat_ofNat hscalar]
    omega

theorem character_dumpEscaped (c : Char) (w : List Byte) :
    Character (dumpEscaped (String.utf8EncodeChar c) ++ w) c w := by
  rcases Nat.lt_or_ge c.toNat 0x80 with h | h
  · have hnat : (UInt8.ofNat c.toNat).toNat = c.toNat := by
      rw [UInt8.toNat_ofNat']
      omega
    have hchar := character_escape (b := UInt8.ofNat c.toNat) (by omega) w
    rw [hnat, Char.ofNat_toNat] at hchar
    rw [Utf8.utf8EncodeChar_eq, Utf8.encodeNat_of_lt h, dumpEscaped, List.flatMap_singleton]
    exact hchar
  · have hhigh : ∀ b ∈ String.utf8EncodeChar c, 0x80 ≤ b.toNat :=
      fun b hb => Utf8.le_of_mem_encodeNat h hb
    rw [dumpEscaped_of_le hhigh]
    refine .unescaped c w (by omega) ?_ ?_
    · rintro rfl
      exact absurd h (by decide)
    · rintro rfl
      exact absurd h (by decide)

theorem characters_dumpEscaped (cs : List Char) (w : List Byte) :
    Characters (dumpEscaped (Utf8.encode cs) ++ 0x22 :: w) cs w := by
  induction cs with
  | nil => exact .nil w
  | cons c cs ih =>
    rw [Utf8.encode, List.flatMap_cons, ← Utf8.encode, dumpEscaped_append, List.append_assoc]
    exact .cons (character_dumpEscaped c _) ih

/-! ## Numbers -/

theorem intDigits_decimal (n : ℕ) : IntDigits (Foundations.decimal n) := by
  rcases Nat.eq_zero_or_pos n with rfl | hn
  · exact Or.inl rfl
  · cases h : Foundations.decimal n with
    | nil => exact absurd h (decimal_ne_nil n)
    | cons c cs =>
      refine Or.inr ⟨c, cs, rfl, ?_, ?_⟩
      · rintro rfl
        exact absurd (decimal_head h (by omega)).1 (by decide)
      · intro d hd
        rw [← h] at hd
        exact isDigit_of_mem_decimal hd

/-- The numeral of an integer. -/
def numeral (n : Int) : Numeral := ⟨n < 0, Foundations.decimal n.natAbs, none, none⟩

theorem numeral_wf (n : Int) : (numeral n).WF :=
  ⟨intDigits_decimal _, fun _ h => (by cases h), fun _ h => by cases h⟩

theorem numeral_text (n : Int) : (numeral n).text = dumpInteger n := by
  unfold numeral Numeral.text dumpInteger dumpUnsigned
  simp

theorem numeral_toInt (n : Int) : (numeral n).toInt = n := by
  unfold numeral Numeral.toInt
  dsimp only
  rw [ofDecimal_decimal]
  by_cases h : n < 0
  · rw [if_pos (decide_eq_true h)]
    omega
  · rw [if_neg (by simpa using h)]
    omega

theorem dumpInteger_ofNat (n : ℕ) : dumpInteger n = dumpUnsigned n := by
  rw [dumpInteger, if_neg (by omega), Int.natAbs_natCast]
  rfl

/-! ## Trees for texts -/

/-- As a part of a longer text, the text stands for the tree. -/
def Writes (text : List Byte) (t : Tree) : Prop := ∀ w, Derives (.value t) (text ++ w) w

theorem writes_integer {n : Int} (hlow : -2 ^ 63 ≤ n) (hhigh : n < 2 ^ 64) :
    ∃ t, Writes (dumpInteger n) t ∧ ParseTree.Finite t ∧ ParseTree.ShortNames t ∧
      ParseTree.value t = .integer n := by
  have hfits : ParseTree.fits (numeral n) = true := by
    rw [ParseTree.fits, numeral_toInt, decide_eq_true ⟨hlow, hhigh⟩]
    rfl
  refine ⟨.number (numeral n), fun w => ?_, fun h => ?_, trivial, ?_⟩
  · rw [← numeral_text]
    exact .number w (numeral_wf n)
  · rw [hfits] at h
    cases h
  · rw [ParseTree.value, ParseTree.numberValue, if_pos hfits, numeral_toInt]

theorem writes_string (cs : List Char) :
    Writes (bytes "\"" ++ dumpEscaped (Utf8.encode cs) ++ bytes "\"") (.string cs) := by
  intro w
  rw [List.append_assoc, List.append_assoc]
  exact .string (characters_dumpEscaped cs w)

/-- As a part of a longer text, the text stands for the member. -/
def WritesMember (text : List Byte) (m : List Char × Tree) : Prop :=
  ∀ w, ∃ k k' x v, text ++ w = 0x22 :: k ∧ Characters k m.1 k' ∧ Blanks k' (0x3a :: x) ∧
    Blanks x v ∧ Derives (.value m.2) v w

theorem writesMember {text gap : List Byte} {t : Tree} (ht : Writes text t)
    (hgap : ∀ c ∈ gap, isBlank c = true) (cs : List Char) :
    WritesMember (bytes "\"" ++ dumpEscaped (Utf8.encode cs) ++ (bytes "\":" ++ gap) ++ text)
      (cs, t) := by
  intro w
  refine ⟨_, _, _, _, ?_, characters_dumpEscaped cs _, .nil _, blanks_append hgap _, ht w⟩
  simp [bytes]

/-! ## Separators -/

theorem separated_one (separator text : List Byte) : separated 1 separator [text] = text := rfl

theorem separated_cons (n : Nat) (separator text : List Byte) (texts : List (List Byte)) :
    separated (n + 2) separator (text :: texts) =
      text ++ (separator ++ separated (n + 1) separator texts) := by
  simp [separated]

theorem blanks_start {gap pad : List Byte} (hgap : ∀ c ∈ gap, isBlank c = true)
    (hpad : ∀ c ∈ pad, isBlank c = true) (w : List Byte) : Blanks (gap ++ (pad ++ w)) w := by
  rw [← List.append_assoc]
  refine blanks_append (fun c hc => ?_) w
  exact (List.mem_append.1 hc).elim (hgap c) (hpad c)

section Separated

variable {gap pad close : List Byte} (hgap : ∀ c ∈ gap, isBlank c = true)
  (hpad : ∀ c ∈ pad, isBlank c = true) (hclose : ∀ c ∈ close, isBlank c = true)
include hgap hpad hclose

theorem derives_elements {texts : List (List Byte)} {ts : List Tree}
    (h : List.Forall₂ Writes texts ts) (hne : texts ≠ []) (w : List Byte) :
    Derives (.elements ts) (gap ++ (separated texts.length (0x2c :: gap)
      (texts.map fun text => pad ++ text) ++ (close ++ 0x5d :: w))) w := by
  induction h with
  | nil => exact absurd rfl hne
  | @cons text t texts ts htext htexts ih =>
    cases htexts with
    | nil =>
      rw [List.map_singleton, List.length_singleton, separated_one, List.append_assoc]
      exact .lastElement (blanks_start hgap hpad _) (htext _) (blanks_append hclose _)
    | @cons text' t' texts ts htext' htexts =>
      rw [List.map_cons, List.length_cons, List.length_cons, separated_cons, List.append_assoc,
        List.append_assoc, List.append_assoc]
      exact .element (blanks_start hgap hpad _) (htext _) (.nil _) (ih (List.cons_ne_nil _ _))

theorem derives_members {texts : List (List Byte)} {ms : List (List Char × Tree)}
    (h : List.Forall₂ WritesMember texts ms) (hne : texts ≠ []) (w : List Byte) :
    Derives (.members ms) (gap ++ (separated texts.length (0x2c :: gap)
      (texts.map fun text => pad ++ text) ++ (close ++ 0x7d :: w))) w := by
  induction h with
  | nil => exact absurd rfl hne
  | @cons text m texts ms htext htexts ih =>
    cases htexts with
    | nil =>
      rw [List.map_singleton, List.length_singleton, separated_one, List.append_assoc]
      obtain ⟨k, k', x, v, hk, hcs, hcolon, hvalue, ht⟩ := htext (close ++ 0x7d :: w)
      rw [hk]
      exact .lastMember (blanks_start hgap hpad _) hcs hcolon hvalue ht (blanks_append hclose _)
    | @cons text' m' texts ms htext' htexts =>
      rw [List.map_cons, List.length_cons, List.length_cons, separated_cons, List.append_assoc,
        List.append_assoc, List.append_assoc]
      obtain ⟨k, k', x, v, hk, hcs, hcolon, hvalue, ht⟩ := htext _
      rw [hk]
      exact .member (blanks_start hgap hpad _) hcs hcolon hvalue ht (.nil _)
        (ih (List.cons_ne_nil _ _))

end Separated

/-! ## Layouts -/

theorem isBlank_indent (n : UInt32) : ∀ c ∈ indent n, isBlank c = true := by
  intro c hc
  rw [List.eq_of_mem_replicate hc]
  rfl

theorem isBlank_lineStart (prettyPrint : Bool) (n : UInt32) :
    ∀ c ∈ lineStart prettyPrint n, isBlank c = true := by
  cases prettyPrint with
  | true => exact isBlank_indent n
  | false =>
    intro c hc
    cases hc

theorem dumpElements_eq (prettyPrint : Bool) (indentStep currentIndent : UInt32) (xs : List Json) :
    dumpElements prettyPrint indentStep currentIndent xs =
      (xs.map (dump prettyPrint indentStep currentIndent)).map fun text =>
        lineStart prettyPrint currentIndent ++ text := by
  induction xs with
  | nil => rfl
  | cons x xs ih => rw [dumpElements, ih, List.map_cons, List.map_cons]

/-- What is written for a member, without the indentation. -/
def dumpMember (prettyPrint : Bool) (indentStep currentIndent : UInt32) (e : Key × Json) :
    List Byte :=
  bytes "\"" ++ dumpEscaped e.1 ++ (bytes "\":" ++ if prettyPrint then [0x20] else []) ++
    dump prettyPrint indentStep currentIndent e.2

theorem dumpMembers_eq (prettyPrint : Bool) (indentStep currentIndent : UInt32)
    (table : List (Bucket Json)) :
    dumpMembers prettyPrint indentStep currentIndent table =
      ((StringMap.entries table).map (dumpMember prettyPrint indentStep currentIndent)).map
        fun text => lineStart prettyPrint currentIndent ++ text := by
  induction table with
  | nil => rfl
  | cons bucket table ih =>
    cases bucket with
    | empty => exact ih
    | tombstone => exact ih
    | item hash key value =>
      rw [dumpMembers, ih]
      cases prettyPrint with
      | true => simp [StringMap.entries, Bucket.item?, dumpMember, bytes]
      | false => simp [StringMap.entries, Bucket.item?, dumpMember, bytes]

/-- A container is its brackets and the separated texts, with white space between them. -/
theorem exists_layout (prettyPrint : Bool) (indentStep currentIndent : UInt32) (n : Nat)
    (first last : Byte) (texts : Bool → UInt32 → List (List Byte)) :
    ∃ gap newIndent close, (∀ c ∈ gap, isBlank c = true) ∧ (∀ c ∈ close, isBlank c = true) ∧
      (if prettyPrint = true then
        [first, 0x0a] ++ separated n [0x2c, 0x0a] (texts true (currentIndent + indentStep)) ++
          [0x0a] ++ indent currentIndent ++ [last]
      else [first] ++ separated n [0x2c] (texts false currentIndent) ++ [last]) =
        first :: (gap ++ (separated n (0x2c :: gap) (texts prettyPrint newIndent) ++
          (close ++ [last]))) := by
  cases prettyPrint with
  | true =>
    refine ⟨[0x0a], currentIndent + indentStep, 0x0a :: indent currentIndent, by simp [isBlank],
      List.forall_mem_cons.2 ⟨rfl, isBlank_indent currentIndent⟩, ?_⟩
    simp
  | false =>
    refine ⟨[], currentIndent, [], by simp, by simp, ?_⟩
    simp

theorem dump_array (prettyPrint : Bool) (indentStep currentIndent : UInt32) {xs : List Json}
    (hne : xs ≠ []) : ∃ gap newIndent close, (∀ c ∈ gap, isBlank c = true) ∧
      (∀ c ∈ close, isBlank c = true) ∧ dump prettyPrint indentStep currentIndent (.array xs) =
        0x5b :: (gap ++ (separated xs.length (0x2c :: gap)
          (dumpElements prettyPrint indentStep newIndent xs) ++ (close ++ [0x5d]))) := by
  rw [dump, if_neg hne]
  exact exists_layout prettyPrint indentStep currentIndent xs.length 0x5b 0x5d
    fun prettyPrint newIndent => dumpElements prettyPrint indentStep newIndent xs

theorem dump_object (prettyPrint : Bool) (indentStep currentIndent : UInt32) {m : StringMap Json}
    (hne : m.size ≠ 0) : ∃ gap newIndent close, (∀ c ∈ gap, isBlank c = true) ∧
      (∀ c ∈ close, isBlank c = true) ∧ dump prettyPrint indentStep currentIndent (.object m) =
        0x7b :: (gap ++ (separated m.size (0x2c :: gap)
          (dumpMembers prettyPrint indentStep newIndent m.theTable) ++ (close ++ [0x7d]))) := by
  obtain ⟨table, items, tombstones⟩ := m
  have hitems : items ≠ 0 := hne
  rw [dump, if_neg hitems]
  exact exists_layout prettyPrint indentStep currentIndent items 0x7b 0x7d
    fun prettyPrint newIndent => dumpMembers prettyPrint indentStep newIndent table

/-! ## The tree of a value -/

theorem exists_forall₂ {α β : Type} {R : α → β → Prop} {as : List α} (h : ∀ a ∈ as, ∃ b, R a b) :
    ∃ bs, List.Forall₂ R as bs := by
  induction as with
  | nil => exact ⟨[], .nil⟩
  | cons a as ih =>
    rw [List.forall_mem_cons] at h
    obtain ⟨b, hb⟩ := h.1
    obtain ⟨bs, hbs⟩ := ih h.2
    exact ⟨b :: bs, .cons hb hbs⟩

/-- The tree stands for the text and for the value. -/
def Shows (text : List Byte) (j : Json) (t : Tree) : Prop :=
  Writes text t ∧ ParseTree.Finite t ∧ ParseTree.ShortNames t ∧ ParseTree.value t = j.denote

theorem elements_of_shows {f : Json → List Byte} {xs : List Json} {ts : List Tree}
    (h : List.Forall₂ (fun x t => Shows (f x) x t) xs ts) :
    List.Forall₂ Writes (xs.map f) ts ∧ ParseTree.Finite (.array ts) ∧
      ParseTree.ShortNames (.array ts) ∧ ParseTree.elements ts = xs.map Json.denote := by
  induction h with
  | nil => exact ⟨.nil, trivial, trivial, rfl⟩
  | cons hx _ ih =>
    obtain ⟨hwrites, hfinite, hnames, hvalue⟩ := hx
    obtain ⟨htexts, hfinites, hrest, hvalues⟩ := ih
    refine ⟨.cons hwrites htexts, ⟨hfinite, hfinites⟩, ⟨hnames, hrest⟩, ?_⟩
    rw [ParseTree.elements, hvalue, hvalues, List.map_cons]

/-- The member stands for the text and for the entry. -/
def ShowsMember (text : List Byte) (e : Key × Json) (m : List Char × Tree) : Prop :=
  WritesMember text m ∧ ParseTree.Finite m.2 ∧ ParseTree.ShortNames m.2 ∧
    Utf8.encode m.1 = e.1 ∧ ParseTree.value m.2 = e.2.denote

theorem members_of_shows {f : Key × Json → List Byte} {es : List (Key × Json)}
    {ms : List (List Char × Tree)} (h : List.Forall₂ (fun e m => ShowsMember (f e) e m) es ms)
    (hkeys : ∀ e ∈ es, e.1.length < 2 ^ 32) :
    List.Forall₂ WritesMember (es.map f) ms ∧ ParseTree.Finite (.object ms) ∧
      ParseTree.ShortNames (.object ms) ∧ ((es.map Prod.fst).Nodup →
        ∀ key, ParseTree.members ms key = (es.lookup key).map Json.denote) := by
  induction h with
  | nil => exact ⟨.nil, trivial, trivial, fun _ _ => rfl⟩
  | @cons e m es ms hm _ ih =>
    rw [List.forall_mem_cons] at hkeys
    obtain ⟨hwrites, hfinite, hnames, hkey, hvalue⟩ := hm
    obtain ⟨htexts, hfinites, hrest, hmembers⟩ := ih hkeys.2
    refine ⟨.cons hwrites htexts, ⟨hfinite, hfinites⟩, ⟨by rw [hkey]; exact hkeys.1, hnames, hrest⟩,
      fun hnodup key => ?_⟩
    rw [List.map_cons, List.nodup_cons] at hnodup
    rw [ParseTree.members, hmembers hnodup.2, hkey, hvalue, List.lookup_cons]
    by_cases h : key = e.1
    · have hnone : es.lookup key = none := by
        rw [List.lookup_eq_none_iff]
        intro x hx
        rw [bne_iff_ne, h]
        intro hx'
        exact hnodup.1 (List.mem_map.2 ⟨x, hx, hx'.symm⟩)
      rw [hnone, if_pos h, h, beq_self_eq_true]
      rfl
    · rw [beq_false_of_ne h, if_neg h]
      cases es.lookup key <;> rfl

theorem shows_array {prettyPrint : Bool} {indentStep : UInt32} {xs : List Json}
    (h : ∀ x ∈ xs, ∀ currentIndent, ∃ t, Shows (dump prettyPrint indentStep currentIndent x) x t)
    (currentIndent : UInt32) :
    ∃ t, Shows (dump prettyPrint indentStep currentIndent (.array xs)) (.array xs) t := by
  by_cases hne : xs = []
  · subst hne
    refine ⟨.array [], fun w => .emptyArray (.nil _), trivial, trivial, rfl⟩
  · obtain ⟨gap, newIndent, close, hgap, hclose, hdump⟩ :=
      dump_array prettyPrint indentStep currentIndent hne
    obtain ⟨ts, hts⟩ := exists_forall₂ fun x hx => h x hx newIndent
    obtain ⟨htexts, hfinite, hnames, hvalue⟩ := elements_of_shows hts
    refine ⟨.array ts, fun w => ?_, hfinite, hnames, ?_⟩
    · have hderives := derives_elements hgap (isBlank_lineStart prettyPrint newIndent) hclose
        htexts (by rwa [Ne, List.map_eq_nil_iff]) w
      rw [List.length_map, ← dumpElements_eq] at hderives
      rw [hdump]
      simpa using Derives.array hderives
    · rw [ParseTree.value, hvalue, Json.denote_array]

theorem shows_object {prettyPrint : Bool} {indentStep : UInt32} {m : StringMap Json} (hm : m.WF)
    (hkeys : ∀ e ∈ m.toList, e.1.length < 2 ^ 32) (hutf8 : ∀ e ∈ m.toList, Utf8.IsUtf8 e.1)
    (h : ∀ e ∈ m.toList, ∀ currentIndent,
      ∃ t, Shows (dump prettyPrint indentStep currentIndent e.2) e.2 t) (currentIndent : UInt32) :
    ∃ t, Shows (dump prettyPrint indentStep currentIndent (.object m)) (.object m) t := by
  have hsize : m.size = m.toList.length := hm.numItems
  by_cases hempty : m.size = 0
  · have hlist : m.toList = [] := List.length_eq_zero_iff.1 (by omega)
    refine ⟨.object [], fun w => ?_, trivial, trivial, ?_⟩
    · obtain ⟨table, items, tombstones⟩ := m
      have hitems : items = 0 := hempty
      rw [dump, if_pos hitems]
      exact .emptyObject (.nil _)
    · rw [ParseTree.value, Json.denote_object hm]
      congr 1
      funext key
      rw [← Json.toList_lookup hm, hlist]
      rfl
  · obtain ⟨gap, newIndent, close, hgap, hclose, hdump⟩ :=
      dump_object prettyPrint indentStep currentIndent hempty
    have hmember : ∀ e ∈ m.toList,
        ∃ member, ShowsMember (dumpMember prettyPrint indentStep newIndent e) e member := by
      intro e he
      obtain ⟨cs, hcs⟩ := hutf8 e he
      obtain ⟨t, hwrites, hfinite, hnames, hvalue⟩ := h e he newIndent
      refine ⟨(cs, t), ?_, hfinite, hnames, hcs, hvalue⟩
      rw [dumpMember, ← hcs]
      refine writesMember hwrites ?_ cs
      cases prettyPrint <;> simp [isBlank]
    obtain ⟨ms, hms⟩ := exists_forall₂ hmember
    obtain ⟨htexts, hfinite, hnames, hvalue⟩ := members_of_shows hms hkeys
    refine ⟨.object ms, fun w => ?_, hfinite, hnames, ?_⟩
    · have hderives := derives_members hgap (isBlank_lineStart prettyPrint newIndent) hclose
        htexts (by rw [Ne, List.map_eq_nil_iff, ← List.length_eq_zero_iff]; omega) w
      rw [List.length_map, ← hsize, StringMap.toList, ← dumpMembers_eq] at hderives
      rw [hdump]
      simpa using Derives.object hderives
    · rw [ParseTree.value, Json.denote_object hm]
      congr 1
      funext key
      rw [hvalue hm.table.nodup, Json.toList_lookup hm]

/-- Every value that can be written is the value of the tree of its text. -/
theorem exists_tree {j : Json} (hj : j.WF) (hfloat : j.NoFloat) (hdiscarded : j.NoDiscarded)
    (hutf8 : j.IsUtf8) (prettyPrint : Bool) (indentStep currentIndent : UInt32) :
    ∃ t, Shows (dump prettyPrint indentStep currentIndent j) j t := by
  induction j using Json.induct generalizing currentIndent with
  | null => exact ⟨.null, fun w => .null w, trivial, trivial, rfl⟩
  | object m ih =>
    obtain ⟨⟨hm, _, hkeys⟩, hmembers⟩ := (Json.all_object m).1 hj
    refine shows_object hm hkeys hutf8.self (fun e he currentIndent => ?_) currentIndent
    exact ih e he (hmembers e he) (((Json.all_object m).1 hfloat).2 e he)
      (((Json.all_object m).1 hdiscarded).2 e he) (((Json.all_object m).1 hutf8).2 e he)
      currentIndent
  | array xs ih =>
    refine shows_array (fun x hx currentIndent => ?_) currentIndent
    exact ih x hx (((Json.all_array xs).1 hj).2 x hx) (((Json.all_array xs).1 hfloat).2 x hx)
      (((Json.all_array xs).1 hdiscarded).2 x hx) (((Json.all_array xs).1 hutf8).2 x hx)
      currentIndent
  | string s =>
    obtain ⟨cs, rfl⟩ := hutf8.self
    refine ⟨.string cs, ?_, trivial, trivial, rfl⟩
    rw [dump]
    exact writes_string cs
  | boolean b =>
    cases b with
    | true => exact ⟨.boolean true, fun w => .true w, trivial, trivial, rfl⟩
    | false => exact ⟨.boolean false, fun w => .false w, trivial, trivial, rfl⟩
  | numberInteger n =>
    have hlt := n.toInt_lt
    rw [dump]
    exact writes_integer n.le_toInt (by omega)
  | numberUnsigned n =>
    have hlt := n.toNat_lt
    rw [dump, ← dumpInteger_ofNat]
    exact writes_integer (by omega) (by omega)
  | numberFloat bits => cases hfloat.self
  | discarded => cases hdiscarded.self

end Serializer

end Wpi

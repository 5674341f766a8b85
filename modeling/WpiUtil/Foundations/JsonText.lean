import WpiUtil.Foundations.Binary64
import WpiUtil.Foundations.Decimal
import WpiUtil.Foundations.Utf8

/-!
# JSON texts

The grammar of RFC 7159 over bytes. A phrase is a relation between what there is to read, what the
phrase stands for and what is left after it.
-/

namespace Foundations

namespace JsonText

/-! ## Numbers -/

structure Exponent where
  letter : UInt8
  sign : Option UInt8
  digits : List UInt8
deriving DecidableEq

structure Numeral where
  negative : Bool
  int : List UInt8
  frac : Option (List UInt8)
  exp : Option Exponent
deriving DecidableEq

def Exponent.text (e : Exponent) : List UInt8 := e.letter :: (e.sign.toList ++ e.digits)

def Numeral.text (n : Numeral) : List UInt8 :=
  (if n.negative then [0x2d] else []) ++ n.int ++
    (n.frac.elim [] fun ds => 0x2e :: ds) ++ n.exp.elim [] Exponent.text

def Digits (ds : List UInt8) : Prop := ∀ c ∈ ds, isDigit c = true

/-- `zero / ( digit1-9 *DIGIT )` -/
def IntDigits (ds : List UInt8) : Prop :=
  ds = [0x30] ∨ ∃ c cs, ds = c :: cs ∧ c ≠ 0x30 ∧ Digits ds

structure Exponent.WF (e : Exponent) : Prop where
  letter : e.letter = 0x65 ∨ e.letter = 0x45
  sign : ∀ s, e.sign = some s → s = 0x2b ∨ s = 0x2d
  digits : Digits e.digits
  ne_nil : e.digits ≠ []

/-- `number = [ minus ] int [ frac ] [ exp ]` -/
structure Numeral.WF (n : Numeral) : Prop where
  int : IntDigits n.int
  frac : ∀ ds, n.frac = some ds → Digits ds ∧ ds ≠ []
  exp : ∀ e, n.exp = some e → e.WF

def Exponent.toInt (e : Exponent) : ℤ :=
  if e.sign = some 0x2d then -ofDecimal 0 e.digits else ofDecimal 0 e.digits

/-- There is no fraction and no exponent. -/
def Numeral.isInteger (n : Numeral) : Bool := n.frac.isNone && n.exp.isNone

def Numeral.toInt (n : Numeral) : ℤ :=
  if n.negative then -ofDecimal 0 n.int else ofDecimal 0 n.int

/-- The double nearest to the number. -/
def Numeral.toDouble (n : Numeral) : UInt64 :=
  let frac := n.frac.getD []
  Binary64.ofScientific n.negative (ofDecimal 0 (n.int ++ frac))
    (n.exp.elim 0 Exponent.toInt - frac.length)

/-! ## Strings -/

def hexValue (c : UInt8) : Option ℕ :=
  if 0x30 ≤ c ∧ c ≤ 0x39 then some (c.toNat - 0x30)
  else if 0x41 ≤ c ∧ c ≤ 0x46 then some (c.toNat - 0x37)
  else if 0x61 ≤ c ∧ c ≤ 0x66 then some (c.toNat - 0x57)
  else none

/-- `4HEXDIG` -/
inductive HexQuad : List UInt8 → ℕ → List UInt8 → Prop where
  | mk {a b c d : UInt8} {m n p q : ℕ} (w : List UInt8) (ha : hexValue a = some m)
      (hb : hexValue b = some n) (hc : hexValue c = some p) (hd : hexValue d = some q) :
      HexQuad (a :: b :: c :: d :: w) (m * 0x1000 + n * 0x100 + p * 0x10 + q) w

/-- What a byte stands for after a backslash. -/
def simpleEscape (c : UInt8) : Option Char :=
  if c = 0x22 then some '"'
  else if c = 0x5c then some '\\'
  else if c = 0x2f then some '/'
  else if c = 0x62 then some '\x08'
  else if c = 0x66 then some '\x0c'
  else if c = 0x6e then some '\n'
  else if c = 0x72 then some '\r'
  else if c = 0x74 then some '\t'
  else none

/-- `char = unescaped / escape ( … / %x75 4HEXDIG )` -/
inductive Character : List UInt8 → Char → List UInt8 → Prop where
  | unescaped (c : Char) (w : List UInt8) (hc : 0x20 ≤ c.toNat) (hquote : c ≠ '"')
      (hbackslash : c ≠ '\\') : Character (String.utf8EncodeChar c ++ w) c w
  | simple {e : UInt8} {c : Char} (w : List UInt8) (he : simpleEscape e = some c) :
      Character (0x5c :: e :: w) c w
  | unicode {u w : List UInt8} {n : ℕ} (hu : HexQuad u n w) (hn : n < 0xd800 ∨ 0xdfff < n) :
      Character (0x5c :: 0x75 :: u) (Char.ofNat n) w
  | surrogates {u v w : List UInt8} {hi lo : ℕ} (hu : HexQuad u hi (0x5c :: 0x75 :: v))
      (hv : HexQuad v lo w) (hhi : 0xd800 ≤ hi ∧ hi ≤ 0xdbff) (hlo : 0xdc00 ≤ lo ∧ lo ≤ 0xdfff) :
      Character (0x5c :: 0x75 :: u)
        (Char.ofNat ((hi - 0xd800) * 0x400 + (lo - 0xdc00) + 0x10000)) w

/-- What comes after the opening quote, up to the closing quote. -/
inductive Characters : List UInt8 → List Char → List UInt8 → Prop where
  | nil (w : List UInt8) : Characters (0x22 :: w) [] w
  | cons {u v w : List UInt8} {c : Char} {cs : List Char} (hc : Character u c v)
      (hcs : Characters v cs w) : Characters u (c :: cs) w

/-! ## Values -/

inductive Tree where
  | null
  | boolean (b : Bool)
  | number (n : Numeral)
  | string (cs : List Char)
  | array (ts : List Tree)
  | object (members : List (List Char × Tree))

def isBlank (c : UInt8) : Bool := c == 0x20 || c == 0x09 || c == 0x0a || c == 0x0d

/-- `ws` -/
inductive Blanks : List UInt8 → List UInt8 → Prop where
  | nil (w : List UInt8) : Blanks w w
  | cons {c : UInt8} {u w : List UInt8} (hc : isBlank c = true) (h : Blanks u w) :
      Blanks (c :: u) w

/-- An ASCII text. -/
def ascii (s : String) : List UInt8 := s.toList.map fun c => UInt8.ofNat c.toNat

/-- A value, or what is between the brackets of a container that is not empty, with the closing
bracket. -/
inductive Phrase where
  | value (t : Tree)
  | elements (ts : List Tree)
  | members (ms : List (List Char × Tree))

inductive Derives : Phrase → List UInt8 → List UInt8 → Prop where
  | null (w : List UInt8) : Derives (.value .null) (ascii "null" ++ w) w
  | true (w : List UInt8) : Derives (.value (.boolean true)) (ascii "true" ++ w) w
  | false (w : List UInt8) : Derives (.value (.boolean false)) (ascii "false" ++ w) w
  | number {n : Numeral} (w : List UInt8) (hn : n.WF) :
      Derives (.value (.number n)) (n.text ++ w) w
  | string {u w : List UInt8} {cs : List Char} (h : Characters u cs w) :
      Derives (.value (.string cs)) (0x22 :: u) w
  | emptyArray {u w : List UInt8} (h : Blanks u (0x5d :: w)) :
      Derives (.value (.array [])) (0x5b :: u) w
  | array {u w : List UInt8} {ts : List Tree} (h : Derives (.elements ts) u w) :
      Derives (.value (.array ts)) (0x5b :: u) w
  | emptyObject {u w : List UInt8} (h : Blanks u (0x7d :: w)) :
      Derives (.value (.object [])) (0x7b :: u) w
  | object {u w : List UInt8} {ms : List (List Char × Tree)} (h : Derives (.members ms) u w) :
      Derives (.value (.object ms)) (0x7b :: u) w
  | lastElement {u v v' w : List UInt8} {t : Tree} (hu : Blanks u v) (ht : Derives (.value t) v v')
      (hv : Blanks v' (0x5d :: w)) : Derives (.elements [t]) u w
  | element {u v v' u' w : List UInt8} {t : Tree} {ts : List Tree} (hu : Blanks u v)
      (ht : Derives (.value t) v v') (hv : Blanks v' (0x2c :: u'))
      (hts : Derives (.elements ts) u' w) : Derives (.elements (t :: ts)) u w
  | lastMember {u k k' x v v' w : List UInt8} {cs : List Char} {t : Tree}
      (hu : Blanks u (0x22 :: k)) (hk : Characters k cs k') (hk' : Blanks k' (0x3a :: x))
      (hx : Blanks x v) (ht : Derives (.value t) v v') (hv : Blanks v' (0x7d :: w)) :
      Derives (.members [(cs, t)]) u w
  | member {u k k' x v v' u' w : List UInt8} {cs : List Char} {t : Tree}
      {ms : List (List Char × Tree)} (hu : Blanks u (0x22 :: k)) (hk : Characters k cs k')
      (hk' : Blanks k' (0x3a :: x)) (hx : Blanks x v) (ht : Derives (.value t) v v')
      (hv : Blanks v' (0x2c :: u')) (hms : Derives (.members ms) u' w) :
      Derives (.members ((cs, t) :: ms)) u w

theorem blanks_append {z : List UInt8} (hz : ∀ c ∈ z, isBlank c = true) (w : List UInt8) :
    Blanks (z ++ w) w := by
  induction z with
  | nil => exact .nil w
  | cons c z ih =>
    rw [List.forall_mem_cons] at hz
    exact .cons hz.1 (ih hz.2)

/-! ## Frames -/

/-- What `P` says of the text between `u` and `w` does not depend on `w`, and there is no zero byte
in that text. -/
def Framed (P : List UInt8 → List UInt8 → Prop) (u w : List UInt8) : Prop :=
  ∃ z, u = z ++ w ∧ (∀ c ∈ z, c ≠ 0) ∧ ∀ w', P (z ++ w') w'

section Framed

variable {P Q : List UInt8 → List UInt8 → Prop} {u v w : List UInt8}

theorem Framed.comp (hP : Framed P u v) (hQ : Framed Q v w) :
    Framed (fun a c => ∃ b, P a b ∧ Q b c) u w := by
  obtain ⟨x, rfl, hx, hP⟩ := hP
  obtain ⟨y, rfl, hy, hQ⟩ := hQ
  refine ⟨x ++ y, (List.append_assoc x y w).symm, fun c hc => ?_, fun w' => ?_⟩
  · exact (List.mem_append.1 hc).elim (hx c) (hy c)
  · rw [List.append_assoc]
    exact ⟨y ++ w', hP _, hQ _⟩

theorem Framed.mono (hP : Framed P u w) (h : ∀ a b, P a b → Q a b) : Framed Q u w := by
  obtain ⟨z, hz, hne, hP⟩ := hP
  exact ⟨z, hz, hne, fun w' => h _ _ (hP w')⟩

theorem framed_nil (w : List UInt8) : Framed (fun a b => a = b) w w :=
  ⟨[], rfl, fun c hc => (by cases hc), fun _ => rfl⟩

theorem framed_text {x : List UInt8} (hx : ∀ c ∈ x, c ≠ 0) (w : List UInt8) :
    Framed (fun a b => a = x ++ b) (x ++ w) w :=
  ⟨x, rfl, hx, fun _ => rfl⟩

theorem framed_cons {c : UInt8} (hc : c ≠ 0) (w : List UInt8) :
    Framed (fun a b => a = c :: b) (c :: w) w :=
  framed_text (x := [c]) (fun d hd => by rwa [List.mem_singleton.1 hd]) w

end Framed

theorem Blanks.framed {u w : List UInt8} (h : Blanks u w) : Framed Blanks u w := by
  induction h with
  | nil w =>
    refine (framed_nil w).mono ?_
    rintro a b rfl
    exact .nil a
  | @cons c u w hc _ ih =>
    have hne : c ≠ 0 := by
      rintro rfl
      cases hc
    refine ((framed_cons hne u).comp ih).mono ?_
    rintro _ d ⟨b, rfl, hb⟩
    exact .cons hc hb

theorem hexValue_ne_zero {c : UInt8} {n : ℕ} (h : hexValue c = some n) : c ≠ 0 := by
  rintro rfl
  cases h

theorem HexQuad.framed {u w : List UInt8} {n : ℕ} (h : HexQuad u n w) :
    Framed (HexQuad · n ·) u w := by
  obtain ⟨w, ha, hb, hc, hd⟩ := h
  refine ((framed_cons (hexValue_ne_zero ha) _).comp ((framed_cons (hexValue_ne_zero hb) _).comp
    ((framed_cons (hexValue_ne_zero hc) _).comp (framed_cons (hexValue_ne_zero hd) w)))).mono ?_
  rintro _ x ⟨_, rfl, _, rfl, _, rfl, rfl⟩
  exact .mk x ha hb hc hd

theorem encode_ne_zero {c : Char} (hc : 0x20 ≤ c.toNat) :
    ∀ b ∈ String.utf8EncodeChar c, b ≠ 0 := by
  rintro b hb rfl
  rw [Utf8.utf8EncodeChar_eq] at hb
  rcases Nat.lt_or_ge c.toNat 0x80 with h | h
  · rw [Utf8.encodeNat_of_lt h, List.mem_singleton] at hb
    have hnat := congrArg UInt8.toNat hb
    rw [UInt8.toNat_ofNat', Nat.mod_eq_of_lt (by omega), UInt8.toNat_zero] at hnat
    omega
  · exact absurd (Utf8.le_of_mem_encodeNat h hb) (by decide)

theorem Character.framed {u w : List UInt8} {c : Char} (h : Character u c w) :
    Framed (Character · c ·) u w := by
  have hbackslash : (0x5c : UInt8) ≠ 0 := by decide
  have hletter : (0x75 : UInt8) ≠ 0 := by decide
  cases h with
  | unescaped c w hc hquote hne =>
    refine (framed_text (encode_ne_zero hc) w).mono ?_
    rintro _ x rfl
    exact .unescaped c x hc hquote hne
  | @simple e c w he =>
    have hzero : e ≠ 0 := by
      rintro rfl
      cases he
    refine ((framed_cons hbackslash _).comp (framed_cons hzero w)).mono ?_
    rintro _ x ⟨_, rfl, rfl⟩
    exact .simple x he
  | unicode hu hn =>
    refine ((framed_cons hbackslash _).comp ((framed_cons hletter _).comp hu.framed)).mono ?_
    rintro _ x ⟨_, rfl, _, rfl, hquad⟩
    exact .unicode hquad hn
  | surrogates hu hv hhi hlo =>
    refine ((framed_cons hbackslash _).comp ((framed_cons hletter _).comp (hu.framed.comp
      ((framed_cons hbackslash _).comp ((framed_cons hletter _).comp hv.framed))))).mono ?_
    rintro _ x ⟨_, rfl, _, rfl, _, hquad, _, rfl, _, rfl, hquad'⟩
    exact .surrogates hquad hquad' hhi hlo

theorem Characters.framed {u w : List UInt8} {cs : List Char} (h : Characters u cs w) :
    Framed (Characters · cs ·) u w := by
  induction h with
  | nil w =>
    refine (framed_cons (by decide) w).mono ?_
    rintro _ x rfl
    exact .nil x
  | cons hc _ ih =>
    refine (hc.framed.comp ih).mono ?_
    rintro a x ⟨b, hb, hx⟩
    exact .cons hb hx

theorem digit_ne_zero {c : UInt8} (h : isDigit c = true) : c ≠ 0 := by
  rintro rfl
  cases h

theorem Exponent.WF.ne_zero {e : Exponent} (h : e.WF) : ∀ c ∈ e.text, c ≠ 0 := by
  intro c hc
  rw [Exponent.text, List.mem_cons, List.mem_append, Option.mem_toList] at hc
  rcases hc with rfl | hc | hc
  · rcases h.letter with h | h <;> rw [h] <;> decide
  · rcases h.sign c hc with rfl | rfl <;> decide
  · exact digit_ne_zero (h.digits c hc)

theorem Numeral.WF.ne_zero {n : Numeral} (h : n.WF) : ∀ c ∈ n.text, c ≠ 0 := by
  intro c hc
  unfold Numeral.text at hc
  rw [List.mem_append, List.mem_append, List.mem_append] at hc
  rcases hc with ((hc | hc) | hc) | hc
  · cases hn : n.negative with
    | true =>
      rw [hn, if_pos rfl, List.mem_singleton] at hc
      rw [hc]
      decide
    | false =>
      rw [hn, if_neg (by decide)] at hc
      cases hc
  · rcases h.int with hint | ⟨d, ds, hint, _, hdigits⟩
    · rw [hint, List.mem_singleton] at hc
      rw [hc]
      decide
    · exact digit_ne_zero (hdigits c hc)
  · cases hf : n.frac with
    | none =>
      rw [hf] at hc
      cases hc
    | some ds =>
      rw [hf, Option.elim_some, List.mem_cons] at hc
      rcases hc with rfl | hc
      · decide
      · exact digit_ne_zero ((h.frac ds hf).1 c hc)
  · cases he : n.exp with
    | none =>
      rw [he] at hc
      cases hc
    | some e =>
      rw [he, Option.elim_some] at hc
      exact (h.exp e he).ne_zero c hc

theorem Derives.framed {ph : Phrase} {u w : List UInt8} (h : Derives ph u w) :
    Framed (Derives ph) u w := by
  induction h with
  | null w =>
    refine (framed_text (by simp [ascii]) w).mono ?_
    rintro _ x rfl
    exact .null x
  | true w =>
    refine (framed_text (by simp [ascii]) w).mono ?_
    rintro _ x rfl
    exact .true x
  | false w =>
    refine (framed_text (by simp [ascii]) w).mono ?_
    rintro _ x rfl
    exact .false x
  | number w hn =>
    refine (framed_text hn.ne_zero w).mono ?_
    rintro _ x rfl
    exact .number x hn
  | string h =>
    refine ((framed_cons (by decide) _).comp h.framed).mono ?_
    rintro _ x ⟨_, rfl, hx⟩
    exact .string hx
  | emptyArray h =>
    refine ((framed_cons (by decide) _).comp (h.framed.comp (framed_cons (by decide) _))).mono ?_
    rintro _ x ⟨_, rfl, _, hx, rfl⟩
    exact .emptyArray hx
  | array _ ih =>
    refine ((framed_cons (by decide) _).comp ih).mono ?_
    rintro _ x ⟨_, rfl, hx⟩
    exact .array hx
  | emptyObject h =>
    refine ((framed_cons (by decide) _).comp (h.framed.comp (framed_cons (by decide) _))).mono ?_
    rintro _ x ⟨_, rfl, _, hx, rfl⟩
    exact .emptyObject hx
  | object _ ih =>
    refine ((framed_cons (by decide) _).comp ih).mono ?_
    rintro _ x ⟨_, rfl, hx⟩
    exact .object hx
  | lastElement hu _ hv ih =>
    refine (hu.framed.comp (ih.comp (hv.framed.comp (framed_cons (by decide) _)))).mono ?_
    rintro a x ⟨_, hb, _, ht, _, hb', rfl⟩
    exact .lastElement hb ht hb'
  | element hu _ hv _ ih ih' =>
    refine (hu.framed.comp (ih.comp (hv.framed.comp ((framed_cons (by decide) _).comp ih')))).mono ?_
    rintro a x ⟨_, hb, _, ht, _, hb', _, rfl, hts⟩
    exact .element hb ht hb' hts
  | lastMember hu hk hk' hx _ hv ih =>
    refine (hu.framed.comp ((framed_cons (by decide) _).comp (hk.framed.comp (hk'.framed.comp
      ((framed_cons (by decide) _).comp (hx.framed.comp (ih.comp (hv.framed.comp
        (framed_cons (by decide) _))))))))).mono ?_
    rintro a y ⟨_, hb, _, rfl, _, hcs, _, hcolon, _, rfl, _, hvalue, _, ht, _, hend, rfl⟩
    exact .lastMember hb hcs hcolon hvalue ht hend
  | member hu hk hk' hx _ hv _ ih ih' =>
    refine (hu.framed.comp ((framed_cons (by decide) _).comp (hk.framed.comp (hk'.framed.comp
      ((framed_cons (by decide) _).comp (hx.framed.comp (ih.comp (hv.framed.comp
        ((framed_cons (by decide) _).comp ih'))))))))).mono ?_
    rintro a y ⟨_, hb, _, rfl, _, hcs, _, hcolon, _, rfl, _, hvalue, _, ht, _, hend, _, rfl, hms⟩
    exact .member hb hcs hcolon hvalue ht hend hms

/-! ## What is left -/

theorem Framed.suffix {P : List UInt8 → List UInt8 → Prop} {u w : List UInt8} (h : Framed P u w) :
    w <:+ u := by
  obtain ⟨z, rfl, -⟩ := h
  exact List.suffix_append z w

/-- A character takes at least as many bytes in a text as it is encoded with. -/
theorem Character.length_le {u w : List UInt8} {c : Char} (h : Character u c w) :
    (String.utf8EncodeChar c).length + w.length ≤ u.length := by
  cases h with
  | unescaped c w _ _ _ => rw [List.length_append]
  | @simple e c w he =>
    have hlen : (String.utf8EncodeChar c).length = 1 := by
      unfold simpleEscape at he
      split_ifs at he <;> cases he <;> rfl
    rw [hlen, List.length_cons, List.length_cons]
    omega
  | @unicode u w n hu hn =>
    have hlen := String.length_utf8EncodeChar (Char.ofNat n)
    have hsize := Char.utf8Size_le_four (Char.ofNat n)
    obtain ⟨w, ha, hb, hc, hd⟩ := hu
    simp only [List.length_cons]
    omega
  | @surrogates u v w hi lo hu hv _ _ =>
    have hlen := String.length_utf8EncodeChar
      (Char.ofNat ((hi - 0xd800) * 0x400 + (lo - 0xdc00) + 0x10000))
    have hsize := Char.utf8Size_le_four
      (Char.ofNat ((hi - 0xd800) * 0x400 + (lo - 0xdc00) + 0x10000))
    have hle := hu.framed.suffix.length_le
    have hle' := hv.framed.suffix.length_le
    simp only [List.length_cons] at hle ⊢
    omega

theorem Characters.length_le {u w : List UInt8} {cs : List Char} (h : Characters u cs w) :
    (Utf8.encode cs).length + w.length ≤ u.length := by
  induction h with
  | nil w =>
    rw [List.length_cons, Utf8.encode, List.flatMap_nil, List.length_nil]
    omega
  | cons hc _ ih =>
    have hle := hc.length_le
    unfold Utf8.encode at ih ⊢
    rw [List.flatMap_cons, List.length_append]
    omega

end JsonText

/-- `JSON-text = ws value ws` -/
def IsJsonText (s : List UInt8) (t : JsonText.Tree) : Prop :=
  ∃ u w, JsonText.Blanks s u ∧ JsonText.Derives (.value t) u w ∧ JsonText.Blanks w []

end Foundations

import WpiUtil.Json.Hash
import WpiUtil.Json.Proofs.ComparisonProofs
import WpiUtil.Json.Proofs.SerializerProofs

/-!
# Reading a dump in one way

What a compact dump begins with can only be the dump of one of two equal values.
-/

namespace Wpi

open Foundations
open StringMap

namespace Serializer

/-! ## Strings -/

/-- The character at the front of an escaped string. -/
def unescape : List Byte → Option (Byte × List Byte)
  | 0x5c :: 0x75 :: _ :: _ :: a :: b :: w =>
    match JsonText.hexValue a, JsonText.hexValue b with
    | some m, some n => some (UInt8.ofNat (m * 16 + n), w)
    | _, _ => none
  | 0x5c :: e :: w => (JsonText.simpleEscape e).map fun c => (UInt8.ofNat c.toNat, w)
  | c :: w => some (c, w)
  | [] => none

theorem unescape_escape (c : Byte) (w : List Byte) : unescape (escape c ++ w) = some (c, w) := by
  unfold escape
  split
  · next h => rw [h]; rfl
  split
  · next h => rw [h]; rfl
  split
  · next h => rw [h]; rfl
  split
  · next h => rw [h]; rfl
  split
  · next h => rw [h]; rfl
  split
  · next h => rw [h]; rfl
  split
  · next h => rw [h]; rfl
  split
  · have hlt := c.toNat_lt
    have hnat : c.toNat / 16 * 16 + c.toNat % 16 = c.toNat := by omega
    simp only [List.cons_append, List.nil_append, unescape,
      hexValue_hexdigit (show c.toNat / 16 < 16 by omega),
      hexValue_hexdigit (show c.toNat % 16 < 16 by omega), hnat, UInt8.ofNat_toNat]
  · next hbackslash _ _ _ _ _ _ =>
    rw [List.cons_append, List.nil_append]
    unfold unescape
    split
    · next heq => cases heq; exact absurd rfl hbackslash
    · next heq => cases heq; exact absurd rfl hbackslash
    · next heq => cases heq; rfl
    · next heq => cases heq

theorem escape_append_inj {c c' : Byte} {w w' : List Byte}
    (h : escape c ++ w = escape c' ++ w') : c = c' ∧ w = w' := by
  have hread := unescape_escape c w
  rw [h, unescape_escape, Option.some.injEq, Prod.mk.injEq] at hread
  exact ⟨hread.1.symm, hread.2.symm⟩

theorem escape_ne_quote (c : Byte) (w w' : List Byte) : escape c ++ w ≠ 0x22 :: w' := by
  intro h
  have hread := unescape_escape c w
  rw [h] at hread
  have hquote : unescape (0x22 :: w') = some (0x22, w') := rfl
  rw [hquote, Option.some.injEq, Prod.mk.injEq] at hread
  rw [← hread.1, show escape 0x22 = [0x5c, 0x22] from rfl] at h
  cases h

/-- An escaped string ends at the first quotation mark that is not escaped. -/
theorem dumpEscaped_append_inj {s s' w w' : List Byte}
    (h : dumpEscaped s ++ 0x22 :: w = dumpEscaped s' ++ 0x22 :: w') : s = s' ∧ w = w' := by
  unfold dumpEscaped at h
  induction s generalizing s' with
  | nil =>
    cases s' with
    | nil => exact ⟨rfl, List.tail_eq_of_cons_eq h⟩
    | cons c' s' =>
      rw [List.flatMap_cons, List.append_assoc] at h
      exact absurd h.symm (escape_ne_quote c' _ _)
  | cons c s ih =>
    cases s' with
    | nil =>
      rw [List.flatMap_cons, List.append_assoc] at h
      exact absurd h (escape_ne_quote c _ _)
    | cons c' s' =>
      rw [List.flatMap_cons, List.flatMap_cons, List.append_assoc, List.append_assoc] at h
      obtain ⟨hc, hrest⟩ := escape_append_inj h
      obtain ⟨hs, hw⟩ := ih hrest
      exact ⟨by rw [hc, hs], hw⟩

/-! ## Numbers -/

/-- What can follow a value in a container. -/
def isDelimiter (c : Byte) : Bool := c == 0x2c || c == 0x5d || c == 0x7d

/-- The text is at its end, or a delimiter comes next. -/
def Delimited (w : List Byte) : Prop := ∀ c u, w = c :: u → isDelimiter c = true

theorem delimited_nil : Delimited [] := by
  intro c u h
  cases h

theorem delimited_cons {c : Byte} (hc : isDelimiter c = true) (w : List Byte) :
    Delimited (c :: w) := by
  intro d u h
  cases h
  exact hc

/-- Texts without delimiters end at the first delimiter. -/
theorem append_inj_of_delimited {x y w w' : List Byte} (hx : ∀ c ∈ x, isDelimiter c = false)
    (hy : ∀ c ∈ y, isDelimiter c = false) (hw : Delimited w) (hw' : Delimited w')
    (h : x ++ w = y ++ w') : x = y ∧ w = w' := by
  induction x generalizing y with
  | nil =>
    cases y with
    | nil => exact ⟨rfl, h⟩
    | cons d y =>
      rw [List.forall_mem_cons, hw d _ h] at hy
      cases hy.1
  | cons c x ih =>
    cases y with
    | nil =>
      rw [List.forall_mem_cons, hw' c _ h.symm] at hx
      cases hx.1
    | cons d y =>
      rw [List.cons_append, List.cons_append, List.cons.injEq] at h
      rw [List.forall_mem_cons] at hx hy
      obtain ⟨hxy, hrest⟩ := ih hx.2 hy.2 h.2
      exact ⟨by rw [h.1, hxy], hrest⟩

/-- The bytes of a number that is not an integer. -/
def IsFloatByte (c : Byte) : Prop :=
  isDigit c = true ∨ c = 0x2d ∨ c = 0x2b ∨ c = 0x2e ∨ c = 0x65

theorem isDelimiter_of_isDigit {c : Byte} (h : isDigit c = true) : isDelimiter c = false := by
  rw [isDigit_iff] at h
  have hne : ∀ d : Byte, 0x39 < d.toNat ∨ d.toNat < 0x30 → (c == d) = false := by
    intro d hd
    rw [beq_eq_false_iff_ne]
    rintro rfl
    omega
  rw [isDelimiter, hne 0x2c (by decide), hne 0x5d (by decide), hne 0x7d (by decide)]
  rfl

theorem IsFloatByte.not_isDelimiter {c : Byte} (h : IsFloatByte c) : isDelimiter c = false := by
  rcases h with h | rfl | rfl | rfl | rfl
  · exact isDelimiter_of_isDigit h
  · rfl
  · rfl
  · rfl
  · rfl

theorem mem_dumpInteger {n : Int} {c : Byte} (hc : c ∈ dumpInteger n) :
    c = 0x2d ∨ isDigit c = true := by
  rw [dumpInteger, List.mem_append] at hc
  rcases hc with hc | hc
  · split at hc
    · exact Or.inl (List.mem_singleton.1 hc)
    · cases hc
  · exact Or.inr (isDigit_of_mem_decimal hc)

theorem mem_fractionText {digits : List Byte} (hdigits : ∀ c ∈ digits, isDigit c = true) {c : Byte}
    (hc : c ∈ fractionText digits) : IsFloatByte c := by
  unfold fractionText at hc
  dsimp only at hc
  split at hc
  · cases hc
  · rcases List.mem_cons.1 hc with rfl | hc
    · exact Or.inr (Or.inr (Or.inr (Or.inl rfl)))
    · exact Or.inl (hdigits c ((List.rdropWhile_prefix _ _).subset hc))

theorem exists_significantDigits (precision num den : Nat) :
    ∃ m, (significantDigits precision num den).1 = Foundations.decimal m := by
  unfold significantDigits
  dsimp only
  split_ifs
  · exact ⟨_, rfl⟩
  · exact ⟨_, rfl⟩
  · exact ⟨_, rfl⟩
  · exact ⟨_, rfl⟩

theorem mem_snprintfG {precision : Nat} {bits : UInt64} {c : Byte}
    (hc : c ∈ snprintfG precision bits) : IsFloatByte c := by
  unfold snprintfG at hc
  dsimp only at hc
  obtain ⟨m, hm⟩ := exists_significantDigits precision (Binary64.toFraction bits).1
    (Binary64.toFraction bits).2
  have hdigits : ∀ d ∈ Foundations.decimal m, isDigit d = true := fun d => isDigit_of_mem_decimal
  have htake : ∀ i, ∀ d ∈ (Foundations.decimal m).take i, isDigit d = true :=
    fun i d hd => hdigits d (List.mem_of_mem_take hd)
  have hdrop : ∀ i, ∀ d ∈ (Foundations.decimal m).drop i, isDigit d = true :=
    fun i d hd => hdigits d (List.mem_of_mem_drop hd)
  rw [hm] at hc
  rcases List.mem_append.1 hc with hc | hc
  · split at hc
    · exact Or.inr (Or.inl (List.mem_singleton.1 hc))
    · cases hc
  · split at hc
    · -- with an exponent
      simp only [List.mem_append, List.mem_cons, List.not_mem_nil, or_false] at hc
      rcases hc with (((hc | hc) | rfl | hc) | hc) | hc
      · exact Or.inl (htake 1 c hc)
      · exact mem_fractionText (hdrop 1) hc
      · exact Or.inr (Or.inr (Or.inr (Or.inr rfl)))
      · split at hc
        · exact Or.inr (Or.inl hc)
        · exact Or.inr (Or.inr (Or.inl hc))
      · split at hc
        · rw [List.mem_singleton.1 hc]
          exact Or.inl rfl
        · cases hc
      · exact Or.inl (isDigit_of_mem_decimal hc)
    · split at hc
      · rcases List.mem_cons.1 hc with rfl | hc
        · exact Or.inl rfl
        · refine mem_fractionText (fun d hd => ?_) hc
          rcases List.mem_append.1 hd with hd | hd
          · rw [List.eq_of_mem_replicate hd]
            rfl
          · exact hdigits d hd
      · rcases List.mem_append.1 hc with hc | hc
        · exact Or.inl (htake _ c hc)
        · exact mem_fractionText (hdrop _) hc

theorem bytes_not_isDelimiter {s : String} (h : ((bytes s).all fun c => !isDelimiter c) = true)
    {c : Byte} (hc : c ∈ bytes s) : isDelimiter c = false := by
  have hnot := List.all_eq_true.1 h c hc
  rwa [Bool.not_eq_true'] at hnot

theorem not_isDelimiter_of_mem_dumpFloat {x : UInt64} {c : Byte} (hc : c ∈ dumpFloat x) :
    isDelimiter c = false := by
  unfold dumpFloat at hc
  split at hc
  · exact bytes_not_isDelimiter (by decide) hc
  · split at hc
    · split at hc
      · exact bytes_not_isDelimiter (by decide) hc
      · exact bytes_not_isDelimiter (by decide) hc
    · rcases List.mem_append.1 hc with hc | hc
      · exact (mem_snprintfG hc).not_isDelimiter
      · split at hc
        · exact bytes_not_isDelimiter (by decide) hc
        · cases hc

/-- There is a decimal point, an exponent or a letter. -/
theorem exists_mem_dumpFloat (x : UInt64) : ∃ c ∈ dumpFloat x, c ≠ 0x2d ∧ isDigit c = false := by
  unfold dumpFloat
  split
  · exact ⟨0x6e, by decide, by decide, rfl⟩
  · split
    · split
      · exact ⟨0x2e, by decide, by decide, rfl⟩
      · exact ⟨0x2e, by decide, by decide, rfl⟩
    · dsimp only
      split
      · exact ⟨0x2e, List.mem_append_right _ (by decide), by decide, rfl⟩
      · next h =>
        rw [List.all_eq_true] at h
        push Not at h
        obtain ⟨c, hc, hne⟩ := h
        have hcases : c = 0x2e ∨ c = 0x65 := by
          by_contra hnot
          push Not at hnot
          exact hne (by simp [hnot.1, hnot.2])
        refine ⟨c, List.mem_append_left _ hc, ?_⟩
        rcases hcases with rfl | rfl
        · exact ⟨by decide, rfl⟩
        · exact ⟨by decide, rfl⟩

theorem dumpFloat_ne_dumpInteger (x : UInt64) (n : Int) : dumpFloat x ≠ dumpInteger n := by
  intro h
  obtain ⟨c, hc, hne, hdigit⟩ := exists_mem_dumpFloat x
  rw [h] at hc
  rcases mem_dumpInteger hc with rfl | hc
  · exact hne rfl
  · rw [hc] at hdigit
    cases hdigit

theorem minus_not_mem_decimal (n : ℕ) : 0x2d ∉ Foundations.decimal n := by
  intro h
  have hdigit := isDigit_of_mem_decimal h
  cases hdigit

theorem dumpInteger_injective {m n : Int} (h : dumpInteger m = dumpInteger n) : m = n := by
  unfold dumpInteger dumpUnsigned at h
  by_cases hm : m < 0
  · rw [if_pos hm] at h
    by_cases hn : n < 0
    · rw [if_pos hn, List.append_cancel_left_eq] at h
      have hnat := decimal_injective h
      omega
    · rw [if_neg hn] at h
      refine absurd ?_ (minus_not_mem_decimal n.natAbs)
      rw [List.nil_append] at h
      rw [← h]
      exact List.mem_cons_self ..
  · rw [if_neg hm] at h
    by_cases hn : n < 0
    · rw [if_pos hn] at h
      refine absurd ?_ (minus_not_mem_decimal m.natAbs)
      rw [List.nil_append] at h
      rw [h]
      exact List.mem_cons_self ..
    · rw [if_neg hn, List.append_cancel_left_eq] at h
      have hnat := decimal_injective h
      omega

theorem zero_cases {x : UInt64} (h : x.toNat % 2 ^ 63 = 0) : x = 0 ∨ x = 0x8000000000000000 := by
  have hlt := x.toNat_lt
  rw [← UInt64.toNat_inj, ← UInt64.toNat_inj, UInt64.toNat_zero,
    show (0x8000000000000000 : UInt64).toNat = 2 ^ 63 from rfl]
  omega

/-- Equal doubles that are written in the same way have the same bits: zero is written with its
sign. -/
theorem eq_of_dumpFloat_eq {x y : UInt64} (heq : Binary64.eq x y = true)
    (h : dumpFloat x = dumpFloat y) : x = y := by
  have hsign : dumpFloat 0 ≠ dumpFloat 0x8000000000000000 := by decide
  simp only [Binary64.eq, Bool.and_eq_true, Bool.or_eq_true, beq_iff_eq] at heq
  rcases heq.2 with rfl | ⟨hx, hy⟩
  · rfl
  · rcases zero_cases hx with rfl | rfl
    · rcases zero_cases hy with rfl | rfl
      · rfl
      · exact absurd h hsign
    · rcases zero_cases hy with rfl | rfl
      · exact absurd h.symm hsign
      · rfl

/-- The text of a number. -/
def IsNumberText (x : List Byte) : Prop :=
  (∃ n, x = dumpInteger n) ∨ ∃ bits, x = dumpFloat bits

theorem isNumberText_integer (n : Int) : IsNumberText (dumpInteger n) := Or.inl ⟨n, rfl⟩

theorem isNumberText_float (x : UInt64) : IsNumberText (dumpFloat x) := Or.inr ⟨x, rfl⟩

theorem IsNumberText.not_isDelimiter {x : List Byte} (h : IsNumberText x) :
    ∀ c ∈ x, isDelimiter c = false := by
  intro c hc
  rcases h with ⟨n, rfl⟩ | ⟨bits, rfl⟩
  · rcases mem_dumpInteger hc with rfl | hc
    · rfl
    · exact isDelimiter_of_isDigit hc
  · exact not_isDelimiter_of_mem_dumpFloat hc

/-! ## Containers -/

/-- Of two texts with something after them, `R` can be told. -/
def Tells (R : Prop) (x y : List Byte) : Prop :=
  ∀ w w', Delimited w → Delimited w' → x ++ w = y ++ w' → R ∧ w = w'

theorem Tells.imp {R S : Prop} {x y : List Byte} (hRS : R → S) (h : Tells R x y) :
    Tells S x y := by
  intro w w' hw hw' heq
  obtain ⟨hR, hww⟩ := h w w' hw hw' heq
  exact ⟨hRS hR, hww⟩

theorem tells_number {R : Prop} {x y : List Byte} (hx : IsNumberText x) (hy : IsNumberText y)
    (h : x = y → R) : Tells R x y := by
  intro w w' hw hw' heq
  obtain ⟨hxy, hww⟩ :=
    append_inj_of_delimited hx.not_isDelimiter hy.not_isDelimiter hw hw' heq
  exact ⟨h hxy, hww⟩

theorem tells_integer (n n' : Int) : Tells (n = n') (dumpInteger n) (dumpInteger n') :=
  tells_number (isNumberText_integer n) (isNumberText_integer n') dumpInteger_injective

theorem tells_float {x y : UInt64} (heq : Binary64.eq x y = true) :
    Tells (x = y) (dumpFloat x) (dumpFloat y) :=
  tells_number (isNumberText_float x) (isNumberText_float y) (eq_of_dumpFloat_eq heq)

theorem tells_integer_float {R : Prop} (n : Int) (x : UInt64) :
    Tells R (dumpInteger n) (dumpFloat x) :=
  tells_number (isNumberText_integer n) (isNumberText_float x)
    fun htext => absurd htext.symm (dumpFloat_ne_dumpInteger x n)

theorem tells_float_integer {R : Prop} (x : UInt64) (n : Int) :
    Tells R (dumpFloat x) (dumpInteger n) :=
  tells_number (isNumberText_float x) (isNumberText_integer n)
    fun htext => absurd htext (dumpFloat_ne_dumpInteger x n)

theorem separated_map_cons {α : Type} (f : α → List Byte) (separator : List Byte) (x x' : α)
    (xs : List α) : separated (x :: x' :: xs).length separator ((x :: x' :: xs).map f) =
      f x ++ (separator ++ separated (x' :: xs).length separator ((x' :: xs).map f)) :=
  separated_cons xs.length separator (f x) ((x' :: xs).map f)

theorem forall₂_of_mem {α β : Type} {R S : α → β → Prop} {xs : List α} {ys : List β}
    (h : List.Forall₂ R xs ys) (himp : ∀ x ∈ xs, ∀ y ∈ ys, R x y → S x y) :
    List.Forall₂ S xs ys := by
  induction h with
  | nil => exact .nil
  | cons hx _ ih =>
    refine .cons (himp _ (List.mem_cons_self ..) _ (List.mem_cons_self ..) hx) (ih ?_)
    exact fun x hx y hy => himp x (List.mem_cons_of_mem _ hx) y (List.mem_cons_of_mem _ hy)

theorem forall₂_of_length_eq {α β : Type} {R : α → β → Prop} {xs : List α} {ys : List β}
    (hlength : xs.length = ys.length) (h : ∀ x ∈ xs, ∀ y ∈ ys, R x y) : List.Forall₂ R xs ys :=
  List.forall₂_iff_get.2 ⟨hlength, fun _ hx hy => h _ (List.getElem_mem hx) _ (List.getElem_mem hy)⟩

theorem forall₂_of_separated {α β : Type} {R : α → β → Prop} {f : α → List Byte} {g : β → List Byte}
    {xs : List α} {ys : List β} (h : List.Forall₂ (fun x y => Tells (R x y) (f x) (g y)) xs ys)
    (hne : xs ≠ []) {close : Byte} (hclose : isDelimiter close = true) {w w' : List Byte}
    (heq : separated xs.length [0x2c] (xs.map f) ++ close :: w =
      separated ys.length [0x2c] (ys.map g) ++ close :: w') :
    List.Forall₂ R xs ys ∧ w = w' := by
  induction h with
  | nil => exact absurd rfl hne
  | cons hx hxs ih =>
    cases hxs with
    | nil =>
      obtain ⟨hR, hrest⟩ := hx _ _ (delimited_cons hclose w) (delimited_cons hclose w') heq
      exact ⟨.cons hR .nil, List.tail_eq_of_cons_eq hrest⟩
    | cons hx' hxs =>
      rw [separated_map_cons f, separated_map_cons g, List.append_assoc, List.append_assoc,
        List.append_assoc, List.append_assoc] at heq
      obtain ⟨hR, hrest⟩ := hx _ _ (delimited_cons rfl _) (delimited_cons rfl _) heq
      obtain ⟨hRs, hw⟩ := ih (List.cons_ne_nil _ _) (List.tail_eq_of_cons_eq hrest)
      exact ⟨.cons hR hRs, hw⟩

theorem tells_member {R : Json → Json → Prop} {e e' : Key × Json}
    (h : e.1 = e'.1 → Tells (R e.2 e'.2) (dump false 0 0 e.2) (dump false 0 0 e'.2)) :
    Tells (e.1 = e'.1 ∧ R e.2 e'.2) (dumpMember false 0 0 e) (dumpMember false 0 0 e') := by
  have hmember : ∀ (e : Key × Json) (w : List Byte), dumpMember false 0 0 e ++ w =
      0x22 :: (dumpEscaped e.1 ++ 0x22 :: 0x3a :: (dump false 0 0 e.2 ++ w)) := by
    intro e w
    simp [dumpMember, bytes]
  intro w w' hw hw' heq
  rw [hmember, hmember, List.cons.injEq] at heq
  obtain ⟨hkey, hrest⟩ := dumpEscaped_append_inj heq.2
  obtain ⟨hR, hww⟩ := h hkey w w' hw hw' (List.tail_eq_of_cons_eq hrest)
  exact ⟨⟨hkey, hR⟩, hww⟩

theorem lineStart_false (n : UInt32) : (fun text => lineStart false n ++ text) = id := rfl

theorem dump_array_compact {xs : List Json} (hne : xs ≠ []) (w : List Byte) :
    dump false 0 0 (.array xs) ++ w =
      0x5b :: (separated xs.length [0x2c] (xs.map (dump false 0 0)) ++ 0x5d :: w) := by
  rw [dump, if_neg hne, if_neg (by decide), dumpElements_eq, lineStart_false, List.map_id]
  simp [bytes]

theorem dump_object_compact {m : StringMap Json} (hsize : m.size = m.toList.length)
    (hne : m.toList ≠ []) (w : List Byte) : dump false 0 0 (.object m) ++ w =
      0x7b :: (separated m.toList.length [0x2c] (m.toList.map (dumpMember false 0 0)) ++
        0x7d :: w) := by
  have hzero : m.toList.length ≠ 0 := by rwa [Ne, List.length_eq_zero_iff]
  obtain ⟨table, items, tombstones⟩ := m
  have hitems : items = (entries table).length := hsize
  have hne' : items ≠ 0 := by rwa [hitems]
  rw [dump, if_neg hne', if_neg (by decide), dumpMembers_eq, lineStart_false, List.map_id, hitems]
  simp [bytes, toList]

theorem dump_object_nil {m : StringMap Json} (hsize : m.size = m.toList.length)
    (hnil : m.toList = []) : dump false 0 0 (.object m) = [0x7b, 0x7d] := by
  rw [hnil, List.length_nil] at hsize
  obtain ⟨table, items, tombstones⟩ := m
  have hitems : items = 0 := hsize
  rw [dump, if_pos hitems]
  rfl

end Serializer

namespace Json

open Serializer (Tells Delimited)

/-! ## Equal values -/

theorem alikeElements_iff {xs ys : List Json} :
    AlikeElements xs ys ↔ List.Forall₂ Alike xs ys := by
  constructor
  · intro h
    induction xs generalizing ys with
    | nil =>
      cases h
      exact .nil
    | cons x xs ih =>
      cases h with
      | cons h hs => exact .cons h (ih hs)
  · intro h
    induction h with
    | nil => exact .nil
    | cons h _ ih => exact .cons h ih

theorem alikeMembers_iff {es es' : List (Key × Json)} :
    AlikeMembers es es' ↔ List.Forall₂ (fun e e' => e.1 = e'.1 ∧ Alike e.2 e'.2) es es' := by
  constructor
  · intro h
    induction es generalizing es' with
    | nil =>
      cases h
      exact .nil
    | cons e es ih =>
      cases h with
      | cons h hs => exact .cons ⟨rfl, h⟩ (ih hs)
  · intro h
    induction h with
    | nil => exact .nil
    | @cons e e' _ _ h _ ih =>
      obtain ⟨key, x⟩ := e
      obtain ⟨key', y⟩ := e'
      obtain ⟨rfl, halike⟩ := h
      exact .cons halike ih

/-- Equal objects have equal values under a key. -/
theorem eq_of_mem_of_eq_object {m m' : StringMap Json} (hm : m.WF) (hm' : m'.WF)
    (h : eq (object m) (object m') = true) {e e' : Key × Json} (he : e ∈ m.toList)
    (he' : e' ∈ m'.toList) (hkey : e.1 = e'.1) : eq e.2 e'.2 = true := by
  have hforall := (eq_object hm hm').1 h
  rw [← (sortItems_perm m.toList).mem_iff] at he
  obtain ⟨i, hi, rfl⟩ := List.getElem_of_mem he
  obtain ⟨hlength, hget⟩ := List.forall₂_iff_get.1 hforall
  obtain ⟨hkey', heq⟩ := hget i hi (by omega)
  have hmem : (sortItems m'.toList)[i] ∈ m'.toList :=
    (sortItems_perm m'.toList).mem_iff.1 (List.getElem_mem _)
  have hsame : (sortItems m'.toList)[i] = e' :=
    List.inj_on_of_nodup_map hm'.table.nodup hmem he' (hkey'.symm.trans hkey)
  rw [← hsame]
  exact heq

theorem tells_object {R : Json → Json → Prop} {m m' : StringMap Json}
    (hm : m.size = m.toList.length) (hm' : m'.size = m'.toList.length)
    (hlength : m.toList.length = m'.toList.length)
    (h : ∀ e ∈ m.toList, ∀ e' ∈ m'.toList, e.1 = e'.1 →
      Tells (R e.2 e'.2) (Serializer.dump false 0 0 e.2) (Serializer.dump false 0 0 e'.2)) :
    Tells (List.Forall₂ (fun e e' => e.1 = e'.1 ∧ R e.2 e'.2) m.toList m'.toList)
      (Serializer.dump false 0 0 (object m)) (Serializer.dump false 0 0 (object m')) := by
  intro w w' hw hw' heq
  by_cases hne : m.toList = []
  · have hnil : m'.toList = [] := by
      rwa [hne, List.length_nil, eq_comm, List.length_eq_zero_iff] at hlength
    rw [Serializer.dump_object_nil hm hne, Serializer.dump_object_nil hm' hnil] at heq
    refine ⟨?_, List.append_cancel_left heq⟩
    rw [hne, hnil]
    exact .nil
  · have hne' : m'.toList ≠ [] := by
      intro hnil
      rw [hnil, List.length_nil, List.length_eq_zero_iff] at hlength
      exact hne hlength
    rw [Serializer.dump_object_compact hm hne, Serializer.dump_object_compact hm' hne'] at heq
    have hmembers : List.Forall₂ (fun e e' => Tells (e.1 = e'.1 ∧ R e.2 e'.2)
        (Serializer.dumpMember false 0 0 e) (Serializer.dumpMember false 0 0 e')) m.toList
        m'.toList :=
      Serializer.forall₂_of_length_eq hlength fun e he e' he' =>
        Serializer.tells_member (h e he e' he')
    exact Serializer.forall₂_of_separated hmembers hne rfl (List.tail_eq_of_cons_eq heq)

theorem tells_array {R : Json → Json → Prop} {xs ys : List Json} (h : List.Forall₂ (fun x y =>
      Tells (R x y) (Serializer.dump false 0 0 x) (Serializer.dump false 0 0 y)) xs ys) :
    Tells (List.Forall₂ R xs ys) (Serializer.dump false 0 0 (array xs))
      (Serializer.dump false 0 0 (array ys)) := by
  intro w w' hw hw' heq
  by_cases hne : xs = []
  · subst hne
    rw [List.forall₂_nil_left_iff] at h
    subst h
    exact ⟨.nil, List.append_cancel_left heq⟩
  · have hne' : ys ≠ [] := by
      rintro rfl
      exact hne (List.forall₂_nil_right_iff.1 h)
    rw [Serializer.dump_array_compact hne, Serializer.dump_array_compact hne'] at heq
    exact Serializer.forall₂_of_separated h hne rfl (List.tail_eq_of_cons_eq heq)

/-- Equal values are read in one way: what comes first in two texts can only be the dumps of two
equal values if these are held in the same way. -/
theorem tells_alike {a b : Json} (ha : a.All MapWF) (hb : b.All MapWF) (h : eq a b = true) :
    Tells (Alike a b) (Serializer.dump false 0 0 a) (Serializer.dump false 0 0 b) := by
  induction a using Json.induct generalizing b with
  | null =>
    cases b with
    | null => exact fun w w' _ _ heq => ⟨.null, List.append_cancel_left heq⟩
    | _ => cases h
  | object m ih =>
    cases b with
    | object m' =>
      have hm : m.WF := ha.self
      have hm' : m'.WF := hb.self
      have hlength : m.toList.length = m'.toList.length := by
        have hforall := ((eq_object hm hm').1 h).length_eq
        rwa [(sortItems_perm _).length_eq, (sortItems_perm _).length_eq] at hforall
      refine Serializer.Tells.imp (fun hs => .object (alikeMembers_iff.2 hs))
        (tells_object hm.numItems hm'.numItems hlength fun e he e' he' hkey => ?_)
      exact ih e he (((all_object m).1 ha).2 e he) (((all_object m').1 hb).2 e' he')
        (eq_of_mem_of_eq_object hm hm' h he he' hkey)
    | _ => cases h
  | array xs ih =>
    cases b with
    | array ys =>
      rw [eq_array] at h
      refine Serializer.Tells.imp (fun hs => .array (alikeElements_iff.2 hs))
        (tells_array (Serializer.forall₂_of_mem h fun x hx y hy hxy => ?_))
      exact ih x hx (((all_array xs).1 ha).2 x hx) (((all_array ys).1 hb).2 y hy) hxy
    | _ => cases h
  | string s =>
    cases b with
    | string s' =>
      have hs : s = s' := by simpa [eq] using h
      subst hs
      exact fun w w' _ _ heq => ⟨.string s, List.append_cancel_left heq⟩
    | _ => cases h
  | boolean c =>
    cases b with
    | boolean c' =>
      have hc : c = c' := by simpa [eq] using h
      subst hc
      exact fun w w' _ _ heq => ⟨.boolean c, List.append_cancel_left heq⟩
    | _ => cases h
  | numberInteger n =>
    cases b with
    | numberInteger n' =>
      rw [Serializer.dump, Serializer.dump]
      refine (Serializer.tells_integer _ _).imp fun hn => ?_
      rw [Int64.toInt_inj.1 hn]
      exact .integer n'
    | numberUnsigned n' =>
      rw [Serializer.dump, Serializer.dump, ← Serializer.dumpInteger_ofNat]
      exact (Serializer.tells_integer _ _).imp .integerUnsigned
    | numberFloat x =>
      rw [Serializer.dump, Serializer.dump]
      exact Serializer.tells_integer_float _ x
    | _ => cases h
  | numberUnsigned n =>
    cases b with
    | numberInteger n' =>
      rw [Serializer.dump, Serializer.dump, ← Serializer.dumpInteger_ofNat]
      exact (Serializer.tells_integer _ _).imp fun hn => .unsignedInteger hn.symm
    | numberUnsigned n' =>
      rw [Serializer.dump, Serializer.dump, ← Serializer.dumpInteger_ofNat,
        ← Serializer.dumpInteger_ofNat]
      refine (Serializer.tells_integer _ _).imp fun hn => ?_
      rw [UInt64.toNat_inj.1 (Int.ofNat_inj.1 hn)]
      exact .unsigned n'
    | numberFloat x =>
      rw [Serializer.dump, Serializer.dump, ← Serializer.dumpInteger_ofNat]
      exact Serializer.tells_integer_float _ x
    | _ => cases h
  | numberFloat x =>
    cases b with
    | numberInteger n =>
      rw [Serializer.dump, Serializer.dump]
      exact Serializer.tells_float_integer x _
    | numberUnsigned n =>
      rw [Serializer.dump, Serializer.dump, ← Serializer.dumpInteger_ofNat]
      exact Serializer.tells_float_integer x _
    | numberFloat x' =>
      rw [Serializer.dump, Serializer.dump]
      refine (Serializer.tells_float h).imp fun hx => ?_
      rw [hx]
      exact .float x'
    | _ => cases h
  | discarded => cases b <;> cases h

/-! ## Values that are held in the same way -/

/-- The function tells numbers apart only by what they are, and reads of a container what it reads of
the values in it, in their order. -/
structure ReadsInOrder {γ : Type} (f : Json → γ) : Prop where
  integer : ∀ {n : Int64} {n' : UInt64}, n.toInt = n'.toNat →
    f (numberInteger n) = f (numberUnsigned n')
  array : ∀ {xs ys : List Json}, xs.map f = ys.map f → f (array xs) = f (array ys)
  object : ∀ {m m' : StringMap Json}, m.size = m'.size →
    (m.toList.map fun e => (e.1, f e.2)) = (m'.toList.map fun e => (e.1, f e.2)) →
    f (object m) = f (object m')

theorem map_eq_of_forall₂ {γ : Type} {f : Json → γ} {es es' : List (Key × Json)}
    (h : List.Forall₂ (fun e e' => e.1 = e'.1 ∧ f e.2 = f e'.2) es es') :
    (es.map fun e => (e.1, f e.2)) = es'.map fun e => (e.1, f e.2) :=
  (forall₂_iff_map_eq fun _ _ _ _ => Prod.mk_inj.symm).1 h

/-- Such a function does not tell apart what is held in the same way. -/
theorem ReadsInOrder.eq_of_alike {γ : Type} {f : Json → γ} (hf : ReadsInOrder f) {a b : Json}
    (h : Alike a b) (ha : a.All Listed) (hb : b.All Listed) : f a = f b := by
  induction a using Json.induct generalizing b with
  | object m ih =>
    cases h with
    | @object _ m' hs =>
      rw [alikeMembers_iff] at hs
      refine hf.object (ha.self.1.trans (hs.length_eq.trans hb.self.1.symm)) ?_
      refine map_eq_of_forall₂ (Serializer.forall₂_of_mem hs fun e he e' he' halike => ?_)
      exact ⟨halike.1, ih e he halike.2 (((all_object m).1 ha).2 e he)
        (((all_object m').1 hb).2 e' he')⟩
  | array xs ih =>
    cases h with
    | @array _ ys hs =>
      rw [alikeElements_iff] at hs
      refine hf.array ((forall₂_iff_map_eq fun _ _ _ _ => Iff.rfl).1
        (Serializer.forall₂_of_mem hs fun x hx y hy halike => ?_))
      exact ih x hx halike (((all_array xs).1 ha).2 x hx) (((all_array ys).1 hb).2 y hy)
  | numberInteger n =>
    cases h with
    | integer => rfl
    | integerUnsigned h => exact hf.integer h
  | numberUnsigned n =>
    cases h with
    | unsigned => rfl
    | unsignedInteger h => exact (hf.integer h).symm
  | discarded => cases h
  | _ =>
    cases h
    rfl

theorem dumpMembers_congr {prettyPrint : Bool} {indentStep : UInt32}
    {es es' : List (Key × Json)}
    (h : (es.map fun e => (e.1, fun n => Serializer.dump prettyPrint indentStep n e.2)) =
      es'.map fun e => (e.1, fun n => Serializer.dump prettyPrint indentStep n e.2)) (n : UInt32) :
    es.map (Serializer.dumpMember prettyPrint indentStep n) =
      es'.map (Serializer.dumpMember prettyPrint indentStep n) := by
  rw [← forall₂_iff_map_eq fun _ _ _ _ => Iff.rfl] at h ⊢
  refine h.imp fun e e' heq => ?_
  rw [Prod.mk_inj] at heq
  rw [Serializer.dumpMember, Serializer.dumpMember, heq.1, congrFun heq.2 n]

theorem readsInOrder_dump (prettyPrint : Bool) (indentStep : UInt32) :
    ReadsInOrder fun j currentIndent => Serializer.dump prettyPrint indentStep currentIndent j where
  integer h := by
    funext n
    rw [Serializer.dump, Serializer.dump, h, Serializer.dumpInteger_ofNat]
  array {xs ys} h := by
    funext currentIndent
    have hlength : xs.length = ys.length := by
      have hmap := congrArg List.length h
      rwa [List.length_map, List.length_map] at hmap
    have hnil : xs = [] ↔ ys = [] := by
      rw [← List.length_eq_zero_iff, hlength, List.length_eq_zero_iff]
    have htexts : ∀ n, xs.map (Serializer.dump prettyPrint indentStep n) =
        ys.map (Serializer.dump prettyPrint indentStep n) := by
      intro n
      rw [← forall₂_iff_map_eq fun _ _ _ _ => Iff.rfl] at h ⊢
      exact h.imp fun _ _ heq => congrFun heq n
    rw [Serializer.dump, Serializer.dump]
    cases prettyPrint with
    | true => simp only [Serializer.dumpElements_eq, htexts, hlength, hnil, if_true]
    | false =>
      simp only [Serializer.dumpElements_eq, htexts, hlength, hnil, Bool.false_eq_true, if_false]
  object {m m'} hsize h := by
    funext currentIndent
    have htexts := dumpMembers_congr h
    obtain ⟨table, items, tombstones⟩ := m
    obtain ⟨table', items', tombstones'⟩ := m'
    have hitems : items = items' := hsize
    subst hitems
    unfold toList at htexts
    dsimp only at htexts
    rw [Serializer.dump, Serializer.dump]
    cases prettyPrint with
    | true => simp only [Serializer.dumpMembers_eq, htexts, if_true]
    | false => simp only [Serializer.dumpMembers_eq, htexts, Bool.false_eq_true, if_false]

/-! ## Hashes -/

theorem dump_compact (j : Json) : j.dump (-1) = Serializer.dump false 0 0 j := by
  rw [dump, if_neg (by decide)]

theorem hash_eq_iff (a b : Json) : (∀ h, hash h a = hash h b) ↔ a.dump (-1) = b.dump (-1) := by
  constructor
  · intro h
    have hread := h fun s => if s = a.dump (-1) then 1 else 0
    unfold hash at hread
    dsimp only at hread
    rw [if_pos rfl] at hread
    by_contra hne
    rw [if_neg (Ne.symm hne)] at hread
    cases hread
  · intro heq h
    rw [hash, hash, heq]

/-- Equal values have equal hashes, whatever the hash function for strings is, exactly when they are
held in the same way: with their members in the same order, and with the same floating-point numbers
and the same integers. -/
theorem eq_hash_iff {a b : Json} (ha : a.WF) (hb : b.WF) :
    (eq a b = true → ∀ h, hash h a = hash h b) ↔ (eq a b = true → Alike a b) := by
  refine imp_congr_right fun heq => ?_
  rw [hash_eq_iff, dump_compact, dump_compact]
  constructor
  · intro h
    have htext : Serializer.dump false 0 0 a ++ [] = Serializer.dump false 0 0 b ++ [] := by
      rw [h]
    exact (tells_alike ha.maps hb.maps heq [] [] Serializer.delimited_nil Serializer.delimited_nil
      htext).1
  · intro h
    exact congrFun ((readsInOrder_dump false 0).eq_of_alike h ha.maps.listed hb.maps.listed) 0

theorem eq_hash_iff_numbers :
    (eq (array [numberInteger 1]) (array [numberUnsigned 1]) = true →
      ∀ h, hash h (array [numberInteger 1]) = hash h (array [numberUnsigned 1])) ↔
    (eq (array [numberInteger 1]) (array [numberUnsigned 1]) = true →
      Alike (array [numberInteger 1]) (array [numberUnsigned 1])) :=
  eq_hash_iff ⟨show 1 < 2 ^ 64 by decide, trivial, trivial⟩
    ⟨show 1 < 2 ^ 64 by decide, trivial, trivial⟩

/-- Two keys for the same bucket: the one that came first is the one that is written first, but the
objects are equal. -/
theorem not_eq_hash_insertionOrder :
    ¬(eq (object (assign (assign .empty (bytes "a") null) (bytes "q") null))
        (object (assign (assign .empty (bytes "q") null) (bytes "a") null)) = true →
      ∀ h, hash h (object (assign (assign .empty (bytes "a") null) (bytes "q") null)) =
        hash h (object (assign (assign .empty (bytes "q") null) (bytes "a") null))) := by
  intro h
  have htext := (hash_eq_iff _ _).1 (h (by decide))
  exact absurd htext (by decide)

end Json

end Wpi

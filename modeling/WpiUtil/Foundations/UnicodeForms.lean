import WpiUtil.Foundations.TextCode
import WpiUtil.Foundations.Utf8

/-!
# The encoding forms of Unicode

UTF-8, UTF-16 and UTF-32 as codes for texts.
-/

namespace Foundations.UnicodeForms

theorem toNat_lt (c : Char) : c.toNat < 0x110000 := by
  have hscalar := Utf8.isScalar_toNat c
  unfold Utf8.IsScalar at hscalar
  omega

/-- A character is no surrogate. -/
theorem not_surrogate (c : Char) : c.toNat < 0xd800 ∨ 0xdfff < c.toNat := by
  have hscalar := Utf8.isScalar_toNat c
  unfold Utf8.IsScalar at hscalar
  omega

theorem char_eq {c d : Char} (h : c.toNat = d.toNat) : c = d :=
  Char.toNat_inj.1 h

def utf8 : TextCode UInt8 where
  word := String.utf8EncodeChar
  word_ne_nil c h := by
    have hlength := String.length_utf8EncodeChar c
    rw [h] at hlength
    exact absurd hlength (Nat.ne_of_lt c.utf8Size_pos)
  eq_of_append_eq := by
    intro c d s t h
    have hc := ByteArray.utf8DecodeChar?_utf8EncodeChar_append (b := s.toByteArray) (c := c)
    have hd := ByteArray.utf8DecodeChar?_utf8EncodeChar_append (b := t.toByteArray) (c := d)
    rw [← List.toByteArray_append, h, List.toByteArray_append, hd] at hc
    exact (Option.some.inj hc).symm

/-- The first and the second unit for a number beyond the basic plane. -/
def highSurrogate (n : ℕ) : UInt16 := UInt16.ofNat ((n - 0x10000) / 0x400 + 0xd800)
def lowSurrogate (n : ℕ) : UInt16 := UInt16.ofNat ((n - 0x10000) % 0x400 + 0xdc00)

def utf16Word (c : Char) : List UInt16 :=
  if c.toNat < 0x10000 then [UInt16.ofNat c.toNat]
  else [highSurrogate c.toNat, lowSurrogate c.toNat]

theorem utf16Word_of_lt {c : Char} (h : c.toNat < 0x10000) : utf16Word c = [UInt16.ofNat c.toNat] :=
  if_pos h

theorem utf16Word_of_le {c : Char} (h : 0x10000 ≤ c.toNat) :
    utf16Word c = [highSurrogate c.toNat, lowSurrogate c.toNat] :=
  if_neg (Nat.not_lt.2 h)

theorem toNat_highSurrogate {n : ℕ} (h : n < 0x110000) :
    (highSurrogate n).toNat = (n - 0x10000) / 0x400 + 0xd800 := by
  rw [highSurrogate, UInt16.toNat_ofNat']
  omega

theorem toNat_lowSurrogate (n : ℕ) : (lowSurrogate n).toNat = (n - 0x10000) % 0x400 + 0xdc00 := by
  rw [lowSurrogate, UInt16.toNat_ofNat']
  omega

theorem toNat_ofNat_of_lt {n : ℕ} (h : n < 0x10000) : (UInt16.ofNat n).toNat = n := by
  rw [UInt16.toNat_ofNat']
  omega

/-- The first unit of a word, and the second one where there are two. -/
theorem toNat_head_utf16Word {c : Char} {u : UInt16} {s t : List UInt16}
    (h : utf16Word c ++ s = u :: t) :
    c.toNat < 0x10000 ∧ u.toNat = c.toNat ∨
      0x10000 ≤ c.toNat ∧ u.toNat = (c.toNat - 0x10000) / 0x400 + 0xd800 ∧
        t = lowSurrogate c.toNat :: s := by
  by_cases hlt : c.toNat < 0x10000
  · rw [utf16Word_of_lt hlt, List.singleton_append, List.cons.injEq] at h
    rw [← h.1, toNat_ofNat_of_lt hlt]
    exact Or.inl ⟨hlt, rfl⟩
  · rw [utf16Word_of_le (Nat.not_lt.1 hlt), List.cons_append, List.singleton_append,
      List.cons.injEq] at h
    rw [← h.1, toNat_highSurrogate (toNat_lt c)]
    exact Or.inr ⟨Nat.not_lt.1 hlt, rfl, h.2.symm⟩

def utf16 : TextCode UInt16 where
  word := utf16Word
  word_ne_nil c := by
    unfold utf16Word
    split_ifs
    · exact List.cons_ne_nil _ _
    · exact List.cons_ne_nil _ _
  eq_of_append_eq := by
    intro c d s t h
    have hc := toNat_lt c
    have hd := toNat_lt d
    have hc' := not_surrogate c
    have hd' := not_surrogate d
    obtain ⟨u, v, hcons⟩ : ∃ u v, utf16Word d ++ t = u :: v := by
      refine List.exists_cons_of_ne_nil ?_
      unfold utf16Word
      split_ifs
      · exact List.cons_ne_nil _ _
      · exact List.cons_ne_nil _ _
    rw [hcons] at h
    apply char_eq
    obtain ⟨hlt, hu⟩ | ⟨hle, hu, hlow⟩ := toNat_head_utf16Word h
    · obtain ⟨hlt', hu'⟩ | ⟨hle', hu', -⟩ := toNat_head_utf16Word hcons
      · rw [← hu, hu']
      · omega
    · obtain ⟨hlt', hu'⟩ | ⟨hle', hu', hlow'⟩ := toNat_head_utf16Word hcons
      · omega
      · rw [hlow', List.cons.injEq] at hlow
        have heq := congrArg UInt16.toNat hlow.1
        rw [toNat_lowSurrogate, toNat_lowSurrogate] at heq
        omega

def utf32 : TextCode UInt32 where
  word c := [c.val]
  word_ne_nil c := List.cons_ne_nil _ _
  eq_of_append_eq := by
    intro c d s t h
    rw [List.cons_append, List.cons_append, List.cons.injEq] at h
    exact Char.ext h.1

end Foundations.UnicodeForms

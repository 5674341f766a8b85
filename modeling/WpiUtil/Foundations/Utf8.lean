import Mathlib.Data.List.Forall2
import Mathlib.Tactic.Common

/-!
# Well-formed UTF-8

Which bytes may follow a lead byte, and that the sequences this allows are the encodings of the
Unicode scalar values beyond ASCII.
-/

namespace Foundations.Utf8

/-- The encoding of a text. -/
def encode (cs : List Char) : List UInt8 := cs.flatMap String.utf8EncodeChar

/-- The bytes are the encoding of a text. -/
def IsUtf8 (s : List UInt8) : Prop := ∃ cs, encode cs = s

/-- The ranges of the bytes that complete a sequence, for the lead bytes beyond ASCII. -/
def trailing (lead : UInt8) : Option (List (ℕ × ℕ)) :=
  let b := lead.toNat
  if 0xc2 ≤ b ∧ b ≤ 0xdf then some [(0x80, 0xbf)]
  else if b = 0xe0 then some [(0xa0, 0xbf), (0x80, 0xbf)]
  else if 0xe1 ≤ b ∧ b ≤ 0xec ∨ 0xee ≤ b ∧ b ≤ 0xef then some [(0x80, 0xbf), (0x80, 0xbf)]
  else if b = 0xed then some [(0x80, 0x9f), (0x80, 0xbf)]
  else if b = 0xf0 then some [(0x90, 0xbf), (0x80, 0xbf), (0x80, 0xbf)]
  else if 0xf1 ≤ b ∧ b ≤ 0xf3 then some [(0x80, 0xbf), (0x80, 0xbf), (0x80, 0xbf)]
  else if b = 0xf4 then some [(0x80, 0x8f), (0x80, 0xbf), (0x80, 0xbf)]
  else none

def InRange (b : UInt8) (range : ℕ × ℕ) : Prop := range.1 ≤ b.toNat ∧ b.toNat ≤ range.2

/-- The bytes of the number `n`, for `n` up to `0x10ffff`. -/
def encodeNat (n : ℕ) : List UInt8 :=
  if n ≤ 0x7f then [UInt8.ofNat n]
  else if n ≤ 0x7ff then [UInt8.ofNat (n / 64 % 0x20 + 0xc0), UInt8.ofNat (n % 0x40 + 0x80)]
  else if n ≤ 0xffff then
    [UInt8.ofNat (n / 4096 % 0x10 + 0xe0), UInt8.ofNat (n / 64 % 0x40 + 0x80),
      UInt8.ofNat (n % 0x40 + 0x80)]
  else
    [UInt8.ofNat (n / 262144 % 0x08 + 0xf0), UInt8.ofNat (n / 4096 % 0x40 + 0x80),
      UInt8.ofNat (n / 64 % 0x40 + 0x80), UInt8.ofNat (n % 0x40 + 0x80)]

theorem utf8EncodeChar_eq (c : Char) : String.utf8EncodeChar c = encodeNat c.toNat := rfl

/-- A number that is not a surrogate. -/
def IsScalar (n : ℕ) : Prop := n < 0xd800 ∨ 0xdfff < n ∧ n < 0x110000

theorem isScalar_toNat (c : Char) : IsScalar c.toNat :=
  c.valid

theorem toNat_ofNat {n : ℕ} (h : IsScalar n) :
    (Char.ofNat n).toNat = n := by
  have hchar : n.isValidChar := h
  rw [Char.ofNat, dif_pos hchar]
  rfl

theorem utf8EncodeChar_ofNat {n : ℕ} (h : IsScalar n) :
    String.utf8EncodeChar (Char.ofNat n) = encodeNat n := by
  rw [utf8EncodeChar_eq, toNat_ofNat h]

theorem inRange_ofNat {m lo hi : ℕ} (hlo : lo ≤ m) (hhi : m ≤ hi) (h : hi < 256) :
    InRange (UInt8.ofNat m) (lo, hi) := by
  unfold InRange
  rw [UInt8.toNat_ofNat']
  omega

/-- The encoding of a number beyond ASCII is a lead byte and what may follow it. -/
theorem exists_trailing {n : ℕ} (hn : 0x80 ≤ n)
    (hvalid : IsScalar n) :
    ∃ lead bs ranges, encodeNat n = lead :: bs ∧ trailing lead = some ranges ∧
      List.Forall₂ InRange bs ranges := by
  unfold IsScalar at hvalid
  unfold encodeNat
  rw [if_neg (by omega)]
  by_cases h2 : n ≤ 0x7ff
  · rw [if_pos h2]
    refine ⟨_, _, [(0x80, 0xbf)], rfl, ?_, ?_⟩
    · simp (disch := omega) only [trailing, UInt8.toNat_ofNat', if_pos]
    · refine .cons ?_ .nil
      · exact inRange_ofNat (by omega) (by omega) (by omega)
  · rw [if_neg h2]
    by_cases h3 : n ≤ 0xffff
    · rw [if_pos h3]
      by_cases he0 : n < 0x1000
      · refine ⟨_, _, [(0xa0, 0xbf), (0x80, 0xbf)], rfl, ?_, ?_⟩
        · simp (disch := omega) only [trailing, UInt8.toNat_ofNat', if_pos, if_neg]
        · refine .cons ?_ (.cons ?_ .nil)
          · exact inRange_ofNat (by omega) (by omega) (by omega)
          · exact inRange_ofNat (by omega) (by omega) (by omega)
      · by_cases hed : 0xd000 ≤ n ∧ n < 0xe000
        · refine ⟨_, _, [(0x80, 0x9f), (0x80, 0xbf)], rfl, ?_, ?_⟩
          · simp (disch := omega) only [trailing, UInt8.toNat_ofNat', if_pos, if_neg]
          · refine .cons ?_ (.cons ?_ .nil)
            · exact inRange_ofNat (by omega) (by omega) (by omega)
            · exact inRange_ofNat (by omega) (by omega) (by omega)
        · refine ⟨_, _, [(0x80, 0xbf), (0x80, 0xbf)], rfl, ?_, ?_⟩
          · simp (disch := omega) only [trailing, UInt8.toNat_ofNat', if_pos, if_neg]
          · refine .cons ?_ (.cons ?_ .nil)
            · exact inRange_ofNat (by omega) (by omega) (by omega)
            · exact inRange_ofNat (by omega) (by omega) (by omega)
    · rw [if_neg h3]
      by_cases hf0 : n < 0x40000
      · refine ⟨_, _, [(0x90, 0xbf), (0x80, 0xbf), (0x80, 0xbf)], rfl, ?_, ?_⟩
        · simp (disch := omega) only [trailing, UInt8.toNat_ofNat', if_pos, if_neg]
        · refine .cons ?_ (.cons ?_ (.cons ?_ .nil))
          · exact inRange_ofNat (by omega) (by omega) (by omega)
          · exact inRange_ofNat (by omega) (by omega) (by omega)
          · exact inRange_ofNat (by omega) (by omega) (by omega)
      · by_cases hf4 : n < 0x100000
        · refine ⟨_, _, [(0x80, 0xbf), (0x80, 0xbf), (0x80, 0xbf)], rfl, ?_, ?_⟩
          · simp (disch := omega) only [trailing, UInt8.toNat_ofNat', if_pos, if_neg]
          · refine .cons ?_ (.cons ?_ (.cons ?_ .nil))
            · exact inRange_ofNat (by omega) (by omega) (by omega)
            · exact inRange_ofNat (by omega) (by omega) (by omega)
            · exact inRange_ofNat (by omega) (by omega) (by omega)
        · refine ⟨_, _, [(0x80, 0x8f), (0x80, 0xbf), (0x80, 0xbf)], rfl, ?_, ?_⟩
          · simp (disch := omega) only [trailing, UInt8.toNat_ofNat', if_pos, if_neg]
          · refine .cons ?_ (.cons ?_ (.cons ?_ .nil))
            · exact inRange_ofNat (by omega) (by omega) (by omega)
            · exact inRange_ofNat (by omega) (by omega) (by omega)
            · exact inRange_ofNat (by omega) (by omega) (by omega)

theorem encodeNat_of_lt {n : ℕ} (h : n < 0x80) : encodeNat n = [UInt8.ofNat n] := by
  rw [encodeNat, if_pos (by omega)]

/-- There is no ASCII byte in the encoding of a number beyond ASCII. -/
theorem le_of_mem_encodeNat {n : ℕ} (hn : 0x80 ≤ n) {b : UInt8} (hb : b ∈ encodeNat n) :
    0x80 ≤ b.toNat := by
  have hle : ∀ m : ℕ, 0x80 ≤ m % 256 → 0x80 ≤ (UInt8.ofNat m).toNat := by
    intro m hm
    rwa [UInt8.toNat_ofNat']
  rw [encodeNat, if_neg (by omega)] at hb
  split_ifs at hb
  all_goals
    simp only [List.mem_cons, List.not_mem_nil, or_false] at hb
  · rcases hb with rfl | rfl
    · exact hle _ (by omega)
    · exact hle _ (by omega)
  · rcases hb with rfl | rfl | rfl
    · exact hle _ (by omega)
    · exact hle _ (by omega)
    · exact hle _ (by omega)
  · rcases hb with rfl | rfl | rfl | rfl
    · exact hle _ (by omega)
    · exact hle _ (by omega)
    · exact hle _ (by omega)
    · exact hle _ (by omega)

theorem encodeNat_two {a b : ℕ} (ha : 2 ≤ a) (ha' : a < 0x20) (hb : b < 0x40) :
    encodeNat (a * 64 + b) = [UInt8.ofNat (a + 0xc0), UInt8.ofNat (b + 0x80)] := by
  unfold encodeNat
  rw [if_neg (by omega), if_pos (by omega)]
  rw [show (a * 64 + b) / 64 % 0x20 = a by omega, show (a * 64 + b) % 0x40 = b by omega]

theorem encodeNat_three {a b c : ℕ} (ha : 0x20 ≤ a * 64 + b) (ha' : a < 0x10) (hb : b < 0x40)
    (hc : c < 0x40) : encodeNat ((a * 64 + b) * 64 + c) =
      [UInt8.ofNat (a + 0xe0), UInt8.ofNat (b + 0x80), UInt8.ofNat (c + 0x80)] := by
  unfold encodeNat
  rw [if_neg (by omega), if_neg (by omega), if_pos (by omega)]
  rw [show ((a * 64 + b) * 64 + c) / 4096 % 0x10 = a by omega,
    show ((a * 64 + b) * 64 + c) / 64 % 0x40 = b by omega,
    show ((a * 64 + b) * 64 + c) % 0x40 = c by omega]

theorem encodeNat_four {a b c d : ℕ} (ha : 0x10 ≤ a * 64 + b) (ha' : a < 8) (hb : b < 0x40)
    (hc : c < 0x40) (hd : d < 0x40) : encodeNat (((a * 64 + b) * 64 + c) * 64 + d) =
      [UInt8.ofNat (a + 0xf0), UInt8.ofNat (b + 0x80), UInt8.ofNat (c + 0x80),
        UInt8.ofNat (d + 0x80)] := by
  unfold encodeNat
  rw [if_neg (by omega), if_neg (by omega), if_neg (by omega)]
  rw [show (((a * 64 + b) * 64 + c) * 64 + d) / 262144 % 0x08 = a by omega,
    show (((a * 64 + b) * 64 + c) * 64 + d) / 4096 % 0x40 = b by omega,
    show (((a * 64 + b) * 64 + c) * 64 + d) / 64 % 0x40 = c by omega,
    show (((a * 64 + b) * 64 + c) * 64 + d) % 0x40 = d by omega]

theorem ofNat_sub_add {b : UInt8} {k : ℕ} (h : k ≤ b.toNat) : UInt8.ofNat (b.toNat - k + k) = b := by
  rw [Nat.sub_add_cancel h, UInt8.ofNat_toNat]

theorem exists_two {lead b : UInt8} (hlead : 0xc2 ≤ lead.toNat) (hlead' : lead.toNat ≤ 0xdf)
    (hb : InRange b (0x80, 0xbf)) : ∃ n, 0x80 ≤ n ∧ IsScalar n ∧ encodeNat n = [lead, b] := by
  unfold InRange at hb
  refine ⟨(lead.toNat - 0xc0) * 64 + (b.toNat - 0x80), by omega, Or.inl (by omega), ?_⟩
  rw [encodeNat_two (by omega) (by omega) (by omega), ofNat_sub_add (by omega), ofNat_sub_add hb.1]

theorem exists_three {lead b c : UInt8} (hlead : 0xe0 ≤ lead.toNat) (hlead' : lead.toNat ≤ 0xef)
    (hb : InRange b (0x80, 0xbf)) (hc : InRange c (0x80, 0xbf))
    (hlow : lead.toNat = 0xe0 → 0xa0 ≤ b.toNat) (hsurrogate : lead.toNat = 0xed → b.toNat ≤ 0x9f) :
    ∃ n, 0x80 ≤ n ∧ IsScalar n ∧ encodeNat n = [lead, b, c] := by
  unfold InRange at hb hc
  refine ⟨((lead.toNat - 0xe0) * 64 + (b.toNat - 0x80)) * 64 + (c.toNat - 0x80), by omega, ?_, ?_⟩
  · unfold IsScalar
    omega
  · rw [encodeNat_three (by omega) (by omega) (by omega) (by omega), ofNat_sub_add hlead,
      ofNat_sub_add hb.1, ofNat_sub_add hc.1]

theorem exists_four {lead b c d : UInt8} (hlead : 0xf0 ≤ lead.toNat) (hlead' : lead.toNat ≤ 0xf4)
    (hb : InRange b (0x80, 0xbf)) (hc : InRange c (0x80, 0xbf)) (hd : InRange d (0x80, 0xbf))
    (hlow : lead.toNat = 0xf0 → 0x90 ≤ b.toNat) (hhigh : lead.toNat = 0xf4 → b.toNat ≤ 0x8f) :
    ∃ n, 0x80 ≤ n ∧ IsScalar n ∧ encodeNat n = [lead, b, c, d] := by
  unfold InRange at hb hc hd
  refine ⟨(((lead.toNat - 0xf0) * 64 + (b.toNat - 0x80)) * 64 + (c.toNat - 0x80)) * 64 +
    (d.toNat - 0x80), by omega, ?_, ?_⟩
  · unfold IsScalar
    omega
  · rw [encodeNat_four (by omega) (by omega) (by omega) (by omega) (by omega),
      ofNat_sub_add hlead, ofNat_sub_add hb.1, ofNat_sub_add hc.1, ofNat_sub_add hd.1]

theorem forall₂_one {bs : List UInt8} {r : ℕ × ℕ} (h : List.Forall₂ InRange bs [r]) :
    ∃ b, bs = [b] ∧ InRange b r := by
  obtain ⟨b, bs, hb, hbs, rfl⟩ := List.forall₂_cons_right_iff.1 h
  rw [List.forall₂_nil_right_iff.1 hbs]
  exact ⟨b, rfl, hb⟩

theorem forall₂_two {bs : List UInt8} {r r' : ℕ × ℕ} (h : List.Forall₂ InRange bs [r, r']) :
    ∃ b c, bs = [b, c] ∧ InRange b r ∧ InRange c r' := by
  obtain ⟨b, bs, hb, hbs, rfl⟩ := List.forall₂_cons_right_iff.1 h
  obtain ⟨c, rfl, hc⟩ := forall₂_one hbs
  exact ⟨b, c, rfl, hb, hc⟩

theorem forall₂_three {bs : List UInt8} {r r' r'' : ℕ × ℕ}
    (h : List.Forall₂ InRange bs [r, r', r'']) :
    ∃ b c d, bs = [b, c, d] ∧ InRange b r ∧ InRange c r' ∧ InRange d r'' := by
  obtain ⟨b, bs, hb, hbs, rfl⟩ := List.forall₂_cons_right_iff.1 h
  obtain ⟨c, d, rfl, hc, hd⟩ := forall₂_two hbs
  exact ⟨b, c, d, rfl, hb, hc, hd⟩

theorem InRange.mono {b : UInt8} {lo hi lo' hi' : ℕ} (h : InRange b (lo, hi)) (hlo : lo' ≤ lo)
    (hhi : hi ≤ hi') : InRange b (lo', hi') :=
  ⟨Nat.le_trans hlo h.1, Nat.le_trans h.2 hhi⟩

/-- A lead byte with what may follow it is the encoding of a number. -/
theorem exists_encodeNat {lead : UInt8} {bs : List UInt8} {ranges : List (ℕ × ℕ)}
    (hlead : trailing lead = some ranges) (h : List.Forall₂ InRange bs ranges) :
    ∃ n, 0x80 ≤ n ∧ IsScalar n ∧ encodeNat n = lead :: bs := by
  unfold trailing at hlead
  simp only at hlead
  split at hlead
  · next hc =>
    cases hlead
    obtain ⟨b, rfl, hb⟩ := forall₂_one h
    exact exists_two hc.1 hc.2 hb
  · split at hlead
    · next he =>
      cases hlead
      obtain ⟨b, c, rfl, hb, hc⟩ := forall₂_two h
      exact exists_three (by omega) (by omega) (hb.mono (by omega) (by omega)) hc (fun _ => hb.1)
        (by omega)
    · split at hlead
      · next he =>
        cases hlead
        obtain ⟨b, c, rfl, hb, hc⟩ := forall₂_two h
        exact exists_three (by omega) (by omega) hb hc (by omega) (by omega)
      · split at hlead
        · next he =>
          cases hlead
          obtain ⟨b, c, rfl, hb, hc⟩ := forall₂_two h
          exact exists_three (by omega) (by omega) (hb.mono (by omega) (by omega)) hc (by omega)
            (fun _ => hb.2)
        · split at hlead
          · next hf =>
            cases hlead
            obtain ⟨b, c, d, rfl, hb, hc, hd⟩ := forall₂_three h
            exact exists_four (by omega) (by omega) (hb.mono (by omega) (by omega)) hc hd
              (fun _ => hb.1) (by omega)
          · split at hlead
            · next hf =>
              cases hlead
              obtain ⟨b, c, d, rfl, hb, hc, hd⟩ := forall₂_three h
              exact exists_four (by omega) (by omega) hb hc hd (by omega) (by omega)
            · split at hlead
              · next hf =>
                cases hlead
                obtain ⟨b, c, d, rfl, hb, hc, hd⟩ := forall₂_three h
                exact exists_four (by omega) (by omega) (hb.mono (by omega) (by omega)) hc hd
                  (by omega) (fun _ => hb.2)
              · cases hlead

end Foundations.Utf8

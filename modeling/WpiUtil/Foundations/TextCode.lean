import Mathlib.Data.List.Infix
import Mathlib.Tactic.Common

/-!
# Codes for texts

A code has a word for each character, and no word is the beginning of another one. A sequence of
units is then the encoding of one text at most, and its words can be taken off one by one.
-/

namespace Foundations

/-- A prefix code for characters. -/
structure TextCode (α : Type) where
  word : Char → List α
  word_ne_nil : ∀ c, word c ≠ []
  /-- The units tell which word they begin with. -/
  eq_of_append_eq : ∀ {c d : Char} {s t : List α}, word c ++ s = word d ++ t → c = d

namespace TextCode

variable {α : Type} (k : TextCode α)

/-- The units of a text. -/
def encode (cs : List Char) : List α := cs.flatMap k.word

@[simp]
theorem encode_nil : k.encode [] = [] := rfl

@[simp]
theorem encode_cons (c : Char) (cs : List Char) : k.encode (c :: cs) = k.word c ++ k.encode cs :=
  List.flatMap_cons

theorem length_word_pos (c : Char) : 0 < (k.word c).length :=
  List.length_pos_iff.2 (k.word_ne_nil c)

variable {k}

theorem word_append_inj {c d : Char} {s t : List α} (h : k.word c ++ s = k.word d ++ t) :
    c = d ∧ s = t := by
  have hcd := k.eq_of_append_eq h
  subst hcd
  exact ⟨rfl, List.append_cancel_left h⟩

theorem encode_injective {cs ds : List Char} (h : k.encode cs = k.encode ds) : cs = ds := by
  induction cs generalizing ds with
  | nil =>
    cases ds with
    | nil => rfl
    | cons d ds =>
      rw [encode_nil, encode_cons, List.nil_eq, List.append_eq_nil_iff] at h
      exact absurd h.1 (k.word_ne_nil d)
  | cons c cs ih =>
    cases ds with
    | nil =>
      rw [encode_nil, encode_cons, List.append_eq_nil_iff] at h
      exact absurd h.1 (k.word_ne_nil c)
    | cons d ds =>
      rw [encode_cons, encode_cons] at h
      obtain ⟨hcd, hrest⟩ := word_append_inj h
      rw [hcd, ih hrest]

theorem eq_nil_of_nil_eq_encode {cs : List Char} (h : [] = k.encode cs) : cs = [] :=
  encode_injective h.symm

/-- A code whose words are no longer, up to a factor, has no longer encodings. -/
theorem length_encode_le {β : Type} {j : TextCode β} {m : ℕ}
    (h : ∀ c, (j.word c).length ≤ m * (k.word c).length) (cs : List Char) :
    (j.encode cs).length ≤ m * (k.encode cs).length := by
  induction cs with
  | nil => exact Nat.zero_le _
  | cons c cs ih =>
    have hc := h c
    rw [encode_cons, encode_cons, List.length_append, List.length_append, Nat.mul_add]
    omega

end TextCode

end Foundations

import WpiUtil.Foundations.TextCode

/-!
# Reading with a replacement character

Where no word of a code is, the longest beginning of one is read as the replacement character, or a
single unit where not even a word begins.
-/

namespace Foundations.TextCode

variable {α : Type} (k : TextCode α)

/-- The units are the beginning of a word. -/
def IsInitial (p : List α) : Prop := ∃ c q, k.word c = p ++ q

/-- So many units are read as one replacement character. -/
structure IsMaximalSubpart (s : List α) (n : ℕ) : Prop where
  pos : 0 < n
  le : n ≤ s.length
  initial : n = 1 ∨ k.IsInitial (s.take n)
  longest : ∀ m, n < m → m ≤ s.length → ¬k.IsInitial (s.take m)

/-- There is no word here. -/
def NoWord (s : List α) : Prop := ∀ c t, s ≠ k.word c ++ t

/-- The text that is read from the units, with replacements. -/
inductive Reads (replacement : Char) : List α → List Char → Prop
  | nil : Reads replacement [] []
  | word {s : List α} {cs : List Char} (c : Char) (h : Reads replacement s cs) :
      Reads replacement (k.word c ++ s) (c :: cs)
  | replace {s : List α} {cs : List Char} {n : ℕ} (hword : k.NoWord s)
      (hn : k.IsMaximalSubpart s n) (h : Reads replacement (s.drop n) cs) :
      Reads replacement s (replacement :: cs)

variable {k} {s : List α} {n m : ℕ} {r : Char} {cs ds : List Char}

theorem IsInitial.of_append {p q : List α} (h : k.IsInitial (p ++ q)) : k.IsInitial p := by
  obtain ⟨c, t, ht⟩ := h
  exact ⟨c, q ++ t, by rw [ht, List.append_assoc]⟩

theorem IsInitial.take_of_le (h : k.IsInitial (s.take m)) (hle : n ≤ m) :
    k.IsInitial (s.take n) := by
  have htake : (s.take m).take n = s.take n := by
    rw [List.take_take, Nat.min_eq_left hle]
  rw [← List.take_append_drop n (s.take m), htake] at h
  exact h.of_append

/-- It is enough to look at one more unit. -/
theorem isMaximalSubpart_of_succ (hpos : 0 < n) (hle : n ≤ s.length)
    (hinitial : n = 1 ∨ k.IsInitial (s.take n))
    (hsucc : n < s.length → ¬k.IsInitial (s.take (n + 1))) : k.IsMaximalSubpart s n := by
  refine ⟨hpos, hle, hinitial, fun m hlt hm h => ?_⟩
  exact hsucc (Nat.lt_of_lt_of_le hlt hm) (h.take_of_le hlt)

theorem IsMaximalSubpart.not_lt (hn : k.IsMaximalSubpart s n) (hm : k.IsMaximalSubpart s m) :
    ¬n < m := by
  intro hlt
  obtain rfl | hinitial := hm.initial
  · have hpos := hn.pos
    omega
  · exact hn.longest m hlt hm.le hinitial

theorem IsMaximalSubpart.unique (hn : k.IsMaximalSubpart s n) (hm : k.IsMaximalSubpart s m) :
    n = m :=
  Nat.le_antisymm (Nat.not_lt.1 (hm.not_lt hn)) (Nat.not_lt.1 (hn.not_lt hm))

/-- One text is read. -/
theorem Reads.unique (h : k.Reads r s cs) (h' : k.Reads r s ds) : cs = ds := by
  induction h generalizing ds with
  | nil =>
    generalize hs : ([] : List α) = s at h'
    cases h' with
    | nil => rfl
    | word c h' => exact absurd (List.append_eq_nil_iff.1 hs.symm).1 (k.word_ne_nil c)
    | replace _ hn _ =>
      subst hs
      have hle := hn.le
      exact absurd hle (Nat.not_le.2 hn.pos)
  | @word s cs c h ih =>
    generalize hs : k.word c ++ s = t at h'
    cases h' with
    | nil => exact absurd (List.append_eq_nil_iff.1 hs).1 (k.word_ne_nil c)
    | word d h' =>
      obtain ⟨rfl, rfl⟩ := word_append_inj hs
      rw [ih h']
    | replace hword _ _ => exact absurd hs.symm (hword c s)
  | replace hword hn h ih =>
    cases h' with
    | nil => exact absurd hn.le (Nat.not_le.2 hn.pos)
    | word d h' => exact absurd rfl (hword d _)
    | replace _ hm h' =>
      rw [hn.unique hm] at ih
      rw [ih h']

end Foundations.TextCode

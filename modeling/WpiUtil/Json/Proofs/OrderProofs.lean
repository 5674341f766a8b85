import WpiUtil.Json.Proofs.ComparisonProofs

/-!
# What `operator<` compares
-/

namespace Wpi

open Foundations.Codeword
open StringMap

namespace Json

/-! ## Keys -/

theorem decided_keyWord (a b : Key) : Decided (keyWord a) (keyWord b) :=
  decided_seq fun _ _ _ _ => decided_singleton _ _

theorem keyLess_iff (a b : Key) : keyLess a b = true ↔ Before (keyWord a) (keyWord b) := by
  unfold keyWord
  induction a generalizing b with
  | nil =>
    cases b with
    | nil => simp [keyLess, not_before_self]
    | cons y b => simp [keyLess, before_nil_seq]
  | cons x a ih =>
    cases b with
    | nil => simp [keyLess, before_seq_nil]
    | cons y b =>
      have hdecided : Decided [(x.toNat : Int)] [(y.toNat : Int)] := decided_singleton _ _
      rw [before_seq_cons (f := fun c : Byte => [(c.toNat : Int)]) hdecided, ← ih, keyLess]
      have hsingle : Before [(x.toNat : Int)] [(y.toNat : Int)] ↔ x < y := by
        rw [Before, List.lex_singleton_iff, UInt8.lt_iff_toNat_lt]
        omega
      have heq : [(x.toNat : Int)] = [(y.toNat : Int)] ↔ x = y := by
        rw [List.cons.injEq, ← UInt8.toNat_inj]
        simp
      rw [hsingle, heq]
      by_cases h : x = y
      · rw [if_pos h, h]
        simp
      · rw [if_neg h]
        simp [h]

theorem keysLess_iff (keys keys' : List Key) :
    keysLess keys keys' = true ↔ Before (seq keyWord keys) (seq keyWord keys') := by
  induction keys generalizing keys' with
  | nil =>
    cases keys' with
    | nil => simp [keysLess, not_before_self]
    | cons key' keys' => simp [keysLess, before_nil_seq]
  | cons key keys ih =>
    cases keys' with
    | nil => simp [keysLess, before_seq_nil]
    | cons key' keys' =>
      rw [keysLess]
      exact before_seq_cons_of_tests (decided_keyWord key key') (keyLess_iff key key')
        (keyLess_iff key' key) fun _ => ih keys'

/-! ## Words -/

variable {rank : Int64 → Int} {signed : Int64 → Prop} {unsigned : UInt64 → Prop} {a b c : Json}

theorem words_eq (xs : List Json) : words rank xs = seq (word rank) xs := by
  induction xs with
  | nil => rfl
  | cons x xs ih => rw [words, ih, seq]

theorem word_array (xs : List Json) : (array xs).word rank = 4 :: seq (word rank) xs := by
  rw [word, words_eq]

/-- The kind of a value comes first in its word. -/
theorem Integral.exists_word (ha : a.Integral) : ∃ s, a.word rank = (a.order : Int) :: s := by
  cases a with
  | numberFloat bits => cases ha.noFloat.self
  | discarded => cases ha.noDiscarded.self
  | _ => exact ⟨_, rfl⟩

theorem lt_eq_typeLess (h : a.order ≠ b.order) : lt a b = typeLess a b := by
  unfold lt
  split <;> first | rfl | exact absurd rfl h

/-- Values of different kinds are compared by their kinds. -/
theorem Integral.of_order_ne (ha : a.Integral) (hb : b.Integral) (h : a.order ≠ b.order) :
    Decided (a.word rank) (b.word rank) ∧ (lt a b = true ↔ Before (a.word rank) (b.word rank)) := by
  obtain ⟨s, hs⟩ : ∃ s, a.word rank = (a.order : Int) :: s := ha.exists_word
  obtain ⟨t, ht⟩ : ∃ t, b.word rank = (b.order : Int) :: t := hb.exists_word
  have hne : (a.order : Int) ≠ b.order := by exact_mod_cast h
  have hnot : a.isDiscarded = false := ha.noDiscarded.self
  have hnot' : b.isDiscarded = false := hb.noDiscarded.self
  rw [hs, ht, lt_eq_typeLess h, typeLess, hnot, hnot', before_cons_cons]
  exact ⟨Or.inr (differ_cons hne s t), by simp [h]⟩

theorem Integral.decided_of_order_eq (ha : a.Integral) (hb : b.Integral)
    (h : a.order = b.order) : Decided (a.word rank) (b.word rank) := by
  induction a using Json.induct generalizing b with
  | array xs ih =>
    cases b with
    | array ys =>
      have helements : ∀ x ∈ xs, ∀ y ∈ ys, Decided (x.word rank) (y.word rank) := by
        intro x hx y hy
        by_cases hxy : x.order = y.order
        · exact ih x hx (ha.of_mem_array hx) (hb.of_mem_array hy) hxy
        · exact ((ha.of_mem_array hx).of_order_ne (hb.of_mem_array hy) hxy).1
      rw [word_array, word_array]
      exact (decided_seq helements).cons 4
    | _ => cases h
  | null =>
    cases b with
    | null => exact Or.inl rfl
    | _ => cases h
  | object m _ =>
    cases b with
    | object m' => exact (decided_seq fun _ _ _ _ => decided_keyWord _ _).cons 3
    | _ => cases h
  | string s =>
    cases b with
    | string s' => exact (decided_keyWord s s').cons 5
    | _ => cases h
  | boolean c =>
    cases b with
    | boolean c' => exact (decided_singleton _ _).cons 1
    | _ => cases h
  | numberInteger n =>
    cases b with
    | numberInteger n' => exact (decided_singleton _ _).cons 2
    | numberUnsigned n' => exact (decided_singleton _ _).cons 2
    | numberFloat bits => cases hb.noFloat.self
    | _ => cases h
  | numberUnsigned n =>
    cases b with
    | numberInteger n' => exact (decided_singleton _ _).cons 2
    | numberUnsigned n' => exact (decided_singleton _ _).cons 2
    | numberFloat bits => cases hb.noFloat.self
    | _ => cases h
  | numberFloat bits => cases ha.noFloat.self
  | discarded => cases ha.noDiscarded.self

/-- No word is a proper prefix of another one. -/
theorem Integral.decided (ha : a.Integral) (hb : b.Integral) :
    Decided (a.word rank) (b.word rank) := by
  by_cases h : a.order = b.order
  · exact ha.decided_of_order_eq hb h
  · exact (ha.of_order_ne hb h).1

/-! ## Numbers with ranks -/

/-- The numbers are compared as the ranks of the signed ones are with the unsigned ones. -/
structure Ranks (rank : Int64 → Int) (signed : Int64 → Prop) (unsigned : UInt64 → Prop) :
    Prop where
  signed_lt {n n' : Int64} (hn : signed n) (hn' : signed n') : n < n' ↔ rank n < rank n'
  lt_unsigned {n : Int64} {u : UInt64} (hn : signed n) (hu : unsigned u) :
    n < u.toInt64 ↔ rank n < u.toNat
  unsigned_lt {n : Int64} {u : UInt64} (hn : signed n) (hu : unsigned u) :
    u.toInt64 < n ↔ (u.toNat : Int) < rank n

theorem toInt_cast_cases (u : UInt64) :
    (u.toNat < 2 ^ 63 ∧ u.toInt64.toInt = u.toNat) ∨
      (2 ^ 63 ≤ u.toNat ∧ u.toInt64.toInt = (u.toNat : Int) - 2 ^ 64) := by
  have hlt := u.toNat_lt
  rw [toInt_toInt64]
  by_cases h : u.toNat < 2 ^ 63
  · exact Or.inl ⟨h, Int.bmod_eq_of_le (by omega) (by omega)⟩
  · refine Or.inr ⟨by omega, ?_⟩
    rw [← Int.sub_bmod_right]
    exact Int.bmod_eq_of_le (by omega) (by omega)

/-- The signed number is less than what the casts make of the large unsigned ones. -/
def BelowCasts (unsigned : UInt64 → Prop) (n : Int64) : Prop :=
  ∀ large, unsigned large → 2 ^ 63 ≤ large.toNat → n.toInt < (large.toNat : Int) - 2 ^ 64

open Classical in
/-- A signed number that is not below the casts comes after the small unsigned ones, and is compared
with the large ones as a number that has been cast like them. -/
noncomputable def rankOf (unsigned : UInt64 → Prop) (n : Int64) : Int :=
  if BelowCasts unsigned n then n.toInt else n.toInt + 2 ^ 64

theorem rankOf_cases (unsigned : UInt64 → Prop) (n : Int64) :
    (BelowCasts unsigned n ∧ rankOf unsigned n = n.toInt) ∨
      (∃ large, unsigned large ∧ 2 ^ 63 ≤ large.toNat ∧
        (large.toNat : Int) - 2 ^ 64 ≤ n.toInt) ∧ rankOf unsigned n = n.toInt + 2 ^ 64 := by
  classical
  by_cases h : BelowCasts unsigned n
  · exact Or.inl ⟨h, if_pos h⟩
  · refine Or.inr ⟨?_, if_neg h⟩
    unfold BelowCasts at h
    push Not at h
    exact h

theorem ranks_rankOf
    (h : ∀ n small large, signed n → unsigned small → unsigned large → ¬Between n small large) :
    Ranks (rankOf unsigned) signed unsigned := by
  have hunsigned : ∀ {n u}, signed n → unsigned u →
      (n.toInt < u.toInt64.toInt ↔ rankOf unsigned n < u.toNat) ∧
        (u.toInt64.toInt < n.toInt ↔ (u.toNat : Int) < rankOf unsigned n) := by
    intro n u hn hu
    have hle := n.toInt_lt
    have hge := n.le_toInt
    rcases rankOf_cases unsigned n with
      ⟨hbelow, hrank⟩ | ⟨⟨large, hlarge, hsize, hcast⟩, hrank⟩
    · rcases toInt_cast_cases u with ⟨hu', hcast⟩ | ⟨hu', hcast⟩
      · omega
      · have hless := hbelow u hu hu'
        omega
    · rcases toInt_cast_cases u with ⟨hu', hcast'⟩ | ⟨hu', hcast'⟩
      · have hmore : ¬n.toInt ≤ u.toNat := fun hsmall =>
          h n u large hn hu hlarge ⟨hu', hsize, hcast, hsmall⟩
        omega
      · omega
  refine ⟨?_, ?_, ?_⟩
  · intro n n' hn hn'
    have hlt := n.toInt_lt
    have hlt' := n'.toInt_lt
    have hle := n.le_toInt
    have hle' := n'.le_toInt
    rw [Int64.lt_iff_toInt_lt]
    rcases rankOf_cases unsigned n with
      ⟨hbelow, hrank⟩ | ⟨⟨large, hlarge, hsize, hcast⟩, hrank⟩
    · rcases rankOf_cases unsigned n' with
        ⟨hbelow', hrank'⟩ | ⟨⟨large', hlarge', hsize', hcast'⟩, hrank'⟩
      · omega
      · have hless := hbelow large' hlarge' hsize'
        omega
    · rcases rankOf_cases unsigned n' with
        ⟨hbelow', hrank'⟩ | ⟨⟨large', hlarge', hsize', hcast'⟩, hrank'⟩
      · have hless := hbelow' large hlarge hsize
        omega
      · omega
  · intro n u hn hu
    rw [Int64.lt_iff_toInt_lt]
    exact (hunsigned hn hu).1
  · intro n u hn hu
    rw [Int64.lt_iff_toInt_lt]
    exact (hunsigned hn hu).2

/-! ## Comparisons of values that are made of these numbers -/

theorem MadeOf.of_mem_array {xs : List Json} (h : (array xs).MadeOf signed unsigned) {x : Json}
    (hx : x ∈ xs) : x.MadeOf signed unsigned :=
  ⟨h.integral.of_mem_array hx, ((all_array xs).1 h.numbers).2 x hx⟩

theorem ltElements_iff {xs ys : List Json}
    (hdecided : ∀ x ∈ xs, ∀ y ∈ ys, Decided (x.word rank) (y.word rank))
    (hlt : ∀ x ∈ xs, ∀ y ∈ ys, (lt x y = true ↔ Before (x.word rank) (y.word rank)) ∧
      (lt y x = true ↔ Before (y.word rank) (x.word rank))) :
    (ltElements xs ys = true ↔ Before (seq (word rank) xs) (seq (word rank) ys)) ∧
      (ltElements ys xs = true ↔ Before (seq (word rank) ys) (seq (word rank) xs)) := by
  induction xs generalizing ys with
  | nil =>
    cases ys with
    | nil => simp [ltElements, not_before_self]
    | cons y ys => simp [ltElements, before_nil_seq, before_seq_nil]
  | cons x xs ih =>
    cases ys with
    | nil => simp [ltElements, before_nil_seq, before_seq_nil]
    | cons y ys =>
      have hx := List.mem_cons_self (a := x) (l := xs)
      have hy := List.mem_cons_self (a := y) (l := ys)
      have hxy : Decided (x.word rank) (y.word rank) := hdecided x hx y hy
      obtain ⟨hless, hgreater⟩ := hlt x hx y hy
      have hrest := ih
        (fun x hx y hy => hdecided x (List.mem_cons_of_mem _ hx) y (List.mem_cons_of_mem _ hy))
        (fun x hx y hy => hlt x (List.mem_cons_of_mem _ hx) y (List.mem_cons_of_mem _ hy))
      constructor
      · rw [ltElements]
        exact before_seq_cons_of_tests hxy hless hgreater fun _ => hrest.1
      · rw [ltElements]
        exact before_seq_cons_of_tests hxy.symm hgreater hless fun _ => hrest.2

theorem before_number (m n : Int) : Before [2, m] [2, n] ↔ m < n := by
  rw [before_cons_self, Before, List.lex_singleton_iff]

theorem lt_iff_of_order_ne (ha : a.Integral) (hb : b.Integral) (h : a.order ≠ b.order) :
    (lt a b = true ↔ Before (a.word rank) (b.word rank)) ∧
      (lt b a = true ↔ Before (b.word rank) (a.word rank)) :=
  ⟨(ha.of_order_ne hb h).2, (hb.of_order_ne ha (Ne.symm h)).2⟩

theorem lt_iff_of_order_eq (hranks : Ranks rank signed unsigned) (ha : a.MadeOf signed unsigned)
    (hb : b.MadeOf signed unsigned) (h : a.order = b.order) :
    (lt a b = true ↔ Before (a.word rank) (b.word rank)) ∧
      (lt b a = true ↔ Before (b.word rank) (a.word rank)) := by
  induction a using Json.induct generalizing b with
  | array xs ih =>
    cases b with
    | array ys =>
      have hdecided : ∀ x ∈ xs, ∀ y ∈ ys, Decided (x.word rank) (y.word rank) := fun x hx y hy =>
        (ha.of_mem_array hx).integral.decided (hb.of_mem_array hy).integral
      have hlt : ∀ x ∈ xs, ∀ y ∈ ys, (lt x y = true ↔ Before (x.word rank) (y.word rank)) ∧
          (lt y x = true ↔ Before (y.word rank) (x.word rank)) := by
        intro x hx y hy
        by_cases horder : x.order = y.order
        · exact ih x hx (ha.of_mem_array hx) (hb.of_mem_array hy) horder
        · exact lt_iff_of_order_ne (ha.of_mem_array hx).integral (hb.of_mem_array hy).integral horder
      rw [lt, lt, word_array, word_array, before_cons_self, before_cons_self]
      exact ltElements_iff hdecided hlt
    | _ => cases h
  | null =>
    cases b with
    | null => simp [lt, not_before_self]
    | _ => cases h
  | object m _ =>
    cases b with
    | object m' =>
      rw [lt, lt, word, word, before_cons_self, before_cons_self]
      exact ⟨keysLess_iff _ _, keysLess_iff _ _⟩
    | _ => cases h
  | string s =>
    cases b with
    | string s' =>
      rw [lt, lt, word, word, before_cons_self, before_cons_self]
      exact ⟨keyLess_iff _ _, keyLess_iff _ _⟩
    | _ => cases h
  | boolean c =>
    cases b with
    | boolean c' =>
      rw [lt, lt, word, word, before_cons_self, before_cons_self, Before, Before,
        List.lex_singleton_iff, List.lex_singleton_iff]
      cases c <;> cases c' <;> decide
    | _ => cases h
  | numberInteger n =>
    have hn : signed n := ha.numbers.self
    cases b with
    | numberInteger n' =>
      have hn' : signed n' := hb.numbers.self
      rw [lt, lt, word, word, before_number, before_number, decide_eq_true_eq, decide_eq_true_eq]
      exact ⟨hranks.signed_lt hn hn', hranks.signed_lt hn' hn⟩
    | numberUnsigned u =>
      have hu : unsigned u := hb.numbers.self
      rw [lt, lt, word, word, before_number, before_number, decide_eq_true_eq, decide_eq_true_eq]
      exact ⟨hranks.lt_unsigned hn hu, hranks.unsigned_lt hn hu⟩
    | numberFloat bits => cases hb.integral.noFloat.self
    | _ => cases h
  | numberUnsigned u =>
    have hu : unsigned u := ha.numbers.self
    cases b with
    | numberInteger n =>
      have hn : signed n := hb.numbers.self
      rw [lt, lt, word, word, before_number, before_number, decide_eq_true_eq, decide_eq_true_eq]
      exact ⟨hranks.unsigned_lt hn hu, hranks.lt_unsigned hn hu⟩
    | numberUnsigned u' =>
      rw [lt, lt, word, word, before_number, before_number, decide_eq_true_eq, decide_eq_true_eq,
        UInt64.lt_iff_toNat_lt, UInt64.lt_iff_toNat_lt]
      omega
    | numberFloat bits => cases hb.integral.noFloat.self
    | _ => cases h
  | numberFloat bits => cases ha.integral.noFloat.self
  | discarded => cases ha.integral.noDiscarded.self

/-- `operator<` is the order of the words. -/
theorem lt_iff (hranks : Ranks rank signed unsigned) (ha : a.MadeOf signed unsigned)
    (hb : b.MadeOf signed unsigned) :
    (lt a b = true ↔ Before (a.word rank) (b.word rank)) ∧
      (lt b a = true ↔ Before (b.word rank) (a.word rank)) := by
  by_cases horder : a.order = b.order
  · exact lt_iff_of_order_eq hranks ha hb horder
  · exact lt_iff_of_order_ne ha.integral hb.integral horder

/-! ## A strict weak order -/

theorem incomparable_iff (hranks : Ranks rank signed unsigned) (ha : a.MadeOf signed unsigned)
    (hb : b.MadeOf signed unsigned) : Incomparable a b ↔ a.word rank = b.word rank := by
  obtain ⟨hless, hgreater⟩ := lt_iff hranks ha hb
  unfold Incomparable
  rw [← Bool.not_eq_true, ← Bool.not_eq_true, hless, hgreater]
  constructor
  · rintro ⟨hnot, hnot'⟩
    exact eq_of_not_before hnot hnot'
  · intro heq
    rw [heq]
    exact ⟨not_before_self _, not_before_self _⟩

theorem orderLaws_of_ranks (hranks : Ranks rank signed unsigned) (ha : a.MadeOf signed unsigned)
    (hb : b.MadeOf signed unsigned) (hc : c.MadeOf signed unsigned) : OrderLaws a b c := by
  refine ⟨?_, fun h h' => ?_, fun h h' => ?_⟩
  · rw [← Bool.not_eq_true, (lt_iff hranks ha ha).1]
    exact not_before_self _
  · rw [(lt_iff hranks ha hb).1] at h
    rw [(lt_iff hranks hb hc).1] at h'
    rw [(lt_iff hranks ha hc).1]
    exact h.trans h'
  · rw [incomparable_iff hranks ha hb] at h
    rw [incomparable_iff hranks hb hc] at h'
    rw [incomparable_iff hranks ha hc, h, h']

theorem lt_integer_unsigned (n : Int64) (u : UInt64) :
    (lt (numberInteger n) (numberUnsigned u) = true ↔ n.toInt < u.toInt64.toInt) ∧
      (lt (numberUnsigned u) (numberInteger n) = true ↔ u.toInt64.toInt < n.toInt) := by
  rw [lt, lt, decide_eq_true_eq, decide_eq_true_eq, Int64.lt_iff_toInt_lt, Int64.lt_iff_toInt_lt]
  exact ⟨Iff.rfl, Iff.rfl⟩

theorem lt_unsigned_unsigned (u u' : UInt64) :
    lt (numberUnsigned u) (numberUnsigned u') = true ↔ u.toNat < u'.toNat := by
  rw [lt, decide_eq_true_eq, UInt64.lt_iff_toNat_lt]

/-- The three numbers are less than one another in a circle, or would have to be. -/
theorem not_orderLaws_of_between {n : Int64} {small large : UInt64} (h : Between n small large) :
    ¬(OrderLaws (numberInteger n) (numberUnsigned small) (numberUnsigned large) ∧
      OrderLaws (numberUnsigned large) (numberInteger n) (numberUnsigned small) ∧
      OrderLaws (numberUnsigned small) (numberUnsigned large) (numberInteger n)) := by
  obtain ⟨hsmall, hlarge, hcast, hle⟩ := h
  rintro ⟨⟨-, htrans, -⟩, ⟨-, htrans', -⟩, -, htrans'', -⟩
  rw [(lt_integer_unsigned _ _).1, lt_unsigned_unsigned, (lt_integer_unsigned _ _).1] at htrans
  rw [(lt_integer_unsigned _ _).2, (lt_integer_unsigned _ _).1, lt_unsigned_unsigned] at htrans'
  rw [(lt_integer_unsigned _ _).2, (lt_integer_unsigned _ _).2, lt_unsigned_unsigned] at htrans''
  have hlt := large.toNat_lt
  rcases toInt_cast_cases small with ⟨-, hs⟩ | ⟨hs, -⟩
  · rcases toInt_cast_cases large with ⟨hl, -⟩ | ⟨-, hl⟩
    · omega
    · omega
  · omega

/-- Among the values that are made of certain numbers, `operator<` is a strict weak order if and only
if no signed number is between an unsigned one and what the cast makes of a larger one. -/
theorem orderLaws_iff (signed : Int64 → Prop) (unsigned : UInt64 → Prop) :
    (∀ a b c : Json, a.MadeOf signed unsigned → b.MadeOf signed unsigned →
        c.MadeOf signed unsigned → OrderLaws a b c) ↔
      ∀ n small large, signed n → unsigned small → unsigned large → ¬Between n small large := by
  constructor
  · intro h n small large hn hsmall hlarge hbetween
    have hn' : (numberInteger n).MadeOf signed unsigned := ⟨⟨trivial, rfl, rfl⟩, hn⟩
    have hsmall' : (numberUnsigned small).MadeOf signed unsigned := ⟨⟨trivial, rfl, rfl⟩, hsmall⟩
    have hlarge' : (numberUnsigned large).MadeOf signed unsigned := ⟨⟨trivial, rfl, rfl⟩, hlarge⟩
    exact not_orderLaws_of_between hbetween ⟨h _ _ _ hn' hsmall' hlarge', h _ _ _ hlarge' hn' hsmall',
      h _ _ _ hsmall' hlarge' hn'⟩
  · intro h a b c ha hb hc
    exact orderLaws_of_ranks (ranks_rankOf h) ha hb hc

/-- A large unsigned number is less than a zero that is less than a one, but not less than the
one. -/
theorem not_lt_trans :
    ¬(lt (numberUnsigned 0x8000000000000000) (numberInteger 0) = true →
      lt (numberInteger 0) (numberUnsigned 1) = true →
      lt (numberUnsigned 0x8000000000000000) (numberUnsigned 1) = true) := by
  intro h
  rw [lt, lt, lt] at h
  exact absurd h (by decide)

end Json

end Wpi

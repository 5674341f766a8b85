import WpiUtil.Llvm.StringRefCompare

/-!
# Proofs: comparing numbers in a `StringRef`

`compare_numeric` is the lexicographic order of the words, so it is a linear order, and numbers without
leading zeros are in it as their values are.
-/

namespace Wpi.StringRef

open Foundations Codeword

variable {s rhs : List Byte} {c d : Byte}

/-! ## Runs of digits -/

/-- The run of digits at the front ends at its length. -/
theorem digitAt_eq {j : Nat} (hj : j ≤ (s.takeWhile isDigit).length) :
    digitAt s j = decide (j < (s.takeWhile isDigit).length) := by
  induction s generalizing j with
  | nil => rw [List.takeWhile_nil, List.length_nil, decide_eq_false (Nat.not_lt_zero j)]; rfl
  | cons c s ih =>
    cases hc : isDigit c with
    | false =>
      have hrun : (c :: s).takeWhile isDigit = [] :=
        List.takeWhile_cons_of_neg (by rw [hc]; exact Bool.false_ne_true)
      rw [hrun, List.length_nil, Nat.le_zero] at hj
      rw [hrun, hj, digitAt, List.getElem?_cons_zero, Option.any_some, hc]
      rfl
    | true =>
      have hrun : (c :: s).takeWhile isDigit = c :: s.takeWhile isDigit :=
        List.takeWhile_cons_of_pos hc
      rw [hrun, List.length_cons] at hj ⊢
      cases j with
      | zero =>
        rw [digitAt, List.getElem?_cons_zero, Option.any_some, hc,
          decide_eq_true (Nat.succ_pos _)]
      | succ j =>
        have hdigit := ih (Nat.le_of_succ_le_succ hj)
        rw [digitAt] at hdigit
        rw [digitAt, List.getElem?_cons_succ, hdigit]
        exact decide_eq_decide.2 Nat.succ_lt_succ_iff.symm

/-- The loop compares the lengths of two runs. -/
theorem endOfRuns_eq {turns j : Nat} (hs : j ≤ (s.takeWhile isDigit).length)
    (hrhs : j ≤ (rhs.takeWhile isDigit).length)
    (hturns : min (s.takeWhile isDigit).length (rhs.takeWhile isDigit).length < j + turns) :
    endOfRuns s rhs turns j =
      if (s.takeWhile isDigit).length = (rhs.takeWhile isDigit).length then
        .inr (s.takeWhile isDigit).length
      else .inl (if (s.takeWhile isDigit).length < (rhs.takeWhile isDigit).length then -1 else 1) := by
  induction turns generalizing j with
  | zero => omega
  | succ turns ih =>
    rw [endOfRuns, digitAt_eq hs, digitAt_eq hrhs]
    generalize (s.takeWhile isDigit).length = m at *
    generalize (rhs.takeWhile isDigit).length = n at *
    by_cases hm : j < m
    · by_cases hn : j < n
      · simp only [decide_eq_true hm, decide_eq_true hn]
        exact ih hm hn (by omega)
      · have hne : m ≠ n := by omega
        have hlt : ¬m < n := by omega
        simp [hm, hn, hne, hlt]
    · by_cases hn : j < n
      · have hne : m ≠ n := by omega
        have hlt : m < n := by omega
        simp [hm, hn, hne, hlt]
      · have heq : m = n := by omega
        have hj : j = n := by omega
        simp [heq, hj]

/-! ## The words -/

theorem codes_append (s t : List Byte) : codes (s ++ t) = codes s ++ codes t := List.map_append

theorem codes_cons (c : Byte) (s : List Byte) : codes (c :: s) = (c.toNat : Int) :: codes s := rfl

/-- The answer of a comparison of two runs of one length, whatever comes after them. -/
theorem compareMemory_cases (h : s.length = rhs.length) :
    compareMemory s rhs = -1 ∧ (∀ x y, Before (codes s ++ x) (codes rhs ++ y)) ∨
      compareMemory s rhs = 0 ∧ s = rhs ∨
      compareMemory s rhs = 1 ∧ ∀ x y, Before (codes rhs ++ x) (codes s ++ y) := by
  induction s generalizing rhs with
  | nil => exact Or.inr (Or.inl ⟨rfl, (List.length_eq_zero_iff.1 h.symm).symm⟩)
  | cons c s ih =>
    cases rhs with
    | nil => cases h
    | cons d rhs =>
      rw [compareMemory]
      by_cases hcd : c = d
      · subst hcd
        simp only [codes_cons, List.cons_append, before_cons_self, if_true, List.cons.injEq, true_and]
        exact ih (Nat.succ.inj h)
      · have hne : c.toNat ≠ d.toNat := fun heq => hcd (UInt8.toNat_inj.1 heq)
        rw [if_neg hcd]
        simp only [codes_cons, List.cons_append, before_cons_cons]
        by_cases hlt : c < d
        · have hlt' := UInt8.lt_iff_toNat_lt.1 hlt
          rw [if_pos hlt]
          exact Or.inl ⟨rfl, fun _ _ => Or.inl (by omega)⟩
        · have hle := UInt8.not_lt.1 hlt
          have hle' := UInt8.le_iff_toNat_le.1 hle
          rw [if_neg hlt]
          exact Or.inr (Or.inr ⟨rfl, fun _ _ => Or.inl (by omega)⟩)

theorem numericKey_nil : numericKey [] = [] := by rw [numericKey]

theorem numericKey_char (hc : isDigit c = false) :
    numericKey (c :: s) = (c.toNat : Int) :: numericKey s := by
  rw [numericKey, hc]
  rfl

/-- A run of digits, and what comes after it. -/
theorem numericKey_run {run : List Byte} (hne : run ≠ []) (hrun : ∀ c ∈ run, isDigit c = true)
    (hs : ∀ c, s.head? = some c → isDigit c = false) :
    numericKey (run ++ s) = 0x30 :: (run.length : Int) :: (codes run ++ numericKey s) := by
  obtain ⟨c, cs, rfl⟩ := List.exists_cons_of_ne_nil hne
  have htake := (takeWhile_dropWhile_append hrun hs).1
  have hdrop : (cs ++ s).drop ((c :: cs).length - 1) = s := List.drop_left
  rw [List.cons_append] at htake
  rw [List.cons_append, numericKey, if_pos (hrun c List.mem_cons_self)]
  simp only [htake, hdrop]

/-- What the answers of `compare_numeric` mean. -/
def Compared (r : Int) (s rhs : List Byte) : Prop :=
  r = -1 ∧ Before (numericKey s) (numericKey rhs) ∨ r = 0 ∧ s = rhs ∨
    r = 1 ∧ Before (numericKey rhs) (numericKey s)

theorem Compared.of_append {r : Int} {p x y : List Byte} {k : List Int} (h : Compared r x y)
    (hx : numericKey (p ++ x) = k ++ numericKey x) (hy : numericKey (p ++ y) = k ++ numericKey y) :
    Compared r (p ++ x) (p ++ y) := by
  rw [Compared, hx, hy, before_append_left, before_append_left, List.append_right_inj]
  exact h

/-- A string that begins with a digit, cut behind the run of them. -/
theorem exists_run (hc : isDigit c = true) (s : List Byte) :
    ∃ run rest, c :: s = run ++ rest ∧ (c :: s).takeWhile isDigit = run ∧ run ≠ [] ∧
      s.drop (run.length - 1) = rest ∧ (∀ d ∈ run, isDigit d = true) ∧
      ∀ d, rest.head? = some d → isDigit d = false := by
  have hsplit : c :: s = c :: s.takeWhile isDigit ++ s.dropWhile isDigit := by
    rw [List.cons_append, List.takeWhile_append_dropWhile]
  refine ⟨c :: s.takeWhile isDigit, s.dropWhile isDigit, hsplit, List.takeWhile_cons_of_pos hc,
    List.cons_ne_nil _ _, ?_, ?_, ?_⟩
  · exact (dropWhile_eq_drop isDigit s).symm
  · exact List.forall_mem_cons.2 ⟨hc, fun d hd => List.mem_takeWhile_imp hd⟩
  · intro d hd
    have hnot := List.head?_dropWhile_not isDigit s
    rw [hd] at hnot
    exact hnot

theorem exists_numericKey_eq (c : Byte) (s : List Byte) :
    ∃ k, numericKey (c :: s) = (if isDigit c then 0x30 else (c.toNat : Int)) :: k := by
  cases hc : isDigit c with
  | true =>
    obtain ⟨run, rest, hs, -, hne, -, hrun, hrest⟩ := exists_run hc s
    rw [hs, numericKey_run hne hrun hrest]
    exact ⟨_, rfl⟩
  | false =>
    rw [numericKey_char hc]
    exact ⟨_, rfl⟩

/-- Characters that are not both digits are in the order of the words that they begin. -/
theorem before_of_lt (hcd : c < d) (hdigits : ¬(isDigit c = true ∧ isDigit d = true)) :
    Before (numericKey (c :: s)) (numericKey (d :: rhs)) := by
  obtain ⟨k, hk⟩ := exists_numericKey_eq c s
  obtain ⟨k', hk'⟩ := exists_numericKey_eq d rhs
  have hlt := UInt8.lt_iff_toNat_lt.1 hcd
  rw [isDigit_iff, isDigit_iff] at hdigits
  rw [hk, hk', before_cons_cons]
  refine Or.inl ?_
  split
  · next hc =>
    have hc := isDigit_iff.1 hc
    split
    · next hd => exact absurd ⟨hc, isDigit_iff.1 hd⟩ hdigits
    · omega
  · split
    · next hc hd =>
      have hd := isDigit_iff.1 hd
      rw [isDigit_iff] at hc
      omega
    · omega

section

variable {run run' x y : List Byte} {r : Int}

/-- Of two runs the longer one comes later. -/
theorem compared_of_length_ne (hkey : numericKey (run ++ x) =
      0x30 :: (run.length : Int) :: (codes run ++ numericKey x))
    (hkey' : numericKey (run' ++ y) = 0x30 :: (run'.length : Int) :: (codes run' ++ numericKey y))
    (hne : run.length ≠ run'.length) :
    Compared (if run.length < run'.length then -1 else 1) (run ++ x) (run' ++ y) := by
  rw [Compared, hkey, hkey', before_cons_self, before_cons_self, before_cons_cons, before_cons_cons]
  by_cases hlt : run.length < run'.length
  · rw [if_pos hlt]
    exact Or.inl ⟨rfl, Or.inl (by omega)⟩
  · rw [if_neg hlt]
    exact Or.inr (Or.inr ⟨rfl, Or.inl (by omega)⟩)

/-- Runs of one length are compared byte by byte, and then what comes after them. -/
theorem compared_of_length_eq (hkey : numericKey (run ++ x) =
      0x30 :: (run.length : Int) :: (codes run ++ numericKey x))
    (hkey' : numericKey (run' ++ y) = 0x30 :: (run'.length : Int) :: (codes run' ++ numericKey y))
    (hlen : run.length = run'.length) (hrest : Compared r x y) :
    Compared (if compareMemory run run' ≠ 0 then if compareMemory run run' < 0 then -1 else 1 else r)
      (run ++ x) (run' ++ y) := by
  rcases compareMemory_cases hlen with ⟨hres, hbefore⟩ | ⟨hres, rfl⟩ | ⟨hres, hbefore⟩
  · rw [hres]
    refine Or.inl ⟨rfl, ?_⟩
    rw [hkey, hkey', hlen, before_cons_self, before_cons_self]
    exact hbefore _ _
  · rw [hres]
    exact hrest.of_append (k := 0x30 :: run.length :: codes run) hkey hkey'
  · rw [hres]
    refine Or.inr (Or.inr ⟨rfl, ?_⟩)
    rw [hkey, hkey', hlen, before_cons_self, before_cons_self]
    exact hbefore _ _

end

/-- Two strings that begin with digits. -/
theorem compared_digits (hc : isDigit c = true) (hd : isDigit d = true)
    (hrest : ∀ k, Compared (compareNumeric (s.drop k) (rhs.drop k)) (s.drop k) (rhs.drop k)) :
    Compared (compareNumeric (c :: s) (d :: rhs)) (c :: s) (d :: rhs) := by
  obtain ⟨run, x, hs, htake, hne, hdrop, hrun, hx⟩ := exists_run hc s
  obtain ⟨run', y, hrhs, htake', hne', hdrop', hrun', hy⟩ := exists_run hd rhs
  have hkey := numericKey_run hne hrun hx
  have hkey' := numericKey_run hne' hrun' hy
  have hlen := congrArg List.length hs
  have hlen' := congrArg List.length hrhs
  rw [List.length_cons, List.length_append] at hlen hlen'
  have hend : endOfRuns (c :: s) (d :: rhs) (min s.length rhs.length + 1) 1 =
      if run.length = run'.length then .inr run.length
      else .inl (if run.length < run'.length then -1 else 1) := by
    rw [← htake, ← htake']
    refine endOfRuns_eq ?_ ?_ ?_
    · rw [htake]
      exact List.length_pos_iff.2 hne
    · rw [htake']
      exact List.length_pos_iff.2 hne'
    · rw [htake, htake']
      omega
  rw [compareNumeric, hc, hd, Bool.and_self, if_pos rfl, hend]
  by_cases hsame : run.length = run'.length
  · have hrun_take : (c :: s).take run.length = run := by rw [hs, List.take_left]
    have hrun_take' : (d :: rhs).take run.length = run' := by rw [hrhs, hsame, List.take_left]
    have hrest_drop := hrest (run.length - 1)
    rw [if_pos hsame]
    simp only [hrun_take, hrun_take']
    rw [hdrop, hsame, hdrop'] at hrest_drop ⊢
    rw [hs, hrhs]
    exact compared_of_length_eq hkey hkey' hsame hrest_drop
  · rw [if_neg hsame, hs, hrhs]
    exact compared_of_length_ne hkey hkey' hsame

/-- `compare_numeric` compares the words. -/
theorem compared_compareNumeric (s rhs : List Byte) : Compared (compareNumeric s rhs) s rhs := by
  induction hn : s.length using Nat.strongRecOn generalizing s rhs with
  | _ n ih =>
    cases s with
    | nil =>
      cases rhs with
      | nil =>
        rw [compareNumeric]
        exact Or.inr (Or.inl ⟨rfl, rfl⟩)
      | cons d rhs =>
        obtain ⟨k, hk⟩ := exists_numericKey_eq d rhs
        rw [compareNumeric, Compared, numericKey_nil, hk]
        exact Or.inl ⟨rfl, List.Lex.nil⟩
    | cons c s =>
      cases rhs with
      | nil =>
        obtain ⟨k, hk⟩ := exists_numericKey_eq c s
        rw [compareNumeric, Compared, numericKey_nil, hk]
        exact Or.inr (Or.inr ⟨rfl, List.Lex.nil⟩)
      | cons d rhs =>
        rw [List.length_cons] at hn
        by_cases hdigits : isDigit c = true ∧ isDigit d = true
        · refine compared_digits hdigits.1 hdigits.2 fun k => ih _ ?_ _ _ rfl
          rw [List.length_drop]
          omega
        · have hnot : ¬(isDigit c && isDigit d) = true := by
            rw [Bool.and_eq_true]
            exact hdigits
          rw [compareNumeric, if_neg hnot]
          by_cases hcd : c = d
          · subst hcd
            have hc : isDigit c = false := by
              rw [and_self, Bool.not_eq_true] at hdigits
              exact hdigits
            rw [if_neg (not_not.2 rfl)]
            exact (ih _ (by omega) s rhs rfl).of_append (p := [c]) (k := [(c.toNat : Int)])
              (numericKey_char hc) (numericKey_char hc)
          · rw [if_pos hcd]
            by_cases hlt : c < d
            · rw [if_pos hlt]
              exact Or.inl ⟨rfl, before_of_lt hlt hdigits⟩
            · have hgt : d < c := UInt8.lt_of_le_of_ne (UInt8.not_lt.1 hlt) (Ne.symm hcd)
              rw [if_neg hlt]
              exact Or.inr (Or.inr ⟨rfl, before_of_lt hgt fun h => hdigits h.symm⟩)

/-! ## The order -/

theorem compareNumeric_eq_zero_iff : compareNumeric s rhs = 0 ↔ s = rhs := by
  constructor
  · intro h
    rcases compared_compareNumeric s rhs with ⟨hr, -⟩ | ⟨-, heq⟩ | ⟨hr, -⟩
    · omega
    · exact heq
    · omega
  · rintro rfl
    rcases compared_compareNumeric s s with ⟨-, hbefore⟩ | ⟨hr, -⟩ | ⟨-, hbefore⟩
    · exact absurd hbefore (not_before_self _)
    · exact hr
    · exact absurd hbefore (not_before_self _)

theorem compareNumeric_neg_iff :
    compareNumeric s rhs < 0 ↔ Before (numericKey s) (numericKey rhs) := by
  rcases compared_compareNumeric s rhs with ⟨hr, hbefore⟩ | ⟨hr, rfl⟩ | ⟨hr, hbefore⟩
  · exact iff_of_true (by omega) hbefore
  · exact iff_of_false (by omega) (not_before_self _)
  · exact iff_of_false (by omega) fun h => not_before_self _ (h.trans hbefore)

theorem compareNumeric_swap (s rhs : List Byte) :
    compareNumeric rhs s = -compareNumeric s rhs := by
  rcases compared_compareNumeric s rhs with ⟨hr, hbefore⟩ | ⟨hr, rfl⟩ | ⟨hr, hbefore⟩
  · rcases compared_compareNumeric rhs s with ⟨-, hafter⟩ | ⟨-, rfl⟩ | ⟨hr', -⟩
    · exact absurd (hbefore.trans hafter) (not_before_self _)
    · exact absurd hbefore (not_before_self _)
    · rw [hr, hr', Int.neg_neg]
  · rw [hr, Int.neg_zero]
  · rcases compared_compareNumeric rhs s with ⟨hr', -⟩ | ⟨-, rfl⟩ | ⟨-, hafter⟩
    · rw [hr, hr']
    · exact absurd hbefore (not_before_self _)
    · exact absurd (hbefore.trans hafter) (not_before_self _)

/-! ## Numbers -/

/-- The word of a string that ends in no digit comes first, whatever follows. -/
theorem numericKey_append {p : List Byte} (hp : ∀ c, p.getLast? = some c → isDigit c = false)
    (x : List Byte) : numericKey (p ++ x) = numericKey p ++ numericKey x := by
  induction hn : p.length using Nat.strongRecOn generalizing p with
  | _ n ih =>
    cases p with
    | nil => rw [numericKey_nil, List.nil_append, List.nil_append]
    | cons c p =>
      cases hc : isDigit c with
      | false =>
        have hp' : ∀ d, p.getLast? = some d → isDigit d = false := by
          intro d hd
          refine hp d ?_
          rw [← List.singleton_append, List.getLast?_append, hd, Option.some_or]
        rw [List.cons_append, numericKey_char hc, numericKey_char hc, List.cons_append,
          ih p.length (by rw [← hn]; exact Nat.lt_succ_self _) hp' rfl]
      | true =>
        obtain ⟨run, rest, hs, -, hne, -, hrun, hrest⟩ := exists_run hc p
        rw [hs] at hp hn
        have hrest_ne : rest ≠ [] := by
          rintro rfl
          rw [List.append_nil] at hp
          have hlast := List.getLast?_eq_some_getLast hne
          have hdigit := hrun _ (List.getLast_mem hne)
          rw [hp _ hlast] at hdigit
          cases hdigit
        have hp' : ∀ d, rest.getLast? = some d → isDigit d = false := by
          intro d hd
          refine hp d ?_
          rw [List.getLast?_append, hd, Option.some_or]
        have hhead : ∀ d, (rest ++ x).head? = some d → isDigit d = false := by
          intro d hd
          refine hrest d ?_
          rwa [List.head?_append_of_ne_nil _ hrest_ne] at hd
        have hpos := List.length_pos_iff.2 hne
        rw [List.length_append] at hn
        rw [hs, List.append_assoc, numericKey_run hne hrun hhead, numericKey_run hne hrun hrest,
          ih rest.length (by omega) hp' rfl, List.cons_append, List.cons_append, List.append_assoc]

/-- Numerals of one length are in the order of their values. -/
theorem before_codes_decimal {m n : Nat} (hmn : m < n)
    (hlen : (decimal m).length = (decimal n).length) (x y : List Int) :
    Before (codes (decimal m) ++ x) (codes (decimal n) ++ y) := by
  have hcode {d : Nat} (hd : d < 10) : ((UInt8.ofNat (d + 0x30)).toNat : Int) = d + 0x30 := by
    rw [UInt8.toNat_ofNat_of_lt' (Nat.lt_trans (Nat.add_lt_add_right hd _) (by decide))]
    exact Int.natCast_add d 0x30
  induction m using digits_induction generalizing n x y with
  | lt m hm =>
    rw [decimal_of_lt hm] at hlen ⊢
    have hn : n < 10 := by
      have hle := (length_decimal_le_iff (n := n) Nat.one_pos).1 (Nat.le_of_eq hlen.symm)
      rwa [Nat.pow_one] at hle
    rw [decimal_of_lt hn, codes_cons, codes_cons, List.cons_append, List.cons_append,
      before_cons_cons, hcode hm, hcode hn]
    exact Or.inl (by omega)
  | le m hm ih =>
    have hn : 10 ≤ n := Nat.le_trans hm (Nat.le_of_lt hmn)
    rw [decimal_of_le hm, decimal_of_le hn, List.length_append, List.length_append] at hlen
    rw [decimal_of_le hm, decimal_of_le hn, codes_append, codes_append, List.append_assoc,
      List.append_assoc]
    rcases Nat.lt_or_eq_of_le (Nat.div_le_div_right (c := 10) (Nat.le_of_lt hmn)) with hlt | heq
    · exact ih hlt (Nat.add_right_cancel hlen) _ _
    · rw [heq, before_append_left, codes_cons, codes_cons, List.cons_append, List.cons_append,
        before_cons_cons, hcode (Nat.mod_lt m (by decide)), hcode (Nat.mod_lt n (by decide))]
      exact Or.inl (by omega)

/-- `compare_numeric` is a linear order, and numbers without leading zeros are in the order of their
values wherever they stand. -/
theorem compareNumeric_order :
    (∀ s t, compareNumeric s t = 0 ↔ s = t) ∧
    (∀ s t, compareNumeric t s = -compareNumeric s t) ∧
    (∀ s t u, compareNumeric s t < 0 → compareNumeric t u < 0 → compareNumeric s u < 0) ∧
    ∀ p m n x y, (∀ c, p.getLast? = some c → isDigit c = false) →
      (∀ c, x.head? = some c → isDigit c = false) → (∀ c, y.head? = some c → isDigit c = false) →
      m < n → compareNumeric (p ++ decimal m ++ x) (p ++ decimal n ++ y) < 0 := by
  refine ⟨fun _ _ => compareNumeric_eq_zero_iff, compareNumeric_swap, ?_, ?_⟩
  · intro s t u h h'
    rw [compareNumeric_neg_iff] at h h' ⊢
    exact h.trans h'
  · intro p m n x y hp hx hy hmn
    rw [compareNumeric_neg_iff, List.append_assoc, List.append_assoc, numericKey_append hp,
      numericKey_append hp, before_append_left,
      numericKey_run (decimal_ne_nil m) (fun _ => isDigit_of_mem_decimal) hx,
      numericKey_run (decimal_ne_nil n) (fun _ => isDigit_of_mem_decimal) hy, before_cons_self,
      before_cons_cons]
    rcases Nat.lt_or_eq_of_le (length_decimal_mono (Nat.le_of_lt hmn)) with hlt | heq
    · exact Or.inl (by omega)
    · exact Or.inr ⟨by omega, before_codes_decimal hmn heq _ _⟩

end Wpi.StringRef

import WpiUtil.Json.ArrayIndex
import WpiUtil.Json.Proofs.JsonPointerProofs
import WpiUtil.Json.Proofs.PointerAccessProofs

/-!
# What `at` makes of a reference token

`stoi` reads the integer that a token begins with, and says nothing about the rest of the token.
-/

namespace Wpi

open Foundations

variable {t blanks sign digits rest : Key} {n : Int}

/-! ## `stoi` -/

theorem takeSign_append (hsign : sign = [] ∨ sign = bytes "+" ∨ sign = bytes "-")
    (hdigits : ∀ c ∈ digits, isDigit c = true) (hne : digits ≠ []) (rest : Key) :
    takeSign (sign ++ digits ++ rest) = (decide (sign = bytes "-"), digits ++ rest) := by
  rcases hsign with rfl | rfl | rfl
  · obtain ⟨c, cs, rfl⟩ := List.exists_cons_of_ne_nil hne
    rw [List.nil_append, List.cons_append, takeSign_of_isDigit (hdigits c List.mem_cons_self)]
    rfl
  · rfl
  · rfl

/-- Neither a sign nor a digit is white space. -/
theorem isspace_of_head (hsign : sign = [] ∨ sign = bytes "+" ∨ sign = bytes "-")
    (hdigits : ∀ c ∈ digits, isDigit c = true) (hne : digits ≠ []) {c : Byte}
    (hc : (sign ++ digits ++ rest).head? = some c) : isspace c = false := by
  rcases hsign with rfl | rfl | rfl
  · obtain ⟨d, ds, rfl⟩ := List.exists_cons_of_ne_nil hne
    cases hc
    exact isspace_of_isDigit (hdigits c List.mem_cons_self)
  · cases hc
    rfl
  · cases hc
    rfl

theorem BeginsWith.stoi_eq (h : BeginsWith t blanks sign digits rest n) :
    stoi t = if n < -2 ^ 31 ∨ 2 ^ 31 ≤ n then .error .outOfRange else .ok n := by
  have hdrop : t.dropWhile isspace = sign ++ digits ++ rest := by
    rw [h.text_eq, List.append_assoc blanks, List.append_assoc blanks]
    exact (takeWhile_dropWhile_append h.blanks_isspace fun c hc =>
      isspace_of_head h.sign_eq h.digits_isDigit h.digits_ne_nil hc).2
  have htake := (takeWhile_dropWhile_append h.digits_isDigit h.rest_head).1
  unfold stoi
  rw [hdrop, takeSign_append h.sign_eq h.digits_isDigit h.digits_ne_nil]
  simp only [htake, h.digits_ne_nil, if_false, decide_eq_true_eq, ← h.value_eq]

theorem takeSign_cases (s : Key) : ∃ sign, s = sign ++ (takeSign s).2 ∧
    (sign = [] ∨ sign = bytes "+" ∨ sign = bytes "-") ∧
    (takeSign s).1 = decide (sign = bytes "-") := by
  unfold takeSign
  split
  · exact ⟨bytes "-", rfl, Or.inr (Or.inr rfl), rfl⟩
  · exact ⟨bytes "+", rfl, Or.inr (Or.inl rfl), rfl⟩
  · exact ⟨[], rfl, Or.inl rfl, rfl⟩

theorem head_dropWhile {p : Byte → Bool} {s : Key} {c : Byte}
    (h : (s.dropWhile p).head? = some c) : p c = false := by
  have hhead := List.head?_dropWhile_not p s
  rwa [h] at hhead

theorem stoi_cases (t : Key) : stoi t = .error .invalidArgument ∨
    ∃ blanks sign digits rest n, BeginsWith t blanks sign digits rest n := by
  obtain ⟨sign, htext, hsign, hnegative⟩ := takeSign_cases (t.dropWhile isspace)
  by_cases hdigits : (takeSign (t.dropWhile isspace)).2.takeWhile isDigit = []
  · left
    unfold stoi
    simp only [hdigits, if_true]
  · right
    refine ⟨t.takeWhile isspace, sign, _, (takeSign (t.dropWhile isspace)).2.dropWhile isDigit, _,
      ?_, fun c hc => List.mem_takeWhile_imp hc, hsign, fun c hc => List.mem_takeWhile_imp hc,
      hdigits, fun c hc => head_dropWhile hc, rfl⟩
    rw [List.append_assoc, List.append_assoc, List.takeWhile_append_dropWhile, ← htext,
      List.takeWhile_append_dropWhile]

theorem beginsWith_decimal (i : Nat) : BeginsWith (decimal i) [] [] (decimal i) [] i where
  text_eq := by simp
  blanks_isspace := by simp
  sign_eq := Or.inl rfl
  digits_isDigit := fun c hc => isDigit_of_mem_decimal hc
  digits_ne_nil := decimal_ne_nil i
  rest_head := by simp
  value_eq := by
    rw [if_neg (by decide)]
    exact congrArg Int.ofNat (ofDecimal_decimal i).symm

/-- There is only one integer at the front of a text. -/
theorem BeginsWith.eq_of_decimal {i : Nat} (h : BeginsWith (decimal i) blanks sign digits rest n)
    (hn : -2 ^ 31 ≤ n) (hn' : n < 2 ^ 31) : n = i := by
  have hstoi := h.stoi_eq
  rw [if_neg (by omega), (beginsWith_decimal i).stoi_eq] at hstoi
  split at hstoi
  · cases hstoi
  · cases hstoi
    rfl

namespace Json

variable {xs : List Json} {outcome : Except Failure Location}

/-! ## The outcomes of `at` -/

theorem ResolvedIndex.of_rejected {e : Failure} (he : RejectedIndex e)
    (hnone : ∀ i, t = Wpi.decimal i → xs.length ≤ i) : ResolvedIndex xs t (.error e) where
  element := by
    intro i
    refine iff_of_false (fun h => by cases h) ?_
    rintro ⟨ht, hlt⟩
    exact absurd (hnone i ht) (Nat.not_le.2 hlt)
  rejected := fun _ => ⟨e, rfl, he⟩

theorem getCheckedConst_array (xs : List Json) (t : Key) :
    getCheckedConst [t] (.array xs) =
      (checkedIndex t xs).bind fun idx => (atIndex xs idx).map ([·]) := by
  rw [getCheckedConst_cons, checkedStep_array]
  cases checkedIndex t xs with
  | error e => rfl
  | ok idx =>
    change (atIndex xs idx).bind _ = (atIndex xs idx).map _
    cases atIndex xs idx with
    | error e => rfl
    | ok step => rfl

theorem getCheckedConst_index {idx : Nat} (h : checkedIndex t xs = .ok idx) :
    getCheckedConst [t] (.array xs) = (atIndex xs idx).map ([·]) := by
  rw [getCheckedConst_array, h]
  rfl

theorem getCheckedConst_error {e : Failure} (h : checkedIndex t xs = .error e) :
    getCheckedConst [t] (.array xs) = .error e := by
  rw [getCheckedConst_array, h]
  rfl

/-- A numeral has digits only, and no zero in front of another digit. -/
theorem decimal_refused {i : Nat} : Wpi.decimal i ≠ bytes "-" ∧
    ¬(1 < (Wpi.decimal i).length ∧ (Wpi.decimal i).head? = some 0x30) := by
  constructor
  · intro h
    have hdigit : isDigit 0x2d = true := isDigit_of_mem_decimal (n := i) (by
      rw [show Foundations.decimal i = bytes "-" from h]
      exact List.mem_singleton.2 rfl)
    exact absurd hdigit (by decide)
  · rintro ⟨hlength, hhead⟩
    by_cases hi : i = 0
    · subst hi
      exact absurd hlength (by decide)
    · cases hd : Wpi.decimal i with
      | nil => exact decimal_ne_nil i hd
      | cons c cs =>
        rw [hd, List.head?_cons, Option.some.injEq] at hhead
        have hc := (decimal_head hd hi).1
        rw [hhead] at hc
        exact absurd hc (by decide)

/-- A token that is refused for its first characters. -/
theorem resolvedIndex_of_refused (h : t = bytes "-" ∨ 1 < t.length ∧ t.head? = some 0x30) :
    ResolvedIndex xs t (getCheckedConst [t] (.array xs)) := by
  have hnone : ∀ i, t = Wpi.decimal i → xs.length ≤ i := by
    rintro i rfl
    obtain ⟨hdash, hzero⟩ := decimal_refused (i := i)
    exact absurd h (not_or.2 ⟨hdash, hzero⟩)
  by_cases hdash : t = bytes "-"
  · have hindex : checkedIndex t xs = .error (pastTheEnd xs) := if_pos hdash
    rw [getCheckedConst_error hindex]
    exact .of_rejected ⟨_, rfl, Or.inr ⟨rfl, Or.inr rfl⟩⟩ hnone
  · have hindex : checkedIndex t xs = .error (leadingZero t) := by
      rw [checkedIndex, if_neg hdash, if_pos (h.resolve_left hdash)]
    rw [getCheckedConst_error hindex]
    exact .of_rejected ⟨_, rfl, Or.inl ⟨rfl, Or.inl rfl⟩⟩ hnone

/-- A token that does not begin with an integer. -/
theorem resolvedIndex_of_noInteger (hindex : checkedIndex t xs = arrayIndex t)
    (h : stoi t = .error .invalidArgument) :
    ResolvedIndex xs t (getCheckedConst [t] (.array xs)) := by
  have harray : checkedIndex t xs = .error (.thrown (parseError 109 0
      (bytes "array index '" ++ t ++ bytes "' is not a number"))) := by
    rw [hindex, arrayIndex, h]
  rw [getCheckedConst_error harray]
  refine .of_rejected ⟨_, rfl, Or.inl ⟨rfl, Or.inr rfl⟩⟩ ?_
  rintro i rfl
  rw [(beginsWith_decimal i).stoi_eq] at h
  split at h
  · cases h
  · cases h

/-- An integer that is no `int` is reported by `stoi` itself. -/
theorem not_resolvedIndex_of_large (hindex : checkedIndex t xs = arrayIndex t)
    (h : stoi t = .error .outOfRange) :
    ¬ResolvedIndex xs t (getCheckedConst [t] (.array xs)) := by
  have harray : checkedIndex t xs = .error (.std .outOfRange) := by
    rw [hindex, arrayIndex, h]
  rw [getCheckedConst_error harray]
  intro hresolved
  by_cases hnumeral : ∃ i, t = Wpi.decimal i ∧ i < xs.length
  · obtain ⟨i, hi⟩ := hnumeral
    cases (hresolved.element i).2 hi
  · obtain ⟨e, he, x, hx, -⟩ := hresolved.rejected fun i hi =>
      Nat.not_lt.1 fun hlt => hnumeral ⟨i, hi, hlt⟩
    rw [hx] at he
    cases he

theorem resolvedIndex_of_int (hindex : checkedIndex t xs = arrayIndex t)
    (h : BeginsWith t blanks sign digits rest n) (hn : -2 ^ 31 ≤ n) (hn' : n < 2 ^ 31) :
    ResolvedIndex xs t (getCheckedConst [t] (.array xs)) ↔
      ((n % 2 ^ 64).toNat < xs.length → t = Wpi.decimal (n % 2 ^ 64).toNat) := by
  have harray : checkedIndex t xs = .ok (n % 2 ^ 64).toNat := by
    rw [hindex, arrayIndex, h.stoi_eq, if_neg (by omega)]
  have hnumeral : ∀ i, t = Wpi.decimal i → (n % 2 ^ 64).toNat = i := by
    rintro i rfl
    have hni := h.eq_of_decimal hn hn'
    omega
  rw [getCheckedConst_index harray, atIndex]
  by_cases hlt : (n % 2 ^ 64).toNat < xs.length
  · rw [if_pos hlt]
    constructor
    · intro hresolved _
      exact ((hresolved.element _).1 rfl).1
    · intro ht
      refine ⟨fun i => ?_, fun hnone => ?_⟩
      · constructor
        · intro hi
          cases hi
          exact ⟨ht hlt, hlt⟩
        · rintro ⟨hi, -⟩
          rw [hnumeral i hi]
          rfl
      · exact absurd hlt (Nat.not_lt.2 (hnone _ (ht hlt)))
  · rw [if_neg hlt]
    refine iff_of_true ?_ fun h => absurd h hlt
    refine .of_rejected ⟨_, rfl, Or.inr ⟨rfl, Or.inl rfl⟩⟩ ?_
    intro i hi
    rw [← hnumeral i hi]
    exact Nat.not_lt.1 hlt

theorem resolvedIndex_getCheckedConst_iff (xs : List Json) (t : Key) :
    ResolvedIndex xs t (getCheckedConst [t] (.array xs)) ↔ PlainIndex xs t := by
  by_cases hrefused : t = bytes "-" ∨ 1 < t.length ∧ t.head? = some 0x30
  · refine iff_of_true (resolvedIndex_of_refused hrefused) ?_
    exact hrefused.imp_right Or.inl
  · obtain ⟨hdash, hzero⟩ := not_or.1 hrefused
    have hindex : checkedIndex t xs = arrayIndex t := by
      rw [checkedIndex, if_neg hdash, if_neg hzero]
    have hplain : PlainIndex xs t ↔ ∀ blanks sign digits rest n,
        BeginsWith t blanks sign digits rest n → -2 ^ 31 ≤ n ∧ n < 2 ^ 31 ∧
          ((n % 2 ^ 64).toNat < xs.length → t = Wpi.decimal (n % 2 ^ 64).toNat) := by
      rw [PlainIndex, or_iff_right hdash, or_iff_right hzero]
    rw [hplain]
    rcases stoi_cases t with hstoi | ⟨blanks, sign, digits, rest, n, h⟩
    · refine iff_of_true (resolvedIndex_of_noInteger hindex hstoi) ?_
      intro blanks sign digits rest n h
      rw [h.stoi_eq] at hstoi
      split at hstoi
      · cases hstoi
      · cases hstoi
    · by_cases hn : -2 ^ 31 ≤ n ∧ n < 2 ^ 31
      · rw [resolvedIndex_of_int hindex h hn.1 hn.2]
        constructor
        · intro ht blanks' sign' digits' rest' n' h'
          have heq := h'.stoi_eq
          rw [h.stoi_eq, if_neg (by omega)] at heq
          split at heq
          · cases heq
          · cases heq
            exact ⟨hn.1, hn.2, ht⟩
        · intro hall
          exact (hall blanks sign digits rest n h).2.2
      · have hlarge : stoi t = .error .outOfRange := by
          rw [h.stoi_eq, if_pos (by omega)]
        refine iff_of_false (not_resolvedIndex_of_large hindex hlarge) ?_
        intro hall
        have hint := hall blanks sign digits rest n h
        exact hn ⟨hint.1, hint.2.1⟩

/-- Both versions of `at` treat a token as an array index exactly if it is plain. -/
theorem resolvedIndex_iff (xs : List Json) (t : Key) :
    (ResolvedIndex xs t ((array xs).atPointer [t]).1 ∧
      ResolvedIndex xs t ((array xs).atPointerConst [t])) ↔ PlainIndex xs t := by
  have hsame : ((array xs).atPointer [t]).1 = (array xs).atPointerConst [t] :=
    getChecked_fst [t] (array xs)
  rw [hsame, and_self]
  exact resolvedIndex_getCheckedConst_iff xs t

/-- What comes after the integer is not looked at. -/
theorem not_resolvedIndex_trailing :
    (array [null, null]).atPointerConst [bytes "1x"] = .ok [.index 1] ∧
      ¬(ResolvedIndex [null, null] (bytes "1x") ((array [null, null]).atPointer [bytes "1x"]).1 ∧
        ResolvedIndex [null, null] (bytes "1x")
          ((array [null, null]).atPointerConst [bytes "1x"])) := by
  have hat : (array [null, null]).atPointerConst [bytes "1x"] = .ok [.index 1] := rfl
  refine ⟨hat, ?_⟩
  rintro ⟨-, hresolved⟩
  have hdecimal : bytes "1x" = Wpi.decimal 1 := ((hresolved.element 1).1 hat).1
  exact absurd hdecimal (by decide)

end Json

end Wpi

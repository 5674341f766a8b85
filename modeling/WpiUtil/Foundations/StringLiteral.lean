import WpiUtil.Foundations.Numerals

/-!
# String literals

What a reader makes of the text behind the opening quote of a string literal of C, without trigraphs
and universal character names. An octal escape has at most three digits. A hexadecimal one takes all
the digits that follow in C; in other languages their number is limited.
-/

namespace Foundations

/-- A digit in base `b`. -/
def isDigitIn (b : ℕ) (c : UInt8) : Bool := (digitValue c).any (· < b)

namespace StringLiteral

/-- What a single character stands for after a backslash. -/
def simpleEscape (c : UInt8) : Option UInt8 :=
  if c = 0x27 ∨ c = 0x22 ∨ c = 0x3f ∨ c = 0x5c then some c
  else if c = 0x61 then some 0x07
  else if c = 0x62 then some 0x08
  else if c = 0x66 then some 0x0c
  else if c = 0x6e then some 0x0a
  else if c = 0x72 then some 0x0d
  else if c = 0x74 then some 0x09
  else if c = 0x76 then some 0x0b
  else none

/-- The digits that an escape sequence takes. -/
def digitRun (b : ℕ) (limit : Option ℕ) (s : List UInt8) : List UInt8 :=
  match limit with
  | none => s.takeWhile (isDigitIn b)
  | some k => (s.takeWhile (isDigitIn b)).take k

/-- The character with the code that digits give, and what comes after them. There has to be a digit,
and the code has to be that of a character. -/
def readCode (b : ℕ) (limit : Option ℕ) (s : List UInt8) : Option (UInt8 × List UInt8) :=
  let run := digitRun b limit s
  if run = [] then none
  else (readNumeral b 0 run).bind fun n =>
    if n < 256 then some (UInt8.ofNat n, s.drop run.length) else none

/-- The character that an escape sequence stands for, after the backslash, and what comes after it. -/
def readEscape (hexLimit : Option ℕ) : List UInt8 → Option (UInt8 × List UInt8)
  | [] => none
  | c :: s =>
    match simpleEscape c with
    | some e => some (e, s)
    | none => if c = 0x78 then readCode 16 hexLimit s else readCode 8 (some 3) (c :: s)

theorem length_of_readCode {b : ℕ} {limit : Option ℕ} {s s' : List UInt8} {c : UInt8}
    (h : readCode b limit s = some (c, s')) : s'.length < s.length := by
  rw [readCode] at h
  split at h
  · cases h
  · next hne =>
    obtain ⟨n, -, hn⟩ := Option.bind_eq_some_iff.1 h
    split at hn
    · cases hn
      have hrun := List.length_pos_iff.2 hne
      have hs : s ≠ [] := by
        rintro rfl
        cases limit with
        | none => exact hne rfl
        | some k => exact hne List.take_nil
      have hlen := List.length_pos_iff.2 hs
      rw [List.length_drop]
      omega
    · cases hn

theorem length_of_readEscape {hexLimit : Option ℕ} {s s' : List UInt8} {c : UInt8}
    (h : readEscape hexLimit s = some (c, s')) : s'.length < s.length := by
  cases s with
  | nil => cases h
  | cons a s =>
    rw [readEscape] at h
    split at h
    · cases h
      exact Nat.lt_succ_self _
    · split at h
      · exact Nat.lt_succ_of_lt (length_of_readCode h)
      · exact length_of_readCode h

/-- The value of a string literal whose opening quote has been read, and what comes after the closing
quote. -/
def readLiteral (hexLimit : Option ℕ) (s : List UInt8) : Option (List UInt8 × List UInt8) :=
  match s with
  | [] => none
  | c :: s =>
    if c = 0x22 then some ([], s)
    else if c = 0x5c then
      match _ : readEscape hexLimit s with
      | none => none
      | some (e, s') => (readLiteral hexLimit s').map fun (str, rest) => (e :: str, rest)
    else if c = 0x0a then none
    else (readLiteral hexLimit s).map fun (str, rest) => (c :: str, rest)
termination_by s.length
decreasing_by
  · rename_i hescape
    exact Nat.lt_succ_of_lt (length_of_readEscape hescape)
  · exact Nat.lt_succ_self _

theorem readLiteral_quote (hexLimit : Option ℕ) (s : List UInt8) :
    readLiteral hexLimit (0x22 :: s) = some ([], s) := by
  rw [readLiteral, if_pos rfl]

theorem readLiteral_plain {hexLimit : Option ℕ} {c : UInt8} {s : List UInt8} (hquote : c ≠ 0x22)
    (hbackslash : c ≠ 0x5c) (hnewline : c ≠ 0x0a) :
    readLiteral hexLimit (c :: s) =
      (readLiteral hexLimit s).map fun (str, rest) => (c :: str, rest) := by
  rw [readLiteral, if_neg hquote, if_neg hbackslash, if_neg hnewline]

theorem readLiteral_escape {hexLimit : Option ℕ} {c : UInt8} {s s' : List UInt8}
    (h : readEscape hexLimit s = some (c, s')) :
    readLiteral hexLimit (0x5c :: s) =
      (readLiteral hexLimit s').map fun (str, rest) => (c :: str, rest) := by
  rw [readLiteral, if_neg (by decide), if_pos rfl]
  split
  · next hnone =>
    rw [h] at hnone
    cases hnone
  · next hsome =>
    rw [h] at hsome
    cases hsome
    rfl

/-- An escape sequence that is read at all is one character. -/
theorem exists_of_readLiteral_escape {hexLimit : Option ℕ} {s str rest : List UInt8}
    (h : readLiteral hexLimit (0x5c :: s) = some (str, rest)) :
    ∃ c s' str', readEscape hexLimit s = some (c, s') ∧
      readLiteral hexLimit s' = some (str', rest) ∧ str = c :: str' := by
  rw [readLiteral, if_neg (by decide), if_pos rfl] at h
  split at h
  · cases h
  · next c s' hescape =>
    obtain ⟨⟨str', rest'⟩, hread, heq⟩ := Option.map_eq_some_iff.1 h
    cases heq
    exact ⟨c, s', str', hescape, hread, rfl⟩

theorem readEscape_simple {hexLimit : Option ℕ} {c e : UInt8} {s : List UInt8}
    (h : simpleEscape c = some e) : readEscape hexLimit (c :: s) = some (e, s) := by
  rw [readEscape, h]

theorem readEscape_octal {hexLimit : Option ℕ} {c : UInt8} (hsimple : simpleEscape c = none)
    (hc : c ≠ 0x78) (s : List UInt8) :
    readEscape hexLimit (c :: s) = readCode 8 (some 3) (c :: s) := by
  rw [readEscape, hsimple, if_neg hc]

/-! ## Runs of digits -/

theorem isDigitIn_of_readNumeral {b acc n : ℕ} {ds : List UInt8}
    (h : readNumeral b acc ds = some n) : ∀ c ∈ ds, isDigitIn b c = true := by
  induction ds generalizing acc with
  | nil => exact fun _ hc => absurd hc List.not_mem_nil
  | cons c ds ih =>
    obtain ⟨d, hd, hlt, hrest⟩ := readNumeral_cons_eq_some_iff.1 h
    refine List.forall_mem_cons.2 ⟨?_, ih hrest⟩
    rw [isDigitIn, hd, Option.any_some]
    exact decide_eq_true hlt

/-- The run ends with the given digits when no more of them may be taken, or no more come. -/
theorem digitRun_append {b : ℕ} {limit : Option ℕ} {ds s : List UInt8}
    (hds : ∀ c ∈ ds, isDigitIn b c = true)
    (hstop : limit = some ds.length ∨ limit = none ∧ s.takeWhile (isDigitIn b) = []) :
    digitRun b limit (ds ++ s) = ds := by
  have hrun : (ds ++ s).takeWhile (isDigitIn b) = ds ++ s.takeWhile (isDigitIn b) :=
    List.takeWhile_append_of_pos hds
  rcases hstop with rfl | ⟨rfl, hs⟩
  · rw [digitRun, hrun, List.take_left]
  · rw [digitRun, hrun, hs, List.append_nil]

theorem readCode_append {b : ℕ} {limit : Option ℕ} {ds s : List UInt8} {c : UInt8} (hne : ds ≠ [])
    (hds : readNumeral b 0 ds = some c.toNat)
    (hstop : limit = some ds.length ∨ limit = none ∧ s.takeWhile (isDigitIn b) = []) :
    readCode b limit (ds ++ s) = some (c, s) := by
  have hrun := digitRun_append (isDigitIn_of_readNumeral hds) hstop
  simp only [readCode]
  rw [hrun, if_neg hne, hds, Option.bind_some, if_pos c.toNat_lt, List.drop_left,
    UInt8.ofNat_toNat]

/-- Without a limit, all the digits are taken. -/
theorem eq_dropWhile_of_readCode {b : ℕ} {s s' : List UInt8} {c : UInt8}
    (h : readCode b none s = some (c, s')) : s' = s.dropWhile (isDigitIn b) := by
  rw [readCode] at h
  split at h
  · cases h
  · obtain ⟨n, -, hn⟩ := Option.bind_eq_some_iff.1 h
    split at hn
    · cases hn
      exact (dropWhile_eq_drop _ s).symm
    · cases hn

end StringLiteral

end Foundations

import WpiUtil.Json.JsonPointer
import WpiUtil.Llvm.Proofs.StringRefProofs

/-!
# Reasoning about JSON pointers

The text of a pointer is read back as its reference tokens, and the numerals that `flatten` writes
for the elements of an array are read back as their indices.
-/

namespace Wpi

open Foundations

/-! ## Escaping -/

/-- What a byte of a reference token becomes. -/
def escapeByte (c : Byte) : List Byte :=
  if c = 0x7e then [0x7e, 0x30] else if c = 0x2f then [0x7e, 0x31] else [c]

theorem replaceSubstring_singleton (s : List Byte) (x : Byte) (t : List Byte) :
    replaceSubstring s [x] t = s.flatMap fun c => if c = x then t else [c] := by
  unfold replaceSubstring
  induction s with
  | nil => rfl
  | cons c s ih =>
    rw [replaceLoop, List.flatMap_cons, ← ih]
    by_cases hc : c = x
    · simp [hc]
    · simp [hc, Ne.symm hc]

theorem escape_eq (s : Key) : escape s = s.flatMap escapeByte := by
  rw [escape, show bytes "~" = [0x7e] from rfl, show bytes "/" = [0x2f] from rfl,
    replaceSubstring_singleton, replaceSubstring_singleton, List.flatMap_assoc]
  congr 1
  funext c
  unfold escapeByte
  by_cases hc : c = 0x7e
  · rw [if_pos hc, if_pos hc]
    rfl
  · rw [if_neg hc, if_neg hc, List.flatMap_singleton]
    rfl

@[simp] theorem escape_nil : escape [] = [] := rfl

theorem escape_cons (c : Byte) (s : Key) : escape (c :: s) = escapeByte c ++ escape s := by
  rw [escape_eq, escape_eq, List.flatMap_cons]

theorem slash_not_mem_escape (s : Key) : 0x2f ∉ escape s := by
  rw [escape_eq, List.mem_flatMap]
  rintro ⟨c, -, hc⟩
  unfold escapeByte at hc
  split at hc
  · simp at hc
  · split at hc
    · simp at hc
    · next h => exact h (List.mem_singleton.1 hc).symm

theorem properlyEscaped_escape (s : Key) : properlyEscaped (escape s) = true := by
  induction s with
  | nil => rfl
  | cons c s ih =>
    rw [escape_cons]
    unfold escapeByte
    split
    · simp [properlyEscaped, ih]
    · split
      · simp [properlyEscaped, ih]
      · next h _ => simp [properlyEscaped, ih, h]

/-- The first replacement of `unescape` leaves `~0` for each `~`. -/
theorem replace_slash_escape (s : Key) : replaceSubstring (escape s) (bytes "~1") (bytes "/") =
    s.flatMap fun c => if c = 0x7e then [0x7e, 0x30] else [c] := by
  unfold replaceSubstring
  rw [show bytes "~1" = [0x7e, 0x31] from rfl, show bytes "/" = [0x2f] from rfl]
  induction s with
  | nil => rfl
  | cons c s ih =>
    rw [escape_cons, List.flatMap_cons, ← ih]
    unfold escapeByte
    by_cases htilde : c = 0x7e
    · simp [htilde, replaceLoop]
    · by_cases hslash : c = 0x2f
      · simp [hslash, replaceLoop]
      · simp [htilde, hslash, Ne.symm htilde, replaceLoop]

theorem replace_tilde (s : Key) :
    replaceSubstring (s.flatMap fun c => if c = 0x7e then [0x7e, 0x30] else [c])
      (bytes "~0") (bytes "~") = s := by
  unfold replaceSubstring
  rw [show bytes "~0" = [0x7e, 0x30] from rfl, show bytes "~" = [0x7e] from rfl]
  induction s with
  | nil => rfl
  | cons c s ih =>
    rw [List.flatMap_cons]
    by_cases htilde : c = 0x7e
    · simp [htilde, replaceLoop, ih]
    · simp [htilde, Ne.symm htilde, replaceLoop, ih]

theorem unescape_escape (s : Key) : unescape (escape s) = s := by
  rw [unescape, replace_slash_escape, replace_tilde]

theorem decimal_injective : Function.Injective decimal := Foundations.decimal_injective

theorem escape_decimal (n : Nat) : escape (decimal n) = decimal n := by
  rw [escape_eq]
  refine (List.flatMap_congr fun c hc => ?_).trans (List.flatMap_singleton' (decimal n))
  have hdigit := isDigit_iff.1 (isDigit_of_mem_decimal hc)
  unfold escapeByte
  rw [if_neg, if_neg]
  · rintro rfl
    exact absurd hdigit (by decide)
  · rintro rfl
    exact absurd hdigit (by decide)

/-! ## The text of a pointer -/

@[simp] theorem toString_nil : JsonPointer.toString [] = [] := rfl

theorem foldl_token (p : JsonPointer) (a : Key) :
    p.foldl (fun a b => a ++ bytes "/" ++ escape b) a = a ++ JsonPointer.toString p := by
  unfold JsonPointer.toString
  induction p generalizing a with
  | nil => rw [List.foldl_nil, List.foldl_nil, List.append_nil]
  | cons t p ih =>
    rw [List.foldl_cons, List.foldl_cons, ih, ih ([] ++ bytes "/" ++ escape t)]
    simp only [List.append_assoc, List.nil_append]

theorem toString_cons (t : Key) (p : JsonPointer) :
    JsonPointer.toString (t :: p) = 0x2f :: (escape t ++ JsonPointer.toString p) := by
  rw [JsonPointer.toString, List.foldl_cons, foldl_token]
  rfl

theorem toString_cons_eq_intercalate (t : Key) (p : JsonPointer) :
    escape t ++ JsonPointer.toString p = [0x2f].intercalate ((t :: p).map escape) := by
  induction p generalizing t with
  | nil => simp
  | cons u p ih =>
    rw [toString_cons, ih u, List.map_cons, List.map_cons, List.map_cons]
    simp [List.intercalate, List.intersperse]

theorem mapM_splitToken_escape (p : JsonPointer) : (p.map escape).mapM splitToken = .ok p := by
  induction p with
  | nil => rfl
  | cons t p ih =>
    rw [List.map_cons, List.mapM_cons, splitToken, if_pos (properlyEscaped_escape t),
      unescape_escape, ih]
    rfl

/-- The text of a pointer is read back. -/
theorem split_toString (p : JsonPointer) : split (JsonPointer.toString p) = .ok p := by
  cases p with
  | nil => rfl
  | cons t p =>
    have hslash : ∀ l ∈ (t :: p).map escape, 0x2f ∉ l := by
      intro l hl
      obtain ⟨u, -, rfl⟩ := List.mem_map.1 hl
      exact slash_not_mem_escape u
    rw [toString_cons, split, if_neg (by decide), toString_cons_eq_intercalate,
      List.splitOn_intercalate 0x2f hslash (by simp), mapM_splitToken_escape]

theorem toString_injective : Function.Injective JsonPointer.toString := by
  intro p q h
  have hsplit : (.ok p : Except Failure JsonPointer) = .ok q := by
    rw [← split_toString p, ← split_toString q, h]
  exact Except.ok.inj hsplit

/-! ## The loop over positions -/

theorem findFirstOf_of_not_mem {s : Key} {c : Byte} {pos : Nat} (h : c ∉ s.drop pos) :
    findFirstOf s c pos = npos := by
  have hnone : StringRef.find (s.drop pos) c = none := StringRef.find_of_not_mem h
  rw [StringRef.find] at hnone
  rw [findFirstOf, hnone]

theorem findFirstOf_of_drop_eq {s x y : Key} {c : Byte} {pos : Nat} (h : s.drop pos = x ++ c :: y)
    (hx : c ∉ x) : findFirstOf s c pos = pos + x.length := by
  have hsome : StringRef.find (x ++ c :: y) c = some x.length := StringRef.find_append_cons hx y
  rw [StringRef.find] at hsome
  rw [findFirstOf, h, hsome]

/-- The loop reads the rest of the text, and ends one round after the last token. -/
theorem splitLoop_eq {s : Key} (hs : s.length < npos) {fuel start : Nat} (hpos : 1 ≤ start)
    (hle : start ≤ s.length) (hfuel : s.length - start + 2 ≤ fuel) :
    splitLoop s fuel (findFirstOf s 0x2f start) start =
      ((s.drop start).splitOn 0x2f).mapM splitToken := by
  rw [npos] at hs
  induction fuel generalizing start with
  | zero => omega
  | succ fuel ih =>
    rw [splitLoop, if_neg (by omega)]
    by_cases hmem : 0x2f ∈ s.drop start
    · obtain ⟨x, y, hxy, hx⟩ := List.eq_append_cons_of_mem hmem
      have hlen := congrArg List.length hxy
      rw [List.length_drop, List.length_append, List.length_cons] at hlen
      have hn : (start + x.length + 2 ^ 64 - start) % 2 ^ 64 = x.length := by omega
      have hnext : (start + x.length + 1) % 2 ^ 64 = start + x.length + 1 := by omega
      have hdrop : s.drop (start + x.length + 1) = y := by
        rw [Nat.add_assoc, ← List.drop_drop, hxy]
        simp
      rw [findFirstOf_of_drop_eq hxy hx, hn, hnext, substr, hxy, List.take_left,
        List.splitOn_append_cons_self_of_not_mem hx, List.mapM_cons]
      dsimp only
      rw [ih (by omega) (by omega) (by omega), hdrop]
    · -- the last token, after which `npos + 1` is zero
      have hn : s.length - start ≤ (npos + 2 ^ 64 - start) % 2 ^ 64 := by
        rw [npos]
        omega
      rw [findFirstOf_of_not_mem hmem, substr, List.take_of_length_le (by rwa [List.length_drop]),
        List.splitOn_eq_singleton hmem, List.mapM_cons, List.mapM_nil]
      obtain ⟨fuel, rfl⟩ : ∃ n, fuel = n + 1 := ⟨fuel - 1, by omega⟩
      rfl

/-- `split` does what the loop does, when the text is not longer than a string can be. -/
theorem split_eq_splitLoop {s : Key} (hs : (0x2f :: s).length < npos) :
    split (0x2f :: s) =
      splitLoop (0x2f :: s) (s.length + 2) (findFirstOf (0x2f :: s) 0x2f 1) 1 := by
  rw [splitLoop_eq hs (Nat.le_refl 1) (by simp) (by simp), split, if_neg (by decide)]
  rfl

/-! ## Pointers that are well-formed -/

theorem tildesEscaped_cons (c : Byte) (s : List Byte) : TildesEscaped (c :: s) ↔
    (c = 0x7e → s.head? = some 0x30 ∨ s.head? = some 0x31) ∧ TildesEscaped s := by
  rw [List.head?_eq_getElem?]
  constructor
  · intro h
    refine ⟨fun hc => ?_, fun i hi => ?_⟩
    · rw [hc] at h
      exact h 0 rfl
    · have hnext := h (i + 1)
      rw [List.getElem?_cons_succ, List.getElem?_cons_succ] at hnext
      exact hnext hi
  · intro h i hi
    cases i with
    | zero =>
      rw [List.getElem?_cons_zero, Option.some.injEq] at hi
      exact h.1 hi
    | succ i => exact h.2 i hi

theorem properlyEscaped_iff (s : List Byte) : properlyEscaped s = true ↔ TildesEscaped s := by
  induction s with
  | nil =>
    refine iff_of_true rfl ?_
    intro i hi
    cases hi
  | cons c s ih =>
    rw [tildesEscaped_cons, ← ih, properlyEscaped, Bool.and_eq_true]
    simp only [Bool.or_eq_true, bne_iff_ne, beq_iff_eq, or_assoc, ne_eq, imp_iff_not_or]

/-- A slash does not make a tilde in front of it properly escaped. -/
theorem properlyEscaped_append_slash (x y : Key) : properlyEscaped (x ++ 0x2f :: y) =
    (properlyEscaped x && properlyEscaped y) := by
  induction x with
  | nil => simp [properlyEscaped]
  | cons c x ih =>
    rw [List.cons_append, properlyEscaped, properlyEscaped, ih, Bool.and_assoc]
    cases x with
    | nil => simp
    | cons d x => simp

/-- The reference tokens can be checked one by one. -/
theorem properlyEscaped_intercalate (tokens : List Key) (htokens : tokens ≠ []) :
    properlyEscaped ([0x2f].intercalate tokens) = tokens.all properlyEscaped := by
  induction tokens with
  | nil => exact absurd rfl htokens
  | cons t tokens ih =>
    cases tokens with
    | nil => simp
    | cons u tokens =>
      rw [List.intercalate_cons_cons, List.append_assoc, List.singleton_append,
        properlyEscaped_append_slash, ih (List.cons_ne_nil u tokens)]
      rfl

/-- A token that is properly escaped is the escape of another. -/
theorem exists_escape_eq {t : Key} (hescaped : properlyEscaped t = true) (hslash : 0x2f ∉ t) :
    ∃ u, escape u = t := by
  -- a tilde is read together with the digit after it
  induction hn : t.length using Nat.strongRecOn generalizing t with
  | ind n ih =>
    cases t with
    | nil => exact ⟨[], rfl⟩
    | cons c t =>
      rw [properlyEscaped, Bool.and_eq_true] at hescaped
      rw [List.mem_cons, not_or] at hslash
      rw [List.length_cons] at hn
      by_cases hc : c = 0x7e
      · have hhead : t.head? = some 0x30 ∨ t.head? = some 0x31 := by simpa [hc] using hescaped.1
        have hdigit : ∃ d u, t = d :: u ∧ (d = 0x30 ∨ d = 0x31) := by
          rcases hhead with hhead | hhead
          · obtain ⟨u, hu⟩ := List.head?_eq_some_iff.1 hhead
            exact ⟨_, u, hu, Or.inl rfl⟩
          · obtain ⟨u, hu⟩ := List.head?_eq_some_iff.1 hhead
            exact ⟨_, u, hu, Or.inr rfl⟩
        obtain ⟨d, t, rfl, hd⟩ := hdigit
        rw [properlyEscaped, Bool.and_eq_true] at hescaped
        rw [List.mem_cons, not_or] at hslash
        rw [List.length_cons] at hn
        obtain ⟨u, rfl⟩ := ih t.length (by omega) hescaped.2.2 hslash.2.2 rfl
        rcases hd with rfl | rfl
        · refine ⟨0x7e :: u, ?_⟩
          rw [escape_cons, hc]
          rfl
        · refine ⟨0x2f :: u, ?_⟩
          rw [escape_cons, hc]
          rfl
      · obtain ⟨u, rfl⟩ := ih t.length (by omega) hescaped.2 hslash.2 rfl
        refine ⟨c :: u, ?_⟩
        rw [escape_cons, escapeByte, if_neg hc, if_neg (Ne.symm hslash.1)]
        rfl

/-- The reference tokens of a text, when each is properly escaped. -/
theorem mapM_splitToken (tokens : List Key) : tokens.mapM splitToken =
    if tokens.all properlyEscaped then .ok (tokens.map unescape)
    else .error <| .thrown <|
      parseError 108 0 (bytes "escape character '~' must be followed with '0' or '1'") := by
  induction tokens with
  | nil => rfl
  | cons t tokens ih =>
    rw [List.mapM_cons, splitToken, ih, List.all_cons]
    cases properlyEscaped t with
    | false => rfl
    | true =>
      cases tokens.all properlyEscaped with
      | false => rfl
      | true => rfl

theorem split_cons (c : Byte) (s : Key) : split (c :: s) =
    if c ≠ 0x2f then
      .error <| .thrown <| parseError 107 1
        (bytes "JSON pointer must be empty or begin with '/' - was: '" ++ (c :: s) ++ bytes "'")
    else if properlyEscaped s then .ok ((s.splitOn 0x2f).map unescape)
    else .error <| .thrown <|
      parseError 108 0 (bytes "escape character '~' must be followed with '0' or '1'") := by
  have htokens := properlyEscaped_intercalate _ (List.splitOn_ne_nil 0x2f s)
  rw [List.intercalate_splitOn] at htokens
  rw [split, mapM_splitToken, htokens]

theorem not_mem_of_mem_splitOn {s t : Key} (h : t ∈ s.splitOn 0x2f) : 0x2f ∉ t := by
  induction hn : s.length using Nat.strongRecOn generalizing s with
  | ind n ih =>
    by_cases hs : 0x2f ∈ s
    · obtain ⟨x, y, rfl, hx⟩ := List.eq_append_cons_of_mem hs
      rw [List.splitOn_append_cons_self_of_not_mem hx, List.mem_cons] at h
      rcases h with rfl | h
      · exact hx
      · refine ih y.length ?_ h rfl
        rw [← hn, List.length_append, List.length_cons]
        omega
    · rw [List.splitOn_eq_singleton hs, List.mem_singleton] at h
      rwa [h]

/-- What `unescape` makes of the tokens of a text is escaped to these tokens. -/
theorem map_escape_unescape {s : Key} (hescaped : properlyEscaped s = true) :
    ((s.splitOn 0x2f).map unescape).map escape = s.splitOn 0x2f := by
  have htokens := properlyEscaped_intercalate _ (List.splitOn_ne_nil 0x2f s)
  rw [List.intercalate_splitOn, hescaped, eq_comm, List.all_eq_true] at htokens
  rw [List.map_map]
  refine (List.map_congr_left fun t ht => ?_).trans (List.map_id _)
  obtain ⟨u, rfl⟩ := exists_escape_eq (htokens t ht) (not_mem_of_mem_splitOn ht)
  rw [Function.comp_apply, unescape_escape]
  rfl

/-- A pointer that has been read is written as the text it was read from. -/
theorem toString_of_split {s : Key} {p : JsonPointer} (h : split s = .ok p) :
    JsonPointer.toString p = s := by
  cases s with
  | nil =>
    cases h
    rfl
  | cons c s =>
    rw [split_cons] at h
    split at h
    · cases h
    · next hc =>
      split at h
      · next hescaped =>
        cases h
        have hmap := map_escape_unescape hescaped
        rw [not_not] at hc
        cases htokens : (s.splitOn 0x2f).map unescape with
        | nil => exact absurd (List.map_eq_nil_iff.1 htokens) (List.splitOn_ne_nil 0x2f s)
        | cons t p =>
          rw [htokens] at hmap
          rw [toString_cons, toString_cons_eq_intercalate, hmap, List.intercalate_splitOn, hc]
      · cases h

/-- The texts that are read. -/
theorem exists_split_eq_iff (s : Key) :
    (∃ p, split s = .ok p) ↔ s = [] ∨ s.head? = some 0x2f ∧ TildesEscaped s := by
  cases s with
  | nil => exact iff_of_true ⟨[], rfl⟩ (Or.inl rfl)
  | cons c s =>
    rw [split_cons, ← properlyEscaped_iff, properlyEscaped]
    by_cases hc : c = 0x2f
    · rw [if_neg (not_not.2 hc)]
      by_cases hescaped : properlyEscaped s = true
      · rw [if_pos hescaped]
        exact iff_of_true ⟨_, rfl⟩ (Or.inr ⟨congrArg some hc, by simp [hc, hescaped]⟩)
      · rw [if_neg hescaped]
        refine iff_of_false (by simp) ?_
        rintro (h | ⟨-, h⟩)
        · cases h
        · exact hescaped (Bool.and_eq_true .. ▸ h).2
    · rw [if_pos hc]
      refine iff_of_false (by simp) ?_
      rintro (h | ⟨h, -⟩)
      · cases h
      · exact hc (Option.some.inj h)

/-- The texts of JSON pointers are those that can be read, and reading and writing are inverse to
each other. -/
theorem JsonPointer.reads_and_writes :
    (∀ s : List Byte, (∃ p, split s = .ok p) ↔ s = [] ∨ s.head? = some 0x2f ∧ TildesEscaped s) ∧
    (∀ (s : List Byte) (p : JsonPointer), split s = .ok p → p.toString = s) ∧
    ∀ p : JsonPointer, split p.toString = .ok p :=
  ⟨exists_split_eq_iff, fun _ _ => toString_of_split, split_toString⟩

/-! ## Indices -/

theorem isspace_of_isDigit {c : Byte} (h : isDigit c = true) : isspace c = false := by
  rw [isDigit_iff] at h
  simp only [isspace, Bool.or_eq_false_iff, beq_eq_false_iff_ne, Bool.and_eq_false_iff,
    decide_eq_false_iff_not, UInt8.le_iff_toNat_le, ne_eq, ← UInt8.toNat_inj]
  simp
  omega

theorem takeSign_of_isDigit {c : Byte} (h : isDigit c = true) (cs : List Byte) :
    takeSign (c :: cs) = (false, c :: cs) := by
  unfold takeSign
  split
  · next hc =>
    rw [(List.cons.inj hc).1] at h
    exact absurd h (by decide)
  · next hc =>
    rw [(List.cons.inj hc).1] at h
    exact absurd h (by decide)
  · rfl

/-- The numeral of a natural number is read back as far as `int` goes. -/
theorem stoi_decimal (n : Nat) :
    stoi (decimal n) = if n < 2 ^ 31 then .ok (n : Int) else .error .outOfRange := by
  have htake : (Foundations.decimal n).takeWhile isDigit = Foundations.decimal n :=
    List.takeWhile_eq_self_iff.2 fun _ hc => isDigit_of_mem_decimal hc
  have hnum := ofDecimal_decimal n
  unfold stoi decimal
  cases hd : Foundations.decimal n with
  | nil => exact absurd hd (decimal_ne_nil n)
  | cons c cs =>
    have hc : isDigit c = true := isDigit_of_mem_decimal (n := n) (by rw [hd]; simp)
    rw [hd] at htake hnum
    rw [List.dropWhile_cons_of_neg (by rw [isspace_of_isDigit hc]; decide), takeSign_of_isDigit hc]
    simp only [htake, hnum, reduceCtorEq, if_false, Bool.false_eq_true]
    by_cases hn : n < 2 ^ 31
    · rw [if_pos hn, if_neg (by omega)]
    · rw [if_neg hn, if_pos (by omega)]

theorem arrayIndex_decimal {n : Nat} (h : n < 2 ^ 31) : arrayIndex (decimal n) = .ok n := by
  unfold arrayIndex
  rw [stoi_decimal, if_pos h]
  simp only [Except.ok.injEq]
  omega

theorem arrayIndex_decimal_of_le {n : Nat} (h : 2 ^ 31 ≤ n) :
    arrayIndex (decimal n) = .error (.std .outOfRange) := by
  unfold arrayIndex
  rw [stoi_decimal, if_neg (by omega)]

end Wpi

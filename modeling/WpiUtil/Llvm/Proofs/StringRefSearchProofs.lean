import WpiUtil.Foundations.Pieces
import WpiUtil.Llvm.StringRefSearch

/-!
# Proofs: searching a `StringRef`

The searches find the first or the last place that there is, with the table of skips too, and a split
cuts a string at the first separator again and again.
-/

namespace Wpi.StringRef

open Foundations

/-! ## Strings -/

/-- The entries of the table are as safe as the loop has come. -/
theorem badCharSkip_spec {needle : List Byte} (hle : needle.length ≤ 255) (hne : needle ≠ [])
    (c : Byte) :
    0 < (badCharSkip needle c).toNat ∧ (badCharSkip needle c).toNat ≤ needle.length ∧
      ∀ j, j < needle.length - 1 → needle[j]? = some c →
        (badCharSkip needle c).toNat ≤ needle.length - 1 - j := by
  have hpos := List.length_pos_iff.2 hne
  have hword {k : Nat} (hk : k ≤ 255) : (UInt8.ofNat k).toNat = k :=
    UInt8.toNat_ofNat_of_lt' (Nat.lt_succ_of_le hk)
  suffices hloop : ∀ k ≤ needle.length - 1, ∀ table : Byte → UInt8,
      table = (List.range k).foldl (fun table i => Function.update table (needle.getD i 0)
        (UInt8.ofNat (needle.length - 1 - i))) (fun _ => UInt8.ofNat needle.length) →
      0 < (table c).toNat ∧ (table c).toNat ≤ needle.length ∧
        ∀ j < k, needle[j]? = some c → (table c).toNat ≤ needle.length - 1 - j from
    hloop _ (Nat.le_refl _) _ rfl
  intro k
  induction k with
  | zero =>
    rintro - table rfl
    rw [List.range_zero, List.foldl_nil, hword hle]
    exact ⟨hpos, Nat.le_refl _, fun j hj => absurd hj (Nat.not_lt_zero j)⟩
  | succ k ih =>
    rintro hk table rfl
    rw [List.range_succ, List.foldl_append, List.foldl_cons, List.foldl_nil]
    obtain ⟨hpos', hle', hsafe⟩ := ih (Nat.le_of_succ_le hk) _ rfl
    by_cases hc : c = needle.getD k 0
    · rw [hc, Function.update_self, hword (by omega)]
      exact ⟨by omega, by omega, fun j hj _ => by omega⟩
    · rw [Function.update_of_ne hc]
      refine ⟨hpos', hle', fun j hj hplace => ?_⟩
      rcases Nat.lt_succ_iff_lt_or_eq.1 hj with hj | rfl
      · exact hsafe j hj hplace
      · exact absurd (by rw [List.getD_eq_getElem?_getD, hplace, Option.getD_some]) hc

theorem safeSkip_badCharSkip {needle : List Byte} (hle : needle.length ≤ 255) (hne : needle ≠ []) :
    SafeSkip needle fun c => (badCharSkip needle c).toNat where
  pos c := (badCharSkip_spec hle hne c).1
  le_length c := (badCharSkip_spec hle hne c).2.1
  ne c j hj hplace := (badCharSkip_spec hle hne c).2.2 j (by omega) hplace

/-- `find` finds the first occurrence, whichever way it goes. -/
theorem findStr_spec (s str : List Byte) (start : Nat) :
    ∃ r, findStr s str start = some r ∧ FirstFrom (OccursIn str s) start r := by
  rw [findStr]
  split
  · next hlt =>
    refine ⟨none, rfl, fun i hi hocc => ?_⟩
    have := hocc.1
    omega
  · next hstart =>
    rw [Nat.not_lt] at hstart
    simp only []
    split
    · next hnil =>
      rw [List.length_eq_zero_iff] at hnil
      rw [hnil]
      refine ⟨some start, rfl, Nat.le_refl _, ⟨hstart, List.nil_prefix⟩, fun j hj hlt => ?_⟩
      omega
    · next hne =>
      rw [List.length_eq_zero_iff] at hne
      split
      · next hshort =>
        refine ⟨none, rfl, fun i hi hocc => ?_⟩
        have := hocc.le_length
        omega
      · next hlong =>
        have hpos := List.length_pos_iff.2 hne
        refine run_slide hne ?_ (by omega) (by omega) (by omega)
        split
        · exact safeSkip_one hne
        · next hsupported =>
          rw [not_or, Nat.not_lt, Nat.not_lt] at hsupported
          exact safeSkip_badCharSkip hsupported.2 hne

theorem equalsAt_iff {s str : List Byte} {i : Nat} (h : i ≤ s.length) :
    equalsAt s str i = true ↔ OccursIn str s i := by
  rw [equalsAt, beq_iff_eq, occursIn_iff_take_drop h]

/-- `rfind` finds the last occurrence. -/
theorem rfindStr_spec (s str : List Byte) :
    LastBefore (OccursIn str s) (s.length + 1) (rfindStr s str) := by
  rw [rfindStr]
  split
  · next hshort =>
    intro i hi hocc
    have := hocc.le_length
    omega
  · next hlong =>
    have hspec := lastBelow_spec (equalsAt s str) (s.length - str.length + 1)
    refine (hspec.congr fun i hi => equalsAt_iff (by omega)).of_le (by omega) fun i hi hlt hocc => ?_
    have := hocc.le_length
    omega

instance (str s : List Byte) (i : Nat) : Decidable (OccursIn str s i) :=
  inferInstanceAs (Decidable (_ ∧ str <+: _))

/-- `count` counts all the occurrences, those that overlap too. -/
theorem countStr_eq (s str : List Byte) :
    countStr s str = (List.range (s.length + 1)).countP fun i => OccursIn str s i := by
  rw [countStr]
  split
  · next hshort =>
    refine (List.countP_eq_zero.2 fun i _ hocc => ?_).symm
    have := (of_decide_eq_true hocc).le_length
    omega
  · next hlong =>
    have hsplit : s.length + 1 = s.length - str.length + 1 + str.length := by omega
    have hrest : ((List.range str.length).map (s.length - str.length + 1 + ·)).countP
        (fun i => OccursIn str s i) = 0 := by
      refine List.countP_eq_zero.2 fun i hi hocc => ?_
      obtain ⟨k, -, rfl⟩ := List.mem_map.1 hi
      have := (of_decide_eq_true hocc).le_length
      omega
    rw [hsplit, List.range_add (n := s.length - str.length + 1), List.countP_append, hrest,
      Nat.add_zero]
    refine List.countP_congr fun i hi => ?_
    have hlt := List.mem_range.1 hi
    rw [equalsAt_iff (by omega), decide_eq_true_iff]

/-! ## Sets of characters -/

variable {test : Byte → Bool} {P : Byte → Prop}

theorem any_iff_charAt (htest : ∀ c, test c = true ↔ P c) (s : List Byte) (i : Nat) :
    s[i]?.any test = true ↔ CharAt P s i := by
  rw [Option.any_eq_true, CharAt]
  exact exists_congr fun c => and_congr_right fun _ => htest c

theorem indexFrom_spec (htest : ∀ c, test c = true ↔ P c) (s : List Byte) (start : Nat) :
    FirstFrom (CharAt P s) start (indexFrom test s start) := by
  rw [indexFrom]
  cases hfound : (s.drop (min start s.length)).findIdx? test with
  | none =>
    rintro i hi ⟨c, hc, hP⟩
    have hlt := (List.getElem?_eq_some_iff.1 hc).1
    have hmem : (s.drop (min start s.length))[i - min start s.length]? = some c := by
      rw [List.getElem?_drop, Nat.add_sub_of_le (by omega)]
      exact hc
    have hnot := List.findIdx?_eq_none_iff.1 hfound c (List.mem_of_getElem? hmem)
    rw [(htest c).2 hP] at hnot
    cases hnot
  | some k =>
    obtain ⟨hk, hhere, hbefore⟩ := List.findIdx?_eq_some_iff_getElem.1 hfound
    rw [List.length_drop] at hk
    rw [List.getElem_drop] at hhere
    refine ⟨(by omega : start ≤ min start s.length + k),
      ⟨_, List.getElem?_eq_getElem _, (htest _).1 hhere⟩, ?_⟩
    rintro j hj (hlt : j < min start s.length + k) ⟨c, hc, hP⟩
    have hplace : min start s.length + (j - min start s.length) = j := Nat.add_sub_of_le (by omega)
    refine hbefore (j - min start s.length) (by omega) ?_
    rw [List.getElem_drop, htest]
    obtain ⟨hlen, hget⟩ := List.getElem?_eq_some_iff.1 hc
    simp only [hplace, hget, hP]

theorem lastIndexBefore_spec (htest : ∀ c, test c = true ↔ P c) (s : List Byte) (start : Nat) :
    LastBefore (CharAt P s) start (lastIndexBefore test s start) := by
  have hspec := lastBelow_spec (fun i => s[i]?.any test) (min start s.length)
  refine (hspec.congr fun i _ => any_iff_charAt htest s i).of_le (Nat.min_le_left ..) ?_
  rintro i hi hlt ⟨c, hc, -⟩
  have hlen := (List.getElem?_eq_some_iff.1 hc).1
  omega

/-- The searches find what is first from `start` on, or last before it, and every occurrence is
counted. -/
theorem searches_find (s : List Byte) (start : Nat) :
    (∀ str, (∃ r, findStr s str start = some r ∧ FirstFrom (OccursIn str s) start r) ∧
      LastBefore (OccursIn str s) (s.length + 1) (rfindStr s str) ∧
      countStr s str = (List.range (s.length + 1)).countP fun i => OccursIn str s i) ∧
    (∀ c, FirstFrom (CharAt (· = c) s) start (findChar s c start) ∧
      LastBefore (CharAt (· = c) s) start (rfindChar s c start) ∧
      FirstFrom (CharAt (· ≠ c) s) start (findFirstNotOfChar s c start) ∧
      LastBefore (CharAt (· ≠ c) s) start (findLastNotOfChar s c start)) ∧
    ∀ chars, FirstFrom (CharAt (· ∈ chars) s) start (findFirstOf s chars start) ∧
      LastBefore (CharAt (· ∈ chars) s) start (findLastOf s chars start) ∧
      FirstFrom (CharAt (· ∉ chars) s) start (findFirstNotOf s chars start) ∧
      LastBefore (CharAt (· ∉ chars) s) start (findLastNotOf s chars start) := by
  refine ⟨fun str => ⟨findStr_spec s str start, rfindStr_spec s str, countStr_eq s str⟩,
    fun c => ?_, fun chars => ?_⟩
  · have hequal : ∀ d, (d == c) = true ↔ d = c := fun d => beq_iff_eq
    have hother : ∀ d, (d != c) = true ↔ d ≠ c := fun d => bne_iff_ne
    exact ⟨indexFrom_spec hequal s start, lastIndexBefore_spec hequal s start,
      indexFrom_spec hother s start, lastIndexBefore_spec hother s start⟩
  · have hmem : ∀ d, chars.contains d = true ↔ d ∈ chars := fun d => List.contains_iff_mem
    have hnot : ∀ d, (!chars.contains d) = true ↔ d ∉ chars := by
      intro d
      rw [Bool.not_eq_true', ← Bool.not_eq_true, hmem]
    exact ⟨indexFrom_spec hmem s start, lastIndexBefore_spec hmem s start,
      indexFrom_spec hnot s start, lastIndexBefore_spec hnot s start⟩

/-! ## Splits -/

theorem append_kept (keepEmpty : Bool) (a : List (List Byte)) (p : List Byte) :
    a ++ kept keepEmpty [p] = if keepEmpty || !p.isEmpty then a ++ [p] else a := by
  cases h : keepEmpty || !p.isEmpty with
  | true =>
    have hkept : kept keepEmpty [p] = [p] := List.filter_cons_of_pos h
    rw [if_pos rfl, hkept]
  | false =>
    have hkept : kept keepEmpty [p] = [] :=
      List.filter_cons_of_neg (by rw [h]; exact Bool.false_ne_true)
    rw [if_neg Bool.false_ne_true, hkept, List.append_nil]

/-- The loop sees from the place of a separator whether there is something in front of it. -/
theorem push_take {s : List Byte} {idx : Nat} (h : idx ≤ s.length) (keepEmpty : Bool)
    (a : List (List Byte)) :
    (if keepEmpty || 0 < idx then a ++ [s.take idx] else a) = a ++ kept keepEmpty [s.take idx] := by
  have hlen : (s.take idx).length = idx := List.length_take_of_le h
  have hempty : decide (0 < idx) = !(s.take idx).isEmpty := by
    rw [Bool.eq_iff_iff, decide_eq_true_iff, Bool.not_eq_true', List.isEmpty_eq_false_iff,
      ← List.length_pos_iff, hlen]
  rw [hempty, append_kept]

/-- What is in front of the first separator, and what comes after it. -/
theorem eq_append_of_first {sep s : List Byte} {idx : Nat}
    (h : FirstFrom (OccursIn sep s) 0 (some idx)) :
    s = s.take idx ++ sep ++ s.drop (idx + sep.length) ∧ EndsAtFirst sep (s.take idx) := by
  obtain ⟨-, hocc, hbefore⟩ := h
  have hsplit : s = s.take idx ++ sep ++ s.drop (idx + sep.length) := by
    conv_lhs => rw [← List.take_append_drop idx s, ← List.take_append_drop sep.length (s.drop idx)]
    rw [hocc.2.take_drop, List.drop_drop, List.append_assoc]
  have hlen : (s.take idx).length = idx := List.length_take_of_le hocc.1
  have hfirst : FirstAt sep (s.take idx ++ sep ++ s.drop (idx + sep.length)) (s.take idx).length := by
    rw [← hsplit, hlen]
    exact ⟨hocc.2, fun j hj hat => hbefore j (Nat.zero_le _) hj
      ⟨Nat.le_trans (Nat.le_of_lt hj) hocc.1, hat⟩⟩
  exact ⟨hsplit, endsAtFirst_iff.2 hfirst⟩

/-- The loop cuts the string into its pieces, if its search finds the first separator. -/
theorem splitLoop_spec {findSep : List Byte → Option (Option Nat)} {sep : List Byte}
    (hsep : sep ≠ []) (hfind : ∀ s, ∃ r, findSep s = some r ∧ FirstFrom (OccursIn sep s) 0 r)
    (keepEmpty : Bool) {turns : Nat} {s : List Byte} {maxSplit : Int} (a : List (List Byte))
    (hturns : s.length < turns)
    (hint : 0 ≤ maxSplit ∨ (s.length : Int) < maxSplit + 0x80000000) :
    ∃ ps, Pieces sep s maxSplit ps ∧
      splitLoop findSep sep.length keepEmpty turns s maxSplit a = some (a ++ kept keepEmpty ps) := by
  induction turns generalizing s maxSplit a with
  | zero => exact absurd hturns (Nat.not_lt_zero _)
  | succ turns ih =>
    have hbound : ¬maxSplit = -0x80000000 := by omega
    rw [splitLoop, if_neg hbound, ← append_kept]
    split
    · next hzero => exact ⟨[s], pieces_singleton fun hne => absurd hzero hne, rfl⟩
    · next hmax =>
      obtain ⟨r, hr, hfirst⟩ := hfind s
      rw [hr]
      cases r with
      | none =>
        refine ⟨[s], pieces_singleton fun _ => ?_, rfl⟩
        rintro ⟨i, hocc⟩
        have hle := hocc.le_length hsep
        exact hfirst i (Nat.zero_le _) ⟨by omega, hocc⟩
      | some idx =>
        obtain ⟨hsplit, hends⟩ := eq_append_of_first hfirst
        have hle := hfirst.2.1.le_length
        have hpos := List.length_pos_iff.2 hsep
        have hrest : (s.drop (idx + sep.length)).length < s.length := by
          rw [List.length_drop]
          omega
        obtain ⟨ps, hps, hloop⟩ := @ih (s.drop (idx + sep.length)) (maxSplit - 1)
          (a ++ kept keepEmpty [s.take idx]) (by omega) (by omega)
        refine ⟨s.take idx :: ps, ?_, ?_⟩
        · have hcons := hps.cons hmax hends
          rwa [← hsplit] at hcons
        · simp only []
          rw [push_take hfirst.2.1.1, hloop, List.append_assoc, kept, kept, kept, ← List.filter_append]
          rfl

theorem occursIn_singleton_iff {c : Byte} {s : List Byte} {i : Nat} :
    OccursIn [c] s i ↔ CharAt (· = c) s i := by
  constructor
  · exact fun h => ⟨c, h.2.getElem?_eq, rfl⟩
  · rintro ⟨c, hc, rfl⟩
    obtain ⟨hlt, hget⟩ := List.getElem?_eq_some_iff.1 hc
    refine ⟨Nat.le_of_lt hlt, s.drop (i + 1), ?_⟩
    rw [← hget]
    exact (List.drop_eq_getElem_cons hlt).symm

/-- `split` cuts a string at every separator, or at the first ones only: the pieces are determined by
this, and joined by the separator they are the string. A character is a separator of length one. -/
theorem splits_cut (a : List (List Byte)) (s : List Byte) (maxSplit : Int) (keepEmpty : Bool)
    (hint : 0 ≤ maxSplit ∨ (s.length : Int) < maxSplit + 0x80000000) :
    (∀ sep ≠ [], ∃ ps, (∀ qs, Pieces sep s maxSplit qs ↔ qs = ps) ∧
      splitAllStr a s sep maxSplit keepEmpty = some (a ++ kept keepEmpty ps)) ∧
    ∀ c, splitAllChar a s c maxSplit keepEmpty = splitAllStr a s [c] maxSplit keepEmpty := by
  have hstr : ∀ sep ≠ [], ∃ ps, Pieces sep s maxSplit ps ∧
      splitAllStr a s sep maxSplit keepEmpty = some (a ++ kept keepEmpty ps) := fun sep hsep =>
    splitLoop_spec hsep (fun s => findStr_spec s sep 0) keepEmpty a (Nat.lt_succ_self _) hint
  constructor
  · intro sep hsep
    obtain ⟨ps, hps, hsplit⟩ := hstr sep hsep
    refine ⟨ps, fun qs => ⟨fun hqs => hqs.unique hps, ?_⟩, hsplit⟩
    rintro rfl
    exact hps
  · intro c
    have hfind : ∀ s, ∃ r, some (findChar s c 0) = some r ∧ FirstFrom (OccursIn [c] s) 0 r := by
      intro s
      refine ⟨_, rfl, (indexFrom_spec (fun d => beq_iff_eq) s 0).congr fun i => ?_⟩
      exact occursIn_singleton_iff.symm
    obtain ⟨ps, hps, hsplit⟩ := hstr [c] (List.cons_ne_nil _ _)
    obtain ⟨qs, hqs, hchar⟩ := splitLoop_spec (List.cons_ne_nil c []) hfind keepEmpty a
      (Nat.lt_succ_self s.length) hint
    rw [hsplit, ← hqs.unique hps]
    exact hchar

theorem splits_cut_path :
    (∀ sep ≠ [], ∃ ps, (∀ qs, Pieces sep (bytes "/a//b") (-1) qs ↔ qs = ps) ∧
      splitAllStr [] (bytes "/a//b") sep (-1) false = some ([] ++ kept false ps)) ∧
    ∀ c, splitAllChar [] (bytes "/a//b") c (-1) false =
      splitAllStr [] (bytes "/a//b") [c] (-1) false :=
  splits_cut [] (bytes "/a//b") (-1) false (Or.inr (by decide))

end Wpi.StringRef

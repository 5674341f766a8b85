import Mathlib.Data.List.GetD
import Mathlib.Data.List.TakeWhile
import Mathlib.Tactic.IntervalCases
import WpiUtil.Foundations.Sextets
import WpiUtil.Support.Base64

/-!
# Base64 there and back

The characters that are written are sextets of the bits of the input, and the bytes that are read are
octets of the bits of the characters. What `Base64Decode` returns and looks at beyond that depends on
what comes after the characters.
-/

namespace Wpi

open Foundations

/-! ## The tables -/

theorem length_basis64 : basis64.length = 64 := by decide

set_option maxRecDepth 2000 in
theorem length_pr2sixTable : pr2sixTable.length = 256 := rfl

theorem map_pr2six_basis64 : basis64.map pr2six = List.range 64 := by decide

theorem pr2six_basis64 {s : Nat} (h : s < 64) : pr2six (basis64.getD s 0) = s := by
  have hs := congrArg (·[s]?) map_pr2six_basis64
  simp only [List.getElem?_map, List.getElem?_range h] at hs
  obtain ⟨c, hc, hcs⟩ := Option.map_eq_some_iff.1 hs
  rw [List.getD_eq_getElem?_getD, hc]
  exact hcs

set_option maxRecDepth 4000 in
theorem zipIdx_pr2sixTable : ∀ e ∈ pr2sixTable.zipIdx, e.1 ≤ 63 →
    basis64.getD e.1 0 = UInt8.ofNat e.2 := by
  decide

theorem basis64_pr2six (c : Byte) (h : pr2six c ≤ 63) : basis64.getD (pr2six c) 0 = c := by
  have hlt : c.toNat < pr2sixTable.length := by
    rw [length_pr2sixTable]
    exact UInt8.toNat_lt c
  have hmem : (pr2six c, c.toNat) ∈ pr2sixTable.zipIdx := by
    rw [List.mk_mem_zipIdx_iff_getElem?, pr2six, List.getD_eq_getElem _ _ hlt]
    exact List.getElem?_eq_getElem hlt
  rw [zipIdx_pr2sixTable _ hmem h, UInt8.ofNat_toNat]

/-- The table has sextets for the characters of the alphabet. -/
theorem pr2six_le_iff (c : Byte) : pr2six c ≤ 63 ↔ c ∈ basis64 := by
  constructor
  · intro h
    have hlt : pr2six c < basis64.length := by
      rw [length_basis64]
      omega
    rw [← basis64_pr2six c h, List.getD_eq_getElem _ _ hlt]
    exact List.getElem_mem hlt
  · intro h
    obtain ⟨s, hs, rfl⟩ := List.getElem_of_mem h
    have hlt := hs
    rw [length_basis64] at hlt
    have hsix := pr2six_basis64 hlt
    rw [List.getD_eq_getElem _ _ hs] at hsix
    omega

/-! ## Encoding -/

theorem or_eq_add {s t : Nat} (i : Nat) (h : t < 2 ^ i) : s * 2 ^ i ||| t = s * 2 ^ i + t := by
  rw [← Nat.shiftLeft_eq, Nat.shiftLeft_add_eq_or_of_lt h]

theorem sextet_high (a : Byte) : ((a >>> 2) &&& 0x3f).toNat = a.toNat / 4 := by
  have ha := UInt8.toNat_lt a
  have hmask := Nat.and_two_pow_sub_one_eq_mod (a.toNat / 4) 6
  rw [UInt8.toNat_and, UInt8.toNat_shiftRight, Nat.shiftRight_eq_div_pow]
  change a.toNat / 4 &&& 2 ^ 6 - 1 = _
  omega

theorem sextet_low (c : Byte) : (c &&& 0x3f).toNat = c.toNat % 64 := by
  rw [UInt8.toNat_and]
  exact Nat.and_two_pow_sub_one_eq_mod c.toNat 6

theorem sextet_two (a : Byte) : ((a &&& 0x3) <<< 4).toNat = a.toNat % 4 * 16 := by
  have hmask := Nat.and_two_pow_sub_one_eq_mod a.toNat 2
  rw [UInt8.toNat_shiftLeft, UInt8.toNat_and, Nat.shiftLeft_eq]
  change (a.toNat &&& 2 ^ 2 - 1) * 16 % 256 = _
  omega

theorem sextet_four (b : Byte) : ((b &&& 0xf) <<< 2).toNat = b.toNat % 16 * 4 := by
  have hmask := Nat.and_two_pow_sub_one_eq_mod b.toNat 4
  rw [UInt8.toNat_shiftLeft, UInt8.toNat_and, Nat.shiftLeft_eq]
  change (b.toNat &&& 2 ^ 4 - 1) * 4 % 256 = _
  omega

theorem high_four (b : Byte) : ((b &&& 0xf0) >>> 4).toNat = b.toNat / 16 := by
  have hb := UInt8.toNat_lt b
  have hmask := Nat.and_two_pow_sub_one_eq_mod (b.toNat / 16) 4
  rw [UInt8.toNat_shiftRight, UInt8.toNat_and, Nat.shiftRight_and_distrib,
    Nat.shiftRight_eq_div_pow]
  change b.toNat / 16 &&& 2 ^ 4 - 1 = _
  omega

theorem high_two (c : Byte) : ((c &&& 0xc0) >>> 6).toNat = c.toNat / 64 := by
  have hc := UInt8.toNat_lt c
  have hmask := Nat.and_two_pow_sub_one_eq_mod (c.toNat / 64) 2
  rw [UInt8.toNat_shiftRight, UInt8.toNat_and, Nat.shiftRight_and_distrib,
    Nat.shiftRight_eq_div_pow]
  change c.toNat / 64 &&& 2 ^ 2 - 1 = _
  omega

theorem sextet_two_four (a b : Byte) :
    (((a &&& 0x3) <<< 4) ||| ((b &&& 0xf0) >>> 4)).toNat = a.toNat % 4 * 16 + b.toNat / 16 := by
  have hb := UInt8.toNat_lt b
  rw [UInt8.toNat_or, sextet_two, high_four]
  exact or_eq_add 4 (by omega)

theorem sextet_four_two (b c : Byte) :
    (((b &&& 0xf) <<< 2) ||| ((c &&& 0xc0) >>> 6)).toNat = b.toNat % 16 * 4 + c.toNat / 64 := by
  have hc := UInt8.toNat_lt c
  rw [UInt8.toNat_or, sextet_four, high_two]
  exact or_eq_add 2 (by omega)

/-- `basis_64[s]`. -/
def sextetDigit (s : Nat) : Byte := basis64.getD s 0

/-- The characters that fill up the last group. -/
def padding (n : Nat) : List Byte := List.replicate ((3 - n % 3) % 3) 0x3d

/-- What `Base64Encode` writes are the sextets of the input, and the padding. -/
theorem base64Encode_eq (plain : List Byte) : base64Encode plain =
    (toSextets (plain.map UInt8.toNat)).map sextetDigit ++ padding plain.length := by
  induction plain using base64Encode.induct with
  | case1 a b c plain ih =>
    have hpadding : padding (a :: b :: c :: plain).length = padding plain.length := by
      simp only [padding, List.length_cons]
      congr 1
      omega
    rw [base64Encode, ih, hpadding]
    simp only [base64Digit, List.map_cons, toSextets, sextet_high, sextet_two_four, sextet_four_two,
      List.cons_append, sextetDigit]
    rw [sextet_low]
  | case2 a b =>
    simp only [base64Encode, base64Digit, List.map_cons, List.map_nil, toSextets, sextet_high,
      sextet_two_four, sextet_four, sextetDigit]
    rfl
  | case3 a =>
    simp only [base64Encode, base64Digit, List.map_cons, List.map_nil, toSextets, sextet_high,
      sextet_two, sextetDigit]
    rfl
  | case4 => rfl

/-! ## Decoding -/

section Examining

variable {encoded : MemoryRef}

/-- How far the alphabet goes from position `fin` on. -/
def scanned (encoded : MemoryRef) (fin left : Nat) : Nat :=
  ((List.range' fin left).takeWhile fun i => decide (pr2six (encoded.data i) ≤ 63)).length

theorem run_scanLoop (left fin : Nat) (log : List Nat) :
    (scanLoop encoded left fin).run log =
      (fin + scanned encoded fin left, log ++ List.range' fin (scanned encoded fin left + 1)) := by
  induction left generalizing fin log with
  | zero => rfl
  | succ left ih =>
    have hrun : (scanLoop encoded (left + 1) fin).run log =
        (if pr2six (encoded.data fin) ≤ 63 then scanLoop encoded left (fin + 1)
          else pure fin).run (log ++ [fin]) := rfl
    rw [hrun, scanned, List.range'_succ]
    by_cases h : pr2six (encoded.data fin) ≤ 63
    · rw [if_pos h, List.takeWhile_cons_of_pos (by simpa using h), ih, List.length_cons]
      refine Prod.ext ?_ ?_
      · change fin + 1 + scanned encoded (fin + 1) left = fin + (scanned encoded (fin + 1) left + 1)
        omega
      · change log ++ [fin] ++ List.range' (fin + 1) (scanned encoded (fin + 1) left + 1) =
          log ++ List.range' fin (scanned encoded (fin + 1) left + 1 + 1)
        rw [List.range'_succ (n := scanned encoded (fin + 1) left + 1), List.append_assoc]
        rfl
    · rw [if_neg h, List.takeWhile_cons_of_neg (by simpa using h)]
      rfl

theorem ofNat_congr {m n : Nat} (h : m % 256 = n % 256) : UInt8.ofNat m = UInt8.ofNat n := by
  rw [← UInt8.toNat_inj, UInt8.toNat_ofNat', UInt8.toNat_ofNat']
  exact h

theorem octet_first {s t : Nat} (ht : t < 64) : s <<< 2 ||| t >>> 4 = s * 4 + t / 16 := by
  rw [Nat.shiftLeft_eq, Nat.shiftRight_eq_div_pow]
  exact or_eq_add 2 (by omega)

theorem octet_second {t u : Nat} (hu : u < 64) :
    UInt8.ofNat (t <<< 4 ||| u >>> 2) = UInt8.ofNat (t % 16 * 16 + u / 4) := by
  have hor : t <<< 4 ||| u >>> 2 = t * 16 + u / 4 := by
    rw [Nat.shiftLeft_eq, Nat.shiftRight_eq_div_pow]
    exact or_eq_add 4 (by omega)
  rw [hor]
  exact ofNat_congr (by omega)

theorem octet_third {u v : Nat} (hv : v < 64) :
    UInt8.ofNat (u <<< 6 ||| v) = UInt8.ofNat (u % 4 * 64 + v) := by
  have hor : u <<< 6 ||| v = u * 64 + v := by
    rw [Nat.shiftLeft_eq]
    exact or_eq_add 6 hv
  rw [hor]
  exact ofNat_congr (by omega)

/-- The number of characters in the last group. -/
def lastLength (n : Nat) : Nat := if n = 0 then 0 else (n - 1) % 4 + 1

/-- An action reads `n` characters from position `cur` on, and no others. -/
def Reads {α : Type} (cur n : Nat) (x : Examining α) (a : α) : Prop :=
  ∀ log, ∃ positions : List Nat, x.run log = (a, log ++ positions) ∧
    ∀ i ∈ positions, cur ≤ i ∧ i < cur + n

theorem Reads.pure {α : Type} (cur n : Nat) (a : α) : Reads cur n (Pure.pure a) a :=
  fun log => ⟨[], by rw [List.append_nil]; rfl, fun _ hi => nomatch hi⟩

theorem Reads.bind {α β : Type} {cur n : Nat} {x : Examining α} {a : α} {f : α → Examining β} {b : β}
    (hx : Reads cur n x a) (hf : Reads cur n (f a) b) : Reads cur n (x >>= f) b := by
  intro log
  obtain ⟨positions, hrun, hpositions⟩ := hx log
  obtain ⟨positions', hrun', hpositions'⟩ := hf (log ++ positions)
  refine ⟨positions ++ positions', ?_, fun i hi => ?_⟩
  · rw [StateT.run_bind, hrun, ← List.append_assoc]
    exact hrun'
  · rcases List.mem_append.1 hi with hi | hi
    · exact hpositions i hi
    · exact hpositions' i hi

theorem Reads.mono {α : Type} {cur n cur' n' : Nat} {x : Examining α} {a : α} (h : Reads cur n x a)
    (hcur : cur' ≤ cur) (hn : cur + n ≤ cur' + n') : Reads cur' n' x a := by
  intro log
  obtain ⟨positions, hrun, hpositions⟩ := h log
  refine ⟨positions, hrun, fun i hi => ?_⟩
  obtain ⟨hle, hlt⟩ := hpositions i hi
  omega

theorem reads_examine {cur n i : Nat} (hle : cur ≤ i) (hlt : i < cur + n) :
    Reads cur n (examine encoded i) (encoded.data i) := by
  refine fun log => ⟨[i], rfl, fun k hk => ?_⟩
  rw [List.mem_singleton.1 hk]
  exact ⟨hle, hlt⟩

/-- The sextet at position `i`. -/
def sextetAt (encoded : MemoryRef) (i : Nat) : Nat := pr2six (encoded.data i)

variable {cur n : Nat}

theorem reads_firstByte (hn : 2 ≤ n) (h : sextetAt encoded (cur + 1) < 64) :
    Reads cur n (firstByte encoded cur)
      (UInt8.ofNat (sextetAt encoded cur * 4 + sextetAt encoded (cur + 1) / 16)) := by
  refine (reads_examine (Nat.le_refl cur) (by omega)).bind
    ((reads_examine (Nat.le_succ cur) (by omega)).bind ?_)
  rw [← octet_first h]
  exact Reads.pure cur n _

theorem reads_secondByte (hn : 3 ≤ n) (h : sextetAt encoded (cur + 2) < 64) :
    Reads cur n (secondByte encoded cur)
      (UInt8.ofNat (sextetAt encoded (cur + 1) % 16 * 16 + sextetAt encoded (cur + 2) / 4)) := by
  refine (reads_examine (Nat.le_succ cur) (by omega)).bind
    ((reads_examine (by omega) (by omega)).bind ?_)
  rw [← octet_second h]
  exact Reads.pure cur n _

theorem reads_thirdByte (hn : 4 ≤ n) (h : sextetAt encoded (cur + 3) < 64) :
    Reads cur n (thirdByte encoded cur)
      (UInt8.ofNat (sextetAt encoded (cur + 2) % 4 * 64 + sextetAt encoded (cur + 3))) := by
  refine (reads_examine (by omega) (by omega)).bind
    ((reads_examine (by omega) (by omega)).bind ?_)
  rw [← octet_third h]
  exact Reads.pure cur n _

/-- The octets of `n` characters from position `cur` on. -/
def octetsFrom (encoded : MemoryRef) (cur n : Nat) : List Byte :=
  (toOctets ((List.range' cur n).map (sextetAt encoded))).map UInt8.ofNat

theorem Reads.ifMoreThan {k : Nat} {x : Examining Byte} {a : Byte} (h : k < n → Reads cur n x a) :
    Reads cur n (Wpi.ifMoreThan k n x) (if k < n then [a] else []) := by
  unfold Wpi.ifMoreThan
  by_cases hk : k < n
  · rw [if_pos hk, if_pos hk]
    intro log
    obtain ⟨positions, hrun, hpositions⟩ := h hk log
    refine ⟨positions, ?_, hpositions⟩
    rw [StateT.run_map, hrun]
    rfl
  · rw [if_neg hk, if_neg hk]
    exact Reads.pure cur n []

theorem octetsFrom_of_le (hn : n ≤ 4) : octetsFrom encoded cur n =
    (if 1 < n then [UInt8.ofNat (sextetAt encoded cur * 4 + sextetAt encoded (cur + 1) / 16)]
      else []) ++
    (if 2 < n then
      [UInt8.ofNat (sextetAt encoded (cur + 1) % 16 * 16 + sextetAt encoded (cur + 2) / 4)]
      else []) ++
    (if 3 < n then
      [UInt8.ofNat (sextetAt encoded (cur + 2) % 4 * 64 + sextetAt encoded (cur + 3))]
      else []) := by
  unfold octetsFrom
  interval_cases n <;> rfl

theorem reads_lastGroup (hn : n ≤ 4) (h : ∀ i, cur ≤ i → i < cur + n → sextetAt encoded i < 64) :
    Reads cur n (lastGroup encoded cur n) (octetsFrom encoded cur n, n) := by
  have hsix : ∀ k, k < n → sextetAt encoded (cur + k) < 64 := fun k hk => h _ (by omega) (by omega)
  have hfirst (hlt : 1 < n) := reads_firstByte hlt (hsix 1 hlt)
  have hsecond (hlt : 2 < n) := reads_secondByte hlt (hsix 2 hlt)
  have hthird (hlt : 3 < n) := reads_thirdByte hlt (hsix 3 hlt)
  rw [octetsFrom_of_le hn]
  unfold lastGroup
  apply Reads.bind (Reads.ifMoreThan hfirst)
  apply Reads.bind (Reads.ifMoreThan hsecond)
  apply Reads.bind (Reads.ifMoreThan hthird)
  exact Reads.pure cur n _

theorem octetsFrom_add_four (cur n : Nat) : octetsFrom encoded cur (n + 4) =
    UInt8.ofNat (sextetAt encoded cur * 4 + sextetAt encoded (cur + 1) / 16) ::
      UInt8.ofNat (sextetAt encoded (cur + 1) % 16 * 16 + sextetAt encoded (cur + 2) / 4) ::
      UInt8.ofNat (sextetAt encoded (cur + 2) % 4 * 64 + sextetAt encoded (cur + 3)) ::
      octetsFrom encoded (cur + 4) n := by
  unfold octetsFrom
  simp only [List.range'_succ, List.map_cons, toOctets]

theorem lastLength_of_le (hn : n ≤ 4) : lastLength n = n := by
  unfold lastLength
  split
  · omega
  · omega

theorem lastLength_add_four (hn : 0 < n) : lastLength (n + 4) = lastLength n := by
  unfold lastLength
  rw [if_neg (by omega), if_neg (by omega)]
  omega

/-- The groups give the octets of the characters, and nothing else is looked at. -/
theorem reads_groupLoop (h : ∀ i, cur ≤ i → i < cur + n → sextetAt encoded i < 64) :
    Reads cur n (groupLoop encoded cur n) (octetsFrom encoded cur n, lastLength n) := by
  induction cur, n using groupLoop.induct with
  | case1 cur n ih =>
    have hrest := ih fun i hle hlt => h i (by omega) (by omega)
    have hoctets : octetsFrom encoded cur (n + 5) = _ := octetsFrom_add_four cur (n + 1)
    have hlast : lastLength (n + 5) = lastLength (n + 1) := lastLength_add_four (Nat.succ_pos n)
    rw [groupLoop]
    change Reads cur (n + 5) _ (octetsFrom encoded cur (n + 5), lastLength (n + 5))
    rw [hoctets, hlast]
    have hsix : ∀ k, k < 4 → sextetAt encoded (cur + k) < 64 :=
      fun k hk => h _ (by omega) (by omega)
    apply Reads.bind (reads_firstByte (by omega) (hsix 1 (by omega)))
    apply Reads.bind (reads_secondByte (by omega) (hsix 2 (by omega)))
    apply Reads.bind (reads_thirdByte (by omega) (hsix 3 (by omega)))
    apply Reads.bind (hrest.mono (by omega) (by omega))
    exact Reads.pure cur (n + 5) _
  | case2 cur n hlast =>
    have hn : n ≤ 4 := by
      by_contra hlt
      exact hlast (n - 5) (by omega)
    rw [lastLength_of_le hn, groupLoop]
    · exact reads_lastGroup hn h
    · exact hlast

/-! ## Whole inputs -/

theorem map_sextetAt (n : Nat) (hn : n ≤ encoded.size) :
    (List.range' 0 n).map (sextetAt encoded) = (encoded.bytes.take n).map pr2six := by
  rw [MemoryRef.bytes, ← List.map_take, List.take_range, Nat.min_eq_left hn, List.map_map,
    List.range_eq_range']
  rfl

theorem digits_eq : encoded.digits = ((List.range' 0 encoded.size).takeWhile fun i =>
    decide (pr2six (encoded.data i) ≤ 63)).map encoded.data := by
  rw [MemoryRef.digits, MemoryRef.bytes, List.takeWhile_map, List.range_eq_range']
  congr 2
  funext i
  exact decide_eq_decide.2 (pr2six_le_iff _).symm

theorem scanned_eq : scanned encoded 0 encoded.size = encoded.digits.length := by
  rw [scanned, digits_eq, List.length_map]

theorem length_digits_le : encoded.digits.length ≤ encoded.size := by
  have hle := (List.takeWhile_prefix (l := encoded.bytes) fun c => decide (c ∈ basis64)).length_le
  rw [MemoryRef.bytes, List.length_map, List.length_range] at hle
  exact hle

theorem take_length_digits : encoded.bytes.take encoded.digits.length = encoded.digits :=
  (List.prefix_iff_eq_take.1 (List.takeWhile_prefix _)).symm

theorem sextetAt_lt {i : Nat} (h : i < encoded.digits.length) : sextetAt encoded i < 64 := by
  have hmem : encoded.digits[i] ∈ basis64 := by
    simpa using List.mem_takeWhile_imp (List.getElem_mem h)
  have hdata : encoded.digits[i] = encoded.data i := by
    have hget : encoded.digits[i]? = some (encoded.data i) := by
      have hlt := Nat.lt_of_lt_of_le h length_digits_le
      rw [← take_length_digits, List.getElem?_take_of_lt h, MemoryRef.bytes]
      simp [hlt]
    exact (List.getElem?_eq_some_iff.1 hget).2
  rw [hdata, ← pr2six_le_iff] at hmem
  rw [sextetAt]
  omega

theorem octetsFrom_digits : octetsFrom encoded 0 encoded.digits.length =
    (toOctets (encoded.digits.map pr2six)).map UInt8.ofNat := by
  rw [octetsFrom, map_sextetAt _ length_digits_le, take_length_digits]

/-- The count after the loops: the last group is taken to be full. -/
theorem count_eq (hn : n ≠ 0) : n + ((4 - lastLength n) &&& 3) = n + (4 - n % 4) % 4 := by
  have hand : (4 - lastLength n) &&& 3 = (4 - lastLength n) % 4 :=
    Nat.and_two_pow_sub_one_eq_mod (4 - lastLength n) 2
  rw [hand, lastLength, if_neg hn]
  omega

/-- What `Base64Decode` writes, returns and looks at, for any input. -/
theorem base64Decode_spec (encoded : MemoryRef) :
    encoded.plain = (toOctets (encoded.digits.map pr2six)).map UInt8.ofNat ∧
      encoded.numRead = encoded.digits.length + (4 - encoded.digits.length % 4) % 4 ∧
      ∃ positions, encoded.examined = List.range (encoded.digits.length + 1) ++ positions ∧
        ∀ i ∈ positions, i < encoded.digits.length := by
  have hscan : (scanLoop encoded encoded.size 0).run [] = _ := run_scanLoop encoded.size 0 []
  rw [scanned_eq, Nat.zero_add, List.nil_append, ← List.range_eq_range'] at hscan
  have hrun : (base64Decode encoded).run [] =
      (if encoded.digits.length = 0 then pure ([], 0)
        else groupLoop encoded 0 encoded.digits.length >>= fun r =>
          pure (r.1, encoded.digits.length + ((4 - r.2) &&& 3))).run
        (List.range (encoded.digits.length + 1)) := by
    unfold base64Decode
    rw [StateT.run_bind, hscan]
    rfl
  unfold MemoryRef.plain MemoryRef.numRead MemoryRef.examined
  rw [hrun]
  by_cases hzero : encoded.digits.length = 0
  · have hnil : encoded.digits = [] := List.length_eq_zero_iff.1 hzero
    rw [if_pos hzero, hnil]
    exact ⟨rfl, rfl, [], rfl, fun _ hi => nomatch hi⟩
  · have hgroups : Reads 0 encoded.digits.length (groupLoop encoded 0 encoded.digits.length)
        (octetsFrom encoded 0 encoded.digits.length, lastLength encoded.digits.length) :=
      reads_groupLoop fun i _ hi => sextetAt_lt (by omega)
    obtain ⟨positions, hloop, hpositions⟩ := hgroups (List.range (encoded.digits.length + 1))
    rw [if_neg hzero, StateT.run_bind, hloop]
    refine ⟨octetsFrom_digits, count_eq hzero, positions, rfl, fun i hi => ?_⟩
    have hlt := (hpositions i hi).2
    omega

end Examining

/-! ## There and back -/

theorem sextetDigit_mem {s : Nat} (h : s < 64) : sextetDigit s ∈ basis64 := by
  have hlt : s < basis64.length := by rwa [length_basis64]
  rw [sextetDigit, List.getD_eq_getElem _ _ hlt]
  exact List.getElem_mem hlt

theorem toNat_lt_of_mem_map {plain : List Byte} : ∀ a ∈ plain.map UInt8.toNat, a < 256 := by
  intro a ha
  obtain ⟨c, -, rfl⟩ := List.mem_map.1 ha
  exact UInt8.toNat_lt c

/-- In an encoding with something after it, the characters that are read are the sextets. -/
theorem digits_of_encoding {plain rest : List Byte} (hrest : ∀ c, rest.head? = some c → c ∉ basis64)
    {encoded : MemoryRef} (h : encoded.bytes = base64Encode plain ++ rest) :
    encoded.digits = (toSextets (plain.map UInt8.toNat)).map sextetDigit := by
  have hhead : ∀ c, (padding plain.length ++ rest).head? = some c → c ∉ basis64 := by
    intro c hc
    unfold padding at hc
    cases hn : (3 - plain.length % 3) % 3 with
    | zero =>
      rw [hn] at hc
      exact hrest c hc
    | succ k =>
      rw [hn] at hc
      cases hc
      decide
  have hdigits : ∀ c ∈ (toSextets (plain.map UInt8.toNat)).map sextetDigit,
      decide (c ∈ basis64) = true := by
    intro c hc
    obtain ⟨s, hs, rfl⟩ := List.mem_map.1 hc
    exact decide_eq_true (sextetDigit_mem (lt_of_mem_toSextets toNat_lt_of_mem_map s hs))
  rw [MemoryRef.digits, h, base64Encode_eq, List.append_assoc,
    List.takeWhile_append_of_pos hdigits]
  cases htail : padding plain.length ++ rest with
  | nil => rw [List.takeWhile_nil, List.append_nil]
  | cons c cs =>
    have hc := hhead c (by rw [htail]; rfl)
    rw [List.takeWhile_cons_of_neg (by simpa using hc), List.append_nil]

/-- Decoding gives back what was encoded, and reads all of the encoding. -/
theorem base64Decode_base64Encode {plain rest : List Byte}
    (hrest : ∀ c, rest.head? = some c → c ∉ basis64) {encoded : MemoryRef}
    (h : encoded.bytes = base64Encode plain ++ rest) :
    encoded.plain = plain ∧ encoded.numRead = (base64Encode plain).length ∧
      (base64Encode plain).length = 4 * ((plain.length + 2) / 3) := by
  obtain ⟨hplain, hread, -⟩ := base64Decode_spec encoded
  have hdigits := digits_of_encoding hrest h
  have hlength : (base64Encode plain).length = 4 * ((plain.length + 2) / 3) := by
    rw [base64Encode_eq, List.length_append, List.length_map, length_toSextets, List.length_map,
      padding, List.length_replicate]
    omega
  refine ⟨?_, ?_, hlength⟩
  · have hsextets : ((toSextets (plain.map UInt8.toNat)).map sextetDigit).map pr2six =
        toSextets (plain.map UInt8.toNat) := by
      have hself : ∀ s ∈ toSextets (plain.map UInt8.toNat), pr2six (sextetDigit s) = id s :=
        fun s hs => pr2six_basis64 (lt_of_mem_toSextets toNat_lt_of_mem_map s hs)
      rw [List.map_map]
      exact (List.map_congr_left hself).trans (List.map_id _)
    have hbytes : (plain.map UInt8.toNat).map UInt8.ofNat = plain := by
      rw [List.map_map, show UInt8.ofNat ∘ UInt8.toNat = id from funext fun c => UInt8.ofNat_toNat,
        List.map_id]
    rw [hplain, hdigits, hsextets, toOctets_toSextets toNat_lt_of_mem_map, hbytes]
  · rw [hread, hlength, hdigits, List.length_map, length_toSextets, List.length_map]
    omega

/-- The encoding of one byte, in front of a line end. -/
theorem base64Decode_base64Encode_line :
    let encoded : MemoryRef := ⟨fun i => (bytes "QQ==" ++ [0x0a]).getD i 0, 5⟩
    encoded.plain = bytes "A" ∧ encoded.numRead = (base64Encode (bytes "A")).length ∧
      (base64Encode (bytes "A")).length = 4 * (((bytes "A").length + 2) / 3) := by
  have hrest : ∀ c, [(0x0a : Byte)].head? = some c → c ∉ basis64 := by
    rintro c ⟨⟩
    decide
  exact base64Decode_base64Encode hrest (by decide)

/-! ## What comes after the characters -/

/-- The count stays inside of the input when the last group is complete or there is room for the
rest of it. -/
theorem numRead_le_iff (encoded : MemoryRef) : encoded.numRead ≤ encoded.size ↔
    encoded.digits.length % 4 = 0 ∨
      encoded.digits.length + (4 - encoded.digits.length % 4) ≤ encoded.size := by
  obtain ⟨-, hread, -⟩ := base64Decode_spec encoded
  have hle : encoded.digits.length ≤ encoded.size := length_digits_le
  rw [hread]
  omega

/-- `AA` without its padding. -/
theorem not_numRead_le : ¬∀ encoded : MemoryRef, encoded.numRead ≤ encoded.size := by
  intro h
  exact absurd (h ⟨fun i => (bytes "AA").getD i 0, 2⟩) (by decide)

/-- Nothing past the end is looked at when the characters end before the input does. -/
theorem examined_lt_iff (encoded : MemoryRef) :
    (∀ i ∈ encoded.examined, i < encoded.size) ↔ ∃ c ∈ encoded.bytes, c ∉ basis64 := by
  obtain ⟨-, -, positions, hexamined, hpositions⟩ := base64Decode_spec encoded
  have hle : encoded.digits.length ≤ encoded.size := length_digits_le
  have hlength : encoded.bytes.length = encoded.size := by
    rw [MemoryRef.bytes, List.length_map, List.length_range]
  have hlt : (∀ i ∈ encoded.examined, i < encoded.size) ↔ encoded.digits.length < encoded.size := by
    rw [hexamined]
    constructor
    · intro h
      exact h _ (List.mem_append_left _ (List.mem_range.2 (Nat.lt_succ_self _)))
    · intro h i hi
      rcases List.mem_append.1 hi with hi | hi
      · have hrange := List.mem_range.1 hi
        omega
      · have hposition := hpositions i hi
        omega
  rw [hlt]
  constructor
  · intro h
    by_contra hall
    push Not at hall
    have hself : encoded.digits = encoded.bytes :=
      List.takeWhile_eq_self_iff.2 fun c hc => decide_eq_true (hall c hc)
    rw [hself, hlength] at h
    exact Nat.lt_irrefl _ h
  · rintro ⟨c, hc, hnot⟩
    refine Nat.lt_of_le_of_ne hle fun heq => hnot ?_
    have hself : encoded.digits = encoded.bytes := by
      rw [← take_length_digits, heq, ← hlength, List.take_length]
    rw [← hself] at hc
    simpa using List.mem_takeWhile_imp hc

/-- `AAAA` with nothing after it. -/
theorem not_examined_lt :
    ¬∀ encoded : MemoryRef, ∀ i ∈ encoded.examined, i < encoded.size := by
  intro h
  exact absurd (h ⟨fun i => (bytes "AAAA").getD i 0, 4⟩) (by decide)

end Wpi

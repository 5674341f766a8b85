import Mathlib.Data.Nat.Bitwise
import Mathlib.Tactic.Ring
import WpiUtil.Support.Leb128

/-!
# The LEB128 round trip

The encoding of every 64-bit value is as long as announced and both readers consume just that; the
value they deliver is the one written exactly when it fits in 32 bits.
-/

namespace Wpi

open RawIstream

/-! ## The bytes written -/

/-- The groups of seven bits of a value, the lowest first, with the continuation bit. -/
def ulebBytes (v : Nat) : List Byte :=
  if v / 128 = 0 then [UInt8.ofNat v] else UInt8.ofNat (v % 128 + 128) :: ulebBytes (v / 128)
termination_by v
decreasing_by omega

theorem shiftRight_seven (v : UInt64) : (v >>> 7).toNat = v.toNat / 128 := by
  rw [UInt64.toNat_shiftRight]
  simp [Nat.shiftRight_eq_div_pow]

theorem shiftRight_seven_ne_zero {v : UInt64} : v >>> 7 ≠ 0 ↔ v.toNat / 128 ≠ 0 := by
  rw [← shiftRight_seven, ne_eq, ne_eq, ← UInt64.toNat_inj]
  rfl

theorem toNat_low_seven (v : UInt64) : (v &&& 0x7f).toUInt8.toNat = v.toNat % 128 := by
  have h : (0x7f : UInt64).toNat = 2 ^ 7 - 1 := rfl
  rw [UInt64.toNat_toUInt8, UInt64.toNat_and, h, Nat.and_two_pow_sub_one_eq_mod]
  omega

theorem toNat_or_continuation (b : UInt8) (h : b.toNat < 128) :
    (b ||| 0x80).toNat = b.toNat + 128 := by
  have h80 : (0x80 : UInt8).toNat = 2 ^ 7 * 1 := rfl
  rw [UInt8.toNat_or, h80, Nat.or_comm, ← Nat.two_pow_add_eq_or_of_lt h]
  omega

theorem writeUleb128_loop_eq (dest : List Byte) (v : UInt64) (count : Nat) :
    writeUleb128.loop dest v count =
      (dest ++ ulebBytes v.toNat, count + (ulebBytes v.toNat).length) := by
  induction hn : v.toNat using Nat.strong_induction_on generalizing v dest count with
  | _ n ih =>
    subst hn
    rw [writeUleb128.loop, ulebBytes]
    by_cases h : v.toNat / 128 = 0
    · rw [if_neg (by rwa [shiftRight_seven_ne_zero, not_not]), if_pos h]
      have hb : (v &&& 0x7f).toUInt8 = UInt8.ofNat v.toNat := by
        apply UInt8.toNat_inj.1
        rw [toNat_low_seven, UInt8.toNat_ofNat']
        omega
      rw [hb]
      rfl
    · rw [if_pos (shiftRight_seven_ne_zero.2 h), if_neg h]
      have hb : (v &&& 0x7f).toUInt8 ||| 0x80 = UInt8.ofNat (v.toNat % 128 + 128) := by
        apply UInt8.toNat_inj.1
        have hlow := toNat_low_seven v
        rw [toNat_or_continuation _ (by omega), UInt8.toNat_ofNat']
        omega
      rw [ih _ (UInt64.shiftRight_seven_lt (shiftRight_seven_ne_zero.2 h)) _ _ _ rfl,
        shiftRight_seven, hb]
      simp only [List.append_assoc, List.singleton_append, List.length_cons, Prod.mk.injEq,
        true_and]
      omega

theorem sizeUleb128_loop_eq (v : UInt64) (count : Nat) :
    sizeUleb128.loop v count = count + (ulebBytes v.toNat).length := by
  induction hn : v.toNat using Nat.strong_induction_on generalizing v count with
  | _ n ih =>
    subst hn
    rw [sizeUleb128.loop, ulebBytes]
    by_cases h : v.toNat / 128 = 0
    · rw [if_neg (by rwa [shiftRight_seven_ne_zero, not_not]), if_pos h]
      rfl
    · rw [if_pos (shiftRight_seven_ne_zero.2 h), if_neg h,
        ih _ (UInt64.shiftRight_seven_lt (shiftRight_seven_ne_zero.2 h)) _ _ rfl, shiftRight_seven,
        List.length_cons]
      omega

theorem writeUleb128_eq (dest : List Byte) (v : UInt64) :
    writeUleb128 dest v = (dest ++ ulebBytes v.toNat, sizeUleb128 v) := by
  rw [writeUleb128, writeUleb128_loop_eq, sizeUleb128, sizeUleb128_loop_eq]

theorem length_ulebBytes (v : UInt64) : (ulebBytes v.toNat).length = sizeUleb128 v := by
  rw [sizeUleb128, sizeUleb128_loop_eq, Nat.zero_add]

/-! ## The bytes read -/

/-- What the readers accumulate from the groups of `v`, starting at `shift`. -/
def ulebValue (result : UInt32) (shift v : Nat) : UInt32 :=
  if v / 128 = 0 then accumulate result (UInt8.ofNat v) shift
  else ulebValue (accumulate result (UInt8.ofNat (v % 128 + 128)) shift) (shift + 7) (v / 128)
termination_by v
decreasing_by omega

theorem and_continuation (b : UInt8) : b &&& 0x80 = 0 ↔ b.toNat < 128 := by
  have h80 : (0x80 : UInt8).toNat = 2 ^ 7 := rfl
  have hb := b.toNat_lt
  rw [← UInt8.toNat_inj, UInt8.toNat_and, h80, Nat.and_two_pow, Nat.testBit_eq_decide_div_mod_eq]
  by_cases h : b.toNat < 128
  · simp [h, Nat.div_eq_of_lt h]
  · have h1 : b.toNat / 128 % 2 = 1 := by omega
    simp [h, h1]

theorem and_continuation_last {v : Nat} (h : v / 128 = 0) : UInt8.ofNat v &&& 0x80 = 0 := by
  rw [and_continuation, UInt8.toNat_ofNat']
  omega

theorem and_continuation_more (v : Nat) : ¬ UInt8.ofNat (v % 128 + 128) &&& 0x80 = 0 := by
  rw [and_continuation, UInt8.toNat_ofNat']
  omega

theorem readUleb128_loop_eq (v : Nat) (rest : List Byte) (result : UInt32) (shift count : Nat) :
    readUleb128.loop (ulebBytes v ++ rest) result shift count =
      some ((ulebValue result shift v).toUInt64, count + (ulebBytes v).length) := by
  induction v using Nat.strong_induction_on generalizing result shift count with
  | _ v ih =>
    rw [ulebBytes, ulebValue]
    by_cases h : v / 128 = 0
    · rw [if_pos h, if_pos h, List.cons_append, readUleb128.loop, if_pos (and_continuation_last h)]
      rfl
    · rw [if_neg h, if_neg h, List.cons_append, readUleb128.loop, if_neg (and_continuation_more v),
        ih (v / 128) (by omega), List.length_cons]
      congr 2
      omega

theorem readUleb128Stream_loop_eq {σ : Type} [ByteSource σ] (v : Nat) (rest : List Byte)
    (fuel : Nat) (is : σ) (result : UInt32) (shift : Nat) (hok : hasError is = false)
    (hc : ByteSource.content is = ulebBytes v ++ rest) (hfuel : (ulebBytes v).length ≤ fuel) :
    ∃ is', readUleb128Stream.loop fuel is result shift =
        (some (ulebValue result shift v).toUInt64, is') ∧
      hasError is' = false ∧ ByteSource.content is' = rest := by
  induction v using Nat.strong_induction_on generalizing is result shift fuel with
  | _ v ih =>
    rw [ulebBytes] at hc hfuel
    rw [ulebValue]
    by_cases h : v / 128 = 0
    · rw [if_pos h] at hc hfuel ⊢
      obtain ⟨fuel, rfl⟩ := Nat.exists_eq_succ_of_ne_zero (show fuel ≠ 0 by simp at hfuel; omega)
      obtain ⟨is', hread, hok', hc'⟩ := ByteSource.read_cons hok hc
      refine ⟨is', ?_, hok', hc'⟩
      simp only [readUleb128Stream.loop, RawIstream.read, hread, hok', List.headD_cons,
        and_continuation_last h, if_true, Bool.false_eq_true, if_false]
    · rw [if_neg h] at hc hfuel ⊢
      obtain ⟨fuel, rfl⟩ := Nat.exists_eq_succ_of_ne_zero (show fuel ≠ 0 by simp at hfuel; omega)
      obtain ⟨is', hread, hok', hc'⟩ := ByteSource.read_cons hok hc
      simp only [readUleb128Stream.loop, RawIstream.read, hread, hok', List.headD_cons,
        and_continuation_more v, Bool.false_eq_true, if_false]
      exact ih (v / 128) (by omega) fuel is' _ _ hok' hc' (by simpa using hfuel)

/-- A group of seven bits lands above what is accumulated already. -/
theorem toNat_accumulate (byte : Byte) {result : UInt32} {shift p : Nat}
    (hp : byte.toNat % 128 = p) (hres : result.toNat < 2 ^ shift)
    (hfit : result.toNat + p * 2 ^ shift < 2 ^ 32) :
    (accumulate result byte shift).toNat = result.toNat + p * 2 ^ shift := by
  have h7f : (0x7f : UInt8).toNat = 2 ^ 7 - 1 := rfl
  have hbyte : (byte &&& 0x7f).toUInt32.toNat = p := by
    rw [UInt8.toNat_toUInt32, UInt8.toNat_and, h7f, Nat.and_two_pow_sub_one_eq_mod, hp]
  have hshl : ((byte &&& 0x7f).toUInt32 <<< UInt32.ofNat shift).toNat = p * 2 ^ shift := by
    rw [UInt32.toNat_shiftLeft, hbyte, Nat.shiftLeft_eq]
    by_cases h0 : p = 0
    · simp [h0]
    · have hlt : shift < 32 := by
        rw [← Nat.pow_lt_pow_iff_right (show 1 < 2 by decide)]
        have := Nat.le_mul_of_pos_left (2 ^ shift) (Nat.pos_of_ne_zero h0)
        omega
      rw [UInt32.toNat_ofNat', Nat.mod_eq_of_lt (show shift < 2 ^ 32 by omega),
        Nat.mod_eq_of_lt hlt, Nat.mod_eq_of_lt (by omega)]
  rw [accumulate, UInt32.toNat_or, hshl, Nat.or_comm, Nat.mul_comm,
    ← Nat.two_pow_add_eq_or_of_lt hres, Nat.add_comm, Nat.mul_comm]

/-- As long as the value fits in 32 bits, it is put together from its groups. -/
theorem toNat_ulebValue {result : UInt32} {shift v : Nat} (hres : result.toNat < 2 ^ shift)
    (hfit : result.toNat + v * 2 ^ shift < 2 ^ 32) :
    (ulebValue result shift v).toNat = result.toNat + v * 2 ^ shift := by
  induction v using Nat.strong_induction_on generalizing result shift with
  | _ v ih =>
    rw [ulebValue]
    by_cases h : v / 128 = 0
    · rw [if_pos h]
      exact toNat_accumulate _ (by rw [UInt8.toNat_ofNat']; omega) hres hfit
    · rw [if_neg h]
      have hpow : 2 ^ (shift + 7) = 128 * 2 ^ shift := by ring
      have hsplit : v % 128 * 2 ^ shift + v / 128 * 2 ^ (shift + 7) = v * 2 ^ shift := by
        conv => rhs; rw [← Nat.mod_add_div v 128]
        rw [hpow]
        ring
      have hlow : v % 128 * 2 ^ shift ≤ 127 * 2 ^ shift :=
        Nat.mul_le_mul_right _ (by omega)
      have hbyte : (UInt8.ofNat (v % 128 + 128)).toNat % 128 = v % 128 := by
        rw [UInt8.toNat_ofNat']
        omega
      have hacc := toNat_accumulate _ hbyte hres (by omega)
      rw [ih (v / 128) (by omega) (by omega) (by omega), hacc]
      omega

/-- The accumulator of the readers has 32 bits. -/
theorem readUleb128_loop_lt {addr : List Byte} {result : UInt32} {shift count n : Nat} {v : UInt64}
    (h : readUleb128.loop addr result shift count = some (v, n)) : v.toNat < 2 ^ 32 := by
  induction addr generalizing result shift count with
  | nil => simp [readUleb128.loop] at h
  | cons byte addr ih =>
    rw [readUleb128.loop] at h
    split_ifs at h
    · simp only [Option.some.injEq, Prod.mk.injEq] at h
      rw [← h.1, UInt32.toNat_toUInt64]
      exact UInt32.toNat_lt _
    · exact ih h

/-! ## The round trip -/

/-- The round trip succeeds exactly for the values below 2^32. -/
theorem ulebRoundTrip_iff {σ : Type} [ByteSource σ] (v : UInt64) (rest : List Byte) (is : σ)
    (hok : hasError is = false)
    (hc : ByteSource.content is = (writeUleb128 [] v).1 ++ rest) :
    UlebRoundTrip v rest is ↔ v.toNat < 2 ^ 32 := by
  have hread := readUleb128_loop_eq v.toNat rest 0 0 0
  rw [writeUleb128_eq, List.nil_append] at hc
  obtain ⟨is', hstream, hok', hc'⟩ := readUleb128Stream_loop_eq v.toNat rest
    ((ByteSource.content is).length + 1) is 0 0 hok hc (by simp [hc]; omega)
  constructor
  · exact fun h => readUleb128_loop_lt h.read
  · intro h
    have hval : (ulebValue 0 0 v.toNat).toUInt64 = v := by
      apply UInt64.toNat_inj.1
      rw [UInt32.toNat_toUInt64, toNat_ulebValue (by decide) (by simpa using h)]
      simp
    refine ⟨fun dest => ⟨ulebBytes v.toNat, writeUleb128_eq dest v, length_ulebBytes v⟩, ?_, ?_⟩
    · rw [writeUleb128_eq, List.nil_append, readUleb128, hread, hval, length_ulebBytes, Nat.zero_add]
    · exact ⟨is', by rw [readUleb128Stream, hstream, hval], hok', hc'⟩

theorem ulebRoundTrip_iff_300 :
    UlebRoundTrip 300 [7] (RawMemIstream.ofBytes ((writeUleb128 [] 300).1 ++ [7])) ↔
      (300 : UInt64).toNat < 2 ^ 32 :=
  ulebRoundTrip_iff 300 [7] _ rfl rfl

/-- Writing 2^32 and reading it back yields 0. -/
theorem not_ulebRoundTrip_two_pow_32 :
    ¬ UlebRoundTrip 4294967296 [] (RawMemIstream.ofBytes (writeUleb128 [] 4294967296).1) := by
  intro h
  have := readUleb128_loop_lt h.read
  exact absurd this (by decide)

end Wpi

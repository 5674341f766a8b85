import WpiUtil.Json.Proofs.BinaryReaderProofs

/-!
# MessagePack: what is written is read back
-/

namespace Wpi

open Foundations BinaryWriter BinaryReader

variable {σ : Type} [ByteSource σ]

/-! ## The writer -/

namespace BinaryWriter

theorem writeMsgpackElements_eq (xs : List Json) :
    writeMsgpackElements xs = xs.flatMap writeMsgpack := by
  induction xs with
  | nil => rfl
  | cons x xs ih => rw [writeMsgpackElements, ih, List.flatMap_cons]

theorem writeMsgpackMembers_eq (table : List (Bucket Json)) :
    writeMsgpackMembers table =
      (StringMap.entries table).flatMap fun e => writeMsgpackString e.1 ++ writeMsgpack e.2 := by
  induction table with
  | nil => rfl
  | cons bucket table ih =>
    cases bucket with
    | empty => exact ih
    | tombstone => exact ih
    | item hash key value =>
      rw [writeMsgpackMembers, ih]
      rfl

theorem writeMsgpack_array (xs : List Json) :
    writeMsgpack (.array xs) = writeMsgpackArrayHead xs.length ++ xs.flatMap writeMsgpack := by
  rw [writeMsgpack, writeMsgpackElements_eq]

theorem writeMsgpack_object (m : StringMap Json) :
    writeMsgpack (.object m) = writeMsgpackObjectHead m.size ++
      m.toList.flatMap fun e => writeMsgpackString e.1 ++ writeMsgpack e.2 := by
  obtain ⟨table, items, tombstones⟩ := m
  rw [writeMsgpack, writeMsgpackMembers_eq]
  rfl

/-- A length in the low bits of the first byte. -/
theorem or_eq_add {k a n : Nat} (h : n < 2 ^ k) : 2 ^ k * a ||| n = 2 ^ k * a + n :=
  (Nat.two_pow_add_eq_or_of_lt h a).symm

end BinaryWriter

/-! ## The reader -/

namespace BinaryReader

theorem yields_parseMsgpack {fuel : Nat} {c : Byte} {bs : List Byte} {j : Json}
    (h : YieldsAt (some c) (parseMsgpackItem (parseMsgpack fuel) c.toNat : Action σ Json) bs j) :
    Yields (parseMsgpack (fuel + 1) : Action σ Json) (c :: bs) j :=
  YieldsAt.get_bind h

theorem and_four_bits {n k : Nat} (h : n ≤ 0xf) : (0x10 * k + n) &&& 0xf = n := by
  rw [show (0xf : Nat) = 2 ^ 4 - 1 from rfl, Nat.and_two_pow_sub_one_eq_mod]
  omega

theorem yields_getMsgpackString {str : List Byte} (h : str.length < 2 ^ 32) :
    ∃ c bs, writeMsgpackString str = c :: bs ∧
      (0xa0 ≤ c.toNat ∧ c.toNat ≤ 0xbf ∨ 0xd9 ≤ c.toNat ∧ c.toNat ≤ 0xdb) ∧
      YieldsAt (some c) (getMsgpackString : Action σ (List Byte)) bs str := by
  simp only [writeMsgpackString]
  split
  · have hor : 0xa0 ||| str.length = 0xa0 + str.length := or_eq_add (k := 5) (a := 5) (by omega)
    have hc := toNat_ofNat_of_lt (show 0xa0 + str.length < 256 by omega)
    have hlen : (0xa0 + str.length) &&& 0x1f = str.length := and_five_bits (k := 5) (by omega)
    rw [hor, writeNumber_one]
    refine ⟨_, _, rfl, by omega, YieldsAt.checkEof_bind ?_⟩
    simp only [hc, hlen]
    rw [if_pos (by omega)]
    exact yields_getString str _
  · split
    · have hn : str.length < 256 ^ 1 := by omega
      exact ⟨_, _, rfl, by decide, YieldsAt.checkEof_bind (yields_getNumber_getString hn _)⟩
    · split
      · have hn : str.length < 256 ^ 2 := by omega
        exact ⟨_, _, rfl, by decide, YieldsAt.checkEof_bind (yields_getNumber_getString hn _)⟩
      · rw [if_pos (by omega)]
        have hn : str.length < 256 ^ 4 := by omega
        exact ⟨_, _, rfl, by decide, YieldsAt.checkEof_bind (yields_getNumber_getString hn _)⟩

theorem yields_msgpackUnsigned {fuel n : Nat} (h : n < 2 ^ 64) :
    Yields (parseMsgpack (fuel + 1) : Action σ Json) (writeMsgpackUnsigned n)
      (.numberUnsigned (UInt64.ofNat n)) := by
  have hnumber : ∀ {width : Nat}, n < 256 ^ width →
      Yields (do return .numberUnsigned (UInt64.ofNat (← getNumber width)) : Action σ Json)
        (writeNumber width n) (.numberUnsigned (UInt64.ofNat n)) := fun hn =>
    (yields_getNumber hn).map fun n => Json.numberUnsigned (UInt64.ofNat n)
  rw [writeMsgpackUnsigned]
  split
  · rw [writeNumber_one]
    refine yields_parseMsgpack ?_
    rw [toNat_ofNat_of_lt (by omega), parseMsgpackItem, if_pos (by omega)]
    exact Yields.pure _ _
  · split
    · have hn : n < 256 ^ 1 := by omega
      exact yields_parseMsgpack (hnumber hn _)
    · split
      · have hn : n < 256 ^ 2 := by omega
        exact yields_parseMsgpack (hnumber hn _)
      · split
        · have hn : n < 256 ^ 4 := by omega
          exact yields_parseMsgpack (hnumber hn _)
        · have hn : n < 256 ^ 8 := by omega
          exact yields_parseMsgpack (hnumber hn _)

/-- The unsigned member of the union holds a negative number modulo `2 ^ 64`. -/
theorem toNat_toUInt64_of_neg {n : Int64} (hn : n.toInt < 0) :
    (n.toUInt64.toNat : Int) = 2 ^ 64 + n.toInt := by
  have h : n.toInt = (n.toUInt64.toNat : Int).bmod (2 ^ 64) := n.toBitVec.toInt_eq_toNat_bmod
  have hlt := n.toUInt64.toNat_lt
  rw [Int.bmod_def] at h
  split at h <;> omega

theorem toNat_toUInt64_of_nonneg {n : Int64} (hn : 0 ≤ n.toInt) :
    (n.toUInt64.toNat : Int) = n.toInt := by
  have h : n.toInt = (n.toUInt64.toNat : Int).bmod (2 ^ 64) := n.toBitVec.toInt_eq_toNat_bmod
  have hlt := n.toUInt64.toNat_lt
  rw [Int.bmod_def] at h
  split at h <;> omega

theorem bmod_add_of_neg {m : Nat} {x : Int} (hlow : -(m : Int) ≤ x * 2) (hneg : x < 0) :
    ((m : Int) + x).bmod m = x := by
  have h := Int.mul_add_bmod_self_left m 1 x
  rw [Int.mul_one] at h
  rw [h]
  exact Int.bmod_eq_of_le_mul_two hlow (by omega)

/-- A negative number in the narrowest of the signed types that hold it. -/
theorem yields_msgpackNegative (fuel : Nat) {n : Int64} (hn : n.toInt < 0) :
    ∃ j, Yields (parseMsgpack (fuel + 1) : Action σ Json) (writeMsgpackInteger n) j ∧
      Recovers (.numberInteger n) j := by
  have hlow := n.le_toInt
  have hN := toNat_toUInt64_of_neg hn
  rw [writeMsgpackInteger, if_neg (by omega)]
  split
  · have hbyte : UInt8.ofNat n.toUInt64.toNat = UInt8.ofNat (n.toUInt64.toNat % 256) := by
      rw [UInt8.ofNat_mod_size]
    refine ⟨.numberInteger (Int8.ofNat (n.toUInt64.toNat % 256)).toInt64, ?_,
      recovers_negative hn ?_⟩
    · rw [writeNumber_one, hbyte]
      refine yields_parseMsgpack ?_
      rw [toNat_ofNat_of_lt (Nat.mod_lt _ (by omega)), parseMsgpackItem]
      simp (disch := omega) only [if_neg, if_pos]
      exact Yields.pure _ _
    · have hmod : ((n.toUInt64.toNat % 256 : Nat) : Int) = (256 : Nat) + n.toInt := by omega
      rw [Int8.toInt_toInt64, Int8.toInt_ofNat', hmod]
      exact bmod_add_of_neg (by omega) hn
  · split
    · refine ⟨_, yields_parseMsgpack ((yields_getNumber_mod 1 n.toUInt64.toNat).map
        (fun k => Json.numberInteger (Int8.ofNat k).toInt64) _), recovers_negative hn ?_⟩
      have hmod : ((n.toUInt64.toNat % 256 ^ 1 : Nat) : Int) = (Int8.size : Nat) + n.toInt := by
        rw [Int8.size]
        omega
      rw [Int8.toInt_toInt64, Int8.toInt_ofNat', hmod]
      exact bmod_add_of_neg (by rw [Int8.size]; omega) hn
    · split
      · refine ⟨_, yields_parseMsgpack ((yields_getNumber_mod 2 n.toUInt64.toNat).map
          (fun k => Json.numberInteger (Int16.ofNat k).toInt64) _), recovers_negative hn ?_⟩
        have hmod : ((n.toUInt64.toNat % 256 ^ 2 : Nat) : Int) = (Int16.size : Nat) + n.toInt := by
          rw [Int16.size]
          omega
        rw [Int16.toInt_toInt64, Int16.toInt_ofNat', hmod]
        exact bmod_add_of_neg (by rw [Int16.size]; omega) hn
      · split
        · refine ⟨_, yields_parseMsgpack ((yields_getNumber_mod 4 n.toUInt64.toNat).map
            (fun k => Json.numberInteger (Int32.ofNat k).toInt64) _), recovers_negative hn ?_⟩
          have hmod : ((n.toUInt64.toNat % 256 ^ 4 : Nat) : Int) =
              (Int32.size : Nat) + n.toInt := by
            rw [Int32.size]
            omega
          rw [Int32.toInt_toInt64, Int32.toInt_ofNat', hmod]
          exact bmod_add_of_neg (by rw [Int32.size]; omega) hn
        · refine ⟨_, yields_parseMsgpack ((yields_getNumber_mod 8 n.toUInt64.toNat).map
            (fun k => Json.numberInteger (Int64.ofNat k)) _), recovers_negative hn ?_⟩
          have hmod : ((n.toUInt64.toNat % 256 ^ 8 : Nat) : Int) =
              (Int64.size : Nat) + n.toInt := by
            rw [Int64.size]
            omega
          rw [Int64.toInt_ofNat', hmod]
          exact bmod_add_of_neg (by rw [Int64.size]; omega) hn

theorem yields_msgpackArray {fuel n : Nat} {j : Json} {bs : List Byte} (hlen : n < 2 ^ 32)
    (h : Yields (readElements (parseMsgpack fuel) n [] : Action σ Json) bs j) :
    Yields (parseMsgpack (fuel + 1) : Action σ Json) (writeMsgpackArrayHead n ++ bs) j := by
  rw [writeMsgpackArrayHead]
  split
  · have hor : 0x90 ||| n = 0x90 + n := or_eq_add (k := 4) (a := 9) (by omega)
    have hand : (0x90 + n) &&& 0xf = n := and_four_bits (k := 9) (by omega)
    rw [hor, writeNumber_one]
    refine yields_parseMsgpack ?_
    rw [toNat_ofNat_of_lt (by omega), parseMsgpackItem]
    simp (disch := omega) only [if_neg, if_pos, hand]
    exact h _
  · split
    · have hn : n < 256 ^ 2 := by omega
      exact yields_parseMsgpack ((yields_getNumber hn).bind h _)
    · have hn : n < 256 ^ 4 := by omega
      rw [if_pos (by omega)]
      exact yields_parseMsgpack ((yields_getNumber hn).bind h _)

theorem yields_msgpackObject {fuel n : Nat} {j : Json} {bs : List Byte} (hlen : n < 2 ^ 32)
    (h : Yields (readMembers getMsgpackString (parseMsgpack fuel) n .empty : Action σ Json) bs j) :
    Yields (parseMsgpack (fuel + 1) : Action σ Json) (writeMsgpackObjectHead n ++ bs) j := by
  rw [writeMsgpackObjectHead]
  split
  · have hand : n &&& 0xf = n := by
      have := and_four_bits (n := n) (k := 0) (by omega)
      rwa [Nat.mul_zero, Nat.zero_add] at this
    have hor : 0x80 ||| n = 0x80 + n := or_eq_add (k := 4) (a := 8) (by omega)
    have hand' : (0x80 + n) &&& 0xf = n := and_four_bits (k := 8) (by omega)
    rw [hand, hor, writeNumber_one]
    refine yields_parseMsgpack ?_
    rw [toNat_ofNat_of_lt (by omega), parseMsgpackItem]
    simp (disch := omega) only [if_neg, if_pos, hand']
    exact h _
  · split
    · have hn : n < 256 ^ 2 := by omega
      exact yields_parseMsgpack ((yields_getNumber hn).bind h _)
    · have hn : n < 256 ^ 4 := by omega
      rw [if_pos (by omega)]
      exact yields_parseMsgpack ((yields_getNumber hn).bind h _)

theorem length_writeMsgpackArrayHead_pos {n : Nat} (h : n < 2 ^ 32) :
    0 < (writeMsgpackArrayHead n).length := by
  rw [writeMsgpackArrayHead]
  split
  · rw [writeNumber_one]
    exact Nat.succ_pos _
  · rw [if_pos (show n ≤ 0xffffffff by omega)]
    split <;> exact Nat.succ_pos _

theorem length_writeMsgpackObjectHead_pos {n : Nat} (h : n < 2 ^ 32) :
    0 < (writeMsgpackObjectHead n).length := by
  rw [writeMsgpackObjectHead]
  split
  · rw [writeNumber_one]
    exact Nat.succ_pos _
  · rw [if_pos (show n ≤ 4294967295 by omega)]
    split <;> exact Nat.succ_pos _

/-- By induction over the value: an encoding is longer than those of the values in it, so there is
fuel left for them. -/
theorem yields_writeMsgpack (j : Json) (hwf : j.WF) (hd : j.NoDiscarded) (hlen : j.Below32)
    (fuel : Nat) (hfuel : (writeMsgpack j).length ≤ fuel) :
    ∃ j', Recovers j j' ∧
      Yields (parseMsgpack (fuel + 1) : Action σ Json) (writeMsgpack j) j' := by
  induction j using Json.induct generalizing fuel with
  | null =>
    exact ⟨.null, ⟨trivial, rfl, fun i hi => by cases hi⟩, yields_parseMsgpack (Yields.pure _ _)⟩
  | boolean b =>
    refine ⟨.boolean b, ⟨trivial, rfl, fun i hi => by cases hi⟩, ?_⟩
    cases b with
    | false => exact yields_parseMsgpack (Yields.pure _ _)
    | true => exact yields_parseMsgpack (Yields.pure _ _)
  | numberInteger n =>
    rw [writeMsgpack]
    by_cases hn : 0 ≤ n.toInt
    · have hlt := n.toUInt64.toNat_lt
      refine ⟨_, recovers_unsigned hlt ?_, ?_⟩
      · rw [Json.denote, toNat_toUInt64_of_nonneg hn]
      · rw [writeMsgpackInteger, if_pos hn]
        exact yields_msgpackUnsigned hlt
    · obtain ⟨j', hyields, hr⟩ := yields_msgpackNegative (σ := σ) fuel (not_le.1 hn)
      exact ⟨j', hr, hyields⟩
  | numberUnsigned n =>
    rw [writeMsgpack]
    exact ⟨_, recovers_unsigned n.toNat_lt rfl, yields_msgpackUnsigned n.toNat_lt⟩
  | numberFloat bits =>
    refine ⟨.numberFloat bits, ⟨trivial, rfl, fun i hi => by cases hi⟩, ?_⟩
    exact yields_parseMsgpack (yields_numberFloat bits _)
  | string s =>
    have hshort : s.length < 2 ^ 32 := hlen.self
    obtain ⟨c, bs, henc, hc, hyields⟩ := yields_getMsgpackString (σ := σ) hshort
    refine ⟨.string s, ⟨hwf, rfl, fun i hi => by cases hi⟩, ?_⟩
    rw [writeMsgpack, henc]
    refine yields_parseMsgpack ?_
    have h := hyields.bind (f := fun s => Pure.pure (Json.string s)) (Yields.pure (Json.string s))
    rw [List.append_nil] at h
    rw [parseMsgpackItem]
    rcases hc with hc | hc <;> simp (disch := omega) only [if_neg, if_pos] <;> exact h
  | array xs ih =>
    rw [writeMsgpack_array] at hfuel ⊢
    have hshort : xs.length < 2 ^ 32 := hlen.self
    have hpos := length_writeMsgpackArrayHead_pos hshort
    rw [List.length_append] at hfuel
    obtain ⟨fuel, rfl⟩ : ∃ k, fuel = k + 1 := ⟨fuel - 1, by omega⟩
    obtain ⟨xs', hxs', hyields⟩ := yields_readElements (σ := σ) (parseMsgpack (fuel + 1))
      writeMsgpack xs [] fun x hx => by
        have := length_le_flatMap writeMsgpack hx
        exact ih x hx (((Json.all_array xs).1 hwf).2 x hx) (((Json.all_array xs).1 hd).2 x hx)
          (((Json.all_array xs).1 hlen).2 x hx) fuel (by omega)
    exact ⟨_, recovers_array hwf hxs', yields_msgpackArray hshort hyields⟩
  | object m ih =>
    rw [writeMsgpack_object] at hfuel ⊢
    obtain ⟨hm, -, -⟩ := hwf.self
    obtain ⟨hshort, hkeys⟩ := hlen.self
    have hpos := length_writeMsgpackObjectHead_pos hshort
    rw [List.length_append] at hfuel
    obtain ⟨fuel, rfl⟩ : ∃ k, fuel = k + 1 := ⟨fuel - 1, by omega⟩
    obtain ⟨es', hes', hyields⟩ := yields_readMembers (σ := σ) getMsgpackString
      (parseMsgpack (fuel + 1)) writeMsgpackString writeMsgpack m.toList .empty
      (fun e he => by
        obtain ⟨c, bs, henc, -, hk⟩ := yields_getMsgpackString (σ := σ) (hkeys e he)
        exact ⟨c, bs, henc, hk⟩)
      (fun e he => by
        have := length_le_flatMap (fun e => writeMsgpackString e.1 ++ writeMsgpack e.2) he
        rw [List.length_append] at this
        exact ih e he (((Json.all_object m).1 hwf).2 e he) (((Json.all_object m).1 hd).2 e he)
          (((Json.all_object m).1 hlen).2 e he) fuel (by omega))
    have hn : m.toList.length = m.size := by
      rw [StringMap.size, hm.numItems]
      rfl
    rw [hn] at hyields
    exact ⟨_, recovers_object hwf hes', yields_msgpackObject hshort hyields⟩
  | discarded => exact absurd hd.self Bool.noConfusion

end BinaryReader

namespace Json

/-- `from_msgpack` reads back what `to_msgpack` wrote, from any stream, and leaves the rest. -/
theorem fromMsgpack_toMsgpack (j : Json) (hwf : j.WF) (hd : j.NoDiscarded) (hlen : j.Below32)
    (rest : List Byte) (is : σ) (he : RawIstream.hasError is = false)
    (hcontent : ByteSource.content is = j.toMsgpack ++ rest) :
    ∃ j' is', fromMsgpack is = (.ok j', is') ∧ RawIstream.hasError is' = false ∧
      ByteSource.content is' = rest ∧ Recovers j j' := by
  have hfuel : (BinaryWriter.writeMsgpack j).length ≤ (ByteSource.content is).length := by
    rw [hcontent, List.length_append, toMsgpack]
    omega
  obtain ⟨j', hr, hyields⟩ := yields_writeMsgpack (σ := σ) j hwf hd hlen _ hfuel
  obtain ⟨br', hrun, he', hcontent'⟩ := hyields none (BinaryReader.new is) rest rfl he hcontent
  refine ⟨j', br'.is, ?_, he', hcontent', hr⟩
  rw [fromMsgpack, hrun]

/-- `{"a": [-1]}`, followed by one more byte. -/
theorem fromMsgpack_toMsgpack_singleton :
    ∃ j' is', fromMsgpack (RawMemIstream.ofBytes
        ((object (assign .empty [0x61] (array [numberInteger (-1)]))).toMsgpack ++ [0])) =
          (.ok j', is') ∧
      RawIstream.hasError is' = false ∧ ByteSource.content is' = [0] ∧
      Recovers (object (assign .empty [0x61] (array [numberInteger (-1)]))) j' := by
  have hwf : (object (assign .empty [0x61] (array [numberInteger (-1)]))).WF :=
    wf_singleton (by simp) ⟨show 1 < 2 ^ 64 by omega, trivial, trivial⟩
  refine fromMsgpack_toMsgpack _ hwf ((all_singleton _ _).2 ⟨rfl, rfl, rfl, trivial⟩)
    ((all_singleton _ _).2 ⟨hwf.self.2, ?_⟩) [0] _ rfl rfl
  exact ⟨show 1 < 2 ^ 32 by omega, trivial, trivial⟩

end Json

end Wpi

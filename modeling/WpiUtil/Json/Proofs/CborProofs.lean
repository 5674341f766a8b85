import WpiUtil.Json.CborHead
import WpiUtil.Json.Proofs.BinaryReaderProofs

/-!
# CBOR: what is written is read back
-/

namespace Wpi

open Foundations BinaryWriter BinaryReader Cbor

variable {σ : Type} [ByteSource σ]

/-! ## The writer -/

namespace BinaryWriter

theorem writeCborElements_eq (xs : List Json) : writeCborElements xs = xs.flatMap writeCbor := by
  induction xs with
  | nil => rfl
  | cons x xs ih => rw [writeCborElements, ih, List.flatMap_cons]

theorem writeCborMembers_eq (table : List (Bucket Json)) :
    writeCborMembers table =
      (StringMap.entries table).flatMap fun e => writeCborString e.1 ++ writeCbor e.2 := by
  induction table with
  | nil => rfl
  | cons bucket table ih =>
    cases bucket with
    | empty => exact ih
    | tombstone => exact ih
    | item hash key value =>
      rw [writeCborMembers, ih]
      rfl

theorem writeCbor_array (xs : List Json) :
    writeCbor (.array xs) =
      writeCborHead 0x80 0x98 0x99 0x9a 0x9b xs.length ++ xs.flatMap writeCbor := by
  rw [writeCbor, writeCborElements_eq]

theorem writeCbor_object (m : StringMap Json) :
    writeCbor (.object m) = writeCborHead 0xa0 0xb8 0xb9 0xba 0xbb m.size ++
      m.toList.flatMap fun e => writeCborString e.1 ++ writeCbor e.2 := by
  obtain ⟨table, items, tombstones⟩ := m
  rw [writeCbor, writeCborMembers_eq]
  rfl

/-- The head that is written is the shortest. -/
theorem exists_head_eq (major : MajorType) {n : Nat} (hn : n < 2 ^ 64) :
    ∃ width : HeadWidth, width.Fits n ∧
      writeCborHead (0x20 * major.code) (UInt8.ofNat (0x20 * major.code + 0x18))
        (UInt8.ofNat (0x20 * major.code + 0x19)) (UInt8.ofNat (0x20 * major.code + 0x1a))
        (UInt8.ofNat (0x20 * major.code + 0x1b)) n = head major width n := by
  rw [writeCborHead, writeCborArgument]
  split
  · next h => exact ⟨.immediate, h, writeNumber_one _⟩
  · split
    · next h => exact ⟨.one, Nat.lt_succ_of_le h, rfl⟩
    · split
      · next h => exact ⟨.two, Nat.lt_succ_of_le h, rfl⟩
      · split
        · next h => exact ⟨.four, Nat.lt_succ_of_le h, rfl⟩
        · exact ⟨.eight, hn, rfl⟩

theorem writeCborString_eq {str : List Byte} (h : str.length < 2 ^ 64) :
    ∃ width : HeadWidth, width.Fits str.length ∧
      writeCborString str = head .text width str.length ++ str := by
  obtain ⟨width, hfits, hhead⟩ := exists_head_eq .text h
  refine ⟨width, hfits, ?_⟩
  rw [← hhead]
  rfl

/-- The argument of a negative number is `-1 - n`. -/
theorem writeCborInteger_of_neg {n : Int} (hn : n < 0) :
    writeCborInteger n = writeCborHead 0x20 0x38 0x39 0x3a 0x3b (-1 - n).toNat := by
  rw [writeCborInteger, if_neg (by omega), writeCborHead]
  by_cases h : -24 ≤ n
  · rw [if_pos h, if_pos (by omega)]
  · rw [if_neg h, if_neg (by omega)]

end BinaryWriter

/-! ## The reader -/

namespace BinaryReader

theorem yields_parseCbor {fuel : Nat} {c : Byte} {bs : List Byte} {j : Json}
    (h : YieldsAt (some c) (parseCborItem fuel (parseCbor fuel) c.toNat : Action σ Json) bs j) :
    Yields (parseCbor (fuel + 1) true : Action σ Json) (c :: bs) j :=
  YieldsAt.get_bind h

theorem toNat_head (major : MajorType) {n : Nat} (h : n ≤ 0x17) :
    (UInt8.ofNat (0x20 * major.code + n)).toNat = 0x20 * major.code + n := by
  have hcode : major.code ≤ 5 := by cases major <;> decide
  exact toNat_ofNat_of_lt (by omega)

/-- The head of a string is one of the cases of `get_cbor_string`. -/
theorem leads_getCborString {width : HeadWidth} {n : Nat} (h : width.Fits n) (fuel : Nat) :
    LeadsAt (some (UInt8.ofNat (0x60 + width.info n))) (getCborString fuel : Action σ (List Byte))
      (bigEndian width.length n) (getString n) := by
  refine LeadsAt.checkEof_bind ?_
  cases width with
  | immediate =>
    have hn : n ≤ 0x17 := h
    have hc : (UInt8.ofNat (0x60 + n)).toNat = 0x60 + n := toNat_head .text hn
    have hlen : (0x60 + n) &&& 0x1f = n := and_five_bits (k := 3) (by omega)
    simp only [HeadWidth.info, hc, hlen]
    rw [if_pos (by omega)]
    exact .refl _ _
  | one => exact (yields_getNumber h _).leads getString
  | two => exact (yields_getNumber h _).leads getString
  | four => exact (yields_getNumber h _).leads getString
  | eight => exact (yields_getNumber h _).leads getString

theorem toInt_negative {n : Nat} (h : n < 2 ^ 63) :
    (-1 - Int64.ofNat n : Int64).toInt = -1 - (n : Int) := by
  rw [Int64.toInt_sub, Int64.toInt_ofNat_of_lt h, show (-1 : Int64).toInt = -1 from rfl]
  exact Int.bmod_eq_of_le (by omega) (by omega)

/-- A small argument: `-1 - n` fits in an `int8_t`. -/
theorem negative_of_le {n : Nat} (h : n ≤ 0x17) :
    Json.numberInteger (Int8.ofInt (0x20 - 1 - ((0x20 + n : Nat) : Int))).toInt64 = negative n := by
  rw [negative, Json.numberInteger.injEq, ← Int64.toInt_inj, toInt_negative (by omega),
    Int8.toInt_toInt64, Int8.toInt_ofInt_of_le (by omega) (by omega)]
  omega

/-- Every head, whatever its width, leads to the same. -/
theorem leads_head (major : MajorType) {width : HeadWidth} {n : Nat} (h : width.Fits n)
    (fuel : Nat) :
    Leads (parseCbor (fuel + 1) true : Action σ Json) (head major width n)
      (afterHead fuel major n) := by
  have hstring := (leads_getCborString (σ := σ) h fuel).bind fun s => Pure.pure (Json.string s)
  refine LeadsAt.get_bind ?_
  cases width with
  | immediate =>
    have hn : n ≤ 0x17 := h
    have hc := toNat_head major hn
    have hand : (0x20 * major.code + n) &&& 0x1f = n := and_five_bits (by omega)
    simp only [HeadWidth.info, hc]
    cases major with
    | unsigned =>
      rw [MajorType.code, Nat.mul_zero, Nat.zero_add, parseCborItem, if_pos hn]
      exact .refl _ _
    | negative =>
      rw [MajorType.code, parseCborItem]
      simp (disch := omega) only [if_neg, if_pos]
      rw [Nat.mul_one, negative_of_le hn]
      exact .refl _ _
    | text =>
      rw [MajorType.code, parseCborItem]
      simp (disch := omega) only [if_neg, if_pos]
      exact hstring
    | array =>
      rw [MajorType.code] at hand ⊢
      rw [parseCborItem]
      simp (disch := omega) only [if_neg, if_pos, hand]
      exact .refl _ _
    | map =>
      rw [MajorType.code] at hand ⊢
      rw [parseCborItem]
      simp (disch := omega) only [if_neg, if_pos, hand]
      exact .refl _ _
  | one | two | four | eight =>
    cases major with
    | unsigned => exact (yields_getNumber h _).leads _
    | negative => exact (yields_getNumber h _).leads _
    | text => exact hstring
    | array => exact (yields_getNumber h _).leads _
    | map => exact (yields_getNumber h _).leads _

/-- What comes after a head that is written. -/
theorem yields_writeCborHead (major : MajorType) (fuel : Nat) {n : Nat} {bs : List Byte} {j : Json}
    (hn : n < 2 ^ 64) (h : Yields (afterHead fuel major n : Action σ Json) bs j) :
    Yields (parseCbor (fuel + 1) true : Action σ Json)
      (writeCborHead (0x20 * major.code) (UInt8.ofNat (0x20 * major.code + 0x18))
        (UInt8.ofNat (0x20 * major.code + 0x19)) (UInt8.ofNat (0x20 * major.code + 0x1a))
        (UInt8.ofNat (0x20 * major.code + 0x1b)) n ++ bs) j := by
  intro c
  obtain ⟨width, hfits, hhead⟩ := exists_head_eq major hn
  rw [hhead]
  exact (leads_head major hfits fuel c).yields h

theorem yields_cborUnsigned {fuel n : Nat} (h : n < 2 ^ 64) :
    Yields (parseCbor (fuel + 1) true : Action σ Json)
      (writeCborHead 0x00 0x18 0x19 0x1a 0x1b n) (.numberUnsigned (UInt64.ofNat n)) := by
  have hyields := yields_writeCborHead (σ := σ) .unsigned fuel h (Yields.pure _)
  rwa [List.append_nil] at hyields

/-- Negative numbers: the argument is `-1 - n`. -/
theorem yields_cborNegative (fuel : Nat) {n : Int64} (hn : n.toInt < 0) :
    ∃ j, Yields (parseCbor (fuel + 1) true : Action σ Json) (writeCborInteger n.toInt) j ∧
      Recovers (.numberInteger n) j := by
  have hlow := n.le_toInt
  refine ⟨negative (-1 - n.toInt).toNat, ?_, recovers_negative hn ?_⟩
  · have hyields := yields_writeCborHead (σ := σ) .negative fuel
      (show (-1 - n.toInt).toNat < 2 ^ 64 by omega) (Yields.pure _)
    rw [List.append_nil] at hyields
    rw [writeCborInteger_of_neg hn]
    exact hyields
  · rw [toInt_negative (by omega)]
    omega

theorem length_writeCborHead_pos {base : Nat} {c8 c16 c32 c64 : Byte} {n : Nat} :
    0 < (writeCborHead base c8 c16 c32 c64 n).length := by
  rw [writeCborHead, writeCborArgument]
  split_ifs
  · exact Nat.succ_pos _
  · exact Nat.succ_pos _
  · exact Nat.succ_pos _
  · exact Nat.succ_pos _
  · exact Nat.succ_pos _

/-- By induction over the value: an encoding is longer than those of the values in it, so there is
fuel left for them. -/
theorem yields_writeCbor (j : Json) (hwf : j.WF) (hd : j.NoDiscarded) (fuel : Nat)
    (hfuel : (writeCbor j).length ≤ fuel) :
    ∃ j', Recovers j j' ∧ Yields (parseCbor (fuel + 1) true : Action σ Json) (writeCbor j) j' := by
  induction j using Json.induct generalizing fuel with
  | null =>
    exact ⟨.null, ⟨trivial, rfl, fun i hi => by cases hi⟩, yields_parseCbor (Yields.pure _ _)⟩
  | boolean b =>
    refine ⟨.boolean b, ⟨trivial, rfl, fun i hi => by cases hi⟩, ?_⟩
    cases b with
    | false => exact yields_parseCbor (Yields.pure _ _)
    | true => exact yields_parseCbor (Yields.pure _ _)
  | numberInteger n =>
    rw [writeCbor]
    by_cases hn : 0 ≤ n.toInt
    · have hlt := n.toInt_lt
      have hcast : ((n.toInt.toNat : Nat) : Int) = n.toInt := Int.toNat_of_nonneg hn
      refine ⟨_, recovers_unsigned (n := n.toInt.toNat) (by omega) ?_, ?_⟩
      · rw [Json.denote, hcast]
      · rw [writeCborInteger, if_pos hn]
        exact yields_cborUnsigned (by omega)
    · obtain ⟨j', hyields, hr⟩ := yields_cborNegative (σ := σ) fuel (not_le.1 hn)
      exact ⟨j', hr, hyields⟩
  | numberUnsigned n =>
    rw [writeCbor]
    exact ⟨_, recovers_unsigned n.toNat_lt rfl, yields_cborUnsigned n.toNat_lt⟩
  | numberFloat bits =>
    refine ⟨.numberFloat bits, ⟨trivial, rfl, fun i hi => by cases hi⟩, ?_⟩
    exact yields_parseCbor (yields_numberFloat bits _)
  | string s =>
    have hlen : s.length < 2 ^ 64 := hwf.self
    refine ⟨.string s, ⟨hwf, rfl, fun i hi => by cases hi⟩, ?_⟩
    exact yields_writeCborHead .text _ hlen ((yields_getString s).map Json.string)
  | array xs ih =>
    rw [writeCbor_array] at hfuel ⊢
    have hlen : xs.length < 2 ^ 64 := hwf.self
    have hpos : 0 < (writeCborHead 0x80 0x98 0x99 0x9a 0x9b xs.length).length :=
      length_writeCborHead_pos
    rw [List.length_append] at hfuel
    obtain ⟨fuel, rfl⟩ : ∃ k, fuel = k + 1 := ⟨fuel - 1, by omega⟩
    obtain ⟨xs', hxs', hyields⟩ := yields_readElements (σ := σ) (parseCbor (fuel + 1) true)
      writeCbor xs [] fun x hx => by
        have := length_le_flatMap writeCbor hx
        exact ih x hx (((Json.all_array xs).1 hwf).2 x hx) (((Json.all_array xs).1 hd).2 x hx) fuel
          (by omega)
    exact ⟨_, recovers_array hwf hxs', yields_writeCborHead .array _ hlen hyields⟩
  | object m ih =>
    rw [writeCbor_object] at hfuel ⊢
    obtain ⟨hm, hsize, hkeys⟩ := hwf.self
    have hlen : m.size < 2 ^ 64 := by omega
    have hpos : 0 < (writeCborHead 0xa0 0xb8 0xb9 0xba 0xbb m.size).length :=
      length_writeCborHead_pos
    rw [List.length_append] at hfuel
    obtain ⟨fuel, rfl⟩ : ∃ k, fuel = k + 1 := ⟨fuel - 1, by omega⟩
    obtain ⟨es', hes', hyields⟩ := yields_readMembers (σ := σ) (getCborString (fuel + 1))
      (parseCbor (fuel + 1) true) writeCborString writeCbor m.toList .empty
      (fun e he => by
        have hkey : e.1.length < 2 ^ 64 := (hkeys e he).trans (by decide)
        obtain ⟨width, hfits, henc⟩ := writeCborString_eq hkey
        exact ⟨_, _, henc, (leads_getCborString hfits _).yields (yields_getString e.1)⟩)
      (fun e he => by
        have := length_le_flatMap (fun e => writeCborString e.1 ++ writeCbor e.2) he
        rw [List.length_append] at this
        exact ih e he (((Json.all_object m).1 hwf).2 e he) (((Json.all_object m).1 hd).2 e he) fuel
          (by omega))
    have hn : m.toList.length = m.size := by
      rw [StringMap.size, hm.numItems]
      rfl
    rw [hn] at hyields
    exact ⟨_, recovers_object hwf hes', yields_writeCborHead .map _ hlen hyields⟩
  | discarded => exact absurd hd.self Bool.noConfusion

end BinaryReader

namespace Json

/-- `from_cbor` reads back what `to_cbor` wrote, from any stream, and leaves the rest. -/
theorem fromCbor_toCbor (j : Json) (hwf : j.WF) (hd : j.NoDiscarded) (rest : List Byte) (is : σ)
    (he : RawIstream.hasError is = false) (hcontent : ByteSource.content is = j.toCbor ++ rest) :
    ∃ j' is', fromCbor is = (.ok j', is') ∧ RawIstream.hasError is' = false ∧
      ByteSource.content is' = rest ∧ Recovers j j' := by
  have hfuel : (BinaryWriter.writeCbor j).length ≤ (ByteSource.content is).length := by
    rw [hcontent, List.length_append, toCbor]
    omega
  obtain ⟨j', hr, hyields⟩ := yields_writeCbor (σ := σ) j hwf hd _ hfuel
  obtain ⟨br', hrun, he', hcontent'⟩ := hyields none (BinaryReader.new is) rest rfl he hcontent
  refine ⟨j', br'.is, ?_, he', hcontent', hr⟩
  rw [fromCbor, hrun]

/-- `{"a": [-1]}`, followed by one more byte. -/
theorem fromCbor_toCbor_singleton :
    ∃ j' is', fromCbor (RawMemIstream.ofBytes
        ((object (assign .empty [0x61] (array [numberInteger (-1)]))).toCbor ++ [0])) =
          (.ok j', is') ∧
      RawIstream.hasError is' = false ∧ ByteSource.content is' = [0] ∧
      Recovers (object (assign .empty [0x61] (array [numberInteger (-1)]))) j' := by
  refine fromCbor_toCbor _ (wf_singleton (by simp) ?_) ((all_singleton _ _).2 ⟨rfl, ?_⟩) [0] _ rfl rfl
  · exact ⟨show 1 < 2 ^ 64 by omega, trivial, trivial⟩
  · exact ⟨rfl, rfl, trivial⟩

end Json

end Wpi

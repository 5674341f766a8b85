import WpiUtil.Json.CborHead
import WpiUtil.Json.Proofs.CborProofs
import WpiUtil.Json.Proofs.MsgpackProofs
import WpiUtil.Json.Proofs.ReplayProofs

/-!
# The shortest encodings of integers

The encoding of an integer does not depend on how it is held, and the readers get no integer out of
fewer bytes than the writers make of it.
-/

namespace Wpi

open Foundations BinaryWriter BinaryReader

/-! ## What is written -/

namespace Json

theorem cases_of_integer {j : Json} {v : Int} (h : j.denote = .integer v) :
    (∃ n : Int64, j = .numberInteger n ∧ n.toInt = v) ∨
      ∃ n : UInt64, j = .numberUnsigned n ∧ (n.toNat : Int) = v := by
  cases j with
  | numberInteger n =>
    rw [denote, Value.integer.injEq] at h
    exact Or.inl ⟨n, rfl, h⟩
  | numberUnsigned n =>
    rw [denote, Value.integer.injEq] at h
    exact Or.inr ⟨n, rfl, h⟩
  | object m =>
    obtain ⟨table, items, tombstones⟩ := m
    rw [denote] at h
    cases h
  | null | string | boolean | array | numberFloat | discarded =>
    rw [denote] at h
    cases h

theorem exists_integer {v : Int} (hlow : -2 ^ 63 ≤ v) (hhigh : v < 2 ^ 64) :
    ∃ j : Json, j.denote = .integer v := by
  by_cases hv : v < 2 ^ 63
  · refine ⟨.numberInteger (Int64.ofInt v), ?_⟩
    rw [denote, Int64.toInt_ofInt_of_le hlow hv]
  · refine ⟨.numberUnsigned (UInt64.ofNat v.toNat), ?_⟩
    rw [denote, UInt64.toNat_ofNat_of_lt' (by rw [UInt64.size]; omega),
      Int.toNat_of_nonneg (by omega)]

theorem toCbor_of_integer {j : Json} {v : Int} (h : j.denote = .integer v) :
    j.toCbor = writeCborInteger v := by
  rcases cases_of_integer h with ⟨n, rfl, rfl⟩ | ⟨n, rfl, rfl⟩
  · rw [toCbor, writeCbor]
  · rw [toCbor, writeCbor, writeCborInteger, if_pos (Int.natCast_nonneg _), Int.toNat_natCast]

/-- The MessagePack encoding of an integer. -/
def msgpackInteger (v : Int) : List Byte :=
  if 0 ≤ v then writeMsgpackUnsigned v.toNat else writeMsgpackInteger (Int64.ofInt v)

theorem toMsgpack_of_integer {j : Json} {v : Int} (h : j.denote = .integer v) :
    j.toMsgpack = msgpackInteger v := by
  rcases cases_of_integer h with ⟨n, rfl, rfl⟩ | ⟨n, rfl, rfl⟩
  · rw [toMsgpack, writeMsgpack, msgpackInteger]
    by_cases hn : 0 ≤ n.toInt
    · have hnat := toNat_toUInt64_of_nonneg hn
      rw [if_pos hn, writeMsgpackInteger, if_pos hn, ← hnat, Int.toNat_natCast]
    · rw [if_neg hn, Int64.ofInt_toInt]
  · rw [toMsgpack, writeMsgpack, msgpackInteger, if_pos (Int.natCast_nonneg _), Int.toNat_natCast]

end Json

/-! ## The lengths of what is written -/

namespace BinaryWriter

@[simp] theorem length_writeNumber (width n : Nat) : (writeNumber width n).length = width :=
  length_bigEndian width n

theorem pow_width_le {width : Nat} (h : width ∈ [1, 2, 4, 8]) : 256 ^ width ≤ 2 ^ 64 := by
  simp only [List.mem_cons, List.not_mem_nil, or_false] at h
  rcases h with rfl | rfl | rfl | rfl <;> omega

theorem length_writeCborArgument_le {c8 c16 c32 c64 : Byte} {n width : Nat}
    (hwidth : width ∈ [1, 2, 4, 8]) (hn : n < 256 ^ width) :
    (writeCborArgument c8 c16 c32 c64 n).length ≤ 1 + width := by
  simp only [List.mem_cons, List.not_mem_nil, or_false] at hwidth
  rw [writeCborArgument]
  rcases hwidth with rfl | rfl | rfl | rfl <;> split_ifs <;> simp <;> omega

/-- What fits in the bytes after the first one is written to no more of them. -/
theorem length_writeCborInteger_le {v : Int} {width : Nat} (hwidth : width ∈ [1, 2, 4, 8])
    (hlow : -(256 ^ width : Nat) ≤ v) (hhigh : v < (256 ^ width : Nat)) :
    (writeCborInteger v).length ≤ 1 + width := by
  by_cases hv : 0 ≤ v
  · rw [writeCborInteger, if_pos hv, writeCborHead]
    split
    · simp
    · exact length_writeCborArgument_le hwidth (by omega)
  · rw [writeCborInteger_of_neg (by omega), writeCborHead]
    split
    · simp
    · exact length_writeCborArgument_le hwidth (by omega)

theorem length_writeCborInteger_single {v : Int} (hlow : -24 ≤ v) (hhigh : v < 24) :
    (writeCborInteger v).length = 1 := by
  rw [writeCborInteger]
  by_cases hv : 0 ≤ v
  · rw [if_pos hv, writeCborHead, if_pos (by omega), length_writeNumber]
  · rw [if_neg hv]
    simp only [if_pos hlow, length_writeNumber]

theorem length_writeMsgpackUnsigned_le {n width : Nat} (hwidth : width ∈ [1, 2, 4, 8])
    (hn : n < 256 ^ width) : (writeMsgpackUnsigned n).length ≤ 1 + width := by
  simp only [List.mem_cons, List.not_mem_nil, or_false] at hwidth
  rw [writeMsgpackUnsigned]
  rcases hwidth with rfl | rfl | rfl | rfl <;> split_ifs <;> simp <;> omega

theorem length_writeMsgpackInteger_le {n : Int64} {width : Nat} (hwidth : width ∈ [1, 2, 4, 8])
    (hn : n.toInt < 0) (hlow : -(256 ^ width : Nat) ≤ 2 * n.toInt) :
    (writeMsgpackInteger n).length ≤ 1 + width := by
  simp only [List.mem_cons, List.not_mem_nil, or_false] at hwidth
  rw [writeMsgpackInteger, if_neg (by omega)]
  rcases hwidth with rfl | rfl | rfl | rfl <;> split_ifs <;> simp <;> omega

end BinaryWriter

namespace Json

theorem length_msgpackInteger_le {v : Int} {width : Nat} (hwidth : width ∈ [1, 2, 4, 8])
    (hmin : -2 ^ 63 ≤ v) (hlow : -(256 ^ width : Nat) ≤ 2 * v) (hhigh : v < (256 ^ width : Nat)) :
    (msgpackInteger v).length ≤ 1 + width := by
  rw [msgpackInteger]
  by_cases hv : 0 ≤ v
  · rw [if_pos hv]
    exact length_writeMsgpackUnsigned_le hwidth (by omega)
  · have hint : (Int64.ofInt v).toInt = v := Int64.toInt_ofInt_of_le hmin (by omega)
    rw [if_neg hv]
    exact length_writeMsgpackInteger_le hwidth (by omega) (by omega)

theorem length_msgpackInteger_single {v : Int} (hlow : -32 ≤ v) (hhigh : v < 128) :
    (msgpackInteger v).length = 1 := by
  rw [msgpackInteger]
  by_cases hv : 0 ≤ v
  · rw [if_pos hv, writeMsgpackUnsigned, if_pos (by omega), length_writeNumber]
  · have hint : (Int64.ofInt v).toInt = v := Int64.toInt_ofInt_of_le (by omega) (by omega)
    rw [if_neg hv, writeMsgpackInteger, if_neg (by omega), if_pos (by omega), length_writeNumber]

end Json

/-! ## What is read -/

namespace BinaryReader

variable {σ : Type} [ByteSource σ] {size : Int → Nat}

/-- A number of `width` bytes takes them from the input. -/
theorem lt_of_run_getBytes {width acc n : Nat} {br br' : BinaryReader σ}
    (he : RawIstream.hasError br.is = false)
    (hrun : (getBytes width acc : Action σ Nat).run.run br = (.ok n, br')) :
    n < (acc + 1) * 256 ^ width ∧ width ≤ (ByteSource.content br.is).length := by
  induction width generalizing acc br with
  | zero =>
    cases hrun
    rw [pow_zero, Nat.mul_one]
    exact ⟨Nat.lt_succ_self n, Nat.zero_le _⟩
  | succ width ih =>
    obtain ⟨c?, br₁, hget, hrest⟩ := exists_of_run_bind hrun
    rcases run_get_cases br he with ⟨-, br₂, hget', hcurrent, -⟩ |
      ⟨c, bs, br₂, hcontent, hget', hcurrent, -, he₂, hcontent₂⟩
    · rw [hget'] at hget
      cases hget
      exact absurd hrest (not_run_checkEof_bind hcurrent)
    · rw [hget'] at hget
      cases hget
      rcases run_checkEof_bind br₁ fun c => getBytes width (acc * 256 + c.toNat) with
        ⟨hnone, -⟩ | ⟨c', hc', hbind⟩
      · rw [hcurrent] at hnone
        cases hnone
      · rw [hbind] at hrest
        obtain ⟨hlt, hle⟩ := ih he₂ hrest
        rw [hcontent₂] at hle
        rw [hcontent, List.length_cons]
        have hc := c'.toNat_lt
        have hacc : acc * 256 + c'.toNat + 1 ≤ (acc + 1) * 256 := by omega
        refine ⟨lt_of_lt_of_le hlt ?_, by omega⟩
        calc (acc * 256 + c'.toNat + 1) * 256 ^ width ≤ (acc + 1) * 256 * 256 ^ width :=
              Nat.mul_le_mul_right _ hacc
          _ = (acc + 1) * 256 ^ (width + 1) := by rw [Nat.mul_assoc, pow_succ']

/-- An integer that is returned takes up no more room, as measured by `size`, than there is left and
one byte. -/
def Costs (size : Int → Nat) (x : Action σ Json) : Prop :=
  ∀ br br' j v, RawIstream.hasError br.is = false → x.run.run br = (.ok j, br') →
    j.denote = .integer v → size v ≤ 1 + (ByteSource.content br.is).length

theorem costs_pure {j : Json} (h : ∀ v, j.denote = .integer v → size v ≤ 1) :
    Costs size (pure j : Action σ Json) := by
  intro br br' j' v _ hrun hv
  cases hrun
  exact (h v hv).trans (Nat.le_add_right _ _)

theorem costs_number {width : Nat} {f : Nat → Json}
    (h : ∀ n v, n < 256 ^ width → (f n).denote = .integer v → size v ≤ 1 + width) :
    Costs size (getNumber width >>= fun n => pure (f n) : Action σ Json) := by
  intro br br' j v he hrun hv
  obtain ⟨n, br₁, hnumber, hpure⟩ := exists_of_run_bind hrun
  cases hpure
  obtain ⟨hlt, hle⟩ := lt_of_run_getBytes he hnumber
  rw [Nat.zero_add, Nat.one_mul] at hlt
  exact (h n v hlt hv).trans (Nat.add_le_add_left hle 1)

/-- No integer. -/
def NotInteger (j : Json) : Prop := ∀ v, j.denote ≠ .integer v

theorem costs_of_returns {x : Action σ Json} (h : Returns NotInteger x) :
    Costs size x := by
  intro br br' j v _ hrun hv
  exact absurd hv (h br br' j hrun v)

theorem notInteger_array (xs : List Json) : NotInteger (.array xs) := by
  intro v h
  cases h

theorem notInteger_object (m : StringMap Json) : NotInteger (.object m) := by
  obtain ⟨table, items, tombstones⟩ := m
  intro v h
  cases h

theorem notInteger_string (s : List Byte) : NotInteger (.string s) := by
  intro v h
  cases h

/-- From `2 ^ 63` on the subtraction wraps around, but then there are eight bytes. -/
theorem bounds_of_negative {n width : Nat} {v : Int} (hwidth : width ∈ [1, 2, 4, 8])
    (hn : n < 256 ^ width) (hv : (negative n).denote = .integer v) :
    -(256 ^ width : Nat) ≤ v ∧ v < (256 ^ width : Nat) := by
  rw [negative, Json.denote, Value.integer.injEq] at hv
  by_cases hsmall : n < 2 ^ 63
  · rw [toInt_negative hsmall] at hv
    omega
  · have hlow := (-1 - Int64.ofNat n : Int64).le_toInt
    have hhigh := (-1 - Int64.ofNat n : Int64).toInt_lt
    simp only [List.mem_cons, List.not_mem_nil, or_false] at hwidth
    rcases hwidth with rfl | rfl | rfl | rfl
    · omega
    · omega
    · omega
    · omega

theorem costs_parseCborItem (fuel : Nat) (parse : Bool → Action σ Json) (c : Nat) :
    Costs (fun v => (writeCborInteger v).length) (parseCborItem fuel parse c) := by
  have hbranches : CborBranches (fun x (_ : Unit → Action σ Json) =>
      Costs (fun v => (writeCborInteger v).length) x) fuel parse (fun _ => fuel)
      (fun _ => parse) c :=
    { value := fun j hj => by
        refine costs_pure fun v hv => ?_
        cases hj with
        | unsigned hc =>
          rw [Json.denote, Value.integer.injEq,
            UInt64.toNat_ofNat_of_lt' (by rw [UInt64.size]; omega)] at hv
          exact (length_writeCborInteger_single (by omega) (by omega)).le
        | negative hc =>
          rw [Json.denote, Value.integer.injEq, Int8.toInt_toInt64,
            Int8.toInt_ofInt_of_le (by omega) (by omega)] at hv
          exact (length_writeCborInteger_single (by omega) (by omega)).le
        | false | true | null => cases hv
      number := fun width f hf => by
        refine costs_number fun n v hn hv => ?_
        cases hf with
        | unsigned hwidth =>
          have hlt : n < 2 ^ 64 := lt_of_lt_of_le hn (pow_width_le hwidth)
          rw [Json.denote, Value.integer.injEq, UInt64.toNat_ofNat_of_lt' hlt] at hv
          exact length_writeCborInteger_le hwidth (by omega) (by omega)
        | negative hwidth =>
          obtain ⟨hlow, hhigh⟩ := bounds_of_negative hwidth hn hv
          exact length_writeCborInteger_le hwidth hlow hhigh
        | float => cases hv
      string := fun _ => costs_of_returns (.bind fun s => returns_pure (notInteger_string s))
      elements := fun len => costs_of_returns (returns_readElements notInteger_array _ len [])
      numberElements := fun width =>
        costs_of_returns (.bind fun len => returns_readElements notInteger_array _ len [])
      elementsUntil := costs_of_returns (returns_readElementsUntil notInteger_array _ fuel [])
      members := fun len =>
        costs_of_returns (returns_readMembers notInteger_object _ _ len .empty)
      numberMembers := fun width =>
        costs_of_returns (.bind fun len => returns_readMembers notInteger_object _ _ len .empty)
      membersUntil :=
        costs_of_returns (returns_readMembersUntil notInteger_object _ _ fuel .empty)
      error := fun id whatArg => costs_of_returns (returns_throwParseError id whatArg) }
  exact hbranches.parseCborItem

theorem costs_parseMsgpackItem (parse : Action σ Json) {c : Nat} (hc : c < 256) :
    Costs (fun v => (Json.msgpackInteger v).length) (parseMsgpackItem parse c) := by
  have hsigned {n : Int64} {width : Nat} {v : Int} (hwidth : width ∈ [1, 2, 4, 8])
      (hlow : -(256 ^ width : Nat) ≤ 2 * n.toInt) (hhigh : 2 * n.toInt < (256 ^ width : Nat))
      (hv : (Json.numberInteger n).denote = .integer v) :
      (Json.msgpackInteger v).length ≤ 1 + width := by
    have hmin := n.le_toInt
    rw [Json.denote, Value.integer.injEq] at hv
    exact Json.length_msgpackInteger_le hwidth (by omega) (by omega) (by omega)
  have hbranches : MsgpackBranches (fun x (_ : Unit → Action σ Json) =>
      Costs (fun v => (Json.msgpackInteger v).length) x) parse (fun _ => parse) c :=
    { value := fun j hj => by
        refine costs_pure fun v hv => ?_
        cases hj with
        | positive hle =>
          rw [Json.denote, Value.integer.injEq,
            UInt64.toNat_ofNat_of_lt' (by rw [UInt64.size]; omega)] at hv
          exact (Json.length_msgpackInteger_single (by omega) (by omega)).le
        | negative hge =>
          rw [Json.denote, Value.integer.injEq, Int8.toInt_toInt64, Int8.toInt_ofNat', Int8.size,
            Int.bmod_def] at hv
          split at hv
          · omega
          · exact (Json.length_msgpackInteger_single (by omega) (by omega)).le
        | boolean | null => cases hv
      number := fun width f hf => by
        refine costs_number fun n v hn hv => ?_
        cases hf with
        | unsigned hwidth =>
          have hlt : n < 2 ^ 64 := lt_of_lt_of_le hn (pow_width_le hwidth)
          rw [Json.denote, Value.integer.injEq, UInt64.toNat_ofNat_of_lt' hlt] at hv
          exact Json.length_msgpackInteger_le hwidth (by omega) (by omega) (by omega)
        | int8 =>
          have hlow := (Int8.ofNat n).le_toInt
          have hhigh := (Int8.ofNat n).toInt_lt
          exact hsigned (by simp) (by rw [Int8.toInt_toInt64]; omega)
            (by rw [Int8.toInt_toInt64]; omega) hv
        | int16 =>
          have hlow := (Int16.ofNat n).le_toInt
          have hhigh := (Int16.ofNat n).toInt_lt
          exact hsigned (by simp) (by rw [Int16.toInt_toInt64]; omega)
            (by rw [Int16.toInt_toInt64]; omega) hv
        | int32 =>
          have hlow := (Int32.ofNat n).le_toInt
          have hhigh := (Int32.ofNat n).toInt_lt
          exact hsigned (by simp) (by rw [Int32.toInt_toInt64]; omega)
            (by rw [Int32.toInt_toInt64]; omega) hv
        | int64 =>
          have hlow := (Int64.ofNat n).le_toInt
          have hhigh := (Int64.ofNat n).toInt_lt
          exact hsigned (by simp) (by omega) (by omega) hv
        | float => cases hv
      string := costs_of_returns (.bind fun s => returns_pure (notInteger_string s))
      elements := fun len => costs_of_returns (returns_readElements notInteger_array _ len [])
      numberElements := fun width =>
        costs_of_returns (.bind fun len => returns_readElements notInteger_array _ len [])
      members := fun len =>
        costs_of_returns (returns_readMembers notInteger_object _ _ len .empty)
      numberMembers := fun width =>
        costs_of_returns (.bind fun len => returns_readMembers notInteger_object _ _ len .empty)
      error := fun id whatArg => costs_of_returns (returns_throwParseError id whatArg) }
  exact hbranches.parseMsgpackItem

/-- The first byte is the one that there is besides what is left. -/
theorem length_le_of_run {x : Action σ Json} {f : Option Byte → Action σ Json}
    (br : BinaryReader σ) {br' : BinaryReader σ} {j : Json} {v : Int} (hx : x = get >>= f)
    (hnone : Returns (fun _ => False) (f none)) (hsome : ∀ c, Costs size (f (some c)))
    (he : RawIstream.hasError br.is = false) (hrun : x.run.run br = (.ok j, br'))
    (hv : j.denote = .integer v) :
    size v ≤ (ByteSource.content br.is).length := by
  rw [hx] at hrun
  obtain ⟨c?, br₁, hget, hrest⟩ := exists_of_run_bind hrun
  rcases run_get_cases br he with ⟨-, br₂, hget', -⟩ |
    ⟨c, bs, br₂, hcontent, hget', -, -, he₂, hcontent₂⟩
  · rw [hget'] at hget
    cases hget
    exact (hnone br₁ br' j hrest).elim
  · rw [hget'] at hget
    cases hget
    have hsize := hsome c br₁ br' j v he₂ hrest hv
    rw [hcontent₂] at hsize
    rw [hcontent, List.length_cons]
    omega

end BinaryReader

namespace Json

theorem length_le_of_fromCbor {s : List Byte} {j : Json} {v : Int}
    (h : fromCborString s = .ok j) (hv : j.denote = .integer v) :
    (writeCborInteger v).length ≤ s.length := by
  have hcosts (c : Byte) : Costs (fun v => (writeCborInteger v).length)
      (parseCborItem s.length (parseCbor s.length) c.toNat : Action RawMemIstream Json) :=
    costs_parseCborItem _ _ _
  exact length_le_of_run (BinaryReader.new (RawMemIstream.ofBytes s))
    (x := parseCbor (s.length + 1) true) rfl (returns_throwParseError _ _) hcosts rfl
    (Prod.ext h rfl) hv

theorem length_le_of_fromMsgpack {s : List Byte} {j : Json} {v : Int}
    (h : fromMsgpackString s = .ok j) (hv : j.denote = .integer v) :
    (msgpackInteger v).length ≤ s.length := by
  have hcosts (c : Byte) : Costs (fun v => (msgpackInteger v).length)
      (parseMsgpackItem (parseMsgpack s.length) c.toNat : Action RawMemIstream Json) :=
    costs_parseMsgpackItem _ c.toNat_lt
  exact length_le_of_run (BinaryReader.new (RawMemIstream.ofBytes s))
    (x := parseMsgpack (s.length + 1)) rfl (returns_throwParseError _ _) hcosts rfl
    (Prod.ext h rfl) hv

theorem wf_of_integer {j : Json} {v : Int} (h : j.denote = .integer v) :
    j.WF ∧ j.NoDiscarded ∧ j.Below32 := by
  rcases cases_of_integer h with ⟨n, rfl, -⟩ | ⟨n, rfl, -⟩
  · exact ⟨trivial, rfl, trivial⟩
  · exact ⟨trivial, rfl, trivial⟩

theorem fromCborString_of_integer {j : Json} {v : Int} (h : j.denote = .integer v) :
    ∃ j', fromCborString j.toCbor = .ok j' ∧ j'.denote = .integer v := by
  obtain ⟨hwf, hd, -⟩ := wf_of_integer h
  obtain ⟨j', hr, hyields⟩ := yields_writeCbor (σ := RawMemIstream) j hwf hd _ (Nat.le_refl _)
  obtain ⟨br', hrun, -⟩ := hyields none (BinaryReader.new (RawMemIstream.ofBytes j.toCbor)) [] rfl rfl
    (List.append_nil _).symm
  exact ⟨j', congrArg Prod.fst hrun, hr.value.trans h⟩

theorem fromMsgpackString_of_integer {j : Json} {v : Int} (h : j.denote = .integer v) :
    ∃ j', fromMsgpackString j.toMsgpack = .ok j' ∧ j'.denote = .integer v := by
  obtain ⟨hwf, hd, hlen⟩ := wf_of_integer h
  obtain ⟨j', hr, hyields⟩ :=
    yields_writeMsgpack (σ := RawMemIstream) j hwf hd hlen _ (Nat.le_refl _)
  obtain ⟨br', hrun, -⟩ := hyields none (BinaryReader.new (RawMemIstream.ofBytes j.toMsgpack)) []
    rfl rfl (List.append_nil _).symm
  exact ⟨j', congrArg Prod.fst hrun, hr.value.trans h⟩

/-- All integers that a `json` can hold have encodings that could not be shorter. -/
theorem writtenShortest (v : Int) (hlow : -2 ^ 63 ≤ v) (hhigh : v < 2 ^ 64) : WrittenShortest v := by
  refine ⟨exists_integer hlow hhigh, fun j hj => ⟨fun j' hj' => ?_, fromCborString_of_integer hj,
    fromMsgpackString_of_integer hj, fun s j' hs hj' => ?_, fun s j' hs hj' => ?_⟩⟩
  · rw [toCbor_of_integer hj, toCbor_of_integer hj', toMsgpack_of_integer hj,
      toMsgpack_of_integer hj']
    exact ⟨rfl, rfl⟩
  · rw [toCbor_of_integer hj]
    exact length_le_of_fromCbor hs hj'
  · rw [toMsgpack_of_integer hj]
    exact length_le_of_fromMsgpack hs hj'

/-- The least integer that takes two bytes in CBOR and one in MessagePack. -/
theorem writtenShortest_twentyFour : WrittenShortest 24 := writtenShortest 24 (by omega) (by omega)

end Json

end Wpi

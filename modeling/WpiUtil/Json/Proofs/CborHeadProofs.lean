import WpiUtil.Json.Proofs.ReplayProofs

/-!
# What `from_cbor` makes of a head

The integers and lengths that the heads of an item express, in each of their widths.
-/

namespace Wpi

open Foundations BinaryReader Cbor

/-! ## `from_cbor` of a text -/

namespace Json

/-- What has been read decides about the value, and the rest is left. -/
theorem fromCbor_of_yields {s : List Byte} (rest : List Byte) {j : Json}
    (h : Yields (parseCbor ((s ++ rest).length + 1) true : Action RawMemIstream Json) s j) :
    fromCbor (RawMemIstream.ofBytes (s ++ rest)) = (.ok j, RawMemIstream.ofBytes rest) := by
  obtain ⟨⟨⟨mem, error⟩, current, charsRead⟩, hrun, he, hmem⟩ := h none
    (BinaryReader.new (RawMemIstream.ofBytes (s ++ rest))) rest rfl rfl rfl
  obtain rfl : error = false := he
  obtain rfl : mem = rest := hmem
  have hcontent : ByteSource.content (RawMemIstream.ofBytes (s ++ mem)) = s ++ mem := rfl
  rw [fromCbor, hcontent, hrun]
  rfl

theorem fromCborString_of_yields {s : List Byte} {j : Json}
    (h : Yields (parseCbor (s.length + 1) true : Action RawMemIstream Json) s j) :
    fromCborString s = .ok j := by
  have hyields : Yields (parseCbor ((s ++ []).length + 1) true : Action RawMemIstream Json) s j := by
    rwa [List.append_nil]
  have hread := fromCbor_of_yields [] hyields
  rw [List.append_nil] at hread
  rw [fromCborString, hread]

/-- What comes after a head decides about the value. -/
theorem fromCborString_head (major : MajorType) {width : HeadWidth} {n : Nat} (h : width.Fits n)
    (rest : List Byte) :
    ∃ br : BinaryReader RawMemIstream, fromCborString (head major width n ++ rest) =
        ((afterHead (head major width n ++ rest).length major n).run.run br).1 ∧
      RawIstream.hasError br.is = false ∧ ByteSource.content br.is = rest := by
  obtain ⟨br, hrun, he, hcontent⟩ := leads_head major h (head major width n ++ rest).length none
    (BinaryReader.new (RawMemIstream.ofBytes (head major width n ++ rest))) rest rfl rfl rfl
  refine ⟨br, ?_, he, hcontent⟩
  rw [← hrun]
  rfl

end Json

/-! ## Integers -/

namespace Json

theorem fromCborString_unsigned {width : HeadWidth} {n : Nat} (h : width.Fits n)
    (rest : List Byte) : fromCborString (head .unsigned width n ++ rest) =
      .ok (.numberUnsigned (UInt64.ofNat n)) := by
  obtain ⟨br, hrun, -⟩ := fromCborString_head .unsigned h rest
  exact hrun

theorem fromCborString_negative {width : HeadWidth} {n : Nat} (h : width.Fits n)
    (rest : List Byte) : fromCborString (head .negative width n ++ rest) = .ok (negative n) := by
  obtain ⟨br, hrun, -⟩ := fromCborString_head .negative h rest
  exact hrun

end Json

theorem Cbor.HeadWidth.Fits.lt {width : HeadWidth} {n : Nat} (h : width.Fits n) : n < 2 ^ 64 := by
  cases width with
  | immediate => exact Nat.lt_of_le_of_lt h (by decide)
  | one => exact Nat.lt_trans h (by decide)
  | two => exact Nat.lt_trans h (by decide)
  | four => exact Nat.lt_trans h (by decide)
  | eight => exact h

namespace Json

theorem readsUnsigned {width : HeadWidth} {n : Nat} (h : width.Fits n) : ReadsUnsigned width n := by
  intro rest
  refine ⟨_, fromCborString_unsigned h rest, ?_⟩
  rw [denote, UInt64.toNat_ofNat_of_lt' h.lt]

theorem readsNegative_iff {width : HeadWidth} {n : Nat} (h : width.Fits n) :
    ReadsNegative width n ↔ n < 2 ^ 63 := by
  constructor
  · intro hreads
    by_contra hn
    have hrest := hreads []
    rw [if_neg (by omega), fromCborString_negative h] at hrest
    obtain ⟨e, he, -⟩ := hrest
    cases he
  · intro hn rest
    rw [if_pos (by omega)]
    refine ⟨_, fromCborString_negative h rest, ?_⟩
    rw [negative, denote, toInt_negative hn]

end Json

/-! ## Strings, arrays and maps -/

theorem BinaryReader.replays_afterHead {σ : Type} [ByteSource σ] (major : MajorType)
    (fuel n : Nat) :
    Replays 0 (afterHead fuel major n : Action σ Json) fun fuel => afterHead fuel major n := by
  have hparse := (replays_parseCbor (σ := σ) fuel).1
  cases major with
  | unsigned => exact replays_pure _
  | negative => exact replays_pure _
  | text => exact (replays_getString n).bind fun s => replays_pure (Json.string s)
  | array => exact replays_readElements hparse n []
  | map =>
    exact replays_readMembers (replays_getCborString fuel)
      (fun br br' a h => not_run_getCborString h) hparse n .empty

namespace Json

/-- What follows a head is read in the same way after another head. -/
theorem fromCborString_head_congr (major : MajorType) {width width' : HeadWidth} {n : Nat}
    (h : width.Fits n) (h' : width'.Fits n) {rest : List Byte} {j : Json}
    (hread : fromCborString (head major width n ++ rest) = .ok j) :
    fromCborString (head major width' n ++ rest) = .ok j := by
  obtain ⟨br, hrun, he, hcontent⟩ := fromCborString_head major h rest
  obtain ⟨br', hrun', he', hcontent'⟩ := fromCborString_head major h' rest
  rw [hread] at hrun
  obtain ⟨bs, hbs, -, hyields⟩ := replays_afterHead major _ n br _ j he (Prod.ext hrun.symm rfl)
  have hfuel : bs.length + 0 ≤ (head major width' n ++ rest).length := by
    rw [← hcontent, hbs, List.length_append, List.length_append]
    omega
  obtain ⟨br'', hrun'', -⟩ := hyields _ br'.current hfuel trivial br' _ rfl he'
    (by rw [hcontent', ← hcontent, hbs])
  rw [hrun', hrun'']

theorem readsAlike (n : Nat) : ReadsAlike n := by
  intro major _ width width' h h' rest j
  exact ⟨fromCborString_head_congr major h h', fromCborString_head_congr major h' h⟩

/-- The heads are read as they should exactly when the argument is below `2 ^ 63`. -/
theorem reads_head_iff {width : HeadWidth} {n : Nat} (h : width.Fits n) :
    (ReadsUnsigned width n ∧ ReadsNegative width n ∧ ReadsAlike n) ↔ n < 2 ^ 63 := by
  rw [readsNegative_iff h, and_iff_right (readsUnsigned h), and_iff_left (readsAlike n)]

theorem reads_head_iff_eight :
    HeadWidth.eight.Fits 23 ∧
      ((ReadsUnsigned .eight 23 ∧ ReadsNegative .eight 23 ∧ ReadsAlike 23) ↔ 23 < 2 ^ 63) := by
  have h : HeadWidth.eight.Fits 23 := show 23 < 2 ^ 64 by omega
  exact ⟨h, reads_head_iff h⟩

/-- `-1 - 2 ^ 63` wraps around to the largest `int64_t`. -/
theorem not_readsNegative_two_pow_63 :
    HeadWidth.eight.Fits (2 ^ 63) ∧
      fromCborString (head .negative .eight (2 ^ 63)) = .ok (.numberInteger 0x7fffffffffffffff) ∧
      ¬ReadsNegative .eight (2 ^ 63) := by
  have h : HeadWidth.eight.Fits (2 ^ 63) := show 2 ^ 63 < 2 ^ 64 by omega
  refine ⟨h, ?_, fun hreads => ?_⟩
  · rw [← List.append_nil (head _ _ _), fromCborString_negative h]
    rfl
  · exact absurd ((readsNegative_iff h).1 hreads) (by omega)

end Json

end Wpi

import WpiUtil.Foundations.WrappedScale
import WpiUtil.Support.Timestamp

/-!
# When timestamps run backwards

The elapsed count is multiplied by 1000000 before it is divided by the frequency. When the product has
wrapped around, the timestamp starts again at the zero time.
-/

namespace Wpi.Clock

open Foundations

variable {c : Clock} {t last : UInt64}

theorem frequencyVal_toNat_pos (c : Clock) : 0 < c.frequencyVal.toNat := c.frequency_pos

theorem elapsed_mono (h : t ≤ last) : c.elapsed t ≤ c.elapsed last :=
  Nat.sub_le_sub_right h _

theorem le_of_elapsed_le (hoffset : c.offsetVal ≤ last) (h : c.elapsed t ≤ c.elapsed last) :
    t ≤ last := by
  have hle : c.offsetVal.toNat ≤ last.toNat := hoffset
  rw [elapsed, elapsed] at h
  rw [UInt64.le_iff_toNat_le]
  omega

theorem Expressible.mono (hlast : c.Expressible last) (h : t ≤ last) : c.Expressible t := by
  have hproduct := Nat.mul_le_mul_right 1000000 (elapsed_mono (c := c) h)
  have hdiv := Nat.div_le_div_right (c := c.frequencyVal.toNat) hproduct
  exact Nat.lt_of_le_of_lt (Nat.add_le_add_right hdiv _) hlast

/-- The last addition does not wrap around when the time is expressible. -/
theorem toNat_nowDefault (hoffset : c.offsetVal ≤ t) (h : c.Expressible t) :
    (c.nowDefault t).toNat =
      wrappedScale (2 ^ 64) 1000000 c.frequencyVal.toNat (c.elapsed t) + c.zerotimeVal.toNat := by
  have hwrapped := Nat.mod_le (c.elapsed t * 1000000) (2 ^ 64)
  have hdiv := Nat.div_le_div_right (c := c.frequencyVal.toNat) hwrapped
  have hdelta : (t - c.offsetVal).toNat = c.elapsed t := UInt64.toNat_sub_of_le _ _ hoffset
  have hscale : ((t - c.offsetVal) * 1000000 / c.frequencyVal).toNat =
      wrappedScale (2 ^ 64) 1000000 c.frequencyVal.toNat (c.elapsed t) := by
    rw [UInt64.toNat_div, UInt64.toNat_mul, hdelta]
    rfl
  rw [nowDefault, UInt64.toNat_add, hscale]
  refine Nat.mod_eq_of_lt ?_
  unfold Expressible at h
  unfold wrappedScale
  omega

/-- The reading after so many counts. -/
theorem exists_elapsed_eq {d : Nat} (hoffset : c.offsetVal ≤ last) (hd : d ≤ c.elapsed last) :
    ∃ t, c.offsetVal ≤ t ∧ t ≤ last ∧ c.elapsed t = d := by
  have hlast := UInt64.toNat_lt last
  have hle : c.offsetVal.toNat ≤ last.toNat := hoffset
  rw [elapsed] at hd
  have ht : (UInt64.ofNat (c.offsetVal.toNat + d)).toNat = c.offsetVal.toNat + d :=
    UInt64.toNat_ofNat_of_lt' (show c.offsetVal.toNat + d < 2 ^ 64 by omega)
  refine ⟨UInt64.ofNat (c.offsetVal.toNat + d), ?_, ?_, ?_⟩
  · rw [UInt64.le_iff_toNat_le, ht]
    omega
  · rw [UInt64.le_iff_toNat_le, ht]
    omega
  · rw [elapsed, ht]
    omega

/-- The timestamps up to a reading compare as the scaled counts do. -/
theorem monotonic_iff_wrappedScale_le (hoffset : c.offsetVal ≤ last) (hlast : c.Expressible last) :
    c.Monotonic last ↔ ∀ d e, d ≤ e → e ≤ c.elapsed last →
      wrappedScale (2 ^ 64) 1000000 c.frequencyVal.toNat d ≤
        wrappedScale (2 ^ 64) 1000000 c.frequencyVal.toNat e := by
  constructor
  · intro h d e hde he
    obtain ⟨t₁, ho₁, hle₁, rfl⟩ := exists_elapsed_eq hoffset (Nat.le_trans hde he)
    obtain ⟨t₂, ho₂, hle₂, rfl⟩ := exists_elapsed_eq hoffset he
    have ht : t₁ ≤ t₂ := le_of_elapsed_le ho₂ hde
    have hnow := UInt64.le_iff_toNat_le.1 (h t₁ t₂ ho₁ ht hle₂)
    rw [toNat_nowDefault ho₁ (hlast.mono hle₁), toNat_nowDefault ho₂ (hlast.mono hle₂)] at hnow
    exact Nat.le_of_add_le_add_right hnow
  · intro h t₁ t₂ ho₁ ht hle₂
    have ho₂ := UInt64.le_trans ho₁ ht
    rw [UInt64.le_iff_toNat_le, toNat_nowDefault ho₁ (hlast.mono (UInt64.le_trans ht hle₂)),
      toNat_nowDefault ho₂ (hlast.mono hle₂)]
    exact Nat.add_le_add_right (h _ _ (elapsed_mono ht) (elapsed_mono hle₂)) _

/-- A reading below the offset has no count. -/
theorem elapsed_eq_zero (h : last < c.offsetVal) : c.elapsed last = 0 :=
  Nat.sub_eq_zero_of_le (Nat.le_of_lt h)

/-- Timestamps never run backwards up to a reading just when no wrap up to there can be seen. -/
theorem monotonic_iff (c : Clock) (last : UInt64) (hlast : c.Expressible last) :
    c.Monotonic last ↔ c.WrapsUnseen last := by
  by_cases hoffset : c.offsetVal ≤ last
  · rw [monotonic_iff_wrappedScale_le hoffset hlast]
    exact forall_wrappedScale_le_iff c.frequencyVal_toNat_pos (by decide) (by decide)
  · have hzero := elapsed_eq_zero (UInt64.not_le.1 hoffset)
    refine iff_of_true ?_ ?_
    · intro t₁ t₂ ho₁ ht hle₂
      exact absurd (UInt64.le_trans ho₁ (UInt64.le_trans ht hle₂)) hoffset
    · intro k hk hle
      rw [hzero] at hle
      omega

/-- A frequency of 10 MHz. -/
theorem monotonic_iff_ten_megahertz :
    Clock.Expressible ⟨1500000000000000, 1, 10000000, by decide⟩ 101 ∧
      (Clock.Monotonic ⟨1500000000000000, 1, 10000000, by decide⟩ 101 ↔
        Clock.WrapsUnseen ⟨1500000000000000, 1, 10000000, by decide⟩ 101) :=
  ⟨by decide, monotonic_iff ⟨1500000000000000, 1, 10000000, by decide⟩ 101 (by decide)⟩

/-- The timestamp falls back to the zero time after 18446744073709 counts, at 10 MHz in about
21 days. -/
theorem nowDefault_runs_backwards :
    let c : Clock := ⟨1500000000000000, 1, 10000000, by decide⟩
    let t₁ : UInt64 := 18446744073710
    let t₂ : UInt64 := 18446744073711
    c.offsetVal ≤ t₁ ∧ t₁ ≤ t₂ ∧ c.Expressible t₂ ∧ c.nowDefault t₁ = 1501844674407370 ∧
      c.nowDefault t₂ = 1500000000000000 ∧ ¬ c.nowDefault t₁ ≤ c.nowDefault t₂ := by
  decide

/-- Unless the frequency is nearly 2⁶⁴, every wrap can be seen. -/
theorem wrapsUnseen_iff (hfrequency : c.frequencyVal.toNat + 1000000 ≤ 2 ^ 64) :
    c.WrapsUnseen last ↔ c.elapsed last * 1000000 < 2 ^ 64 :=
  forall_wrap_iff (by decide) hfrequency

end Wpi.Clock

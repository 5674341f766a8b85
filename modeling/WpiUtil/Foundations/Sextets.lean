import Mathlib.Data.List.Basic
import Mathlib.Tactic.Common

/-!
# Octets and sextets

The bits of a list of octets, most significant first, taken six at a time. The last sextet is filled
up with zeros, and what does not fill an octet is dropped on the way back.
-/

namespace Foundations

def toSextets : List Nat → List Nat
  | a :: b :: c :: l => a / 4 :: (a % 4 * 16 + b / 16) :: (b % 16 * 4 + c / 64) :: c % 64 ::
    toSextets l
  | [a, b] => [a / 4, a % 4 * 16 + b / 16, b % 16 * 4]
  | [a] => [a / 4, a % 4 * 16]
  | [] => []

def toOctets : List Nat → List Nat
  | s :: t :: u :: v :: l => (s * 4 + t / 16) :: (t % 16 * 16 + u / 4) :: (u % 4 * 64 + v) ::
    toOctets l
  | [s, t, u] => [s * 4 + t / 16, t % 16 * 16 + u / 4]
  | [s, t] => [s * 4 + t / 16]
  | [_] => []
  | [] => []

theorem toOctets_toSextets {l : List Nat} (h : ∀ a ∈ l, a < 256) : toOctets (toSextets l) = l := by
  induction l using toSextets.induct with
  | case1 a b c l ih =>
    simp only [List.forall_mem_cons] at h
    obtain ⟨ha, hb, hc, hl⟩ := h
    have hfirst : a / 4 * 4 + (a % 4 * 16 + b / 16) / 16 = a := by omega
    have hsecond : (a % 4 * 16 + b / 16) % 16 * 16 + (b % 16 * 4 + c / 64) / 4 = b := by omega
    have hthird : (b % 16 * 4 + c / 64) % 4 * 64 + c % 64 = c := by omega
    rw [toSextets, toOctets, hfirst, hsecond, hthird, ih hl]
  | case2 a b =>
    simp only [List.forall_mem_cons] at h
    obtain ⟨ha, hb, -⟩ := h
    have hfirst : a / 4 * 4 + (a % 4 * 16 + b / 16) / 16 = a := by omega
    have hsecond : (a % 4 * 16 + b / 16) % 16 * 16 + b % 16 * 4 / 4 = b := by omega
    rw [toSextets, toOctets, hfirst, hsecond]
  | case3 a =>
    have hfirst : a / 4 * 4 + a % 4 * 16 / 16 = a := by omega
    rw [toSextets, toOctets, hfirst]
  | case4 => rfl

theorem length_toSextets (l : List Nat) : (toSextets l).length = (4 * l.length + 2) / 3 := by
  induction l using toSextets.induct with
  | case1 a b c l ih =>
    simp only [toSextets, List.length_cons, ih]
    omega
  | case2 a b => simp [toSextets]
  | case3 a => simp [toSextets]
  | case4 => rfl

theorem lt_of_mem_toSextets {l : List Nat} (h : ∀ a ∈ l, a < 256) : ∀ s ∈ toSextets l, s < 64 := by
  induction l using toSextets.induct with
  | case1 a b c l ih =>
    simp only [List.forall_mem_cons] at h
    obtain ⟨ha, hb, hc, hl⟩ := h
    simp only [toSextets, List.forall_mem_cons]
    exact ⟨by omega, by omega, by omega, by omega, ih hl⟩
  | case2 a b =>
    simp only [List.forall_mem_cons] at h
    obtain ⟨ha, hb, -⟩ := h
    simp only [toSextets, List.forall_mem_cons]
    exact ⟨by omega, by omega, by omega, fun _ hs => nomatch hs⟩
  | case3 a =>
    simp only [List.forall_mem_cons] at h
    obtain ⟨ha, -⟩ := h
    simp only [toSextets, List.forall_mem_cons]
    exact ⟨by omega, by omega, fun _ hs => nomatch hs⟩
  | case4 => exact fun _ hs => nomatch hs

end Foundations

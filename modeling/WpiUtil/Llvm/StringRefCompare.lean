import WpiUtil.Foundations.Codeword
import WpiUtil.Foundations.Decimal
import WpiUtil.Llvm.StringRef

/-!
# Comparing numbers in a `StringRef`

`compare_numeric`, which takes a run of digits for a number, and the words whose lexicographic order it
is.
-/

namespace Wpi.StringRef

open Foundations

/-- `compareMemory`, of two strings of the same length: the sign of what `memcmp` returns. -/
def compareMemory : List Byte → List Byte → Int
  | c :: lhs, d :: rhs => if c = d then compareMemory lhs rhs else if c < d then -1 else 1
  | _, _ => 0

/-- There is a digit at the position, which may be past the end. -/
def digitAt (s : List Byte) (j : Nat) : Bool := s[j]?.any isDigit

/-- The loop over `J`: an answer, or the place where both runs of digits end. -/
def endOfRuns (s rhs : List Byte) : Nat → Nat → Int ⊕ Nat
  | 0, j => .inr j
  | turns + 1, j =>
    let ld := digitAt s j
    let rd := digitAt rhs j
    if ld ≠ rd then .inl (if rd then -1 else 1)
    else if !rd then .inr j
    else endOfRuns s rhs turns (j + 1)

/-- `compare_numeric`. The arguments are what is left of the two strings from `I` on. -/
def compareNumeric : List Byte → List Byte → Int
  | [], [] => 0
  | [], _ :: _ => -1
  | _ :: _, [] => 1
  | c :: s, d :: rhs =>
    if isDigit c && isDigit d then
      match endOfRuns (c :: s) (d :: rhs) (min s.length rhs.length + 1) 1 with
      | .inl r => r
      | .inr j =>
        let res := compareMemory ((c :: s).take j) ((d :: rhs).take j)
        if res ≠ 0 then if res < 0 then -1 else 1
        else compareNumeric (s.drop (j - 1)) (rhs.drop (j - 1))
    else if c ≠ d then if c < d then -1 else 1
    else compareNumeric s rhs
termination_by s => s.length
decreasing_by
  · exact Nat.lt_succ_of_le (by rw [List.length_drop]; exact Nat.sub_le ..)
  · exact Nat.lt_succ_self _

def codes (s : List Byte) : List Int := s.map fun c => (c.toNat : Int)

/-- The word of a string: before a run of digits come the digit zero and the length of the run. -/
def numericKey : List Byte → List Int
  | [] => []
  | c :: s =>
    if isDigit c then
      let run := (c :: s).takeWhile isDigit
      0x30 :: run.length :: (codes run ++ numericKey (s.drop (run.length - 1)))
    else c.toNat :: numericKey s
termination_by s => s.length
decreasing_by
  · exact Nat.lt_succ_of_le (by rw [List.length_drop]; exact Nat.sub_le ..)
  · exact Nat.lt_succ_self _

end Wpi.StringRef

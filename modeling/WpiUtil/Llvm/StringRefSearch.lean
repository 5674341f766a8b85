import Mathlib.Logic.Function.Basic
import WpiUtil.Foundations.Search
import WpiUtil.Llvm.StringRef

/-!
# Searching a `StringRef`

The searches for a string and for sets of characters, and the splits at every separator. `none`
stands for `npos`.
-/

namespace Wpi.StringRef

open Foundations

/-! ## Strings -/

/-- `BadCharSkip`, as the loop over the needle leaves it. -/
def badCharSkip (needle : List Byte) : Byte → UInt8 :=
  (List.range (needle.length - 1)).foldl
    (fun table i => Function.update table (needle.getD i 0) (UInt8.ofNat (needle.length - 1 - i)))
    fun _ => UInt8.ofNat needle.length

/-- `find(Str, From)`. The outer `none` stands for a loop that is not left within as many turns as
there are places to look at. -/
def findStr (s str : List Byte) (start : Nat) : Option (Option Nat) :=
  let n := str.length
  if s.length < start then some none
  else if n = 0 then some (some start)
  else
    let size := s.length - start
    if size < n then some none
    else
      let stop := start + (size - n + 1)
      -- for short haystacks or unsupported needles, every place is looked at
      let skip : Byte → Nat :=
        if size < 16 ∨ 255 < n then fun _ => 1 else fun c => (badCharSkip str c).toNat
      Loop.run (slide str s skip stop) (stop - start) start

/-- `substr(i, N).equals(Str)`. -/
def equalsAt (s str : List Byte) (i : Nat) : Bool := (s.drop i).take str.length == str

/-- `rfind(Str)`. -/
def rfindStr (s str : List Byte) : Option Nat :=
  if s.length < str.length then none else lastBelow (equalsAt s str) (s.length - str.length + 1)

/-- `count(Str)`. -/
def countStr (s str : List Byte) : Nat :=
  if s.length < str.length then 0
  else (List.range (s.length - str.length + 1)).countP (equalsAt s str)

/-! ## Sets of characters -/

/-- The character at the position has a property. -/
def CharAt (P : Byte → Prop) (s : List Byte) (i : Nat) : Prop := ∃ c ∈ s[i]?, P c

/-- The loop of the searches from `start` on, where `test` is what they look for. -/
def indexFrom (test : Byte → Bool) (s : List Byte) (start : Nat) : Option Nat :=
  ((s.drop (min start s.length)).findIdx? test).map (min start s.length + ·)

/-- The loop of the searches back from the place before `start`. -/
def lastIndexBefore (test : Byte → Bool) (s : List Byte) (start : Nat) : Option Nat :=
  lastBelow (fun i => s[i]?.any test) (min start s.length)

/-- `find(C, From)`. -/
def findChar (s : List Byte) (c : Byte) (start : Nat) : Option Nat := indexFrom (· == c) s start

/-- `rfind(C, From)`. -/
def rfindChar (s : List Byte) (c : Byte) (start : Nat) : Option Nat :=
  lastIndexBefore (· == c) s start

def findFirstOf (s chars : List Byte) (start : Nat) : Option Nat :=
  indexFrom chars.contains s start

/-- `find_first_not_of(C, From)`. -/
def findFirstNotOfChar (s : List Byte) (c : Byte) (start : Nat) : Option Nat :=
  indexFrom (· != c) s start

def findFirstNotOf (s chars : List Byte) (start : Nat) : Option Nat :=
  indexFrom (fun c => !chars.contains c) s start

def findLastOf (s chars : List Byte) (start : Nat) : Option Nat :=
  lastIndexBefore chars.contains s start

/-- `find_last_not_of(C, From)`. -/
def findLastNotOfChar (s : List Byte) (c : Byte) (start : Nat) : Option Nat :=
  lastIndexBefore (· != c) s start

def findLastNotOf (s chars : List Byte) (start : Nat) : Option Nat :=
  lastIndexBefore (fun c => !chars.contains c) s start

/-! ## Splits at every separator -/

/-- The loop of `split(A, Separator, MaxSplit, KeepEmpty)`, for a separator of the given width. The
result is `none` when it is not left within so many turns, and where `MaxSplit--` overflows. -/
def splitLoop (findSep : List Byte → Option (Option Nat)) (width : Nat) (keepEmpty : Bool) :
    Nat → List Byte → Int → List (List Byte) → Option (List (List Byte))
  | 0, _, _, _ => none
  | turns + 1, s, maxSplit, a =>
    let tail := if keepEmpty || !s.isEmpty then a ++ [s] else a
    if maxSplit = -0x80000000 then none
    else if maxSplit = 0 then some tail
    else
      match findSep s with
      | none => none
      | some none => some tail
      | some (some idx) =>
        splitLoop findSep width keepEmpty turns (s.drop (idx + width)) (maxSplit - 1)
          (if keepEmpty || 0 < idx then a ++ [s.take idx] else a)

/-- `split` at a string. -/
def splitAllStr (a : List (List Byte)) (s separator : List Byte) (maxSplit : Int)
    (keepEmpty : Bool) : Option (List (List Byte)) :=
  splitLoop (fun s => findStr s separator 0) separator.length keepEmpty (s.length + 1) s maxSplit a

/-- `split` at a character. -/
def splitAllChar (a : List (List Byte)) (s : List Byte) (separator : Byte) (maxSplit : Int)
    (keepEmpty : Bool) : Option (List (List Byte)) :=
  splitLoop (fun s => some (findChar s separator 0)) 1 keepEmpty (s.length + 1) s maxSplit a

/-- What is kept of the pieces. -/
def kept (keepEmpty : Bool) (ps : List (List Byte)) : List (List Byte) :=
  ps.filter fun p => keepEmpty || !p.isEmpty

end Wpi.StringRef

import WpiUtil.Support.RawIstream

/-!
# Reading a stream line by line

`getline` until the stream reports an error, with the lines that have been returned on the way.
-/

namespace Wpi

open RawIstream ByteSource

/-- A call of `getline`: what it has returned, and the stream before and after. -/
structure Getline (σ : Type) where
  before : σ
  line : List Byte
  after : σ

variable {σ : Type}

/-- At most `fuel` calls of `getline`, the last one with an error. -/
def getlines [RawIstream σ] (maxLen : Nat) : Nat → σ → Option (List (Getline σ))
  | 0, _ => none
  | fuel + 1, is =>
    let (line, after) := getline is maxLen
    let call := { before := is, line, after }
    if hasError after then some [call]
    else
      match getlines maxLen fuel after with
      | none => none
      | some calls => some (call :: calls)

/-- A line without its `\r`, of at most `maxLen` bytes. The end of the line is missing only after
`maxLen` bytes of the content, or at the end of it. -/
structure Getline.Fits [ByteSource σ] (maxLen : Nat) (call : Getline σ) : Prop where
  stripped : 0x0d ∉ call.line
  length_le : call.line.length ≤ maxLen
  newline_last : 0x0a ∉ call.line.dropLast
  whole : call.line.getLast? ≠ some 0x0a →
    (∃ consumed, consumed.length = maxLen ∧
      content call.before = consumed ++ content call.after) ∨
    (hasError call.after = true ∧ content call.after = [])

end Wpi

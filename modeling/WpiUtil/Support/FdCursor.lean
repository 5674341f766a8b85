import Mathlib.Algebra.GroupWithZero.Nat
import WpiUtil.Support.RawIstream

/-!
# Where a `raw_fd_istream` copies its bytes from

The lengths of the requests and of the `::read` results alone decide which position of the file
every delivered byte is copied from. `FdCursor` follows these positions without looking at the
content.
-/

namespace Wpi

/-- The buffer of a `raw_fd_istream`, seen from the file: the position of the first unread byte, the
number of unread bytes, and the lengths of the `::read` results to come. -/
structure FdCursor where
  off : Nat
  left : Nat
  sizes : List Nat
deriving DecidableEq, Repr

namespace FdCursor

/-- The cursor of a fresh stream. -/
def start (sizes : List Nat) : FdCursor := ⟨0, 0, sizes⟩

/-- An empty buffer is refilled. -/
def refill (c : FdCursor) : FdCursor :=
  if c.left = 0 then ⟨c.off, c.sizes.headD 0, c.sizes.tail⟩ else c

/-- The number of bytes by which a request of `len` bytes advances `m_cur` when `left` bytes are in
the buffer: all of it is served from these bytes, over and over again. -/
def advance (left len : Nat) : Nat := if len = 0 then 0 else (len - 1) % left + 1

/-- The positions the bytes of one request are copied from, and the cursor afterwards. -/
def serve (c : FdCursor) (len : Nat) : List Nat × FdCursor :=
  if len = 0 then ([], c)
  else
    let c := c.refill
    ((List.range len).map fun i => c.off + i % c.left,
      ⟨c.off + advance c.left len, c.left - advance c.left len, c.sizes⟩)

/-- The positions the bytes of successive requests are copied from. -/
def positions (c : FdCursor) : List Nat → List Nat
  | [] => []
  | len :: lens => (c.serve len).1 ++ positions (c.serve len).2 lens

/-- No request is longer than what is in the buffer when it is served, a refill included. -/
def NoStraddle (c : FdCursor) : List Nat → Prop
  | [] => True
  | len :: lens => (0 < len → len ≤ c.refill.left) ∧ NoStraddle (c.serve len).2 lens

instance instDecidableNoStraddle : (c : FdCursor) → (lens : List Nat) → Decidable (c.NoStraddle lens)
  | _, [] => .isTrue trivial
  | c, len :: lens =>
    have := instDecidableNoStraddle (c.serve len).2 lens
    inferInstanceAs (Decidable ((0 < len → len ≤ c.refill.left) ∧ NoStraddle (c.serve len).2 lens))

end FdCursor

/-- Copying from the positions `pos` instead of from `0, 1, 2, ..` makes no difference on `content`. -/
def SameBytes (content : List Byte) (pos : List Nat) : Prop :=
  ∀ i p : Nat, pos[i]? = some p → content[p]? = content[i]?

/-- The stream on `fd` delivers, for the requests `lens`, the prefix of the content of that total
length, and reports no error. -/
def Delivers {bufSize : Nat} (fd : Descriptor bufSize) (lens : List Nat) : Prop :=
  (RawIstream.readAll (RawFdIstream.ofDescriptor fd) lens).1 = fd.content.take lens.sum ∧
    RawIstream.hasError (RawIstream.readAll (RawFdIstream.ofDescriptor fd) lens).2 = false

end Wpi

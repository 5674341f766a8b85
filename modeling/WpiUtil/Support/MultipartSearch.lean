import Mathlib.Logic.Relation
import WpiUtil.Foundations.Occurrence
import WpiUtil.Support.HttpUtil

/-!
# The search for a multi-part boundary, round by round

Between two rounds of its loop `FindMultipartBoundary` knows some bytes at the start of its buffer
and the rest of the stream. After a round without a `'-'` to carry over, the bytes at the start of
the buffer have been dealt with but stay there: they are stale.
-/

namespace Wpi

open Foundations

/-- The search between two rounds: the bytes carried over at the start of the buffer, and those the
stream has not delivered yet. -/
structure Search where
  carry : List Byte
  unread : List Byte

namespace Search

variable (boundary : List Byte)

/-- The buffer once the next round has filled it. -/
def buffer (st : Search) : List Byte :=
  st.carry ++ st.unread.take (boundary.length + 2 - st.carry.length)

/-- What the stream has left then. -/
def rest (st : Search) : List Byte := st.unread.drop (boundary.length + 2 - st.carry.length)

/-- The next round fills the buffer and does not find the delimiter in it. -/
def Continues (st : Search) : Prop :=
  boundary.length + 2 ≤ st.carry.length + st.unread.length ∧
    st.buffer boundary ≠ delimiter boundary

/-- One round that does not end the search. -/
inductive Step : Search → Search → Prop where
  /-- The next `'-'` and what follows is carried over. -/
  | move {st : Search} {pos : Nat} (h : st.Continues boundary)
      (hdash : nextDash (st.buffer boundary) = some pos) :
      Step st ⟨(st.buffer boundary).drop pos, st.rest boundary⟩
  /-- There is no further `'-'`, and the start of the buffer stays. -/
  | keep {st : Search} (h : st.Continues boundary)
      (hdash : nextDash (st.buffer boundary) = none) : Step st ⟨st.carry, st.rest boundary⟩

/-- Any number of rounds. -/
def Reaches : Search → Search → Prop := Relation.ReflTransGen (Step boundary)

/-- The next round leaves bytes in the buffer that have been dealt with. -/
def Stale (st : Search) : Prop :=
  st.Continues boundary ∧ nextDash (st.buffer boundary) = none ∧ st.carry ≠ []

/-- The stale bytes and those read after them look like the delimiter. -/
def FalseMatch (st : Search) : Prop :=
  st.Stale boundary ∧ buffer boundary ⟨st.carry, st.rest boundary⟩ = delimiter boundary

/-- No round of the search leaves stale bytes. -/
def NeverStale (st : Search) : Prop := ∀ st', Reaches boundary st st' → ¬ st'.Stale boundary

/-- No round of the search takes stale bytes for a part of the delimiter. -/
def NoFalseMatch (st : Search) : Prop :=
  ∀ st', Reaches boundary st st' → ¬ st'.FalseMatch boundary

end Search

/-- `\r` or `\n`. -/
def isLineEnd (c : Byte) : Bool := c = 0x0d || c = 0x0a

/-- What `FindMultipartBoundary` promises for the stream content `s`: it reports whether the
delimiter occurs; if so, the stream is right after the first occurrence, and everything before it
has been appended to `saveBuf`. -/
structure FindsBoundary (boundary : List Byte) (saveBuf : Option (List Byte)) (s : List Byte) :
    Prop where
  found : (findMultipartBoundary (RawMemIstream.ofBytes s) boundary saveBuf).1 = true ↔
    delimiter boundary <:+: s
  position : (findMultipartBoundary (RawMemIstream.ofBytes s) boundary saveBuf).1 = true →
    ∃ i, FirstAt (delimiter boundary) s i ∧
      (findMultipartBoundary (RawMemIstream.ofBytes s) boundary saveBuf).2.2 =
        RawMemIstream.ofBytes (s.drop (i + (delimiter boundary).length))
  saved : ∀ old, saveBuf = some old →
    (findMultipartBoundary (RawMemIstream.ofBytes s) boundary saveBuf).1 = true →
    ∃ i, FirstAt (delimiter boundary) s i ∧
      (findMultipartBoundary (RawMemIstream.ofBytes s) boundary saveBuf).2.1 =
        some (old ++ s.take i)

/-- When it keeps the promise. With a `saveBuf`, no stale bytes may ever be left, or there must be
nothing to find, neither the delimiter nor something that looks like it. Without one, the search
starts at the first byte that is not a line end, and stale bytes must not make up the delimiter. -/
def FindsWhen (boundary : List Byte) (saveBuf : Option (List Byte)) (s : List Byte) : Prop :=
  match saveBuf with
  | some _ =>
    Search.NeverStale boundary ⟨[], s⟩ ∨
      ¬ delimiter boundary <:+: s ∧ Search.NoFalseMatch boundary ⟨[], s⟩
  | none => ∀ c r, s.dropWhile isLineEnd = c :: r → Search.NoFalseMatch boundary ⟨[c], r⟩

end Wpi

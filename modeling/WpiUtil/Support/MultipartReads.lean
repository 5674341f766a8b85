import WpiUtil.Foundations.Loop
import WpiUtil.Support.FiniteIstream
import WpiUtil.Support.HttpUtil

/-!
# What `FindMultipartBoundary` reads

The two loops of `FindMultipartBoundary` on any stream, turn by turn. Nothing bounds the number of
the turns, so a call may be without a result.
-/

namespace Wpi.FindMultipartBoundary

open Foundations ByteSource

/-- The variables of `FindMultipartBoundary` at the start of a turn of its search loop. -/
structure Turn (σ : Type) where
  searchBuf : List Byte
  searchPos : Nat
  saveBuf : Option (List Byte)
  is : σ

section Calls

variable {σ : Type} [RawIstream σ] (boundary : List Byte)

/-- One turn of the first pass. -/
def skipTurn (is : σ) : (Option Byte × σ) ⊕ σ :=
  let (data, is) := RawIstream.read is 1
  if RawIstream.hasError is then .inl (none, is)
  else
    let c := data.headD 0
    if c = 0x0d ∨ c = 0x0a then .inr is else .inl (some c, is)

/-- The number of bytes a turn of the search loop asks for. -/
def Turn.asked (t : Turn σ) : Nat := boundary.length + 2 - t.searchPos

/-- One turn of the search loop. -/
def searchTurn (t : Turn σ) : (Bool × Option (List Byte) × σ) ⊕ Turn σ :=
  let size := boundary.length + 2
  let (data, is) := RawIstream.read t.is (t.asked boundary)
  if RawIstream.hasError is then .inl (false, t.saveBuf, is)
  else
    let searchBuf := t.searchBuf.take t.searchPos ++ data
    if searchBuf.getD 0 0 = dash ∧ searchBuf.getD 1 0 = dash ∧ searchBuf.drop 2 = boundary then
      .inl (true, t.saveBuf, is)
    else
      match nextDash searchBuf with
      | none => .inr ⟨searchBuf, t.searchPos, t.saveBuf.map (· ++ searchBuf), is⟩
      | some pos =>
        .inr ⟨searchBuf.drop pos ++ searchBuf.drop (size - pos), size - pos,
          t.saveBuf.map (· ++ searchBuf.take pos), is⟩

/-- Up to the search loop: the first pass may find the stream at its end already. -/
def start (fuel : Nat) (is : σ) (saveBuf : Option (List Byte)) :
    Option ((Bool × Option (List Byte) × σ) ⊕ Turn σ) :=
  let searchBuf := List.replicate (boundary.length + 2) 0
  match saveBuf with
  | some _ => some (.inr ⟨searchBuf, 0, saveBuf, is⟩)
  | none =>
    (Loop.run skipTurn fuel is).map fun
      | (none, is) => .inl (false, none, is)
      | (some c, is) => .inr ⟨c :: searchBuf.tail, 1, none, is⟩

/-- The whole call, with so many turns at most for either loop. -/
def call (fuel : Nat) (is : σ) (saveBuf : Option (List Byte)) :
    Option (Bool × Option (List Byte) × σ) :=
  (start boundary fuel is saveBuf).bind fun
    | .inl r => some r
    | .inr t => Loop.run (searchTurn boundary) fuel t

end Calls

variable {σ : Type} [FiniteSource σ]

/-- The read of a turn asks for at least one byte and for no more than the buffer has room for, and
it takes something from the stream or fails. -/
structure Turn.ReadsWell (boundary : List Byte) (t : Turn σ) : Prop where
  one_le : 1 ≤ t.asked boundary
  le_length : t.asked boundary ≤ boundary.length + 2
  fits : t.searchPos + t.asked boundary ≤ t.searchBuf.length
  consumes : (content (RawIstream.read t.is (t.asked boundary)).2).length < (content t.is).length ∨
    searchTurn boundary t =
      .inl (false, t.saveBuf, (RawIstream.read t.is (t.asked boundary)).2)

/-- A call returns, with any number of turns above the length of the content, and every turn of its
search loop reads well. -/
structure Terminates (is : σ) (boundary : List Byte) (saveBuf : Option (List Byte)) : Prop where
  returns : ∃ r, ∀ fuel, (content is).length < fuel → call boundary fuel is saveBuf = some r
  reads : ∀ fuel t₀ t, start boundary fuel is saveBuf = some (.inr t₀) →
    Loop.Reaches (searchTurn boundary) t₀ t → t.ReadsWell boundary

end Wpi.FindMultipartBoundary

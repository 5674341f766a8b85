import WpiUtil.Support.RawIstream

/-!
# Multi-part boundaries

`FindMultipartBoundary`, which scans a stream for `--boundary` through a buffer of the length of
that string.
-/

namespace Wpi

/-- `'-'`. -/
def dash : Byte := 0x2d

/-- The string that is searched for: `--` and the boundary. -/
def delimiter (boundary : List Byte) : List Byte := dash :: dash :: boundary

/-- `s.find('-', from)`. -/
def findDash (s : List Byte) (start : Nat) : Option Nat :=
  ((s.drop start).findIdx? (· == dash)).map (start + ·)

/-- The fast scan: the next `'-'` in the buffer, after the one at its start. -/
def nextDash (searchBuf : List Byte) : Option Nat :=
  findDash searchBuf (if searchBuf.headD 0 = dash then 1 else 0)

namespace FindMultipartBoundary

variable {σ : Type} [RawIstream σ]

/-- The first pass without a `saveBuf`: skips `\r` and `\n`. The result is the first other byte, or
`none` when the stream fails before. -/
def skipLineEnds : Nat → σ → Option Byte × σ
  | 0, is => (none, is)
  | fuel + 1, is =>
    let (data, is) := RawIstream.read is 1
    if RawIstream.hasError is then (none, is)
    else
      let c := data.headD 0
      if c = 0x0d ∨ c = 0x0a then skipLineEnds fuel is else (some c, is)

/-- The search loop. When the scan finds a `'-'`, it is moved to the start of the buffer with what
follows; when it finds none, the buffer and `searchPos` stay as they are. -/
def search (boundary : List Byte) :
    Nat → List Byte → Nat → Option (List Byte) → σ → Bool × Option (List Byte) × σ
  | 0, _, _, saveBuf, is => (false, saveBuf, is)
  | fuel + 1, searchBuf, searchPos, saveBuf, is =>
    let size := boundary.length + 2
    let (data, is) := RawIstream.read is (size - searchPos)
    if RawIstream.hasError is then (false, saveBuf, is)
    else
      let searchBuf := searchBuf.take searchPos ++ data
      if searchBuf.getD 0 0 = dash ∧ searchBuf.getD 1 0 = dash ∧ searchBuf.drop 2 = boundary then
        (true, saveBuf, is)
      else
        match nextDash searchBuf with
        | none => search boundary fuel searchBuf searchPos (saveBuf.map (· ++ searchBuf)) is
        | some pos =>
          search boundary fuel (searchBuf.drop pos ++ searchBuf.drop (size - pos)) (size - pos)
            (saveBuf.map (· ++ searchBuf.take pos)) is

end FindMultipartBoundary

open FindMultipartBoundary in
/-- `FindMultipartBoundary`: the result, the saved bytes, and the stream afterwards. Every round of
either loop reads at least one byte, so what is available bounds their number. -/
def findMultipartBoundary (is : RawMemIstream) (boundary : List Byte)
    (saveBuf : Option (List Byte)) : Bool × Option (List Byte) × RawMemIstream :=
  let searchBuf := List.replicate (boundary.length + 2) 0
  match saveBuf with
  | some _ => search boundary (is.mem.length + 1) searchBuf 0 saveBuf is
  | none =>
    match skipLineEnds (is.mem.length + 1) is with
    | (none, is) => (false, none, is)
    | (some c, is) => search boundary (is.mem.length + 1) (c :: searchBuf.tail) 1 none is

end Wpi

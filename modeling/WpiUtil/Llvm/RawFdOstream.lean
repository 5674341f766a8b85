import WpiUtil.Llvm.RawOstreamCalls

/-!
# `raw_pwrite_stream`

Streams that can write over what they have written, to a file or a vector. A file is one that is
open, and what the system calls return is part of the state: the outcomes that are still to come,
after which every call does all it is asked for.
-/

namespace Wpi

/-! ## Files -/

/-- A file and the position of a descriptor in it. -/
structure File where
  content : List Byte
  offset : Nat
deriving DecidableEq, Repr

/-- Bytes are written over those at the position. What is skipped past the end is zero. -/
def File.write (file : File) (data : List Byte) : File :=
  if data = [] then file
  else
    { content := file.content.take file.offset ++
        List.replicate (file.offset - file.content.length) 0 ++ data ++
        file.content.drop (file.offset + data.length)
      offset := file.offset + data.length }

/-- What a call of `::write` does: it takes so many bytes at most, is interrupted (`EINTR`, `EAGAIN`
or `EWOULDBLOCK`), or fails. -/
inductive WriteOutcome where
  | takes (count : Nat)
  | interrupted
  | fails
deriving DecidableEq, Repr

/-- The members of a `raw_fd_ostream`, with the file of `FD`. -/
structure RawFdOstream where
  file : File
  outcomes : List WriteOutcome
  /-- Whether the calls of `::lseek` succeed. -/
  seeks : List Bool
  pos : UInt64
  error : Bool
  supportsSeeking : Bool
  /-- `st_blksize`, or zero for a terminal. -/
  blksize : UInt32
deriving DecidableEq, Repr

namespace RawFdOstream

/-- The loop of `write_impl`. -/
def writeLoop (file : File) (error : Bool) (data : List Byte) :
    List WriteOutcome → File × Bool × List WriteOutcome
  | [] => (file.write data, error, [])
  | .takes count :: outcomes =>
    let file := file.write (data.take count)
    if data.drop count = [] then (file, error, outcomes)
    else writeLoop file error (data.drop count) outcomes
  | .interrupted :: outcomes =>
    if data = [] then (file, error, outcomes) else writeLoop file error data outcomes
  | .fails :: outcomes => (file, true, outcomes)

/-- `raw_fd_ostream::write_impl`. -/
def writeImpl (fd : RawFdOstream) (data : List Byte) : RawFdOstream :=
  let (file, error, outcomes) := writeLoop fd.file fd.error data fd.outcomes
  { fd with file, error, outcomes, pos := fd.pos + UInt64.ofNat data.length }

/-- `pos = ::lseek(FD, off, SEEK_SET)` -/
def lseek (fd : RawFdOstream) (off : UInt64) : RawFdOstream :=
  match fd.seeks with
  | false :: seeks => { fd with seeks, pos := -1 }
  | seeks => { fd with seeks := seeks.tail, file := { fd.file with offset := off.toNat }, pos := off }

/-- What is left of `seek` after the flush. -/
def seekTo (fd : RawFdOstream) (off : UInt64) : RawFdOstream :=
  let fd := fd.lseek off
  if fd.pos = -1 then { fd with error := true } else fd

end RawFdOstream

instance : RawOstreamImpl RawFdOstream where
  writeImpl fd data := (fd.writeImpl data, none)
  currentPos fd := fd.pos
  preferredBufferSize fd := fd.blksize

/-! ## Vectors -/

/-- The members of a `raw_svector_ostream`. -/
structure RawSvectorOstream where
  content : List Byte
  bufsiz : UInt32
deriving DecidableEq, Repr

instance : RawOstreamImpl RawSvectorOstream where
  writeImpl s data := ({ s with content := s.content ++ data }, none)
  currentPos s := UInt64.ofNat s.content.length
  preferredBufferSize s := s.bufsiz

/-! ## `raw_pwrite_stream` -/

/-- A subclass of `raw_pwrite_stream`. -/
class RawPwriteImpl (σ : Type) extends RawOstreamImpl σ where
  pwriteImpl : RawOstream σ → List Byte → UInt64 → Option (RawOstream σ)

/-- `raw_fd_ostream::seek`. -/
def RawFdOstream.seek (os : RawOstream RawFdOstream) (off : UInt64) :
    Option (RawOstream RawFdOstream) :=
  if os.sub.supportsSeeking then os.flush.map fun os => { os with sub := os.sub.seekTo off }
  else none

instance : RawPwriteImpl RawFdOstream where
  pwriteImpl os data offset :=
    let pos := os.tell
    (RawFdOstream.seek os offset).bind fun os =>
      (os.write data).bind fun os => RawFdOstream.seek os pos

instance : RawPwriteImpl RawSvectorOstream where
  pwriteImpl os data offset :=
    some { os with
      sub := { os.sub with
        content := os.sub.content.take offset.toNat ++ data ++
          os.sub.content.drop (offset.toNat + data.length) } }

namespace RawOstream

/-- `pwrite`. -/
def pwrite {σ : Type} [RawPwriteImpl σ] (os : RawOstream σ) (data : List Byte) (offset : UInt64) :
    Option (RawOstream σ) :=
  if os.tell ≠ 0 ∧ os.tell < UInt64.ofNat data.length + offset then none
  else RawPwriteImpl.pwriteImpl os data offset

/-- A call of a `raw_pwrite_stream`. -/
inductive PwriteCall where
  | call (call : Call)
  | pwrite (data : List Byte) (offset : UInt64)

namespace PwriteCall

def perform {σ : Type} [RawPwriteImpl σ] (c : PwriteCall) (os : RawOstream σ) :
    Option (RawOstream σ) :=
  match c with
  | call c => c.perform os
  | pwrite data offset => os.pwrite data offset

/-- What is written at the end, or over what has been written. -/
def edit (c : PwriteCall) (log : List Byte) : List Byte :=
  match c with
  | call c => log ++ c.text
  | pwrite data offset =>
    log.take offset.toNat ++ data ++ log.drop (offset.toNat + data.length)

/-- What is written over has been written, and there are positions for all of it. -/
def Allowed (c : PwriteCall) (log : List Byte) : Prop :=
  match c with
  | call c => c.Allowed
  | pwrite data offset => offset.toNat + data.length ≤ log.length ∧ log.length < 2 ^ 64 - 1

/-- The buffer is not set up anew. -/
def KeepsBuffer : PwriteCall → Prop
  | call c => c.KeepsBuffer
  | pwrite .. => True

end PwriteCall

end RawOstream

end Wpi

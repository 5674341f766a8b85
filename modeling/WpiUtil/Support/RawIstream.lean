import Mathlib.Data.List.Basic
import Mathlib.Tactic.Common

/-!
# Input streams

`raw_istream` and its two implementations: `raw_mem_istream` reads from a block of memory,
`raw_fd_istream` from a file descriptor through a buffer of `bufSize` bytes.

A read delivers the bytes stored in the caller's `data` together with the stream afterwards. A
failed read may have stored only part of what was asked for; callers look at `has_error` first.
-/

namespace Wpi

/-- A `char` or `unsigned char`. -/
abbrev Byte := UInt8

/-- An ASCII text. -/
def bytes (s : String) : List Byte := s.toList.map fun c => UInt8.ofNat c.toNat

/-- The virtual interface of `raw_istream`. -/
class RawIstream (σ : Type) where
  /-- The number of bytes that can be read without asking the operating system. -/
  inAvail : σ → Nat
  /-- Reads `len` bytes. -/
  readImpl : σ → Nat → List Byte × σ
  /-- The sticky error flag. -/
  hasError : σ → Bool

namespace RawIstream

variable {σ : Type} [RawIstream σ]

/-- `read(void*, size_t)`. -/
def read (s : σ) (len : Nat) : List Byte × σ := readImpl s len

/-- `readsome`: never asks for more than what is available. The first component is the count it
returns. -/
def readsome (s : σ) (len : Nat) : Nat × List Byte × σ :=
  let readlen := min (inAvail s) len
  if readlen = 0 then (0, [], s) else (readlen, readImpl s readlen)

theorem readsome_zero {s : σ} {len : Nat} (h : min (inAvail s) len = 0) :
    readsome s len = (0, [], s) := by
  simp only [readsome, if_pos h]

theorem readsome_pos {s : σ} {len : Nat} (h : min (inAvail s) len ≠ 0) :
    readsome s len = (min (inAvail s) len, readImpl s (min (inAvail s) len)) := by
  simp only [readsome, if_neg h]

/-- Successive `read` calls asking for the lengths `lens`: all bytes delivered, in order. -/
def readAll : σ → List Nat → List Byte × σ
  | s, [] => ([], s)
  | s, len :: lens =>
    let (data, s') := read s len
    let (rest, s'') := readAll s' lens
    (data ++ rest, s'')

/-- The loop of `getline`. -/
def getlineLoop : Nat → List Byte → σ → List Byte × σ
  | 0, buf, is => (buf, is)
  | n + 1, buf, is =>
    let (data, is) := read is 1
    if hasError is then (buf, is)
    else
      let c := data.headD 0
      if c = 0x0d then getlineLoop n buf is
      else if c = 0x0a then (buf ++ [c], is)
      else getlineLoop n (buf ++ [c]) is

/-- `getline`: reads at most `maxLen` bytes, up to the end of the line. A `\r` is dropped, but it
counts. -/
def getline (is : σ) (maxLen : Nat) : List Byte × σ := getlineLoop maxLen [] is

end RawIstream

/-- A stream that delivers a fixed content when it is read one byte at a time. -/
class ByteSource (σ : Type) extends RawIstream σ where
  /-- What is still to be delivered. -/
  content : σ → List Byte
  /-- A byte that is there is delivered. -/
  read_cons : ∀ {s : σ} {b : Byte} {bs : List Byte}, hasError s = false → content s = b :: bs →
    ∃ s', readImpl s 1 = ([b], s') ∧ hasError s' = false ∧ content s' = bs
  /-- Reading past the end is an error. -/
  read_nil : ∀ {s : σ}, content s = [] →
    hasError (readImpl s 1).2 = true ∧ content (readImpl s 1).2 = []

/-! ## `raw_mem_istream` -/

/-- A `raw_mem_istream`: `mem` is the memory from `m_cur` on, so `m_left` is its length. -/
structure RawMemIstream where
  mem : List Byte
  error : Bool
deriving DecidableEq, Repr

namespace RawMemIstream

/-- `raw_mem_istream(mem)`. -/
def ofBytes (mem : List Byte) : RawMemIstream := ⟨mem, false⟩

/-- `raw_mem_istream::read_impl`. -/
def readImpl (s : RawMemIstream) (len : Nat) : List Byte × RawMemIstream :=
  if len > s.mem.length then ([], { s with error := true })
  else (s.mem.take len, { s with mem := s.mem.drop len })

end RawMemIstream

instance : ByteSource RawMemIstream where
  inAvail s := s.mem.length
  readImpl := RawMemIstream.readImpl
  hasError s := s.error
  content s := s.mem
  read_cons := by
    intro s b bs he hc
    exact ⟨{ s with mem := bs }, by simp [RawMemIstream.readImpl, hc], he, rfl⟩
  read_nil := by
    intro s hc
    simp [RawMemIstream.readImpl, hc]

/-! ## `raw_fd_istream` -/

/-- What is behind a file descriptor: the results of the successive `::read` calls with a buffer of
`bufSize` bytes. Every one is non-empty and fits in the buffer; after the last one `::read` returns
zero. -/
structure Descriptor (bufSize : Nat) where
  reads : List (List Byte)
  read_pos : ∀ r ∈ reads, 0 < r.length
  read_le : ∀ r ∈ reads, r.length ≤ bufSize

namespace Descriptor

variable {bufSize : Nat}

/-- The content behind the descriptor. -/
def content (fd : Descriptor bufSize) : List Byte := fd.reads.flatten

/-- The lengths of the `::read` results. -/
def sizes (fd : Descriptor bufSize) : List Nat := fd.reads.map List.length

/-- The descriptor after one more `::read`. -/
def tail (fd : Descriptor bufSize) : Descriptor bufSize where
  reads := fd.reads.tail
  read_pos r hr := fd.read_pos r (List.mem_of_mem_tail hr)
  read_le r hr := fd.read_le r (List.mem_of_mem_tail hr)

end Descriptor

/-- A `raw_fd_istream`: `avail` is the part of the buffer between `m_cur` and `m_end`. -/
structure RawFdIstream (bufSize : Nat) where
  avail : List Byte
  fd : Descriptor bufSize
  error : Bool

namespace RawFdIstream

variable {bufSize : Nat}

/-- `raw_fd_istream(fd, shouldClose, bufSize)`: the buffer starts out empty. -/
def ofDescriptor (fd : Descriptor bufSize) : RawFdIstream bufSize := ⟨[], fd, false⟩

/-- `raw_fd_istream::read_impl`. When the request is longer than what is left in the buffer, the
rest is copied to `data` and the remainder of the request is served by a recursive call, with
`m_cur` still where it was. -/
def readImpl (s : RawFdIstream bufSize) (len : Nat) : List Byte × RawFdIstream bufSize :=
  let left := s.avail.length
  if left < len then
    if left = 0 then
      match _h : s.fd.reads with
      | [] => ([], { s with error := true })
      | r :: _ => readImpl { s with avail := r, fd := s.fd.tail } len
    else
      let (data, s') := readImpl s (len - left)
      (s.avail ++ data, s')
  else (s.avail.take len, { s with avail := s.avail.drop len })
termination_by (len, s.fd.reads.length)
decreasing_by
  · simp [Descriptor.tail, Prod.lex_def, _h]
  · simp only [Prod.lex_def]
    omega

/-- A request that the buffer can serve alone. -/
theorem readImpl_of_le {s : RawFdIstream bufSize} {len : Nat} (h : len ≤ s.avail.length) :
    s.readImpl len = (s.avail.take len, { s with avail := s.avail.drop len }) := by
  rw [readImpl, if_neg (by omega)]

/-- A request on an empty buffer refills it first. -/
theorem readImpl_refill {s : RawFdIstream bufSize} {len : Nat} {r : List Byte}
    {rs : List (List Byte)} (h : s.avail = []) (hlen : 0 < len) (hr : s.fd.reads = r :: rs) :
    s.readImpl len = readImpl { s with avail := r, fd := s.fd.tail } len := by
  rw [readImpl, if_pos (by simpa [h] using hlen), if_pos (by simp [h])]
  split
  · simp_all
  · next r' rs' hr' =>
    obtain ⟨rfl, rfl⟩ := List.cons.injEq .. ▸ hr.symm.trans hr'
    rfl

/-- A request on an empty buffer at the end of the file is an error. -/
theorem readImpl_eof {s : RawFdIstream bufSize} {len : Nat} (h : s.avail = []) (hlen : 0 < len)
    (hr : s.fd.reads = []) : s.readImpl len = ([], { s with error := true }) := by
  rw [readImpl, if_pos (by simpa [h] using hlen), if_pos (by simp [h])]
  split
  · rfl
  · simp_all

/-- A request longer than a non-empty buffer is served from the same bytes again. -/
theorem readImpl_straddle {s : RawFdIstream bufSize} {len : Nat} (h : s.avail ≠ [])
    (hlen : s.avail.length < len) :
    s.readImpl len =
      (s.avail ++ (s.readImpl (len - s.avail.length)).1, (s.readImpl (len - s.avail.length)).2) := by
  rw [readImpl, if_pos hlen, if_neg (by simpa using h)]

end RawFdIstream

instance {bufSize : Nat} : ByteSource (RawFdIstream bufSize) where
  inAvail s := s.avail.length
  readImpl := RawFdIstream.readImpl
  hasError s := s.error
  content s := s.avail ++ s.fd.content
  read_cons := by
    intro s b bs he hc
    cases ha : s.avail with
    | cons a as =>
      rw [RawFdIstream.readImpl_of_le (by simp [ha])]
      simp only [ha, List.cons_append, List.cons.injEq] at hc
      exact ⟨{ s with avail := as }, by simp [ha, hc.1], he, by simpa using hc.2⟩
    | nil =>
      simp only [ha, List.nil_append, Descriptor.content] at hc
      cases hr : s.fd.reads with
      | nil => simp [hr] at hc
      | cons r rs =>
        have hpos := s.fd.read_pos r (by simp [hr])
        obtain ⟨a, as, rfl⟩ := List.exists_cons_of_length_pos hpos
        rw [RawFdIstream.readImpl_refill ha (by omega) hr, RawFdIstream.readImpl_of_le (by simp)]
        simp only [hr, List.flatten_cons, List.cons_append, List.cons.injEq] at hc
        refine ⟨{ s with avail := as, fd := s.fd.tail }, by simp [hc.1], he, ?_⟩
        simpa [Descriptor.content, Descriptor.tail, hr] using hc.2
  read_nil := by
    intro s hc
    have ha : s.avail = [] := (List.append_eq_nil_iff.1 hc).1
    have hr : s.fd.reads = [] := by
      rcases hs : s.fd.reads with _ | ⟨r, rs⟩
      · rfl
      · have hpos := s.fd.read_pos r (by simp [hs])
        simp only [Descriptor.content, hs, List.flatten_cons, List.append_eq_nil_iff] at hc
        simp [hc.2.1] at hpos
    rw [RawFdIstream.readImpl_eof ha (by omega) hr]
    exact ⟨rfl, hc⟩

end Wpi

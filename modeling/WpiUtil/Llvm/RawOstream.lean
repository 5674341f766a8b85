import Mathlib.Data.Prod.Lex
import Mathlib.Order.Basic
import WpiUtil.Support.RawIstream

/-!
# `raw_ostream`

The buffer of an output stream, in front of a subclass that writes the bytes somewhere. An assertion
that fails has the result `none`. Sizes do not overflow, and the buffers of a subclass have fewer than
`2 ^ 32` bytes.
-/

namespace Wpi

/-- What a subclass of `raw_ostream` implements, for members of type `σ`. -/
class RawOstreamImpl (σ : Type) where
  /-- Writes the bytes, and may install a buffer of its own of some size with `SetBuffer`. -/
  writeImpl : σ → List Byte → σ × Option {size : UInt32 // size ≠ 0}
  /-- The position without the bytes in the buffer. -/
  currentPos : σ → UInt64
  /-- The size of a buffer that suits the stream, zero for none at all. -/
  preferredBufferSize : σ → UInt32

/-- `BufferKind`. -/
inductive BufferKind where
  | unbuffered
  | internalBuffer
  | externalBuffer
deriving DecidableEq, Repr

/-- The bytes from `OutBufStart` to `OutBufCur`, and the size from `OutBufStart` to `OutBufEnd`. -/
structure OutBuf where
  bytes : List Byte
  size : Nat
deriving DecidableEq, Repr

/-- A `raw_ostream`. Without a buffer `OutBufStart`, `OutBufEnd` and `OutBufCur` are null. -/
structure RawOstream (σ : Type) where
  outBuf : Option OutBuf
  bufferMode : BufferKind
  /-- The members of the subclass. -/
  sub : σ
deriving DecidableEq, Repr

namespace RawOstream

variable {σ : Type}

/-- The constructor. -/
def new (sub : σ) (unbuffered : Bool) : RawOstream σ :=
  { outBuf := none, bufferMode := if unbuffered then .unbuffered else .internalBuffer, sub }

/-- The bytes from `OutBufStart` to `OutBufCur`. -/
def held (os : RawOstream σ) : List Byte := os.outBuf.elim [] OutBuf.bytes

/-- `GetNumBytesInBuffer`. -/
def getNumBytesInBuffer (os : RawOstream σ) : Nat := os.held.length

/-- `OutBufEnd - OutBufStart`. -/
def size (os : RawOstream σ) : Nat := os.outBuf.elim 0 OutBuf.size

/-- `OutBufEnd - OutBufCur`. -/
def room (os : RawOstream σ) : Nat := os.size - os.held.length

/-- `SetBufferAndMode`, where no size stands for a null `BufferStart`. -/
def setBufferAndMode (os : RawOstream σ) (size : Option Nat) (mode : BufferKind) :
    Option (RawOstream σ) :=
  if ((mode = .unbuffered ∧ size = none) ∨ (mode ≠ .unbuffered ∧ size ≠ none ∧ size ≠ some 0)) ∧
      os.getNumBytesInBuffer = 0 then
    some { os with outBuf := size.map fun n => ⟨[], n⟩, bufferMode := mode }
  else none

/-- `copy_to_buffer`. -/
def copyToBuffer (os : RawOstream σ) (data : List Byte) : Option (RawOstream σ) :=
  if data.length ≤ os.room then
    some { os with outBuf := os.outBuf.map fun b => { b with bytes := b.bytes ++ data } }
  else none

variable [RawOstreamImpl σ]

/-- `tell`. -/
def tell (os : RawOstream σ) : UInt64 :=
  RawOstreamImpl.currentPos os.sub + UInt64.ofNat os.getNumBytesInBuffer

/-- The call of `write_impl` on bytes that are not, or no longer, in the buffer. -/
def passOn (os : RawOstream σ) (data : List Byte) : Option (RawOstream σ) :=
  match RawOstreamImpl.writeImpl os.sub data with
  | (sub, none) => some { os with sub }
  | (sub, some size) => setBufferAndMode { os with sub } (some size.1.toNat) .externalBuffer

/-- The bytes in the buffer are taken out of it. -/
def emptied (os : RawOstream σ) : RawOstream σ :=
  { os with outBuf := os.outBuf.map fun b => { b with bytes := [] } }

/-- `flush_nonempty`. -/
def flushNonempty (os : RawOstream σ) : Option (RawOstream σ) :=
  if os.held ≠ [] then os.emptied.passOn os.held else none

/-- `flush`. -/
def flush (os : RawOstream σ) : Option (RawOstream σ) :=
  if os.held ≠ [] then os.flushNonempty else some os

/-- `SetBufferSize`. -/
def setBufferSize (os : RawOstream σ) (size : Nat) : Option (RawOstream σ) :=
  os.flush.bind fun os => os.setBufferAndMode (some size) .internalBuffer

/-- `SetUnbuffered`. -/
def setUnbuffered (os : RawOstream σ) : Option (RawOstream σ) :=
  os.flush.bind fun os => os.setBufferAndMode none .unbuffered

/-- `SetBuffered`. -/
def setBuffered (os : RawOstream σ) : Option (RawOstream σ) :=
  let size := (RawOstreamImpl.preferredBufferSize os.sub).toNat
  if size ≠ 0 then os.setBufferSize size else os.setUnbuffered

/-! ## Writing

The two `write` start over when they have set up a buffer, and with the rest of a string when they have
filled it. -/

/-- The buffer is yet to be set up. -/
def Uninitialized (os : RawOstream σ) : Prop := os.outBuf = none ∧ os.bufferMode ≠ .unbuffered

instance (os : RawOstream σ) : Decidable os.Uninitialized :=
  inferInstanceAs (Decidable (_ ∧ _))

/-- How often the buffer is still to be set up. -/
def setups (os : RawOstream σ) : Nat := if os.Uninitialized then 1 else 0

omit [RawOstreamImpl σ] in
theorem held_emptied (os : RawOstream σ) : os.emptied.held = [] := by
  cases h : os.outBuf <;> simp [emptied, held, h]

omit [RawOstreamImpl σ] in
theorem of_setBufferAndMode {os os' : RawOstream σ} {size : Option Nat} {mode : BufferKind}
    (h : os.setBufferAndMode size mode = some os') :
    os' = { os with outBuf := size.map fun n => ⟨[], n⟩, bufferMode := mode } ∧
      ((mode = .unbuffered ∧ size = none) ∨ (mode ≠ .unbuffered ∧ ∃ n ≠ 0, size = some n)) ∧
      os.held = [] := by
  rw [setBufferAndMode] at h
  split at h
  · next hs =>
    cases h
    refine ⟨rfl, ?_, List.length_eq_zero_iff.1 hs.2⟩
    rcases hs.1 with hmode | ⟨hmode, hne, hzero⟩
    · exact Or.inl hmode
    · obtain ⟨n, rfl⟩ := Option.ne_none_iff_exists'.1 hne
      exact Or.inr ⟨hmode, n, fun hn => hzero (by rw [hn]), rfl⟩
  · cases h

omit [RawOstreamImpl σ] in
theorem held_of_setBufferAndMode {os os' : RawOstream σ} {size : Option Nat} {mode : BufferKind}
    (h : os.setBufferAndMode size mode = some os') : os'.held = [] ∧ ¬ os'.Uninitialized := by
  obtain ⟨rfl, hsize, -⟩ := of_setBufferAndMode h
  rcases hsize with ⟨rfl, rfl⟩ | ⟨hmode, n, hn, rfl⟩
  · exact ⟨rfl, fun hun => hun.2 rfl⟩
  · refine ⟨rfl, fun hun => ?_⟩
    cases hun.1

theorem not_uninitialized_of_setBuffered {os os' : RawOstream σ} (h : os.setBuffered = some os') :
    os'.held = [] ∧ ¬ os'.Uninitialized := by
  simp only [setBuffered] at h
  split at h
  · obtain ⟨t, -, ht⟩ := Option.bind_eq_some_iff.1 h
    exact held_of_setBufferAndMode ht
  · obtain ⟨t, -, ht⟩ := Option.bind_eq_some_iff.1 h
    exact held_of_setBufferAndMode ht

theorem setups_of_setBuffered {os os' : RawOstream σ} (hnone : os.outBuf = none)
    (hmode : os.bufferMode ≠ .unbuffered) (h : os.setBuffered = some os') :
    os'.held = os.held ∧ os'.setups < os.setups := by
  obtain ⟨hheld, hun⟩ := not_uninitialized_of_setBuffered h
  have hnil : os.held = [] := by rw [held, hnone, Option.elim_none]
  refine ⟨hheld.trans hnil.symm, ?_⟩
  rw [setups, setups, if_neg hun, if_pos ⟨hnone, hmode⟩]
  exact Nat.one_pos

theorem held_of_passOn {os os' : RawOstream σ} {data : List Byte} (hos : os.held = [])
    (h : os.passOn data = some os') : os'.held = [] := by
  rw [passOn] at h
  split at h
  · cases h
    exact hos
  · exact (held_of_setBufferAndMode h).1

theorem held_of_flushNonempty {os os' : RawOstream σ} (h : os.flushNonempty = some os') :
    os.held ≠ [] ∧ os'.held = [] := by
  rw [flushNonempty] at h
  split at h
  · next hne => exact ⟨hne, held_of_passOn os.held_emptied h⟩
  · cases h

/-- `write(C)`. -/
def writeChar (os : RawOstream σ) (c : Byte) : Option (RawOstream σ) :=
  if os.size ≤ os.held.length then
    if os.outBuf = none then
      if os.bufferMode = .unbuffered then os.passOn [c]
      else
        match _ : os.setBuffered with
        | none => none
        | some os' => os'.writeChar c
    else os.flushNonempty.bind fun os => os.copyToBuffer [c]
  else os.copyToBuffer [c]
termination_by os.setups
decreasing_by
  rename_i hnone hmode hset
  exact (setups_of_setBuffered hnone hmode hset).2

/-- `write(Ptr, Size)`. -/
def write (os : RawOstream σ) (data : List Byte) : Option (RawOstream σ) :=
  if os.room < data.length then
    if os.outBuf = none then
      if os.bufferMode = .unbuffered then os.passOn data
      else
        match _ : os.setBuffered with
        | none => none
        | some os' => os'.write data
    else
      let numBytes := os.room
      if os.held = [] then
        if numBytes = 0 then none
        else
          let bytesToWrite := data.length - data.length % numBytes
          match os.passOn (data.take bytesToWrite) with
          | none => none
          | some os' =>
            if os'.room < data.length - bytesToWrite then os'.write (data.drop bytesToWrite)
            else os'.copyToBuffer (data.drop bytesToWrite)
      else
        match os.copyToBuffer (data.take numBytes) with
        | none => none
        | some os' =>
          match _ : os'.flushNonempty with
          | none => none
          | some os'' => os''.write (data.drop numBytes)
  else os.copyToBuffer data
termination_by (data.length, os.held.length, os.setups)
decreasing_by
  · rename_i hnone hmode hset
    obtain ⟨hheld, hlt⟩ := setups_of_setBuffered hnone hmode hset
    rw [hheld]
    exact Prod.Lex.right _ (Prod.Lex.right _ hlt)
  · rename_i hroom _ _ hpos _
    apply Prod.Lex.left
    have hmod : data.length % os.room < os.room := Nat.mod_lt _ (Nat.pos_of_ne_zero hpos)
    change (data.drop (data.length - data.length % os.room)).length < data.length
    rw [List.length_drop]
    omega
  · rename_i hroom _ hheld hflush
    obtain ⟨-, hnil⟩ := held_of_flushNonempty hflush
    have hlength := List.length_pos_iff.2 hheld
    rw [hnil, List.length_nil]
    rcases Nat.eq_zero_or_pos os.room with hzero | hpos
    · change Prod.Lex _ _ ((data.drop os.room).length, _) _
      rw [hzero, List.drop_zero]
      exact Prod.Lex.right _ (Prod.Lex.left _ _ hlength)
    · apply Prod.Lex.left
      rw [List.length_drop]
      omega

/-- `operator<<(char)`. -/
def putChar (os : RawOstream σ) (c : Byte) : Option (RawOstream σ) :=
  if os.size ≤ os.held.length then os.writeChar c else os.copyToBuffer [c]

/-- `operator<<(StringRef)`. -/
def put (os : RawOstream σ) (str : List Byte) : Option (RawOstream σ) :=
  if os.room < str.length then os.write str
  else if str.length ≠ 0 then os.copyToBuffer str
  else some os

end RawOstream

/-! ## `raw_string_ostream` -/

/-- The members of a `raw_string_ostream`, where a stream of its own has buffers of this size. -/
structure RawStringOstream where
  content : List Byte
  bufsiz : UInt32
deriving DecidableEq, Repr

instance : RawOstreamImpl RawStringOstream where
  writeImpl s data := ({ s with content := s.content ++ data }, none)
  currentPos s := UInt64.ofNat s.content.length
  preferredBufferSize s := s.bufsiz

end Wpi

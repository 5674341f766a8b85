import WpiUtil.Llvm.RawOstreamCalls
import WpiUtil.Tcpsockets.TCPStream

/-!
# `raw_socket_ostream`

A stream that writes to a `NetworkStream`, here a `TCPStream` on POSIX. The outcomes of the calls of
`::send` that are still to come are part of the state, and so is what the peer is sent; after the
outcomes every call takes all it is given.
-/

namespace Wpi

/-- What a call of `::send` does: it takes so many bytes at most, or fails. -/
inductive SendOutcome where
  | takes (count : Nat)
  | fails (errno : Errno)
deriving DecidableEq

/-- The members of a `raw_socket_ostream`, with what its `NetworkStream` has sent. -/
structure RawSocketOstream where
  stream : TCPStream
  outcomes : List SendOutcome
  received : List Byte
  error : Bool
  shouldClose : Bool
  /-- `BUFSIZ`. -/
  bufsiz : UInt32

namespace RawSocketOstream

/-- `raw_socket_ostream(stream, shouldClose)`. -/
def ofStream (stream : TCPStream) (shouldClose : Bool) (outcomes : List SendOutcome)
    (bufsiz : UInt32) : RawSocketOstream :=
  { stream, outcomes, received := [], error := false, shouldClose, bufsiz }

/-- What `::send` returns for `len` bytes. -/
def transfer (len : Nat) : List SendOutcome → Transfer
  | [] => ⟨len, .other 0⟩
  | .takes count :: _ => ⟨min count len, .other 0⟩
  | .fails errno :: _ => ⟨-1, errno⟩

/-- `m_stream.send`: the number of bytes that are sent. -/
def send (s : RawSocketOstream) (data : List Byte) : Nat × RawSocketOstream :=
  if s.stream.sd < 0 then ((s.stream.send ⟨-1, .other 0⟩).1, s)
  else
    let count := (s.stream.send (transfer data.length s.outcomes)).1
    (count, { s with outcomes := s.outcomes.tail, received := s.received ++ data.take count })

/-- `raw_socket_ostream::write_impl`, with `data` for the bytes from `pos` on. -/
def writeImpl (s : RawSocketOstream) (data : List Byte) : RawSocketOstream :=
  if data = [] then s
  else
    let (count, s') := s.send data
    if count = 0 then { s' with error := true }
    else s'.writeImpl (data.drop count)
termination_by data.length
decreasing_by
  rename_i hne hcount
  have hlength := List.length_pos_iff.2 hne
  rw [List.length_drop]
  omega

/-- `m_stream.close()` -/
def closeStream (s : RawSocketOstream) : RawSocketOstream :=
  { s with stream := { s.stream with sd := -1 } }

end RawSocketOstream

instance : RawOstreamImpl RawSocketOstream where
  writeImpl s data := (s.writeImpl data, none)
  currentPos _ := 0
  preferredBufferSize s := s.bufsiz

namespace RawSocketOstream

/-- `close`. -/
def close (os : RawOstream RawSocketOstream) : Option (RawOstream RawSocketOstream) :=
  if os.sub.shouldClose then os.flush.map fun os => { os with sub := os.sub.closeStream }
  else some os

/-- `clear_error`. -/
def clearError (os : RawOstream RawSocketOstream) : RawOstream RawSocketOstream :=
  { os with sub := { os.sub with error := false } }

/-- The destructor, up to the buffer. -/
def destroy (os : RawOstream RawSocketOstream) : Option (RawOstream RawSocketOstream) :=
  os.flush.bind fun os => if os.sub.shouldClose then close os else some os

/-- A call of a `raw_socket_ostream`. -/
inductive SocketCall where
  | call (call : RawOstream.Call)
  | close
  | clearError

namespace SocketCall

def perform (c : SocketCall) (os : RawOstream RawSocketOstream) :
    Option (RawOstream RawSocketOstream) :=
  match c with
  | call c => c.perform os
  | close => RawSocketOstream.close os
  | clearError => some (RawSocketOstream.clearError os)

def text : SocketCall → List Byte
  | call c => c.text
  | close | clearError => []

def Allowed : SocketCall → Prop
  | call c => c.Allowed
  | close | clearError => True

end SocketCall

end RawSocketOstream

end Wpi

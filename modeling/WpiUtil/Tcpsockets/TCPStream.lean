import WpiUtil.Foundations.Transitions

/-!
# `TCPStream`

`setBlocking`, `send` and `receive` on POSIX. What the system calls return is an argument here; the
bytes that go through them, and the address of the peer, are left out.
-/

namespace Wpi

/-- `NetworkStream::Error`. -/
inductive NetworkStream.Error where
  | kConnectionClosed
  | kConnectionReset
  | kConnectionTimedOut
  | kWouldBlock
deriving DecidableEq

/-- The value of `errno`. -/
inductive Errno where
  | eagain
  | ewouldblock
  | other (code : Int)
deriving DecidableEq

/-- `errno == EAGAIN || errno == EWOULDBLOCK` -/
def Errno.WouldBlock (errno : Errno) : Prop := errno = .eagain ∨ errno = .ewouldblock

instance : DecidablePred Errno.WouldBlock := fun errno =>
  inferInstanceAs (Decidable (errno = .eagain ∨ errno = .ewouldblock))

/-- What `::send` or `read` returns, with the `errno` that it leaves behind. -/
structure Transfer where
  rv : Int
  errno : Errno

/-- The error of a call that has failed. -/
def Transfer.failure (t : Transfer) : Option Errno := if t.rv < 0 then some t.errno else none

/-- `O_NONBLOCK`, as on Linux. -/
def oNonblock : BitVec 32 := 0x800#32

/-- `sd` and `blocking` are `m_sd` and `m_blocking`. -/
structure TCPStream where
  sd : Int
  blocking : Bool

namespace TCPStream

open NetworkStream.Error

/-- The constructor. -/
def ofSocket (sd : Int) : TCPStream := { sd, blocking := true }

/-- What `send` and `receive` do with the result of their system call: the number of bytes, and the
error if there is one. -/
def finish (s : TCPStream) (result : Transfer) : Nat × Option NetworkStream.Error :=
  if result.rv < 0 then
    if s.blocking = false ∧ result.errno.WouldBlock then (0, some kWouldBlock)
    else (0, some kConnectionReset)
  else (result.rv.toNat, none)

def send (s : TCPStream) (result : Transfer) : Nat × Option NetworkStream.Error :=
  if s.sd < 0 then (0, some kConnectionClosed)
  else s.finish result

/-- `WaitForReadEvent`, when `select` returns this. -/
def waitForReadEvent (select : Int) : Bool := select > 0

/-- Whether `receive` comes to its `read`. -/
def reads (timeout select : Int) : Bool :=
  if timeout ≤ 0 then true else waitForReadEvent select

def receive (s : TCPStream) (timeout select : Int) (result : Transfer) :
    Nat × Option NetworkStream.Error :=
  if s.sd < 0 then (0, some kConnectionClosed)
  else if reads timeout select = true then s.finish result
  else (0, some kConnectionTimedOut)

/-- `setBlocking`, when `F_GETFL` and `F_SETFL` succeed or not: what it returns, and the flags of the
descriptor afterwards. The members of the stream stay as they are. -/
def setBlocking (s : TCPStream) (flags : BitVec 32) (enabled getfl setfl : Bool) :
    Bool × BitVec 32 :=
  if s.sd < 0 then (true, flags)
  else if getfl = false then (false, flags)
  else
    let newFlags := if enabled then flags &&& ~~~oNonblock else flags ||| oNonblock
    if setfl = false then (false, flags) else (true, newFlags)

/-! ## The calls of a user -/

inductive Call where
  | setBlocking (enabled getfl setfl : Bool)
  | send (result : Transfer)
  | receive (timeout select : Int) (result : Transfer)

/-- How the system call has failed that has the data of a call. -/
def Call.failure : Call → Option Errno
  | .setBlocking .. => none
  | .send result => result.failure
  | .receive timeout select result => if reads timeout select = true then result.failure else none

/-- A stream, the flags of its descriptor, and what has come of the calls. -/
structure Usage where
  stream : TCPStream
  flags : BitVec 32
  /-- The argument of the last `setBlocking` that has succeeded. -/
  enabled : Option Bool := none
  /-- How the last call has failed. -/
  failure : Option Errno := none
  /-- The error that the last call has reported. -/
  err : Option NetworkStream.Error := none

namespace Usage

def after (u : Usage) (call : Call) : Usage :=
  match call with
  | .setBlocking enabled getfl setfl =>
    let (result, flags) := u.stream.setBlocking u.flags enabled getfl setfl
    { u with flags, enabled := if result = true then some enabled else u.enabled
             failure := none, err := none }
  | .send result =>
    { u with failure := call.failure, err := (u.stream.send result).2 }
  | .receive timeout select result =>
    { u with failure := call.failure, err := (u.stream.receive timeout select result).2 }

/-- Every call can be made. -/
def step (u : Usage) (call : Call) : Option Usage := some (u.after call)

/-- The descriptor is in blocking mode. -/
def Blocking (u : Usage) : Prop := u.flags &&& oNonblock = 0

instance : DecidablePred Blocking := fun u =>
  inferInstanceAs (Decidable (u.flags &&& oNonblock = 0))

/-- What is only the state of a stream in non-blocking mode is not reported as the end of the
connection. -/
structure Sound (u : Usage) : Prop where
  wouldBlock : ∀ errno ∈ u.failure, errno.WouldBlock → u.enabled = some false →
    u.err = some kWouldBlock
  reset : u.err = some kConnectionReset →
    u.Blocking ∨ ∃ errno ∈ u.failure, ¬ errno.WouldBlock

/-- Nothing would block in non-blocking mode. -/
def Careful (u : Usage) (call : Call) : Prop :=
  ∀ errno ∈ call.failure, errno.WouldBlock → u.Blocking

end Usage

end TCPStream

end Wpi

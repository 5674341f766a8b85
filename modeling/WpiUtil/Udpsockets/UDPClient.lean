import WpiUtil.Foundations.Transitions
import WpiUtil.Support.RawIstream

/-!
# `UDPClient`

`start` and `shutdown` on POSIX, and the sockets that are opened by them. What a system call returns
is an argument here; what it does to the sockets is what the operating system does. Messages to the
logger and `::shutdown`, which has no influence on the descriptor, are left out.
-/

namespace Wpi

/-- A socket that has been opened. -/
structure Socket where
  fd : Int
  /-- `bind` has succeeded. -/
  bound : Bool := false
  isOpen : Bool := true
deriving DecidableEq

namespace Socket

/-- A descriptor that is in use. -/
def InUse (sockets : List Socket) (fd : Int) : Prop := ∃ s ∈ sockets, s.isOpen = true ∧ s.fd = fd

instance (sockets : List Socket) (fd : Int) : Decidable (InUse sockets fd) :=
  inferInstanceAs (Decidable (∃ s ∈ sockets, s.isOpen = true ∧ s.fd = fd))

/-- The sockets after `socket` has returned `fd`, which cannot be a descriptor that is in use. -/
def create (sockets : List Socket) (fd : Int) : Option (List Socket) :=
  if fd < 0 then some sockets
  else if InUse sockets fd then none
  else some (sockets ++ [{ fd := fd }])

/-- The sockets after an operation on a descriptor. -/
def update (sockets : List Socket) (fd : Int) (f : Socket → Socket) : List Socket :=
  sockets.map fun s => if s.isOpen = true ∧ s.fd = fd then f s else s

/-- The sockets after `bind` has returned `result`. -/
def bind (sockets : List Socket) (fd result : Int) : List Socket :=
  if result = 0 then update sockets fd fun s => { s with bound := true } else sockets

def close (sockets : List Socket) (fd : Int) : List Socket :=
  update sockets fd fun s => { s with isOpen := false }

end Socket

/-- `lsd` is `m_lsd`, where 0 is for no socket. -/
structure UDPClient where
  lsd : Int := 0
  address : List Byte

namespace UDPClient

/-- What `socket`, `inet_pton` and `bind` return if `start()` calls them. -/
structure Outcome where
  socket : Int
  inetPton : Int
  bind : Int

/-- `start()`, with what it returns. -/
def start (c : UDPClient) (sockets : List Socket) (o : Outcome) :
    Option (Int × UDPClient × List Socket) :=
  if c.lsd > 0 then some (0, c, sockets)
  else
    match Socket.create sockets o.socket with
    | none => none
    | some sockets =>
      let c := { c with lsd := o.socket }
      if c.lsd < 0 then some (-1, c, sockets)
      else if c.address.length > 0 ∧ o.inetPton ≠ 1 then some (-1, c, sockets)
      else
        let sockets := Socket.bind sockets c.lsd o.bind
        if o.bind ≠ 0 then some (o.bind, c, sockets)
        else some (0, c, sockets)

def shutdown (c : UDPClient) (sockets : List Socket) : UDPClient × List Socket :=
  if c.lsd > 0 then ({ c with lsd := 0 }, Socket.close sockets c.lsd)
  else (c, sockets)

/-! ## The calls of a user -/

inductive Call where
  | start (outcome : Outcome)
  | shutdown

/-- A client with all the sockets that it has opened. -/
structure Usage where
  client : UDPClient
  sockets : List Socket := []
  /-- What `start()` has returned, if that was the last call. -/
  started : Option Int := none

namespace Usage

def step (u : Usage) : Call → Option Usage
  | .start outcome =>
    match u.client.start u.sockets outcome with
    | none => none
    | some (result, client, sockets) => some { client, sockets, started := some result }
  | .shutdown =>
    let (client, sockets) := u.client.shutdown u.sockets
    some { client, sockets }

/-- The client holds the socket: it has it from `start()` and has not been shut down. -/
def Holds (u : Usage) (s : Socket) : Prop :=
  u.started.isSome = true ∧ s.isOpen = true ∧ s.fd = u.client.lsd

/-- A client that was started holds a socket that is bound, and no other socket is open. -/
structure Sound (u : Usage) : Prop where
  started : u.started = some 0 → ∃ s ∈ u.sockets, u.Holds s ∧ s.bound = true
  released : ∀ s ∈ u.sockets, s.isOpen = true → u.Holds s

/-- An open socket does not have descriptor 0, and it is bound when the client is started again. -/
def Careful (u : Usage) : Call → Prop
  | .start _ => ∀ s ∈ u.sockets, s.isOpen = true → 0 < s.fd ∧ s.bound = true
  | .shutdown => ∀ s ∈ u.sockets, s.isOpen = true → 0 < s.fd

instance (u : Usage) : DecidablePred u.Careful
  | .start _ => inferInstanceAs
      (Decidable (∀ s ∈ u.sockets, s.isOpen = true → 0 < s.fd ∧ s.bound = true))
  | .shutdown => inferInstanceAs (Decidable (∀ s ∈ u.sockets, s.isOpen = true → 0 < s.fd))

end Usage

end UDPClient

end Wpi

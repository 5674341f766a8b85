import Mathlib.Data.Finset.Basic
import Mathlib.Logic.Function.Basic
import WpiUtil.Support.RawIstream

/-!
# `TCPConnector::connect_parallel`

One thread calls `connect_parallel` again and again. A call starts a detached worker for each of its
servers and waits for the first stream, the end of its timeout or the end of all its workers. The
workers of a call go on after the call has returned.

A step of a thread is one access to what the threads share: an operation on an atomic variable, on
the mutex or on the condition variable of a `Result`, or a section under the mutex of the
`GlobalState`, which has nothing but the set in it. What the program counters are called is what the
thread does next.
-/

namespace Wpi.TCPConnector

/-- The `std::pair<std::string, int>` of a server and a port. -/
abbrev Server := List Byte × Int

variable {NetworkStream : Type}

/-- The structure shared between the workers of a call and the call. -/
structure Result (NetworkStream : Type) where
  /-- `mtx` is held. -/
  locked : Bool := false
  stream : Option NetworkStream := none
  count : UInt32 := 0
  done : Bool := false

/-- Where a worker is. -/
inductive WorkerPc (NetworkStream : Type) where
  /-- `if (!result->done)` -/
  | testDone
  /-- `local->active.insert(active_tracker)` -/
  | insert
  /-- `connect(server_copy.first.c_str(), server_copy.second, *plogger, timeout)` -/
  | connect
  /-- `local->active.erase(active_tracker)` -/
  | erase (stream : Option NetworkStream)
  /-- `std::lock_guard<wpi::mutex> lock(result->mtx)` -/
  | lock (stream : NetworkStream)
  /-- `if (!result->done.exchange(true)) result->stream = std::move(stream)` -/
  | exchange (stream : NetworkStream)
  /-- The end of the `lock_guard`. -/
  | unlock
  /-- `++result->count` -/
  | increment
  /-- `result->cv.notify_all()` -/
  | notify
  /-- The thread has terminated. -/
  | finished
  deriving DecidableEq

/-- A worker thread with what it has captured. -/
structure Worker (NetworkStream : Type) where
  serverCopy : Server
  /-- The call whose `Result` it has. -/
  result : Nat
  pc : WorkerPc NetworkStream

/-- Where the calling thread is. -/
inductive CallerPc (NetworkStream : Type) where
  /-- Not in `connect_parallel`, whose last call has returned `stream`. -/
  | returned (stream : Option NetworkStream)
  /-- At the head of the loop, with the entries of `servers` that remain. -/
  | check (servers : List Server)
  /-- `++num_workers` and `std::thread(…).detach()` -/
  | spawn (server : Server) (servers : List Server)
  /-- `std::unique_lock<wpi::mutex> lock(result->mtx)` -/
  | lock
  /-- The predicate of the wait, for the last time when `final`. -/
  | test (final : Bool)
  /-- Before the mutex is released and the thread is blocked. -/
  | wait
  /-- Blocked in the wait. -/
  | blocked
  /-- Awake, before the mutex is locked again. `final` is `cv_status::timeout`. -/
  | woken (final : Bool)
  /-- `return std::move(result->stream)` -/
  | move
  /-- The end of the `unique_lock`. -/
  | unlock (stream : Option NetworkStream)
  deriving DecidableEq

/-- The calling thread with the variables of its call. -/
structure Caller (NetworkStream : Type) where
  pc : CallerPc NetworkStream := .returned none
  /-- The number of the call, which owns the `Result` of that number. -/
  result : Nat := 0
  num_workers : UInt32 := 0
  timeout : Int := 0

/-- All that is shared, and where each thread is. -/
structure State (NetworkStream : Type) where
  /-- `GlobalState::active` -/
  active : Finset Server := ∅
  /-- The number of calls that have made a `Result`. -/
  calls : Nat := 0
  results : Nat → Result NetworkStream := fun _ => {}
  /-- All workers started so far. -/
  workers : List (Worker NetworkStream) := []
  caller : Caller NetworkStream := {}

namespace State

variable (s : State NetworkStream)

/-- The caller goes to `pc`. -/
def goto (pc : CallerPc NetworkStream) : State NetworkStream :=
  { s with caller := { s.caller with pc } }

/-- The `Result` of the call `p` becomes `r`. -/
def setResult (p : Nat) (r : Result NetworkStream) : State NetworkStream :=
  { s with results := Function.update s.results p r }

/-- The worker `i`, which is `w`, goes to `pc`. -/
def moveWorker (i : Nat) (w : Worker NetworkStream) (pc : WorkerPc NetworkStream) :
    State NetworkStream :=
  { s with workers := s.workers.set i { w with pc } }

/-- The `Result` of the caller's call. -/
def result : Result NetworkStream := s.results s.caller.result

/-- The predicate of the wait. -/
def predicate : Bool := s.result.stream.isSome || decide (s.result.count ≥ s.caller.num_workers)

/-- `notify_all` of the call `p`: the caller wakes up if it is blocked there. -/
def notifyAll (p : Nat) : State NetworkStream :=
  match s.caller.pc with
  | .blocked => if s.caller.result = p then s.goto (.woken false) else s
  | _ => s

end State

/-- The thread calls `connect_parallel`. -/
def stepCall (s : State NetworkStream) (servers : List Server) (timeout : Int) :
    Option (State NetworkStream) :=
  match s.caller.pc with
  | .returned _ =>
    if servers = [] then some (s.goto (.returned none))
    else some { s.setResult s.calls {} with
      calls := s.calls + 1
      caller := { pc := .check servers, result := s.calls, num_workers := 0, timeout } }
  | _ => none

/-- The next step of the call. It has none while it is blocked or the mutex is held. -/
def stepCaller (s : State NetworkStream) : Option (State NetworkStream) :=
  match s.caller.pc with
  | .returned _ => none
  | .check [] => some (s.goto .lock)
  | .check (server :: servers) =>
    if server ∈ s.active then some (s.goto (.check servers))
    else some (s.goto (.spawn server servers))
  | .spawn server servers =>
    some { s with
      workers := s.workers ++ [{ serverCopy := server, result := s.caller.result, pc := .testDone }]
      caller := { s.caller with
        pc := .check servers
        num_workers := s.caller.num_workers + 1 } }
  | .lock =>
    if s.result.locked then none
    else some ((s.setResult s.caller.result { s.result with locked := true }).goto (.test false))
  | .test final =>
    if s.predicate then some (s.goto .move)
    else if final then some (s.goto .move)
    else some (s.goto .wait)
  | .wait =>
    some ((s.setResult s.caller.result { s.result with locked := false }).goto .blocked)
  | .blocked => none
  | .woken final =>
    if s.result.locked then none
    else some ((s.setResult s.caller.result { s.result with locked := true }).goto (.test final))
  | .move =>
    some ((s.setResult s.caller.result { s.result with stream := none }).goto
      (.unlock s.result.stream))
  | .unlock stream =>
    some ((s.setResult s.caller.result { s.result with locked := false }).goto (.returned stream))

/-- A blocked thread may wake up for no reason. -/
def stepSpurious (s : State NetworkStream) : Option (State NetworkStream) :=
  match s.caller.pc with
  | .blocked => some (s.goto (.woken false))
  | _ => none

/-- The time of `wait_until` is over; `wait` has none. -/
def stepExpire (s : State NetworkStream) : Option (State NetworkStream) :=
  if s.caller.timeout = 0 then none
  else match s.caller.pc with
    | .blocked => some (s.goto (.woken true))
    | .woken _ => some (s.goto (.woken true))
    | _ => none

/-- The next step of the worker `i`. It has none while it connects or the mutex is held. -/
def stepWorker (s : State NetworkStream) (i : Nat) : Option (State NetworkStream) :=
  match s.workers[i]? with
  | none => none
  | some w =>
    let result := s.results w.result
    match w.pc with
    | .testDone =>
      if result.done then some (s.moveWorker i w .increment) else some (s.moveWorker i w .insert)
    | .insert =>
      some { s.moveWorker i w .connect with active := insert w.serverCopy s.active }
    | .connect => none
    | .erase stream =>
      let s' := { s with active := s.active.erase w.serverCopy }
      match stream with
      | some stream => some (s'.moveWorker i w (.lock stream))
      | none => some (s'.moveWorker i w .increment)
    | .lock stream =>
      if result.locked then none
      else some ((s.setResult w.result { result with locked := true }).moveWorker i w
        (.exchange stream))
    | .exchange stream =>
      if result.done then some (s.moveWorker i w .unlock)
      else some ((s.setResult w.result
        { result with done := true, stream := some stream }).moveWorker i w .unlock)
    | .unlock =>
      some ((s.setResult w.result { result with locked := false }).moveWorker i w .increment)
    | .increment =>
      some ((s.setResult w.result { result with count := result.count + 1 }).moveWorker i w .notify)
    | .notify => some ((s.notifyAll w.result).moveWorker i w .finished)
    | .finished => none

/-- `connect` of the worker `i` returns `stream`. -/
def stepConnected (s : State NetworkStream) (i : Nat) (stream : Option NetworkStream) :
    Option (State NetworkStream) :=
  match s.workers[i]? with
  | none => none
  | some w =>
    match w.pc with
    | .connect => some (s.moveWorker i w (.erase stream))
    | _ => none

/-- What can happen next. -/
inductive Action (NetworkStream : Type) where
  | call (servers : List Server) (timeout : Int)
  | caller
  | spurious
  | expire
  | worker (i : Nat)
  | connected (i : Nat) (stream : Option NetworkStream)

def step (s : State NetworkStream) : Action NetworkStream → Option (State NetworkStream)
  | .call servers timeout => stepCall s servers timeout
  | .caller => stepCaller s
  | .spurious => stepSpurious s
  | .expire => stepExpire s
  | .worker i => stepWorker s i
  | .connected i stream => stepConnected s i stream

/-! ## Waiting for the workers -/

/-- The thread has terminated. -/
def WorkerPc.terminated : WorkerPc NetworkStream → Bool
  | .finished => true
  | _ => false

/-- The number of workers of the call `p` that have not terminated. -/
def State.unfinished (s : State NetworkStream) (p : Nat) : Nat :=
  s.workers.countP fun w => w.result = p ∧ !w.pc.terminated

/-- The caller is blocked for good: nothing wakes it up, and no worker is left to do so. -/
def LostWakeup (s : State NetworkStream) : Prop :=
  s.caller.pc = .blocked ∧ s.caller.timeout = 0 ∧
    ∀ w ∈ s.workers, w.result = s.caller.result → w.pc = .finished

/-- The last worker notifies when the predicate is already tested and the caller not yet blocked. -/
def NotifiesTooEarly (s : State NetworkStream) : Action NetworkStream → Prop
  | .worker i => s.caller.pc = .wait ∧ s.caller.timeout = 0 ∧
      ∃ w ∈ s.workers[i]?, w.pc = .notify ∧ w.result = s.caller.result ∧
        s.unfinished s.caller.result = 1
  | _ => False

instance [DecidableEq NetworkStream] (s : State NetworkStream) : DecidablePred (NotifiesTooEarly s)
  | .worker i => inferInstanceAs (Decidable (_ ∧ _ ∧ ∃ w ∈ s.workers[i]?, w.pc = .notify ∧
      w.result = s.caller.result ∧ s.unfinished s.caller.result = 1))
  | .call .. | .caller | .spurious | .expire | .connected .. => inferInstanceAs (Decidable False)

/-! ## Attempts to connect -/

/-- The pair is inserted and not yet erased. -/
def WorkerPc.attempting : WorkerPc NetworkStream → Bool
  | .connect => true
  | .erase _ => true
  | _ => false

/-- The number of workers between the insertion and the erasure of `server`. -/
def State.attempts (s : State NetworkStream) (server : Server) : Nat :=
  s.workers.countP fun w => w.serverCopy = server ∧ w.pc.attempting

/-- The worker is still to insert its pair. -/
def State.entering (s : State NetworkStream) (w : Worker NetworkStream) : Bool :=
  match w.pc with
  | .testDone => !(s.results w.result).done
  | .insert => true
  | _ => false

/-- The server that the caller looks for in the active set next. -/
def CallerPc.looksFor : CallerPc NetworkStream → Option Server
  | .check (server :: _) => some server
  | _ => none

/-- The caller looks for a server that is still to be inserted, and does not find it. -/
def ChecksTooEarly (s : State NetworkStream) : Action NetworkStream → Prop
  | .caller => s.result.done = false ∧ ∃ server ∈ s.caller.pc.looksFor, server ∉ s.active ∧
      ∃ w ∈ s.workers, w.serverCopy = server ∧ s.entering w
  | _ => False

instance (s : State NetworkStream) : DecidablePred (ChecksTooEarly s)
  | .caller => inferInstanceAs (Decidable (_ ∧ ∃ server ∈ _, server ∉ s.active ∧
      ∃ w ∈ s.workers, w.serverCopy = server ∧ s.entering w))
  | .call .. | .spurious | .expire | .worker _ | .connected .. => inferInstanceAs (Decidable False)

end Wpi.TCPConnector

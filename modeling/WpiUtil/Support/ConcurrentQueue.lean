import Mathlib.Data.List.Basic

/-!
# `ConcurrentQueue`

Any number of threads that push and pop. The sections under the mutex are steps, and so is the
notification after a push. A wait releases the mutex and blocks the thread in the same step; a
blocked thread that is woken has to lock the mutex again, and other threads may come first.
-/

namespace Wpi.ConcurrentQueue

/-- Where a thread is. -/
inductive Pc where
  /-- In none of the functions. -/
  | returned
  /-- `cond_.notify_one()`, after the mutex is released. -/
  | notifyOne
  /-- Blocked in `cond_.wait(mlock)`. -/
  | blocked
  /-- Awake, before the mutex is locked again. -/
  | woken
  deriving DecidableEq

/-- The queue and its users, with the values that have been pushed and popped so far. -/
structure State (T : Type) where
  queue : List T := []
  threads : List Pc
  pushed : List T := []
  popped : List T := []

namespace State

variable {T : Type} (s : State T)

def empty : Bool := s.queue.isEmpty

def size : Nat := s.queue.length

def goto (i : Nat) (pc : Pc) : State T := { s with threads := s.threads.set i pc }

/-- `push` and `emplace`, until the mutex is released. -/
def push (i : Nat) (item : T) : State T :=
  { s.goto i .notifyOne with queue := s.queue ++ [item], pushed := s.pushed ++ [item] }

/-- `pop`, from where the mutex is locked to where it is released. -/
def pop (i : Nat) : State T :=
  match s.queue with
  | [] => s.goto i .blocked
  | item :: queue => { s.goto i .returned with queue, popped := s.popped ++ [item] }

/-- A blocked thread wakes up. -/
def wake (i : Nat) : Option (State T) :=
  if s.threads[i]? = some .blocked then some (s.goto i .woken) else none

/-- `notify_one` wakes one blocked thread, when there is one. -/
def notifyOne : Option Nat → Option (State T)
  | some j => s.wake j
  | none => if .blocked ∈ s.threads then none else some s

end State

/-- What can happen next. -/
inductive Action (T : Type) where
  | push (i : Nat) (item : T)
  /-- The thread `i` notifies, and wakes the thread `woken`. -/
  | notifyOne (i : Nat) (woken : Option Nat)
  | pop (i : Nat)
  /-- The thread `i` is awake, and looks at the queue once more. -/
  | resume (i : Nat)
  /-- The thread `i` wakes up for no reason. -/
  | spurious (i : Nat)

variable {T : Type}

def step (s : State T) : Action T → Option (State T)
  | .push i item => if s.threads[i]? = some .returned then some (s.push i item) else none
  | .notifyOne i woken =>
    if s.threads[i]? = some .notifyOne then (s.goto i .returned).notifyOne woken else none
  | .pop i => if s.threads[i]? = some .returned then some (s.pop i) else none
  | .resume i => if s.threads[i]? = some .woken then some (s.pop i) else none
  | .spurious i => s.wake i

/-- `n` threads and no values. -/
def init (n : Nat) : State T := { threads := List.replicate n .returned }

/-- There are values and a thread waits for one, but nothing is going to wake it up. -/
def LostWakeup (s : State T) : Prop :=
  s.queue ≠ [] ∧ .blocked ∈ s.threads ∧ .notifyOne ∉ s.threads ∧ .woken ∉ s.threads

end Wpi.ConcurrentQueue

import WpiUtil.Foundations.Transitions
import WpiUtil.Foundations.WaitingLine
import WpiUtil.Support.UidVector

/-!
# The history of a `UidVector`

Which uids have been returned and erased, in order, and when a uid should be returned again.
-/

namespace Wpi.UidVector

open Foundations UidElement

/-- What a call has done: a uid has been returned, an element has been erased, or there was no
element to erase. -/
inductive Event where
  | emplaced (uid : Nat)
  | erased (uid : Nat)
  | ignored
deriving DecidableEq

def Event.emplaced? : Event → Option Nat
  | emplaced uid => some uid
  | _ => none

def Event.erased? : Event → Option Nat
  | erased uid => some uid
  | _ => none

/-- A uid waits from its erasure until it is returned. -/
def freeLine : Line Event Nat := ⟨Event.erased?, Event.emplaced?⟩

/-- The uids that are free after the events, the one that was erased longest ago in front. -/
def waiting (events : List Event) : List Nat := freeLine.waiting events

variable {T : Type} {reuseThreshold : Nat}

/-- There is an element to erase. -/
def holds [UidElement T] (v : UidVector T reuseThreshold) (uid : Nat) : Bool :=
  match v.vector[uid]? with
  | none => false
  | some elem => asBool elem

/-- A vector, and what has happened to it. -/
structure Log (T : Type) (reuseThreshold : Nat) where
  vector : UidVector T reuseThreshold := {}
  events : List Event := []

def Log.step [UidElement T] (l : Log T reuseThreshold) : Call T → Option (Log T reuseThreshold)
  | .emplaceBack elem =>
    match l.vector.emplaceBack elem with
    | none => none
    | some (uid, vector) => some { vector, events := l.events ++ [.emplaced uid] }
  | .erase uid =>
    some { vector := l.vector.erase uid
           events := l.events ++ [if l.vector.holds uid then .erased uid else .ignored] }

/-- `emplace_back` recycles the uid that was erased longest ago when there are enough free ones, and
extends the vector otherwise; so a uid rests while others are erased. -/
structure RecyclesInOrder [UidElement T] (reuseThreshold : Nat) (calls : List (Call T)) : Prop where
  returned : ∀ front elem back, calls = front ++ .emplaceBack elem :: back →
    ∃ l : Log T reuseThreshold, execute Log.step {} front = some l ∧
      ∃ uid vector, l.vector.emplaceBack elem = some (uid, vector) ∧
        if reuseThreshold ≤ (waiting l.events).length then (waiting l.events).head? = some uid
        else uid = l.vector.size
  rested : ∀ l : Log T reuseThreshold, execute Log.step {} calls = some l →
    ∀ before uid between after,
      l.events = before ++ .erased uid :: between ++ .emplaced uid :: after →
      .emplaced uid ∉ between →
      reuseThreshold - 1 ≤ ((between.filterMap Event.erased?).toFinset.erase uid).card

end Wpi.UidVector

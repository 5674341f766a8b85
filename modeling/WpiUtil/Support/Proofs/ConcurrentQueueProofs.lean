import WpiUtil.Foundations.Transitions
import WpiUtil.Support.ConcurrentQueue

/-!
# Values and wake-ups of a `ConcurrentQueue`

No order of the steps loses a value, and while a thread is blocked, each value in the queue has a
thread that is going to notify or to look at the queue.
-/

namespace Wpi.ConcurrentQueue

open Foundations

variable {T : Type}

/-! ## One step -/

/-- What a step of one thread does: it goes from one place to another, and the values follow. -/
inductive Step (s : State T) : State T → Prop where
  | push (i : Nat) (item : T) (hpc : s.threads[i]? = some .returned) : Step s (s.push i item)
  | wake (i j : Nat) (hpc : s.threads[i]? = some .notifyOne)
      (hblocked : (s.goto i .returned).threads[j]? = some .blocked) :
      Step s ((s.goto i .returned).goto j .woken)
  | idle (i : Nat) (hpc : s.threads[i]? = some .notifyOne)
      (hblocked : .blocked ∉ (s.goto i .returned).threads) : Step s (s.goto i .returned)
  | block (i : Nat) (hpc : s.threads[i]? = some .returned ∨ s.threads[i]? = some .woken)
      (hqueue : s.queue = []) : Step s (s.goto i .blocked)
  | pop (i : Nat) (hpc : s.threads[i]? = some .returned ∨ s.threads[i]? = some .woken) (item : T)
      (queue : List T) (hqueue : s.queue = item :: queue) :
      Step s { s.goto i .returned with queue, popped := s.popped ++ [item] }
  | spurious (i : Nat) (hpc : s.threads[i]? = some .blocked) : Step s (s.goto i .woken)

theorem State.wake_cases {s t : State T} {i : Nat} (h : s.wake i = some t) :
    s.threads[i]? = some .blocked ∧ t = s.goto i .woken := by
  rw [wake] at h
  split at h
  · next hpc => exact ⟨hpc, (Option.some.inj h).symm⟩
  · cases h

theorem State.step_pop {s : State T} {i : Nat}
    (hpc : s.threads[i]? = some .returned ∨ s.threads[i]? = some .woken) : Step s (s.pop i) := by
  rw [pop]
  split
  · next hqueue => exact .block i hpc hqueue
  · next item queue hqueue => exact .pop i hpc item queue hqueue

theorem step_cases {s t : State T} {a : Action T} (h : step s a = some t) : Step s t := by
  cases a with
  | push i item =>
    rw [step] at h
    split at h
    · next hpc =>
      cases h
      exact .push i item hpc
    · cases h
  | notifyOne i woken =>
    rw [step] at h
    split at h
    · next hpc =>
      cases woken with
      | none =>
        rw [State.notifyOne] at h
        split at h
        · cases h
        · next hblocked =>
          cases h
          exact .idle i hpc hblocked
      | some j =>
        obtain ⟨hblocked, rfl⟩ := State.wake_cases h
        exact .wake i j hpc hblocked
    · cases h
  | pop i =>
    rw [step] at h
    split at h
    · next hpc =>
      cases h
      exact State.step_pop (Or.inl hpc)
    · cases h
  | resume i =>
    rw [step] at h
    split at h
    · next hpc =>
      cases h
      exact State.step_pop (Or.inr hpc)
    · cases h
  | spurious i =>
    obtain ⟨hpc, rfl⟩ := State.wake_cases h
    exact .spurious i hpc

/-! ## Values -/

/-- No value is lost, duplicated or out of order. -/
def Conserved (s : State T) : Prop := s.popped ++ s.queue = s.pushed

theorem Conserved.step {s t : State T} (h : Conserved s) (hstep : Step s t) : Conserved t := by
  rw [Conserved] at h
  cases hstep with
  | push i item =>
    rw [Conserved, State.push, ← h, List.append_assoc]
    rfl
  | wake => exact h
  | idle => exact h
  | block => exact h
  | pop i hpc item queue hqueue =>
    rw [hqueue] at h
    rw [Conserved, ← List.append_cons]
    exact h
  | spurious => exact h

/-! ## Wake-ups -/

/-- The thread is going to wake up another, or to look at the queue. -/
def Pc.onItsWay : Pc → Bool
  | .notifyOne | .woken => true
  | .returned | .blocked => false

/-- While a thread is blocked, there are enough threads on their way for the values. -/
def Served (s : State T) : Prop :=
  .blocked ∈ s.threads → s.queue.length ≤ s.threads.countP Pc.onItsWay

theorem State.mem_of_mem_goto {s : State T} {i : Nat} {pc : Pc} (hpc : pc ≠ .blocked)
    (h : .blocked ∈ (s.goto i pc).threads) : .blocked ∈ s.threads := by
  rcases List.mem_or_eq_of_mem_set h with h | h
  · exact h
  · exact absurd h.symm hpc

/-- The number of threads on their way changes by the thread that moves. -/
theorem State.countP_goto {s : State T} {i : Nat} {pc : Pc} (h : s.threads[i]? = some pc)
    (pc' : Pc) :
    (s.goto i pc').threads.countP Pc.onItsWay + (if pc.onItsWay then 1 else 0) =
      s.threads.countP Pc.onItsWay + if pc'.onItsWay then 1 else 0 :=
  countP_set_add h pc' Pc.onItsWay

theorem Served.step {s t : State T} (h : Served s) (hstep : Step s t) : Served t := by
  cases hstep with
  | push i item hpc =>
    -- one more value, and one more thread that notifies
    intro hblocked
    have hle := h (State.mem_of_mem_goto (by decide) hblocked)
    have hcount : _ + 0 = _ + 1 := State.countP_goto hpc .notifyOne
    rw [State.push, List.length_append, List.length_singleton]
    dsimp only
    omega
  | wake i j hpc hj =>
    -- the thread that is woken takes the place of the one that notifies
    intro hblocked
    have hle := h (State.mem_of_mem_goto (by decide) (List.mem_of_getElem? hj))
    have hcount : _ + 1 = _ + 0 := State.countP_goto hpc .returned
    have hcount' : _ + 0 = _ + 1 := State.countP_goto hj .woken
    have hqueue : ((s.goto i .returned).goto j .woken).queue = s.queue := rfl
    rw [hqueue]
    omega
  | idle i hpc hnone => exact fun hblocked => absurd hblocked hnone
  | block i hpc hqueue =>
    intro hblocked
    rw [State.goto, hqueue]
    exact Nat.zero_le _
  | pop i hpc item queue hqueue =>
    -- one value less, and at most one thread less that is on its way
    intro hblocked
    have hle := h (State.mem_of_mem_goto (by decide) hblocked)
    rw [hqueue, List.length_cons] at hle
    have hcount : s.threads.countP Pc.onItsWay ≤
        (s.goto i .returned).threads.countP Pc.onItsWay + 1 := by
      rcases hpc with hpc | hpc
      · have hcount : _ + 0 = _ + 0 := State.countP_goto hpc .returned
        omega
      · have hcount : _ + 1 = _ + 0 := State.countP_goto hpc .returned
        omega
    dsimp only
    omega
  | spurious i hpc =>
    intro hblocked
    have hle := h (State.mem_of_mem_goto (by decide) hblocked)
    have hcount : _ + 0 = _ + 1 := State.countP_goto hpc .woken
    have hqueue : (s.goto i .woken).queue = s.queue := rfl
    rw [hqueue]
    omega

theorem Served.not_lostWakeup {s : State T} (h : Served s) : ¬LostWakeup s := by
  rintro ⟨hqueue, hblocked, hnotify, hwoken⟩
  have hle := h hblocked
  have hcount : s.threads.countP Pc.onItsWay = 0 := by
    rw [List.countP_eq_zero]
    intro pc hpc hway
    cases pc with
    | returned => cases hway
    | notifyOne => exact hnotify hpc
    | blocked => cases hway
    | woken => exact hwoken hpc
  rw [hcount, Nat.le_zero, List.length_eq_zero_iff] at hle
  exact hqueue hle

/-! ## Runs -/

/-- Whatever `n` threads do, the values popped and those in the queue are the values pushed in their
order, and no value waits next to a blocked thread that nothing is going to wake up. -/
theorem conserved_and_not_lostWakeup_of_execute {n : Nat} {actions : List (Action T)} {s : State T}
    (hrun : execute step (init n) actions = some s) :
    s.popped ++ s.queue = s.pushed ∧ ¬LostWakeup s := by
  have hconserved : Conserved s :=
    execute_invariant (fun h hstep => h.step (step_cases hstep)) hrun rfl
  have hserved : Served s :=
    execute_invariant (fun h hstep => h.step (step_cases hstep)) hrun fun _ => Nat.zero_le _
  exact ⟨hconserved, hserved.not_lostWakeup⟩

/-- Another thread takes the value before the thread that is woken looks at the queue. -/
theorem conserved_and_not_lostWakeup_of_stolen :
    let actions : List (Action Nat) :=
      [.pop 0, .push 1 7, .notifyOne 1 (some 0), .pop 2, .resume 0, .push 2 8]
    let s : State Nat :=
      { queue := [8], threads := [.blocked, .returned, .notifyOne], pushed := [7, 8], popped := [7] }
    execute step (init 3) actions = some s ∧ s.popped ++ s.queue = s.pushed ∧ ¬LostWakeup s := by
  intro actions s
  have hrun : execute step (init 3) actions = some s := rfl
  exact ⟨hrun, conserved_and_not_lostWakeup_of_execute hrun⟩

end Wpi.ConcurrentQueue

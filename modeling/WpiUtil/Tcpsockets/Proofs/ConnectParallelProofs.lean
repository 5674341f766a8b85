import WpiUtil.Foundations.Transitions
import WpiUtil.Tcpsockets.ConnectParallel

/-!
# Runs of `connect_parallel`

What one step of a thread can do, and what follows for the runs of all threads: which wake-ups reach
the caller, and when two workers attempt the same connection.
-/

namespace Wpi.TCPConnector

open Foundations

variable {NetworkStream : Type}

/-! ## The parts of a state -/

namespace State

variable (s : State NetworkStream)

@[simp] theorem goto_results (pc : CallerPc NetworkStream) : (s.goto pc).results = s.results := rfl

@[simp] theorem setResult_results (p : Nat) (r : Result NetworkStream) :
    (s.setResult p r).results = Function.update s.results p r := rfl

@[simp] theorem moveWorker_calls (i : Nat) (w : Worker NetworkStream)
    (pc : WorkerPc NetworkStream) : (s.moveWorker i w pc).calls = s.calls := rfl

@[simp] theorem moveWorker_results (i : Nat) (w : Worker NetworkStream)
    (pc : WorkerPc NetworkStream) : (s.moveWorker i w pc).results = s.results := rfl

@[simp] theorem moveWorker_workers (i : Nat) (w : Worker NetworkStream)
    (pc : WorkerPc NetworkStream) :
    (s.moveWorker i w pc).workers = s.workers.set i { w with pc } := rfl

@[simp] theorem moveWorker_caller (i : Nat) (w : Worker NetworkStream)
    (pc : WorkerPc NetworkStream) : (s.moveWorker i w pc).caller = s.caller := rfl

/-- A notification reaches a caller that is blocked in this call, and nothing else changes. -/
theorem notifyAll_cases (p : Nat) :
    s.caller.pc = .blocked ∧ s.caller.result = p ∧ s.notifyAll p = s.goto (.woken false) ∨
      ¬(s.caller.pc = .blocked ∧ s.caller.result = p) ∧ s.notifyAll p = s := by
  rw [notifyAll]
  split
  · next hpc =>
    by_cases hp : s.caller.result = p
    · rw [if_pos hp]
      exact Or.inl ⟨hpc, hp, rfl⟩
    · rw [if_neg hp]
      exact Or.inr ⟨fun h => hp h.2, rfl⟩
  · next hpc => exact Or.inr ⟨fun h => hpc h.1, rfl⟩

theorem exists_notifyAll_eq (p : Nat) : ∃ pc, s.notifyAll p = s.goto pc := by
  rcases s.notifyAll_cases p with ⟨-, -, h⟩ | ⟨-, h⟩
  · exact ⟨_, h⟩
  · exact ⟨s.caller.pc, h⟩

end State

/-! ## One step -/

/-- What the worker `w` can do: the state without its move, and where it goes. -/
inductive WorkerStep (s : State NetworkStream) (w : Worker NetworkStream) :
    State NetworkStream → WorkerPc NetworkStream → Prop where
  | skip (hpc : w.pc = .testDone) (hdone : (s.results w.result).done = true) :
      WorkerStep s w s .increment
  | enter (hpc : w.pc = .testDone) (hdone : (s.results w.result).done = false) :
      WorkerStep s w s .insert
  | insert (hpc : w.pc = .insert) :
      WorkerStep s w { s with active := insert w.serverCopy s.active } .connect
  | connected (hpc : w.pc = .connect) (stream : Option NetworkStream) :
      WorkerStep s w s (.erase stream)
  | erase (stream : Option NetworkStream) (hpc : w.pc = .erase stream)
      (pc : WorkerPc NetworkStream) (hlater : pc = .increment ∨ ∃ stream, pc = .lock stream) :
      WorkerStep s w { s with active := s.active.erase w.serverCopy } pc
  | lock (stream : NetworkStream) (hpc : w.pc = .lock stream)
      (hlocked : (s.results w.result).locked = false) :
      WorkerStep s w (s.setResult w.result { s.results w.result with locked := true })
        (.exchange stream)
  | late (stream : NetworkStream) (hpc : w.pc = .exchange stream) :
      WorkerStep s w s .unlock
  | publish (stream : NetworkStream) (hpc : w.pc = .exchange stream) :
      WorkerStep s w (s.setResult w.result
        { s.results w.result with done := true, stream := some stream }) .unlock
  | unlock (hpc : w.pc = .unlock) :
      WorkerStep s w (s.setResult w.result { s.results w.result with locked := false }) .increment
  | increment (hpc : w.pc = .increment) :
      WorkerStep s w (s.setResult w.result
        { s.results w.result with count := (s.results w.result).count + 1 }) .notify
  | notify (hpc : w.pc = .notify) : WorkerStep s w (s.notifyAll w.result) .finished

theorem stepWorker_cases {s t : State NetworkStream} {i : Nat} (h : stepWorker s i = some t) :
    ∃ w s' pc, s.workers[i]? = some w ∧ WorkerStep s w s' pc ∧ t = s'.moveWorker i w pc := by
  rw [stepWorker] at h
  split at h
  · cases h
  · next w hw =>
    refine ⟨w, ?_⟩
    dsimp only at h
    split at h
    · next hpc =>
      split at h
      · next hdone => exact ⟨s, _, hw, .skip hpc hdone, (Option.some.inj h).symm⟩
      · next hdone =>
        rw [Bool.not_eq_true] at hdone
        exact ⟨s, _, hw, .enter hpc hdone, (Option.some.inj h).symm⟩
    · next hpc => exact ⟨_, _, hw, .insert hpc, (Option.some.inj h).symm⟩
    · cases h
    · next stream hpc =>
      split at h
      · exact ⟨_, _, hw, .erase _ hpc _ (.inr ⟨_, rfl⟩), (Option.some.inj h).symm⟩
      · exact ⟨_, _, hw, .erase _ hpc _ (.inl rfl), (Option.some.inj h).symm⟩
    · next stream hpc =>
      split at h
      · cases h
      · next hlocked =>
        rw [Bool.not_eq_true] at hlocked
        exact ⟨_, _, hw, .lock stream hpc hlocked, (Option.some.inj h).symm⟩
    · next stream hpc =>
      split at h
      · exact ⟨_, _, hw, .late stream hpc, (Option.some.inj h).symm⟩
      · exact ⟨_, _, hw, .publish stream hpc, (Option.some.inj h).symm⟩
    · next hpc => exact ⟨_, _, hw, .unlock hpc, (Option.some.inj h).symm⟩
    · next hpc => exact ⟨_, _, hw, .increment hpc, (Option.some.inj h).symm⟩
    · next hpc => exact ⟨_, _, hw, .notify hpc, (Option.some.inj h).symm⟩
    · cases h

theorem stepConnected_cases {s t : State NetworkStream} {i : Nat} {stream : Option NetworkStream}
    (h : stepConnected s i stream = some t) :
    ∃ w, s.workers[i]? = some w ∧ w.pc = .connect ∧ t = s.moveWorker i w (.erase stream) := by
  rw [stepConnected] at h
  split at h
  · cases h
  · next w hw =>
    split at h
    · next hpc => exact ⟨w, hw, hpc, (Option.some.inj h).symm⟩
    · cases h

/-- What the other steps of the caller leave as it is, and where they can go. -/
structure CallerStep (s : State NetworkStream) (a : Action NetworkStream)
    (t : State NetworkStream) : Prop where
  active : t.active = s.active
  calls : t.calls = s.calls
  workers : t.workers = s.workers
  call : t.caller.result = s.caller.result ∧ t.caller.num_workers = s.caller.num_workers ∧
    t.caller.timeout = s.caller.timeout
  results : ∀ p, (t.results p).count = (s.results p).count ∧ (t.results p).done = (s.results p).done
  returned : ∀ stream, s.caller.pc = .returned stream → ∃ stream, t.caller.pc = .returned stream
  spawn : ∀ server servers, t.caller.pc = .spawn server servers →
    a = .caller ∧ s.caller.pc = .check (server :: servers) ∧ server ∉ s.active
  wait : t.caller.pc = .wait → s.predicate = false
  blocked : t.caller.pc = .blocked → s.caller.pc = .wait

theorem CallerStep.goto {s : State NetworkStream} {a : Action NetworkStream}
    {pc : CallerPc NetworkStream}
    (hreturned : ∀ stream, s.caller.pc = .returned stream → ∃ stream, pc = .returned stream)
    (hspawn : ∀ server servers, pc = .spawn server servers →
      a = .caller ∧ s.caller.pc = .check (server :: servers) ∧ server ∉ s.active)
    (hwait : pc = .wait → s.predicate = false) (hblocked : pc = .blocked → s.caller.pc = .wait) :
    CallerStep s a (s.goto pc) :=
  ⟨rfl, rfl, rfl, ⟨rfl, rfl, rfl⟩, fun _ => ⟨rfl, rfl⟩, hreturned, hspawn, hwait, hblocked⟩

/-- The mutex and the stream of the call change as well. -/
theorem CallerStep.setResult {s : State NetworkStream} {a : Action NetworkStream}
    {pc : CallerPc NetworkStream} (h : CallerStep s a (s.goto pc)) (locked : Bool)
    (stream : Option NetworkStream) :
    CallerStep s a ((s.setResult s.caller.result { s.result with locked, stream }).goto pc) where
  active := rfl
  calls := rfl
  workers := rfl
  call := ⟨rfl, rfl, rfl⟩
  results p := by
    rw [State.goto_results, State.setResult_results, Function.update_apply]
    split_ifs with hp
    · rw [hp]
      exact ⟨rfl, rfl⟩
    · exact ⟨rfl, rfl⟩
  returned := h.returned
  spawn := h.spawn
  wait := h.wait
  blocked := h.blocked

/-- The caller starts a worker. -/
def spawned (s : State NetworkStream) (server : Server) (servers : List Server) :
    State NetworkStream :=
  { s with
    workers := s.workers ++ [{ serverCopy := server, result := s.caller.result, pc := .testDone }]
    caller := { s.caller with pc := .check servers, num_workers := s.caller.num_workers + 1 } }

theorem stepCaller_cases {s t : State NetworkStream} (h : stepCaller s = some t) :
    (∃ server servers, s.caller.pc = .spawn server servers ∧ t = spawned s server servers) ∨
      CallerStep s .caller t := by
  rw [stepCaller] at h
  split at h
  · cases h
  · next hpc =>
    cases h
    exact Or.inr (.goto (by simp [hpc]) (by simp) (by simp) (by simp))
  · next server servers hpc =>
    split at h
    · cases h
      exact Or.inr (.goto (by simp [hpc]) (by simp) (by simp) (by simp))
    · next hactive =>
      cases h
      refine Or.inr (.goto (by simp [hpc]) ?_ (by simp) (by simp))
      rintro _ _ ⟨⟩
      exact ⟨rfl, hpc, hactive⟩
  · next server servers hpc =>
    cases h
    exact Or.inl ⟨server, servers, hpc, rfl⟩
  · next hpc =>
    split at h
    · cases h
    · cases h
      exact Or.inr (.setResult (.goto (by simp [hpc]) (by simp) (by simp) (by simp)) ..)
  · next final hpc =>
    split at h
    · cases h
      exact Or.inr (.goto (by simp [hpc]) (by simp) (by simp) (by simp))
    · next htest =>
      split at h
      · cases h
        exact Or.inr (.goto (by simp [hpc]) (by simp) (by simp) (by simp))
      · cases h
        rw [Bool.not_eq_true] at htest
        exact Or.inr (.goto (by simp [hpc]) (by simp) (fun _ => htest) (by simp))
  · next hpc =>
    cases h
    exact Or.inr (.setResult (.goto (by simp [hpc]) (by simp) (by simp) (fun _ => hpc)) ..)
  · cases h
  · next final hpc =>
    split at h
    · cases h
    · cases h
      exact Or.inr (.setResult (.goto (by simp [hpc]) (by simp) (by simp) (by simp)) ..)
  · next hpc =>
    cases h
    exact Or.inr (.setResult (.goto (by simp [hpc]) (by simp) (by simp) (by simp)) ..)
  · next stream hpc =>
    cases h
    exact Or.inr (.setResult (.goto (by simp [hpc]) (by simp) (by simp) (by simp)) ..)

theorem stepSpurious_cases {s t : State NetworkStream} (h : stepSpurious s = some t) :
    CallerStep s .spurious t := by
  rw [stepSpurious] at h
  split at h
  · next hpc =>
    cases h
    exact .goto (by simp [hpc]) (by simp) (by simp) (by simp)
  · cases h

theorem stepExpire_cases {s t : State NetworkStream} (h : stepExpire s = some t) :
    CallerStep s .expire t := by
  rw [stepExpire] at h
  split at h
  · cases h
  · split at h
    · next hpc =>
      cases h
      exact .goto (by simp [hpc]) (by simp) (by simp) (by simp)
    · next hpc =>
      cases h
      exact .goto (by simp [hpc]) (by simp) (by simp) (by simp)
    · cases h

/-- A call begins. -/
def begun (s : State NetworkStream) (servers : List Server) (timeout : Int) :
    State NetworkStream :=
  { s.setResult s.calls {} with
    calls := s.calls + 1
    caller := { pc := .check servers, result := s.calls, num_workers := 0, timeout } }

theorem stepCall_cases {s t : State NetworkStream} {servers : List Server} {timeout : Int}
    (h : stepCall s servers timeout = some t) :
    t = begun s servers timeout ∨ CallerStep s (.call servers timeout) t := by
  rw [stepCall] at h
  split at h
  · split at h
    · cases h
      exact Or.inr (.goto (fun _ _ => ⟨_, rfl⟩) (by simp) (by simp) (by simp))
    · cases h
      exact Or.inl rfl
  · cases h

theorem step_cases {s t : State NetworkStream} {a : Action NetworkStream} (h : step s a = some t) :
    (∃ servers timeout, t = begun s servers timeout) ∨
    (∃ server servers, s.caller.pc = .spawn server servers ∧ t = spawned s server servers) ∨
    CallerStep s a t ∨
    ∃ i w s' pc, s.workers[i]? = some w ∧ (w.pc = .notify → a = .worker i) ∧
      WorkerStep s w s' pc ∧ t = s'.moveWorker i w pc := by
  cases a with
  | call servers timeout =>
    rcases stepCall_cases h with h | h
    · exact Or.inl ⟨servers, timeout, h⟩
    · exact Or.inr (Or.inr (Or.inl h))
  | caller =>
    rcases stepCaller_cases h with h | h
    · exact Or.inr (Or.inl h)
    · exact Or.inr (Or.inr (Or.inl h))
  | spurious => exact Or.inr (Or.inr (Or.inl (stepSpurious_cases h)))
  | expire => exact Or.inr (Or.inr (Or.inl (stepExpire_cases h)))
  | worker i =>
    obtain ⟨w, s', pc, hw, hstep, ht⟩ := stepWorker_cases h
    exact Or.inr (Or.inr (Or.inr ⟨i, w, s', pc, hw, fun _ => rfl, hstep, ht⟩))
  | connected i stream =>
    obtain ⟨w, hw, hpc, ht⟩ := stepConnected_cases h
    refine Or.inr (Or.inr (Or.inr ⟨i, w, s, _, hw, fun hnotify => ?_, .connected hpc stream, ht⟩))
    rw [hpc] at hnotify
    cases hnotify

/-! ## The number of workers -/

/-- `++result->count` is done. -/
def WorkerPc.counted : WorkerPc NetworkStream → Bool
  | .notify => true
  | .finished => true
  | _ => false

/-- The number of workers that the call `p` has started. -/
def State.started (s : State NetworkStream) (p : Nat) : Nat :=
  s.workers.countP fun w => w.result = p

/-- The number of workers that the call `p` has started and that are counted. -/
def State.counted (s : State NetworkStream) (p : Nat) : Nat :=
  s.workers.countP fun w => w.result = p ∧ w.pc.counted

/-- What a worker leaves as it is. -/
theorem WorkerStep.frame {s s' : State NetworkStream} {w : Worker NetworkStream}
    {pc : WorkerPc NetworkStream} (h : WorkerStep s w s' pc) :
    s'.workers = s.workers ∧ s'.calls = s.calls ∧ s'.caller.result = s.caller.result ∧
      s'.caller.num_workers = s.caller.num_workers ∧ s'.caller.timeout = s.caller.timeout := by
  cases h with
  | notify hpc =>
    obtain ⟨pc, h⟩ := s.exists_notifyAll_eq w.result
    rw [h]
    exact ⟨rfl, rfl, rfl, rfl, rfl⟩
  | _ => exact ⟨rfl, rfl, rfl, rfl, rfl⟩

theorem setResult_count {s : State NetworkStream} {p : Nat} {r : Result NetworkStream}
    (h : r.count = (s.results p).count) (q : Nat) :
    ((s.setResult p r).results q).count = (s.results q).count := by
  rw [State.setResult_results, Function.update_apply]
  split_ifs with hq
  · rw [h, hq]
  · rfl

/-- A worker is counted when it increments the count of its call. -/
theorem WorkerStep.count {s s' : State NetworkStream} {w : Worker NetworkStream}
    {pc : WorkerPc NetworkStream} (h : WorkerStep s w s' pc) :
    (pc.counted = w.pc.counted ∧ ∀ p, (s'.results p).count = (s.results p).count) ∨
      pc.counted = true ∧ w.pc.counted = false ∧
        ∀ p, (s'.results p).count = (s.results p).count + if w.result = p then 1 else 0 := by
  cases h with
  | skip hpc | enter hpc | insert hpc | connected hpc | late _ hpc =>
    rw [hpc]
    exact Or.inl ⟨rfl, fun _ => rfl⟩
  | erase stream hpc pc hlater =>
    rw [hpc]
    rcases hlater with rfl | ⟨stream, rfl⟩
    · exact Or.inl ⟨rfl, fun _ => rfl⟩
    · exact Or.inl ⟨rfl, fun _ => rfl⟩
  | lock _ hpc | publish _ hpc | unlock hpc =>
    rw [hpc]
    exact Or.inl ⟨rfl, setResult_count rfl⟩
  | increment hpc =>
    rw [hpc]
    refine Or.inr ⟨rfl, rfl, fun p => ?_⟩
    rw [State.setResult_results, Function.update_apply]
    by_cases hp : w.result = p
    · rw [if_pos hp.symm, if_pos hp, hp]
    · rw [if_neg (Ne.symm hp), if_neg hp, UInt32.add_zero]
  | notify hpc =>
    rw [hpc]
    obtain ⟨pc, h⟩ := s.exists_notifyAll_eq w.result
    rw [h]
    exact Or.inl ⟨rfl, fun _ => rfl⟩

/-- What holds in every state: the calls own their results, and the counts are right modulo the
range of an `unsigned int`. -/
structure WellFormed (s : State NetworkStream) : Prop where
  worker_lt : ∀ w ∈ s.workers, w.result < s.calls
  caller_lt : s.caller.result < s.calls ∨ ∃ stream, s.caller.pc = .returned stream
  count : ∀ p, (s.results p).count = UInt32.ofNat (s.counted p)
  num_workers : s.caller.num_workers = UInt32.ofNat (s.started s.caller.result)

theorem wellFormed_initial : WellFormed ({} : State NetworkStream) where
  worker_lt _ hw := nomatch hw
  caller_lt := Or.inr ⟨none, rfl⟩
  count _ := rfl
  num_workers := rfl

theorem State.started_of_le {s : State NetworkStream} (h : ∀ w ∈ s.workers, w.result < s.calls)
    {p : Nat} (hp : s.calls ≤ p) : s.started p = 0 := by
  rw [started, List.countP_eq_zero]
  intro w hw heq
  have hlt := h w hw
  have heq := of_decide_eq_true heq
  omega

theorem State.counted_le_started (s : State NetworkStream) (p : Nat) :
    s.counted p ≤ s.started p := by
  apply List.countP_mono_left
  intro w _ hw
  exact decide_eq_true (of_decide_eq_true hw).1

theorem WellFormed.begun {s : State NetworkStream} (h : WellFormed s) (servers : List Server)
    (timeout : Int) : WellFormed (begun s servers timeout) where
  worker_lt w hw := Nat.lt_succ_of_lt (h.worker_lt w hw)
  caller_lt := Or.inl (Nat.lt_succ_self _)
  count p := by
    have hcounted : (TCPConnector.begun s servers timeout).counted p = s.counted p := rfl
    rw [hcounted]
    show (Function.update s.results s.calls {} p).count = _
    rw [Function.update_apply]
    split_ifs with hp
    · have hle := s.counted_le_started p
      rw [State.started_of_le h.worker_lt hp.ge] at hle
      rw [Nat.le_zero.1 hle]
      rfl
    · exact h.count p
  num_workers := by
    have hstarted :
        (TCPConnector.begun s servers timeout).started s.calls = s.started s.calls := rfl
    show 0 = UInt32.ofNat ((TCPConnector.begun s servers timeout).started s.calls)
    rw [hstarted, State.started_of_le h.worker_lt (Nat.le_refl _)]
    rfl

theorem WellFormed.spawned {s : State NetworkStream} (h : WellFormed s) {server : Server}
    {servers : List Server} (hpc : s.caller.pc = .spawn server servers) :
    WellFormed (spawned s server servers) := by
  have hlt : s.caller.result < s.calls := by
    rcases h.caller_lt with hlt | ⟨stream, hreturned⟩
    · exact hlt
    · rw [hpc] at hreturned
      cases hreturned
  refine ⟨?_, Or.inl hlt, ?_, ?_⟩
  · intro w hw
    rcases List.mem_append.1 hw with hw | hw
    · exact h.worker_lt w hw
    · rw [List.mem_singleton.1 hw]
      exact hlt
  · intro p
    have hcounted : (TCPConnector.spawned s server servers).counted p = s.counted p := by
      show List.countP _ (s.workers ++ [_]) = _
      rw [List.countP_append, List.countP_singleton, if_neg (by simp [WorkerPc.counted])]
      rfl
    rw [hcounted]
    exact h.count p
  · have hstarted : (TCPConnector.spawned s server servers).started s.caller.result =
        s.started s.caller.result + 1 := by
      show List.countP _ (s.workers ++ [_]) = _
      rw [List.countP_append, List.countP_singleton, if_pos (by simp)]
      rfl
    show s.caller.num_workers + 1 = UInt32.ofNat
      ((TCPConnector.spawned s server servers).started s.caller.result)
    rw [hstarted, h.num_workers, UInt32.ofNat_add]
    rfl

theorem WellFormed.callerStep {s t : State NetworkStream} {a : Action NetworkStream}
    (h : WellFormed s) (hstep : CallerStep s a t) : WellFormed t where
  worker_lt := by
    rw [hstep.workers, hstep.calls]
    exact h.worker_lt
  caller_lt := by
    rw [hstep.call.1, hstep.calls]
    rcases h.caller_lt with hlt | ⟨stream, hreturned⟩
    · exact Or.inl hlt
    · exact Or.inr (hstep.returned stream hreturned)
  count p := by
    rw [(hstep.results p).1, State.counted, hstep.workers]
    exact h.count p
  num_workers := by
    rw [hstep.call.1, hstep.call.2.1, State.started, hstep.workers]
    exact h.num_workers

/-- The number of workers of a kind changes by the worker that moves. -/
theorem countP_moveWorker {s s' : State NetworkStream} {i : Nat} {w : Worker NetworkStream}
    (hw : s.workers[i]? = some w) (hworkers : s'.workers = s.workers)
    (pc : WorkerPc NetworkStream) (p : Worker NetworkStream → Prop) [DecidablePred p] :
    ((s'.moveWorker i w pc).workers.countP fun w => p w) + (if p w then 1 else 0) =
      (s.workers.countP fun w => p w) + if p { w with pc } then 1 else 0 := by
  have hset := countP_set_add hw { w with pc } fun w => p w
  rw [State.moveWorker_workers, hworkers]
  simpa only [decide_eq_true_eq] using hset

theorem WorkerStep.caller_pc {s s' : State NetworkStream} {w : Worker NetworkStream}
    {pc : WorkerPc NetworkStream} (h : WorkerStep s w s' pc) :
    s'.caller.pc = s.caller.pc ∨
      w.pc = .notify ∧ s.caller.pc = .blocked ∧ s'.caller.pc = .woken false := by
  cases h with
  | notify hpc =>
    rcases s.notifyAll_cases w.result with ⟨hblocked, -, h⟩ | ⟨-, h⟩
    · rw [h]
      exact Or.inr ⟨hpc, hblocked, rfl⟩
    · rw [h]
      exact Or.inl rfl
  | _ => exact Or.inl rfl

theorem WellFormed.workerStep {s s' : State NetworkStream} {i : Nat} {w : Worker NetworkStream}
    {pc : WorkerPc NetworkStream} (h : WellFormed s) (hw : s.workers[i]? = some w)
    (hstep : WorkerStep s w s' pc) : WellFormed (s'.moveWorker i w pc) := by
  obtain ⟨hworkers, hcalls, hresult, hnum, -⟩ := hstep.frame
  refine ⟨?_, ?_, ?_, ?_⟩
  · intro w' hw'
    rw [State.moveWorker_workers, hworkers] at hw'
    rw [State.moveWorker_calls, hcalls]
    rcases List.mem_or_eq_of_mem_set hw' with hw' | rfl
    · exact h.worker_lt w' hw'
    · exact h.worker_lt w (List.mem_of_getElem? hw)
  · rw [State.moveWorker_caller, State.moveWorker_calls, hresult, hcalls]
    rcases h.caller_lt with hlt | ⟨stream, hreturned⟩
    · exact Or.inl hlt
    · rcases hstep.caller_pc with hpc | ⟨-, hblocked, -⟩
      · exact Or.inr ⟨stream, hpc.trans hreturned⟩
      · rw [hreturned] at hblocked
        cases hblocked
  · intro p
    have hcounted : (s'.moveWorker i w pc).counted p + _ = s.counted p + _ :=
      countP_moveWorker hw hworkers pc fun w => w.result = p ∧ w.pc.counted
    rw [State.moveWorker_results]
    rcases hstep.count with ⟨heq, hcount⟩ | ⟨hnow, hbefore, hcount⟩
    · rw [heq] at hcounted
      rw [hcount p, h.count p, Nat.add_right_cancel hcounted]
    · rw [hbefore, hnow, if_neg fun h => Bool.noConfusion h.2, Nat.add_zero] at hcounted
      rw [hcount p, h.count p, hcounted, UInt32.ofNat_add]
      by_cases hp : w.result = p
      · rw [if_pos hp, if_pos ⟨hp, rfl⟩]
        rfl
      · rw [if_neg hp, if_neg fun h => hp h.1]
        rfl
  · have hstarted : (s'.moveWorker i w pc).started s.caller.result + _ =
        s.started s.caller.result + _ :=
      countP_moveWorker hw hworkers pc fun w => w.result = s.caller.result
    rw [State.moveWorker_caller, hnum, hresult, Nat.add_right_cancel hstarted]
    exact h.num_workers

theorem WellFormed.step {s t : State NetworkStream} {a : Action NetworkStream} (h : WellFormed s)
    (hstep : step s a = some t) : WellFormed t := by
  rcases step_cases hstep with ⟨servers, timeout, rfl⟩ | ⟨server, servers, hpc, rfl⟩ | hcaller |
    ⟨i, w, s', pc, hw, -, hworker, rfl⟩
  · exact h.begun servers timeout
  · exact h.spawned hpc
  · exact h.callerStep hcaller
  · exact h.workerStep hw hworker

/-- The state is well formed after every run. -/
theorem wellFormed_of_execute {actions : List (Action NetworkStream)} {s : State NetworkStream}
    (hrun : execute step {} actions = some s) : WellFormed s :=
  execute_invariant WellFormed.step hrun wellFormed_initial

/-! ## The last wake-up -/

/-- While the caller waits or is about to, a worker is left to notify it. -/
def Awaited (s : State NetworkStream) : Prop :=
  s.caller.pc = .wait ∨ s.caller.pc = .blocked → s.caller.timeout = 0 →
    0 < s.unfinished s.caller.result

theorem WorkerPc.terminated_iff {pc : WorkerPc NetworkStream} :
    pc.terminated = true ↔ pc = .finished := by
  cases pc <;> simp [terminated]

theorem unfinished_eq_zero_iff {s : State NetworkStream} {p : Nat} :
    s.unfinished p = 0 ↔ ∀ w ∈ s.workers, w.result = p → w.pc = .finished := by
  rw [State.unfinished, List.countP_eq_zero]
  refine forall₂_congr fun w _ => ?_
  rw [decide_eq_true_eq, not_and, Bool.not_eq_true', Bool.not_eq_false,
    WorkerPc.terminated_iff]

/-- Not all workers are counted, so there is one that has not notified. -/
theorem unfinished_pos {s : State NetworkStream} {p : Nat} (h : s.counted p ≠ s.started p) :
    0 < s.unfinished p := by
  by_contra hnone
  have hfinished := unfinished_eq_zero_iff.1 (Nat.eq_zero_of_not_pos hnone)
  refine h (List.countP_congr fun w hw => ?_)
  rw [decide_eq_true_eq, decide_eq_true_eq, and_iff_left_iff_imp]
  intro hp
  rw [hfinished w hw hp]
  rfl

/-- The caller goes to wait only when there is a worker to wait for. -/
theorem WellFormed.unfinished_pos {s : State NetworkStream} (h : WellFormed s)
    (htest : s.predicate = false) : 0 < s.unfinished s.caller.result := by
  apply TCPConnector.unfinished_pos
  intro heq
  have hcount : s.result.count = s.caller.num_workers := by
    rw [State.result, h.count, h.num_workers, heq]
  rw [State.predicate, Bool.or_eq_false_iff, hcount] at htest
  exact of_decide_eq_false htest.2 (UInt32.le_refl _)

/-- A worker terminates when it notifies. -/
theorem WorkerStep.terminated {s s' : State NetworkStream} {w : Worker NetworkStream}
    {pc : WorkerPc NetworkStream} (h : WorkerStep s w s' pc) :
    w.pc.terminated = false ∧ (pc.terminated = true → w.pc = .notify) := by
  cases h with
  | erase stream hpc pc hlater =>
    rw [hpc]
    rcases hlater with rfl | ⟨stream, rfl⟩
    · exact ⟨rfl, nofun⟩
    · exact ⟨rfl, nofun⟩
  | notify hpc =>
    rw [hpc]
    exact ⟨rfl, fun _ => rfl⟩
  | skip hpc | enter hpc | insert hpc | connected hpc | late _ hpc | lock _ hpc | publish _ hpc
  | unlock hpc | increment hpc =>
    rw [hpc]
    exact ⟨rfl, nofun⟩

theorem WorkerStep.notified {s s' : State NetworkStream} {w : Worker NetworkStream}
    {pc : WorkerPc NetworkStream} (h : WorkerStep s w s' pc) (hnotify : w.pc = .notify) :
    s' = s.notifyAll w.result := by
  cases h with
  | notify => rfl
  | skip hpc | enter hpc | insert hpc | connected hpc | late _ hpc | lock _ hpc | publish _ hpc
  | unlock hpc | increment hpc | erase _ hpc =>
    rw [hnotify] at hpc
    cases hpc

theorem Awaited.workerStep {s s' : State NetworkStream} {i : Nat} {w : Worker NetworkStream}
    {pc : WorkerPc NetworkStream} (h : Awaited s) (hw : s.workers[i]? = some w)
    (hstep : WorkerStep s w s' pc) (htime : w.pc = .notify → ¬NotifiesTooEarly s (.worker i)) :
    Awaited (s'.moveWorker i w pc) := by
  obtain ⟨hworkers, -, hresult, -, htimeout⟩ := hstep.frame
  intro hpc htimeout0
  rw [State.moveWorker_caller] at hpc htimeout0 ⊢
  rw [htimeout] at htimeout0
  rw [hresult]
  have hsame : s'.caller.pc = s.caller.pc := by
    rcases hstep.caller_pc with hsame | ⟨-, -, hwoken⟩
    · exact hsame
    · rw [hwoken] at hpc
      rcases hpc with hpc | hpc <;> cases hpc
  rw [hsame] at hpc
  have hpos := h hpc htimeout0
  have hcount : (s'.moveWorker i w pc).unfinished s.caller.result + _ =
      s.unfinished s.caller.result + _ :=
    countP_moveWorker hw hworkers pc fun w => w.result = s.caller.result ∧ !w.pc.terminated
  rw [hstep.terminated.1] at hcount
  by_cases hend : w.result = s.caller.result ∧ pc.terminated = true
  · -- A worker of the call terminates: a blocked caller is woken, another one has a second worker.
    have hnotify := hstep.terminated.2 hend.2
    rw [if_pos ⟨hend.1, rfl⟩, hend.2, if_neg fun h => Bool.noConfusion h.2] at hcount
    rcases hpc with hwait | hblocked
    · have hlast : s.unfinished s.caller.result ≠ 1 := fun hlast =>
        htime hnotify ⟨hwait, htimeout0, w, hw, hnotify, hend.1, hlast⟩
      omega
    · rcases s.notifyAll_cases w.result with ⟨-, -, hwoken⟩ | ⟨hnot, -⟩
      · rw [hstep.notified hnotify, hwoken, hblocked] at hsame
        cases hsame
      · exact (hnot ⟨hblocked, hend.1.symm⟩).elim
  · by_cases hp : w.result = s.caller.result
    · have hnot : pc.terminated = false := Bool.not_eq_true _ ▸ fun h => hend ⟨hp, h⟩
      rw [hnot] at hcount
      rwa [Nat.add_right_cancel hcount]
    · rw [if_neg fun h => hp h.1, if_neg fun h => hp h.1] at hcount
      omega

theorem Awaited.step {s t : State NetworkStream} {a : Action NetworkStream} (hs : WellFormed s)
    (h : Awaited s) (htime : ¬NotifiesTooEarly s a) (hstep : step s a = some t) : Awaited t := by
  rcases step_cases hstep with ⟨servers, timeout, rfl⟩ | ⟨server, servers, hpc, rfl⟩ | hcaller |
    ⟨i, w, s', pc, hw, ha, hworker, rfl⟩
  · rintro (hpc | hpc) <;> cases hpc
  · rintro (hpc | hpc) <;> cases hpc
  · intro hpc htimeout
    rw [hcaller.call.1, State.unfinished, hcaller.workers]
    rcases hpc with hpc | hpc
    · exact hs.unfinished_pos (hcaller.wait hpc)
    · rw [hcaller.call.2.2] at htimeout
      exact h (Or.inl (hcaller.blocked hpc)) htimeout
  · exact h.workerStep hw hworker fun hnotify => ha hnotify ▸ htime

/-- No wake-up is lost in a run in which the last notification of a call never comes between the
test of the predicate and the blocking of the caller. -/
theorem not_lostWakeup_of_inTime {actions : List (Action NetworkStream)} {s : State NetworkStream}
    (hrun : execute step {} actions = some s)
    (htime : Along step (fun s a => ¬NotifiesTooEarly s a) {} actions) : ¬LostWakeup s := by
  have hinv : WellFormed s ∧ Awaited s := by
    refine htime.invariant (I := fun s => WellFormed s ∧ Awaited s) ?_ hrun
      ⟨wellFormed_initial, ?_⟩
    · intro s a t hI hG hstep
      exact ⟨hI.1.step hstep, hI.2.step hI.1 hG hstep⟩
    · rintro (hpc | hpc) <;> cases hpc
  rintro ⟨hblocked, htimeout, hfinished⟩
  have hpos := hinv.2 (Or.inr hblocked) htimeout
  exact absurd (unfinished_eq_zero_iff.2 hfinished) (Nat.ne_of_gt hpos)

/-- The caller is blocked before the only worker notifies. -/
theorem not_lostWakeup_of_inTime_blocked :
    ∃ s : State Unit, execute step {} [.call [(bytes "h", 1)] 0, .caller, .caller, .caller, .caller,
      .caller, .caller, .worker 0, .worker 0, .connected 0 none, .worker 0, .worker 0, .worker 0] =
        some s ∧ ¬LostWakeup s := by
  have htime : Along step (fun s a => ¬NotifiesTooEarly s a) ({} : State Unit)
      [.call [(bytes "h", 1)] 0, .caller, .caller, .caller, .caller, .caller, .caller, .worker 0,
        .worker 0, .connected 0 none, .worker 0, .worker 0, .worker 0] := by decide
  exact ⟨_, rfl, not_lostWakeup_of_inTime rfl htime⟩

/-- The only connection fails, and its worker notifies when the predicate is tested. -/
theorem lostWakeup_failed :
    ∃ s : State Unit, execute step {} [.call [(bytes "h", 1)] 0, .caller, .caller, .caller,
      .worker 0, .worker 0, .connected 0 none, .worker 0, .caller, .caller, .worker 0, .worker 0,
      .caller] = some s ∧ LostWakeup s :=
  ⟨_, rfl, rfl, rfl, by decide⟩

/-- Nothing but the order of the steps is to blame: after a last notification that comes too early
the caller blocks for good. -/
theorem lostWakeup_of_notifiesTooEarly {s : State NetworkStream} {a : Action NetworkStream}
    (h : NotifiesTooEarly s a) : ∃ t, execute step s [a, .caller] = some t ∧ LostWakeup t := by
  cases a with
  | worker i =>
    obtain ⟨hwait, htimeout, w, hw, hnotify, hresult, hlast⟩ := h
    have hnotified : s.notifyAll w.result = s := by
      rcases s.notifyAll_cases w.result with ⟨hblocked, -, -⟩ | ⟨-, h⟩
      · rw [hwait] at hblocked
        cases hblocked
      · exact h
    have hworker : step s (.worker i) = some (s.moveWorker i w .finished) := by
      show stepWorker s i = _
      rw [stepWorker, hw]
      simp only [hnotify, hnotified]
    have hcaller : step (s.moveWorker i w .finished) .caller =
        some (((s.moveWorker i w .finished).setResult s.caller.result
          { s.result with locked := false }).goto .blocked) := by
      show stepCaller _ = _
      rw [stepCaller, State.moveWorker_caller, hwait]
      rfl
    refine ⟨((s.moveWorker i w .finished).setResult s.caller.result
      { s.result with locked := false }).goto .blocked, ?_, rfl, htimeout, ?_⟩
    · rw [execute, hworker, Option.bind_some, execute, hcaller]
      rfl
    have hcount : (s.moveWorker i w .finished).unfinished s.caller.result + _ =
        s.unfinished s.caller.result + _ :=
      countP_moveWorker hw rfl .finished fun w => w.result = s.caller.result ∧ !w.pc.terminated
    rw [hlast, if_pos ⟨hresult, by rw [hnotify]; rfl⟩,
      if_neg fun h => Bool.noConfusion h.2] at hcount
    exact unfinished_eq_zero_iff.1 (Nat.add_right_cancel hcount)
  | _ => exact h.elim

/-! ## One attempt for each server -/

/-- The worker is for `server`, and its pair is still to be inserted or erased. -/
def State.underway (s : State NetworkStream) (server : Server) (w : Worker NetworkStream) : Bool :=
  w.serverCopy = server ∧ (s.entering w ∨ w.pc.attempting)

/-- For each server at most one worker is underway, or the caller is about to start the first. -/
structure Exclusive (s : State NetworkStream) : Prop where
  one : ∀ server, s.workers.countP (s.underway server) ≤ 1
  active : ∀ w ∈ s.workers, w.pc.attempting → w.serverCopy ∈ s.active
  spawn : ∀ server servers, s.caller.pc = .spawn server servers → s.result.done = false →
    s.workers.countP (s.underway server) = 0

theorem exclusive_initial : Exclusive ({} : State NetworkStream) where
  one _ := Nat.zero_le _
  active _ hw := nomatch hw
  spawn := nofun

theorem State.attempts_le (s : State NetworkStream) (server : Server) :
    s.attempts server ≤ s.workers.countP (s.underway server) := by
  apply List.countP_mono_left
  intro w _ hw
  obtain ⟨hserver, hattempting⟩ := of_decide_eq_true hw
  exact decide_eq_true ⟨hserver, Or.inr hattempting⟩

/-- `done` of the call only stops workers that have not yet begun. -/
theorem State.underway_mono {s t : State NetworkStream} {server : Server}
    {w : Worker NetworkStream}
    (hdone : (s.results w.result).done = true → (t.results w.result).done = true)
    (h : t.underway server w) : s.underway server w := by
  obtain ⟨hserver, hentering | hattempting⟩ := of_decide_eq_true h
  · refine decide_eq_true ⟨hserver, Or.inl ?_⟩
    rw [entering] at hentering ⊢
    split at hentering
    · rw [Bool.not_eq_true'] at hentering ⊢
      exact Bool.eq_false_iff.2 fun h => Bool.eq_false_iff.1 hentering (hdone h)
    · rfl
    · cases hentering
  · exact decide_eq_true ⟨hserver, Or.inr hattempting⟩

theorem Exclusive.begun {s : State NetworkStream} (hs : WellFormed s) (h : Exclusive s)
    (servers : List Server) (timeout : Int) : Exclusive (begun s servers timeout) where
  one server := by
    refine Nat.le_trans (List.countP_mono_left fun w hw => ?_) (h.one server)
    apply State.underway_mono
    intro hdone
    have hlt := hs.worker_lt w hw
    show (Function.update s.results s.calls {} w.result).done = true
    rwa [Function.update_of_ne (by omega)]
  active := h.active
  spawn := nofun

theorem Exclusive.spawned {s : State NetworkStream} (h : Exclusive s) {server : Server}
    {servers : List Server} (hpc : s.caller.pc = .spawn server servers) :
    Exclusive (spawned s server servers) where
  one server' := by
    show List.countP (s.underway server') (s.workers ++ [_]) ≤ 1
    rw [List.countP_append, List.countP_singleton]
    split_ifs with hnew
    · -- The new worker can begin: no other is underway for its server.
      obtain ⟨hserver, hentering | hattempting⟩ := of_decide_eq_true hnew
      · have hdone : (!s.result.done) = true := hentering
        rw [Bool.not_eq_true'] at hdone
        rw [← hserver, h.spawn server servers hpc hdone]
      · cases hattempting
    · exact h.one server'
  active w hw hattempting := by
    rcases List.mem_append.1 hw with hw | hw
    · exact h.active w hw hattempting
    · rw [List.mem_singleton.1 hw] at hattempting
      cases hattempting
  spawn := nofun

theorem Exclusive.callerStep {s t : State NetworkStream} {a : Action NetworkStream}
    (h : Exclusive s) (htime : ¬ChecksTooEarly s a) (hstep : CallerStep s a t) :
    Exclusive t := by
  have hcount (server : Server) :
      t.workers.countP (t.underway server) ≤ s.workers.countP (s.underway server) := by
    rw [hstep.workers]
    exact List.countP_mono_left fun w _ => State.underway_mono fun hdone => by
      rw [(hstep.results _).2, hdone]
  refine ⟨fun server => Nat.le_trans (hcount server) (h.one server), ?_, ?_⟩
  · rw [hstep.workers, hstep.active]
    exact h.active
  · intro server servers hspawn hdone
    obtain ⟨rfl, hcheck, hactive⟩ := hstep.spawn server servers hspawn
    rw [State.result, (hstep.results _).2, hstep.call.1] at hdone
    refine Nat.eq_zero_of_le_zero (Nat.le_trans (hcount server) (Nat.le_of_eq ?_))
    rw [List.countP_eq_zero]
    intro w hw hunderway
    obtain ⟨hserver, hentering | hattempting⟩ := of_decide_eq_true hunderway
    · refine htime ⟨hdone, server, ?_, hactive, w, hw, hserver, hentering⟩
      rw [hcheck]
      rfl
    · exact hactive (hserver ▸ h.active w hw hattempting)

theorem WorkerStep.done {s s' : State NetworkStream} {w : Worker NetworkStream}
    {pc : WorkerPc NetworkStream} (h : WorkerStep s w s' pc) (p : Nat)
    (hdone : (s.results p).done = true) : (s'.results p).done = true := by
  have hset {r : Result NetworkStream}
      (hr : (s.results w.result).done = true → r.done = true) :
      ((s.setResult w.result r).results p).done = true := by
    rw [State.setResult_results, Function.update_apply]
    split_ifs with hp
    · exact hr (hp ▸ hdone)
    · exact hdone
  cases h with
  | skip | enter | insert | connected | erase | late => exact hdone
  | lock => exact hset id
  | publish => exact hset fun _ => rfl
  | unlock => exact hset id
  | increment => exact hset id
  | notify =>
    obtain ⟨pc, h⟩ := s.exists_notifyAll_eq w.result
    rw [h]
    exact hdone

/-- A worker is underway only if it was so before. -/
theorem WorkerStep.underway {s s' : State NetworkStream} {w : Worker NetworkStream}
    {pc : WorkerPc NetworkStream} (h : WorkerStep s w s' pc) {server : Server}
    (hunderway : s'.underway server { w with pc }) : s.underway server w := by
  obtain ⟨hserver, hpc⟩ := of_decide_eq_true hunderway
  refine decide_eq_true ⟨hserver, ?_⟩
  cases h with
  | enter hbefore hdone =>
    rw [State.entering, hbefore, hdone]
    exact Or.inl rfl
  | insert hbefore =>
    rw [State.entering, hbefore]
    exact Or.inl rfl
  | connected hbefore =>
    rw [hbefore]
    exact Or.inr rfl
  | erase stream hbefore =>
    rw [hbefore]
    exact Or.inr rfl
  | skip | lock | late | publish | unlock | increment | notify =>
    rcases hpc with hpc | hpc <;> cases hpc

/-- The set keeps what is in it, up to the pair of a worker that ends its attempt. -/
theorem WorkerStep.active {s s' : State NetworkStream} {w : Worker NetworkStream}
    {pc : WorkerPc NetworkStream} (h : WorkerStep s w s' pc)
    (hactive : w.pc.attempting → w.serverCopy ∈ s.active) :
    (pc.attempting → w.serverCopy ∈ s'.active) ∧ ∀ server ∈ s.active, server ∈ s'.active ∨
      server = w.serverCopy ∧ w.pc.attempting = true ∧ pc.attempting = false := by
  cases h with
  | insert hpc =>
    exact ⟨fun _ => Finset.mem_insert_self .., fun server h => Or.inl (Finset.mem_insert_of_mem h)⟩
  | connected hpc => exact ⟨fun _ => hactive (by rw [hpc]; rfl), fun server h => Or.inl h⟩
  | erase stream hpc pc hlater =>
    have hend : pc.attempting = false := by
      rcases hlater with rfl | ⟨stream, rfl⟩
      · rfl
      · rfl
    refine ⟨fun h => ?_, fun server hserver => ?_⟩
    · rw [hend] at h
      cases h
    · by_cases heq : server = w.serverCopy
      · exact Or.inr ⟨heq, by rw [hpc]; rfl, hend⟩
      · exact Or.inl (Finset.mem_erase_of_ne_of_mem heq hserver)
  | notify hpc =>
    obtain ⟨pc, h⟩ := s.exists_notifyAll_eq w.result
    rw [h]
    exact ⟨nofun, fun server h => Or.inl h⟩
  | skip | enter | lock | late | publish | unlock | increment =>
    exact ⟨nofun, fun server h => Or.inl h⟩

theorem Exclusive.workerStep {s s' : State NetworkStream} {i : Nat} {w : Worker NetworkStream}
    {pc : WorkerPc NetworkStream} (h : Exclusive s) (hw : s.workers[i]? = some w)
    (hstep : WorkerStep s w s' pc) : Exclusive (s'.moveWorker i w pc) := by
  obtain ⟨hworkers, -, hresult, -, -⟩ := hstep.frame
  have hcount (server : Server) : (s'.moveWorker i w pc).workers.countP
      ((s'.moveWorker i w pc).underway server) ≤ s.workers.countP (s.underway server) := by
    rw [State.moveWorker_workers, hworkers]
    exact countP_set_le hw hstep.underway fun w _ => State.underway_mono (hstep.done _)
  refine ⟨fun server => Nat.le_trans (hcount server) (h.one server), ?_, ?_⟩
  · intro w' hw' hattempting
    obtain ⟨hnow, hkept⟩ := hstep.active (h.active w (List.mem_of_getElem? hw))
    rw [State.moveWorker_workers, hworkers] at hw'
    rcases List.mem_or_eq_of_mem_set hw' with hmem | rfl
    · rcases hkept _ (h.active w' hmem hattempting) with hin | ⟨hsame, hbefore, hend⟩
      · exact hin
      · -- The set forgets the pair of two workers, but there are no two.
        have hle := Nat.le_trans (s.attempts_le w.serverCopy) (h.one w.serverCopy)
        have hcount : (s'.moveWorker i w pc).attempts w.serverCopy + _ =
            s.attempts w.serverCopy + _ :=
          countP_moveWorker hw hworkers pc fun v =>
            v.serverCopy = w.serverCopy ∧ v.pc.attempting
        rw [if_pos ⟨rfl, hbefore⟩, hend, if_neg fun h => Bool.noConfusion h.2] at hcount
        have hnone : (s'.moveWorker i w pc).attempts w.serverCopy = 0 := by omega
        rw [State.attempts, State.moveWorker_workers, hworkers, List.countP_eq_zero] at hnone
        exact absurd (decide_eq_true ⟨hsame, hattempting⟩) (hnone w' hw')
    · exact hnow hattempting
  · intro server servers hspawn hdone
    rw [State.moveWorker_caller] at hspawn
    have hbefore : s.caller.pc = .spawn server servers := by
      rcases hstep.caller_pc with hpc | ⟨-, -, hwoken⟩
      · rw [← hpc, hspawn]
      · rw [hwoken] at hspawn
        cases hspawn
    refine Nat.eq_zero_of_le_zero (Nat.le_trans (hcount server) (Nat.le_of_eq ?_))
    refine h.spawn server servers hbefore (Bool.eq_false_iff.2 fun hd => ?_)
    have hlater := hstep.done _ hd
    rw [← hresult] at hlater
    exact Bool.eq_false_iff.1 hdone hlater

theorem Exclusive.step {s t : State NetworkStream} {a : Action NetworkStream} (hs : WellFormed s)
    (h : Exclusive s) (htime : ¬ChecksTooEarly s a) (hstep : step s a = some t) : Exclusive t := by
  rcases step_cases hstep with ⟨servers, timeout, rfl⟩ | ⟨server, servers, hpc, rfl⟩ | hcaller |
    ⟨i, w, s', pc, hw, -, hworker, rfl⟩
  · exact h.begun hs servers timeout
  · exact h.spawned hpc
  · exact h.callerStep htime hcaller
  · exact h.workerStep hw hworker

/-- No connection is attempted twice at a time in a run in which no server is looked for while a
worker is still to insert it. -/
theorem attempts_le_one_of_inTime {actions : List (Action NetworkStream)} {s : State NetworkStream}
    (hrun : execute step {} actions = some s)
    (htime : Along step (fun s a => ¬ChecksTooEarly s a) {} actions) (server : Server) :
    s.attempts server ≤ 1 := by
  have hinv : WellFormed s ∧ Exclusive s := by
    refine htime.invariant (I := fun s => WellFormed s ∧ Exclusive s) ?_ hrun
      ⟨wellFormed_initial, exclusive_initial⟩
    intro s a t hI hG hstep
    exact ⟨hI.1.step hstep, hI.2.step hI.1 hG hstep⟩
  exact Nat.le_trans (s.attempts_le server) (hinv.2.one server)

/-- The server is named twice and looked for again when the first worker has inserted it. -/
theorem attempts_le_one_of_inTime_repeated :
    ∃ s : State Unit, execute step {} [.call [(bytes "h", 1), (bytes "h", 1)] 0, .caller, .caller,
      .worker 0, .worker 0, .caller, .caller] = some s ∧ s.attempts (bytes "h", 1) ≤ 1 := by
  have htime : Along step (fun s a => ¬ChecksTooEarly s a) ({} : State Unit)
      [.call [(bytes "h", 1), (bytes "h", 1)] 0, .caller, .caller, .worker 0, .worker 0, .caller,
        .caller] := by decide
  exact ⟨_, rfl, attempts_le_one_of_inTime rfl htime _⟩

/-- The server is named twice and looked for again before the first worker begins. -/
theorem two_attempts_repeated :
    ∃ s : State Unit, execute step {} [.call [(bytes "h", 1), (bytes "h", 1)] 0, .caller, .caller,
      .caller, .caller, .worker 0, .worker 0, .worker 1, .worker 1] = some s ∧
        ¬s.attempts (bytes "h", 1) ≤ 1 :=
  ⟨_, rfl, by decide⟩

/-- A worker that is still to insert its pair can do so at once. -/
theorem exists_execute_connect {s : State NetworkStream} {i : Nat} {w : Worker NetworkStream}
    (hw : s.workers[i]? = some w) (hentering : s.entering w) :
    ∃ actions t, execute step s actions = some t ∧ t.results = s.results ∧
      t.workers = s.workers.set i { w with pc := .connect } := by
  have hi : i < s.workers.length := (List.getElem?_eq_some_iff.1 hw).1
  rw [State.entering] at hentering
  split at hentering
  · next hpc =>
    have henter : step s (.worker i) = some (s.moveWorker i w .insert) := by
      show stepWorker s i = _
      rw [Bool.not_eq_true'] at hentering
      simp only [stepWorker, hw, hpc, hentering, Bool.false_eq_true, if_false]
    have hnow : (s.moveWorker i w .insert).workers[i]? = some { w with pc := .insert } :=
      List.getElem?_set_self hi
    refine ⟨[.worker i, .worker i],
      { (s.moveWorker i w .insert).moveWorker i w .connect with
        active := insert w.serverCopy s.active }, ?_, rfl, List.set_set ..⟩
    rw [execute, henter, Option.bind_some, execute]
    show (stepWorker _ i).bind _ = _
    rw [stepWorker, hnow]
    rfl
  · next hpc =>
    refine ⟨[.worker i],
      { s.moveWorker i w .connect with active := insert w.serverCopy s.active }, ?_, rfl, rfl⟩
    rw [execute]
    show (stepWorker s i).bind _ = _
    rw [stepWorker, hw]
    simp only [hpc]
    rfl
  · cases hentering

/-- Nothing but the order of the steps is to blame: after a look that comes too early two workers
can attempt the same connection. -/
theorem two_attempts_of_checksTooEarly {s : State NetworkStream} {a : Action NetworkStream}
    (h : ChecksTooEarly s a) :
    ∃ actions t server, execute step s (a :: actions) = some t ∧ 2 ≤ t.attempts server := by
  cases a with
  | caller =>
    obtain ⟨hdone, server, hlooks, hactive, w, hw, hserver, hentering⟩ := h
    obtain ⟨i, hi⟩ := List.getElem?_of_mem hw
    obtain ⟨servers, hpc⟩ : ∃ servers, s.caller.pc = .check (server :: servers) := by
      cases hpc : s.caller.pc with
      | check servers =>
        rw [hpc] at hlooks
        cases servers with
        | nil => cases hlooks
        | cons server' servers =>
          cases hlooks
          exact ⟨servers, rfl⟩
      | _ =>
        rw [hpc] at hlooks
        cases hlooks
    have hspawn : execute step s [.caller, .caller] =
        some (spawned (s.goto (.spawn server servers)) server servers) := by
      rw [execute]
      show (stepCaller s).bind _ = _
      rw [stepCaller, hpc]
      dsimp only
      rw [if_neg hactive]
      rfl
    have hlength := (List.getElem?_eq_some_iff.1 hi).1
    have hfirst : (spawned (s.goto (.spawn server servers)) server servers).workers[i]? = some w :=
      (List.getElem?_append_left hlength).trans hi
    obtain ⟨actions, t, ht, hresults, hworkers⟩ := exists_execute_connect hfirst hentering
    have hsecond : t.workers[s.workers.length]? =
        some { serverCopy := server, result := s.caller.result, pc := .testDone } := by
      rw [hworkers, List.getElem?_set_ne (Nat.ne_of_lt hlength)]
      exact List.getElem?_concat_length
    obtain ⟨actions', t', ht', -, hworkers'⟩ := exists_execute_connect hsecond (by
      rw [State.entering, hresults]
      exact Bool.not_eq_true' _ ▸ hdone)
    refine ⟨.caller :: (actions ++ actions'), t', server, ?_, ?_⟩
    · show execute step s ([.caller, .caller] ++ (actions ++ actions')) = _
      rw [execute_append hspawn, execute_append ht, ht']
    · have hne : i ≠ s.workers.length := Nat.ne_of_lt hlength
      have hw' : t'.workers[i]? = some { w with pc := .connect } := by
        rw [hworkers', List.getElem?_set_ne hne.symm, hworkers]
        exact List.getElem?_set_self (List.getElem?_eq_some_iff.1 hfirst).1
      have hnew : t'.workers[s.workers.length]? =
          some { serverCopy := server, result := s.caller.result, pc := .connect } := by
        rw [hworkers']
        exact List.getElem?_set_self (List.getElem?_eq_some_iff.1 hsecond).1
      exact two_le_countP hne hw' hnew (decide_eq_true ⟨hserver, rfl⟩)
        (decide_eq_true ⟨rfl, rfl⟩)
  | _ => exact h.elim

end Wpi.TCPConnector

import WpiUtil.Tcpsockets.TCPStream

/-!
# When a `TCPStream` reports the end of the connection

The stream stays in blocking mode as far as its own member goes, so every failure of a system call is
reported as the end of the connection.
-/

namespace Wpi.TCPStream

open Foundations NetworkStream.Error

variable {s : TCPStream} {result : Transfer}

/-! ## The operations -/

theorem or_oNonblock_and (flags : BitVec 32) : (flags ||| oNonblock) &&& oNonblock = oNonblock := by
  ext i
  simp only [BitVec.getElem_and, BitVec.getElem_or]
  cases oNonblock[i] <;> simp

/-- A stream that takes itself for blocking does not tell the errors apart. -/
theorem finish_err (hblocking : s.blocking = true) :
    (s.finish result).2 = result.failure.map fun _ => kConnectionReset := by
  rw [finish, Transfer.failure]
  by_cases hrv : result.rv < 0
  · rw [if_pos hrv, if_pos hrv, if_neg (by simp [hblocking])]
    rfl
  · rw [if_neg hrv, if_neg hrv]
    rfl

theorem send_err (hsd : 0 ≤ s.sd) (hblocking : s.blocking = true) :
    (s.send result).2 = result.failure.map fun _ => kConnectionReset := by
  rw [send, if_neg (Int.not_lt.2 hsd), finish_err hblocking]

theorem receive_err (hsd : 0 ≤ s.sd) (hblocking : s.blocking = true) (timeout select : Int) :
    (s.receive timeout select result).2 =
      if reads timeout select = true then result.failure.map fun _ => kConnectionReset
      else some kConnectionTimedOut := by
  rw [receive, if_neg (Int.not_lt.2 hsd)]
  by_cases hreads : reads timeout select = true
  · rw [if_pos hreads, if_pos hreads, finish_err hblocking]
  · rw [if_neg hreads, if_neg hreads]

/-- `setBlocking` leaves the flags as they are if it fails. -/
theorem setBlocking_cases (hsd : 0 ≤ s.sd) (flags : BitVec 32) (enabled getfl setfl : Bool) :
    s.setBlocking flags enabled getfl setfl = (false, flags) ∨
      s.setBlocking flags enabled getfl setfl =
        (true, if enabled = true then flags &&& ~~~oNonblock else flags ||| oNonblock) := by
  rw [setBlocking, if_neg (Int.not_lt.2 hsd)]
  cases getfl with
  | false => exact Or.inl rfl
  | true =>
    cases setfl with
    | false => exact Or.inl rfl
    | true => exact Or.inr rfl

/-! ## A run -/

namespace Usage

variable {u : Usage}

/-- The stream is open and takes itself for blocking, whatever `setBlocking` has done. -/
structure Invariant (u : Usage) : Prop where
  sd : 0 ≤ u.stream.sd
  blocking : u.stream.blocking = true
  enabled : u.enabled = some false → ¬ u.Blocking

theorem invariant_init {sd : Int} (hsd : 0 ≤ sd) (flags : BitVec 32) :
    Invariant { stream := ofSocket sd, flags } where
  sd := hsd
  blocking := rfl
  enabled h := by cases h

theorem sound_init (sd : Int) (flags : BitVec 32) : Sound { stream := ofSocket sd, flags } where
  wouldBlock := by simp
  reset h := by cases h

theorem Invariant.after (h : Invariant u) (call : Call) : Invariant (u.after call) := by
  cases call with
  | send result => exact ⟨h.sd, h.blocking, h.enabled⟩
  | receive timeout select result => exact ⟨h.sd, h.blocking, h.enabled⟩
  | setBlocking enabled getfl setfl =>
    refine ⟨h.sd, h.blocking, ?_⟩
    rw [Usage.after]
    rcases setBlocking_cases h.sd u.flags enabled getfl setfl with heq | heq
    · rw [heq]
      exact h.enabled
    · rw [heq]
      rintro henabled
      obtain rfl : enabled = false := Option.some.inj henabled
      rw [Blocking, if_neg (by decide), or_oNonblock_and]
      decide

/-- A call that has not failed reports no end of the connection. -/
theorem err_ne_of_failure (h : Invariant u) {call : Call} (hfailure : call.failure = none) :
    (u.after call).failure = none ∧ (u.after call).err ≠ some kConnectionReset := by
  cases call with
  | setBlocking enabled getfl setfl => exact ⟨rfl, by simp [Usage.after]⟩
  | send result =>
    refine ⟨hfailure, ?_⟩
    rw [Call.failure] at hfailure
    rw [Usage.after, send_err h.sd h.blocking, hfailure]
    simp
  | receive timeout select result =>
    refine ⟨hfailure, ?_⟩
    rw [Call.failure] at hfailure
    rw [Usage.after, receive_err h.sd h.blocking]
    by_cases hreads : reads timeout select = true
    · rw [if_pos hreads] at hfailure
      rw [if_pos hreads, hfailure]
      simp
    · rw [if_neg hreads]
      simp

/-- A call that has failed reports the end of the connection. -/
theorem err_of_failure (h : Invariant u) {call : Call} {errno : Errno}
    (hfailure : call.failure = some errno) :
    (u.after call).failure = some errno ∧ (u.after call).err = some kConnectionReset ∧
      (u.after call).flags = u.flags ∧ (u.after call).enabled = u.enabled := by
  cases call with
  | setBlocking enabled getfl setfl => cases hfailure
  | send result =>
    refine ⟨hfailure, ?_, rfl, rfl⟩
    rw [Call.failure] at hfailure
    rw [Usage.after, send_err h.sd h.blocking, hfailure]
    rfl
  | receive timeout select result =>
    refine ⟨hfailure, ?_, rfl, rfl⟩
    rw [Call.failure] at hfailure
    rw [Usage.after, receive_err h.sd h.blocking]
    by_cases hreads : reads timeout select = true
    · rw [if_pos hreads] at hfailure
      rw [if_pos hreads, hfailure]
      rfl
    · rw [if_neg hreads] at hfailure
      cases hfailure

theorem Invariant.sound_iff (h : Invariant u) (call : Call) :
    Sound (u.after call) ↔ Careful u call := by
  cases hcall : call.failure with
  | none =>
    obtain ⟨hfailure, herr⟩ := err_ne_of_failure h hcall
    refine iff_of_true ⟨fun errno herrno => ?_, fun hreset => absurd hreset herr⟩
      fun errno herrno => ?_
    · rw [hfailure] at herrno
      cases herrno
    · rw [hcall] at herrno
      cases herrno
  | some errno =>
    obtain ⟨hfailure, herr, hflags, henabled⟩ := err_of_failure h hcall
    have hblocking : (u.after call).Blocking ↔ u.Blocking := by rw [Blocking, Blocking, hflags]
    have hcareful : Careful u call ↔ (errno.WouldBlock → u.Blocking) := by
      rw [Careful, hcall]
      simp
    rw [hcareful]
    constructor
    · intro hsound hwould
      rcases hsound.reset herr with hmode | ⟨errno', herrno', hother⟩
      · exact hblocking.1 hmode
      · rw [hfailure] at herrno'
        cases herrno'
        exact absurd hwould hother
    · intro hmode
      refine ⟨fun errno' herrno' hwould hfalse => ?_, fun _ => ?_⟩
      · rw [hfailure] at herrno'
        cases herrno'
        rw [henabled] at hfalse
        exact absurd (hmode hwould) (h.enabled hfalse)
      · by_cases hwould : errno.WouldBlock
        · exact Or.inl (hblocking.2 (hmode hwould))
        · exact Or.inr ⟨errno, hfailure, hwould⟩

/-- The reports of a stream are right just as long as nothing would block in non-blocking mode. -/
theorem sound_reports_iff {sd : Int} (hsd : 0 ≤ sd) (flags : BitVec 32) (calls : List Call) :
    Throughout step Sound { stream := ofSocket sd, flags } calls ↔
      Along step Careful { stream := ofSocket sd, flags } calls := by
  have hstep : ∀ u call, ∃ u', step u call = some u' := fun u call => ⟨_, rfl⟩
  obtain ⟨u, hrun⟩ := exists_execute_eq hstep { stream := ofSocket sd, flags } calls
  refine throughout_iff_along (I := Invariant) ?_ ?_ hrun (invariant_init hsd flags)
    (sound_init sd flags)
  · intro u call u' h hu'
    cases hu'
    exact h.after call
  · intro u call u' h hsound hu'
    cases hu'
    exact h.sound_iff call

theorem sound_reports_iff_blocking :
    let calls := [.setBlocking false true true, .send ⟨5, .other 0⟩, .setBlocking true true true,
      .receive 0 0 ⟨-1, .eagain⟩]
    (0 : Int) ≤ 4 ∧ (Throughout step Sound { stream := ofSocket 4, flags := 2 } calls ↔
      Along step Careful { stream := ofSocket 4, flags := 2 } calls) :=
  ⟨by decide, sound_reports_iff (by decide) 2 _⟩

/-- In non-blocking mode a stream with nothing to read is taken for one that has been reset. -/
theorem not_sound_reports_receive :
    ¬ Throughout step Sound { stream := ofSocket 4, flags := 2 }
      [.setBlocking false true true, .receive 0 0 ⟨-1, .eagain⟩] := by
  intro h
  have hsound := h _ _ List.prefix_rfl rfl
  have herr := hsound.wouldBlock .eagain rfl (Or.inl rfl) rfl
  cases herr

end Usage

end Wpi.TCPStream

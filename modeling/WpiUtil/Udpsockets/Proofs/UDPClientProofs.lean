import WpiUtil.Udpsockets.UDPClient

/-!
# What a `UDPClient` holds

A client that is started while it has an unbound socket, or one with descriptor 0, promises a socket
that is not bound or loses one that is open. There is no other way for that to happen.
-/

namespace Wpi

open Foundations

variable {sockets : List Socket} {fd : Int} {s : Socket}

/-! ## Sockets -/

namespace Socket

theorem mem_update {f : Socket → Socket} : s ∈ update sockets fd f ↔
    (s ∈ sockets ∧ ¬ (s.isOpen = true ∧ s.fd = fd)) ∨
      ∃ r ∈ sockets, (r.isOpen = true ∧ r.fd = fd) ∧ f r = s := by
  rw [update, List.mem_map]
  constructor
  · rintro ⟨r, hr, rfl⟩
    by_cases h : r.isOpen = true ∧ r.fd = fd
    · rw [if_pos h]
      exact Or.inr ⟨r, hr, h, rfl⟩
    · rw [if_neg h]
      exact Or.inl ⟨hr, h⟩
  · rintro (⟨hs, h⟩ | ⟨r, hr, h, rfl⟩)
    · exact ⟨s, hs, if_neg h⟩
    · exact ⟨r, hr, if_pos h⟩

/-- After `close` the open sockets are those with another descriptor. -/
theorem mem_close_iff (hs : s.isOpen = true) :
    s ∈ close sockets fd ↔ s ∈ sockets ∧ s.fd ≠ fd := by
  rw [close, mem_update]
  constructor
  · rintro (⟨hmem, h⟩ | ⟨r, -, -, rfl⟩)
    · exact ⟨hmem, fun hfd => h ⟨hs, hfd⟩⟩
    · cases hs
  · rintro ⟨hmem, h⟩
    exact Or.inl ⟨hmem, fun hopen => h hopen.2⟩

/-- `bind` on a socket that is new. -/
theorem bind_concat (h : ¬ InUse sockets fd) :
    bind (sockets ++ [{ fd := fd }]) fd 0 = sockets ++ [{ fd := fd, bound := true }] := by
  have hold : update sockets fd (fun s => { s with bound := true }) = sockets := by
    rw [update]
    conv_rhs => rw [← List.map_id sockets]
    refine List.map_congr_left fun s hs => ?_
    exact if_neg fun hopen => h ⟨s, hs, hopen⟩
  rw [bind, if_pos rfl, update, List.map_append, ← update, hold, List.map_singleton,
    if_pos ⟨rfl, rfl⟩]

theorem create_cases {sockets' : List Socket} (h : create sockets fd = some sockets') :
    (fd < 0 ∧ sockets' = sockets) ∨
      (0 ≤ fd ∧ ¬ InUse sockets fd ∧ sockets' = sockets ++ [{ fd := fd }]) := by
  rw [create] at h
  split at h
  · next hfd =>
    cases h
    exact Or.inl ⟨hfd, rfl⟩
  · next hfd =>
    split at h
    · cases h
    · next huse =>
      cases h
      exact Or.inr ⟨Int.not_lt.1 hfd, huse, rfl⟩

end Socket

/-! ## The two calls -/

namespace UDPClient

variable {c c' : UDPClient} {sockets' : List Socket} {o : Outcome} {result : Int}

/-- `start()` has nothing to do, it does not get a socket, or it has got one, which is bound if it
reports success. -/
theorem start_cases (h : c.start sockets o = some (result, c', sockets')) :
    (0 < c.lsd ∧ result = 0 ∧ c' = c ∧ sockets' = sockets) ∨
    (c.lsd ≤ 0 ∧ c'.lsd < 0 ∧ result ≠ 0 ∧ sockets' = sockets) ∨
    (c.lsd ≤ 0 ∧ 0 ≤ c'.lsd ∧ ¬ Socket.InUse sockets c'.lsd ∧
      ∃ bound, sockets' = sockets ++ [{ fd := c'.lsd, bound }] ∧ (result = 0 → bound = true)) := by
  rw [start] at h
  split at h
  · next hlsd =>
    cases h
    exact Or.inl ⟨hlsd, rfl, rfl, rfl⟩
  · next hlsd =>
    rw [gt_iff_lt, Int.not_lt] at hlsd
    refine Or.inr ?_
    split at h
    · cases h
    · next opened hcreate =>
      rcases Socket.create_cases hcreate with ⟨hfd, rfl⟩ | ⟨hfd, huse, rfl⟩
      · rw [if_pos hfd] at h
        cases h
        exact Or.inl ⟨hlsd, hfd, by decide, rfl⟩
      · rw [if_neg (Int.not_lt.2 hfd)] at h
        refine Or.inr ⟨hlsd, ?_⟩
        split at h
        · cases h
          exact ⟨hfd, huse, false, rfl, by decide⟩
        · split at h
          · next hbind =>
            cases h
            rw [Socket.bind, if_neg hbind]
            exact ⟨hfd, huse, false, rfl, fun hresult => absurd hresult hbind⟩
          · next hbind =>
            cases h
            rw [ne_eq, not_not] at hbind
            rw [hbind, Socket.bind_concat huse]
            exact ⟨hfd, huse, true, rfl, fun _ => rfl⟩

namespace Usage

variable {u u' : Usage}

/-- A descriptor that the client keeps is in use, and no other socket has it. -/
structure Invariant (u : Usage) : Prop where
  inUse : 0 < u.client.lsd → Socket.InUse u.sockets u.client.lsd
  nonneg : ∀ s ∈ u.sockets, s.isOpen = true → 0 ≤ s.fd
  unique : ∀ s ∈ u.sockets, ∀ r ∈ u.sockets, s.isOpen = true → r.isOpen = true → s.fd = r.fd → s = r

theorem invariant_init (address : List Byte) : Invariant { client := { address } } where
  inUse h := absurd h (Int.lt_irrefl 0)
  nonneg _ hs := absurd hs List.not_mem_nil
  unique _ hs := absurd hs List.not_mem_nil

theorem sound_init (address : List Byte) : Sound { client := { address } } where
  started h := by cases h
  released _ hs := absurd hs List.not_mem_nil

theorem step_start {o : Outcome} (hstep : u.step (.start o) = some u') : ∃ result,
    u.client.start u.sockets o = some (result, u'.client, u'.sockets) ∧
      u'.started = some result := by
  rw [step] at hstep
  split at hstep
  · cases hstep
  · next result client sockets hstart =>
    cases hstep
    exact ⟨result, hstart, rfl⟩

/-- `shutdown()` closes the socket with the descriptor that is kept, unless that is 0. -/
theorem step_shutdown (hstep : u.step .shutdown = some u') : u'.started = none ∧
    ((0 < u.client.lsd ∧ u'.client.lsd = 0 ∧ u'.sockets = Socket.close u.sockets u.client.lsd) ∨
      (u.client.lsd ≤ 0 ∧ u'.client = u.client ∧ u'.sockets = u.sockets)) := by
  by_cases hlsd : 0 < u.client.lsd
  · have hshutdown : u.client.shutdown u.sockets =
        ({ u.client with lsd := 0 }, Socket.close u.sockets u.client.lsd) := if_pos hlsd
    rw [step, hshutdown] at hstep
    cases hstep
    exact ⟨rfl, Or.inl ⟨hlsd, rfl, rfl⟩⟩
  · have hshutdown : u.client.shutdown u.sockets = (u.client, u.sockets) := if_neg hlsd
    rw [step, hshutdown] at hstep
    cases hstep
    exact ⟨rfl, Or.inr ⟨Int.not_lt.1 hlsd, rfl, rfl⟩⟩

namespace Invariant

/-- One more socket, with a descriptor that was not in use. -/
theorem concat (h : Invariant u) (hfd : 0 ≤ u'.client.lsd)
    (huse : ¬ Socket.InUse u.sockets u'.client.lsd) {bound : Bool}
    (hsockets : u'.sockets = u.sockets ++ [{ fd := u'.client.lsd, bound }]) : Invariant u' := by
  have hmem : ∀ s, s ∈ u'.sockets ↔ s ∈ u.sockets ∨ s = { fd := u'.client.lsd, bound } := by
    intro s
    rw [hsockets, List.mem_append, List.mem_singleton]
  refine ⟨fun _ => ⟨_, (hmem _).2 (Or.inr rfl), rfl, rfl⟩, fun s hs hopen => ?_,
    fun s hs r hr hsopen hropen heq => ?_⟩
  · rcases (hmem s).1 hs with hs | rfl
    · exact h.nonneg s hs hopen
    · exact hfd
  · rcases (hmem s).1 hs with hs | rfl
    · rcases (hmem r).1 hr with hr | rfl
      · exact h.unique s hs r hr hsopen hropen heq
      · exact absurd ⟨s, hs, hsopen, heq⟩ huse
    · rcases (hmem r).1 hr with hr | rfl
      · exact absurd ⟨r, hr, hropen, heq.symm⟩ huse
      · rfl

/-- Fewer open sockets, and no descriptor. -/
theorem mono (h : Invariant u) (hlsd : u'.client.lsd ≤ 0)
    (hsockets : ∀ s ∈ u'.sockets, s.isOpen = true → s ∈ u.sockets) : Invariant u' where
  inUse hpos := absurd hpos (Int.not_lt.2 hlsd)
  nonneg s hs hopen := h.nonneg s (hsockets s hs hopen) hopen
  unique s hs r hr hsopen hropen :=
    h.unique s (hsockets s hs hsopen) r (hsockets r hr hropen) hsopen hropen

theorem step (h : Invariant u) {call : Call} (hstep : u.step call = some u') : Invariant u' := by
  cases call with
  | start o =>
    obtain ⟨result, hstart, -⟩ := step_start hstep
    rcases start_cases hstart with ⟨-, -, hclient, hsockets⟩ | ⟨-, hlsd, -, hsockets⟩ |
      ⟨-, hfd, huse, bound, hsockets, -⟩
    · exact ⟨by rw [hclient, hsockets]; exact h.inUse, by rw [hsockets]; exact h.nonneg,
        by rw [hsockets]; exact h.unique⟩
    · exact h.mono (Int.le_of_lt hlsd) fun s hs _ => by rwa [hsockets] at hs
    · exact h.concat hfd huse hsockets
  | shutdown =>
    obtain ⟨-, ⟨-, hlsd, hsockets⟩ | ⟨hlsd, hclient, hsockets⟩⟩ := step_shutdown hstep
    · refine h.mono (Int.le_of_eq hlsd) fun s hs hopen => ?_
      rw [hsockets, Socket.mem_close_iff hopen] at hs
      exact hs.1
    · exact h.mono (by rwa [hclient]) fun s hs _ => by rwa [hsockets] at hs

/-- When no descriptor is kept, the only socket that may be open is one with descriptor 0. -/
theorem forall_iff_closed (hsound : Sound u) (hlsd : u.client.lsd ≤ 0) {P : Socket → Prop}
    (hP : ∀ s, P s → 0 < s.fd) :
    (∀ s ∈ u.sockets, s.isOpen = true → P s) ↔ ∀ s ∈ u.sockets, ¬ s.isOpen = true := by
  constructor
  · intro hpos s hs hopen
    have hfd := (hsound.released s hs hopen).2.2
    have hlt := hP s (hpos s hs hopen)
    omega
  · intro hclosed s hs hopen
    exact absurd hopen (hclosed s hs)

/-- A `start()` that has nothing to do. -/
theorem sound_started_iff (h : Invariant u) (hsound : Sound u) (hlsd : 0 < u.client.lsd)
    (hclient : u'.client = u.client) (hsockets : u'.sockets = u.sockets)
    (hstarted : u'.started = some 0) :
    Sound u' ↔ ∀ s ∈ u.sockets, s.isOpen = true → 0 < s.fd ∧ s.bound = true := by
  have hholds : ∀ s ∈ u.sockets, s.isOpen = true → u'.Holds s := by
    intro s hs hopen
    refine ⟨by rw [hstarted]; rfl, hopen, ?_⟩
    rw [hclient]
    exact (hsound.released s hs hopen).2.2
  constructor
  · intro hsound' s hs hopen
    obtain ⟨r, hr, ⟨-, hropen, hrfd⟩, hbound⟩ := hsound'.started hstarted
    rw [hsockets] at hr
    have hsfd := (hholds s hs hopen).2.2
    obtain rfl := h.unique s hs r hr hopen hropen (hsfd.trans hrfd.symm)
    exact ⟨by rw [hsfd, hclient]; exact hlsd, hbound⟩
  · intro hcareful
    refine ⟨fun _ => ?_, by rw [hsockets]; exact hholds⟩
    obtain ⟨s, hs, hopen, -⟩ := h.inUse hlsd
    exact ⟨s, by rwa [hsockets], hholds s hs hopen, (hcareful s hs hopen).2⟩

/-- A `start()` that does not get a socket. -/
theorem sound_failed_iff (h : Invariant u) (hlsd : u'.client.lsd < 0)
    (hsockets : u'.sockets = u.sockets) (hstarted : u'.started ≠ some 0) :
    Sound u' ↔ ∀ s ∈ u.sockets, ¬ s.isOpen = true := by
  constructor
  · intro hsound' s hs hopen
    have hfd := (hsound'.released s (by rwa [hsockets]) hopen).2.2
    have hnonneg := h.nonneg s hs hopen
    omega
  · intro hclosed
    refine ⟨fun hzero => absurd hzero hstarted, fun s hs hopen => ?_⟩
    rw [hsockets] at hs
    exact absurd hopen (hclosed s hs)

/-- A `start()` that gets a socket. -/
theorem sound_opened_iff (huse : ¬ Socket.InUse u.sockets u'.client.lsd) {bound : Bool}
    (hsockets : u'.sockets = u.sockets ++ [{ fd := u'.client.lsd, bound }]) {result : Int}
    (hstarted : u'.started = some result) (hbound : result = 0 → bound = true) :
    Sound u' ↔ ∀ s ∈ u.sockets, ¬ s.isOpen = true := by
  have hholds : u'.Holds { fd := u'.client.lsd, bound } := ⟨by rw [hstarted]; rfl, rfl, rfl⟩
  constructor
  · intro hsound' s hs hopen
    have hmem : s ∈ u'.sockets := by
      rw [hsockets]
      exact List.mem_append_left _ hs
    exact huse ⟨s, hs, hopen, (hsound'.released s hmem hopen).2.2⟩
  · intro hclosed
    refine ⟨fun hzero => ⟨_, ?_, hholds, ?_⟩, fun s hs hopen => ?_⟩
    · rw [hsockets]
      exact List.mem_append_right _ List.mem_cons_self
    · rw [hstarted, Option.some.injEq] at hzero
      exact hbound hzero
    · rw [hsockets, List.mem_append, List.mem_singleton] at hs
      rcases hs with hs | rfl
      · exact absurd hopen (hclosed s hs)
      · exact hholds

theorem sound_start_iff (h : Invariant u) (hsound : Sound u) {o : Outcome}
    (hstep : u.step (.start o) = some u') :
    Sound u' ↔ ∀ s ∈ u.sockets, s.isOpen = true → 0 < s.fd ∧ s.bound = true := by
  obtain ⟨result, hstart, hstarted⟩ := step_start hstep
  rcases start_cases hstart with ⟨hlsd, rfl, hclient, hsockets⟩ |
    ⟨hlsd, hfd, hresult, hsockets⟩ | ⟨hlsd, -, huse, bound, hsockets, hbound⟩
  · exact h.sound_started_iff hsound hlsd hclient hsockets hstarted
  · rw [forall_iff_closed hsound hlsd fun s hs => hs.1]
    exact h.sound_failed_iff hfd hsockets (by rw [hstarted]; simpa using hresult)
  · rw [forall_iff_closed hsound hlsd fun s hs => hs.1]
    exact sound_opened_iff huse hsockets hstarted hbound

theorem sound_shutdown_iff (hsound : Sound u) (hstep : u.step .shutdown = some u') :
    Sound u' ↔ ∀ s ∈ u.sockets, s.isOpen = true → 0 < s.fd := by
  obtain ⟨hstarted, ⟨hlsd, -, hsockets⟩ | ⟨hlsd, -, hsockets⟩⟩ := step_shutdown hstep
  · -- all that is open has the descriptor that is closed
    refine iff_of_true ⟨by simp [hstarted], fun s hs hopen => ?_⟩ fun s hs hopen => ?_
    · rw [hsockets, Socket.mem_close_iff hopen] at hs
      exact absurd (hsound.released s hs.1 hopen).2.2 hs.2
    · rw [(hsound.released s hs hopen).2.2]
      exact hlsd
  · rw [forall_iff_closed hsound hlsd fun s hs => hs]
    constructor
    · intro hsound' s hs hopen
      have hholds := (hsound'.released s (by rwa [hsockets]) hopen).1
      rw [hstarted] at hholds
      cases hholds
    · intro hclosed
      refine ⟨by simp [hstarted], fun s hs hopen => ?_⟩
      rw [hsockets] at hs
      exact absurd hopen (hclosed s hs)

theorem sound_iff (h : Invariant u) (hsound : Sound u) {call : Call}
    (hstep : u.step call = some u') : Sound u' ↔ Careful u call := by
  cases call with
  | start o => exact h.sound_start_iff hsound hstep
  | shutdown => exact sound_shutdown_iff hsound hstep

end Invariant

/-- A client keeps what `start()` promises, and loses no socket, just as long as it is used with care:
it is not started again while it has an unbound socket, and not called again once it has descriptor
0. -/
theorem sound_sockets_iff {address : List Byte} {calls : List Call}
    (hrun : execute step { client := { address } } calls = some u) :
    Throughout step Sound { client := { address } } calls ↔
      Along step Careful { client := { address } } calls :=
  throughout_iff_along (fun h hstep => h.step hstep)
    (fun h hsound hstep => h.sound_iff hsound hstep) hrun (invariant_init address)
    (sound_init address)

theorem sound_sockets_iff_restart :
    let calls := [.start ⟨3, 1, 0⟩, .start ⟨4, 1, 0⟩, .shutdown, .start ⟨3, 1, -1⟩, .shutdown]
    execute step { client := { address := bytes "127.0.0.1" } } calls =
        some { client := { address := bytes "127.0.0.1" }
               sockets := [⟨3, true, false⟩, ⟨3, false, false⟩] } ∧
      (Throughout step Sound { client := { address := bytes "127.0.0.1" } } calls ↔
        Along step Careful { client := { address := bytes "127.0.0.1" } } calls) := by
  intro calls
  have hrun : execute step { client := { address := bytes "127.0.0.1" } } calls =
      some { client := { address := bytes "127.0.0.1" }
             sockets := [⟨3, true, false⟩, ⟨3, false, false⟩] } := rfl
  exact ⟨hrun, sound_sockets_iff hrun⟩

/-- After a `bind` that has failed the next `start()` returns 0. -/
theorem not_sound_sockets_bind :
    ¬ Throughout step Sound { client := { address := [] } }
      [.start ⟨3, 1, -1⟩, .start ⟨4, 1, 0⟩] := by
  intro h
  have hsound := h _ _ List.prefix_rfl rfl
  obtain ⟨s, hs, -, hbound⟩ := hsound.started rfl
  rw [List.mem_singleton.1 hs] at hbound
  cases hbound

end Usage

end UDPClient

end Wpi

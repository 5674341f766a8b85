import WpiUtil.Llvm.Proofs.RawOstreamFormatProofs
import WpiUtil.Support.RawSocketOstream

/-!
# Proofs: `raw_socket_ostream`

What the peer is sent is what has been written, until a call of `send` fails. After that there are
gaps, but nothing is sent twice or out of order.
-/

namespace Wpi.RawSocketOstream

open Foundations RawOstream

variable {s s' : RawSocketOstream} {data : List Byte} {count : Nat}

theorem received_of_send (h : s.send data = (count, s')) :
    s'.received = s.received ++ data.take count ∧ s'.error = s.error := by
  rw [send] at h
  split at h
  · next hsd =>
    rw [TCPStream.send, if_pos hsd, Prod.mk.injEq] at h
    obtain ⟨rfl, rfl⟩ := h
    exact ⟨(List.append_nil _).symm, rfl⟩
  · simp only [Prod.mk.injEq] at h
    obtain ⟨rfl, rfl⟩ := h
    exact ⟨rfl, rfl⟩

/-- A front of the data is sent. -/
theorem writeImpl_front (s : RawSocketOstream) (data : List Byte) :
    ∃ front, front <+: data ∧ (s.writeImpl data).received = s.received ++ front := by
  fun_induction writeImpl s data with
  | case1 s => exact ⟨[], List.nil_prefix, (List.append_nil _).symm⟩
  | case2 s data hne s' hsend =>
    exact ⟨data.take 0, List.take_prefix 0 data, (received_of_send hsend).1⟩
  | case3 s data hne count s' hsend hcount ih =>
    obtain ⟨front, hfront, hreceived⟩ := ih
    refine ⟨data.take count ++ front, ?_, ?_⟩
    · have hwhole := (List.prefix_append_right_inj (data.take count)).2 hfront
      rwa [List.take_append_drop] at hwhole
    · rw [hreceived, (received_of_send hsend).1, List.append_assoc]

theorem writeImpl_taken (h : (s.writeImpl data).error = false) :
    (s.writeImpl data).received = s.received ++ data := by
  fun_induction writeImpl s data with
  | case1 s => exact (List.append_nil _).symm
  | case2 s data hne s' hsend => cases h
  | case3 s data hne count s' hsend hcount ih =>
    rw [ih h, (received_of_send hsend).1, List.append_assoc, List.take_append_drop]

theorem writeImpl_sticky (h : s.error = true) : (s.writeImpl data).error = true := by
  fun_induction writeImpl s data with
  | case1 s => exact h
  | case2 s data hne s' hsend => rfl
  | case3 s data hne count s' hsend hcount ih => exact ih ((received_of_send hsend).2.trans h)

theorem faithful_received :
    Faithful (push (σ := RawSocketOstream)) received (· ++ ·) error where
  taken _ _ h := writeImpl_taken h
  sticky _ _ h := writeImpl_sticky h
  act_nil := List.append_nil
  act_append x piece piece' := (List.append_assoc x piece piece').symm

/-! ## Runs -/

variable {os os' : RawOstream RawSocketOstream} {text text' : List Byte}

/-- What the peer has been sent and what is held back come from `text`, in order. -/
structure Sends (os : RawOstream RawSocketOstream) (text : List Byte) : Prop where
  valid : os.Valid
  sublist : (os.sub.received ++ os.held).Sublist text

/-- Without an error they are all of `text`. -/
def NoLoss (os : RawOstream RawSocketOstream) (text : List Byte) : Prop :=
  os.sub.error = false → os.sub.received ++ os.held = text

theorem Sends.passedOn (h : Sends os text) (hpassed : os.PassedOn text' os') :
    Sends os' (text ++ text') :=
  ⟨hpassed.valid, (hpassed.passes.out_sublist fun s piece => writeImpl_front s piece).trans
    (h.sublist.append (List.Sublist.refl text'))⟩

theorem NoLoss.passedOn (h : NoLoss os text) (hpassed : os.PassedOn text' os') :
    NoLoss os' (text ++ text') := by
  intro hok
  have hok' : os.sub.error = false := by
    obtain ⟨pieces, -, heq, -⟩ := hpassed.passes
    rw [heq] at hok
    exact faithful_received.not_failed hok
  rw [faithful_received.out_append hpassed.passes hok, h hok']

/-- Closing sends what is held back. -/
theorem close_spec (h : Sends os text) :
    ∃ os', close os = some os' ∧ Sends os' text ∧ (NoLoss os text → NoLoss os' text) ∧
      (os.held = [] → os'.held = []) := by
  rw [close]
  split
  · next hclose =>
    obtain ⟨t, ht, hwrote, hheld⟩ := flush_spec h.valid
    have hsends := h.passedOn hwrote.toPassedOn
    rw [List.append_nil] at hsends
    refine ⟨{ t with sub := t.sub.closeStream }, ?_, ⟨⟨hsends.valid.unbuffered, hsends.valid.buffered⟩,
      hsends.sublist⟩, fun hno => ?_, fun _ => hheld⟩
    · rw [ht, Option.map_some]
    · have hno' := hno.passedOn hwrote.toPassedOn
      rw [List.append_nil] at hno'
      exact hno'
  · next hclose => exact ⟨os, rfl, h, id, id⟩

theorem perform_spec {c : SocketCall} (hc : c.Allowed) (h : Sends os text) :
    ∃ os', c.perform os = some os' ∧ Sends os' (text ++ c.text) ∧
      (c ≠ .clearError → NoLoss os text → NoLoss os' (text ++ c.text)) := by
  cases c with
  | call c =>
    obtain ⟨os', hos', hpassed, -⟩ := RawOstream.perform_spec hc h.valid
    exact ⟨os', hos', h.passedOn hpassed, fun _ hno => hno.passedOn hpassed⟩
  | close =>
    obtain ⟨os', hos', hsends, hno, -⟩ := close_spec h
    rw [SocketCall.text, List.append_nil]
    exact ⟨os', hos', hsends, fun _ => hno⟩
  | clearError =>
    rw [SocketCall.text, List.append_nil]
    exact ⟨clearError os, rfl, ⟨⟨h.valid.unbuffered, h.valid.buffered⟩, h.sublist⟩,
      fun hne => absurd rfl hne⟩

theorem execute_spec {calls : List SocketCall} (hcalls : ∀ c ∈ calls, c.Allowed) (h : Sends os text) :
    ∃ os', execute (fun os c => SocketCall.perform c os) os calls = some os' ∧
      Sends os' (text ++ calls.flatMap SocketCall.text) ∧
      (.clearError ∉ calls → NoLoss os text → NoLoss os' (text ++ calls.flatMap SocketCall.text)) := by
  induction calls generalizing os text with
  | nil =>
    rw [List.flatMap_nil, List.append_nil]
    exact ⟨os, rfl, h, fun _ => id⟩
  | cons c calls ih =>
    rw [List.forall_mem_cons] at hcalls
    obtain ⟨t, ht, hsends, hno⟩ := perform_spec hcalls.1 h
    obtain ⟨os', hos', hsends', hno'⟩ := ih hcalls.2 hsends
    rw [List.flatMap_cons, ← List.append_assoc]
    refine ⟨os', ?_, hsends', fun hclear hloss => ?_⟩
    · rw [execute, ht, Option.bind_some, hos']
    · rw [List.mem_cons, not_or] at hclear
      exact hno' hclear.2 (hno (Ne.symm hclear.1) hloss)

/-- The destructor leaves nothing in the buffer. -/
theorem destroy_spec (h : Sends os text) :
    ∃ os', destroy os = some os' ∧ os'.held = [] ∧ Sends os' text ∧
      (NoLoss os text → NoLoss os' text) := by
  obtain ⟨t, ht, hwrote, hheld⟩ := flush_spec h.valid
  have hsends := h.passedOn hwrote.toPassedOn
  have hno (hloss : NoLoss os text) := hloss.passedOn hwrote.toPassedOn
  rw [List.append_nil] at hsends hno
  rw [destroy, ht, Option.bind_some]
  split
  · obtain ⟨os', hos', hsends', hno', hheld'⟩ := close_spec hsends
    exact ⟨os', hos', hheld' hheld, hsends', fun hloss => hno' (hno hloss)⟩
  · exact ⟨t, rfl, hheld, hsends, hno⟩

/-- From the constructor to the destructor, with every outcome of the calls of `::send`: what the peer
is sent is a part of what is written, in order, and all of it if there has been no error. -/
theorem sent_text (stream : TCPStream) (shouldClose : Bool) (outcomes : List SendOutcome)
    (bufsiz : UInt32) (calls : List SocketCall) (h : ∀ c ∈ calls, c.Allowed) :
    ∃ os os', execute (fun os c => SocketCall.perform c os)
        (RawOstream.new (ofStream stream shouldClose outcomes bufsiz) false) calls = some os ∧
      destroy os = some os' ∧ os'.held = [] ∧
      os'.sub.received.Sublist (calls.flatMap SocketCall.text) ∧
      (.clearError ∉ calls →
        (os.sub.error = false → os.sub.received ++ os.held = calls.flatMap SocketCall.text) ∧
        (os'.sub.error = false → os'.sub.received = calls.flatMap SocketCall.text)) := by
  have hnew : Sends (RawOstream.new (ofStream stream shouldClose outcomes bufsiz) false) [] :=
    ⟨valid_new _ _, List.Sublist.refl _⟩
  obtain ⟨os, hos, hsends, hno⟩ := execute_spec h hnew
  obtain ⟨os', hos', hheld, hsends', hno'⟩ := destroy_spec hsends
  have hsublist := hsends'.sublist
  rw [hheld, List.append_nil, List.nil_append] at hsublist
  refine ⟨os, os', hos, hos', hheld, hsublist, fun hclear => ?_⟩
  have hloss := hno hclear fun _ => rfl
  have hloss' := hno' hloss
  rw [List.nil_append] at hloss hloss'
  refine ⟨hloss, fun hok => ?_⟩
  rw [← hloss' hok, hheld, List.append_nil]

/-- A connection in non-blocking mode that is busy for a moment. -/
theorem sent_text_busy :
    ∃ os os', execute (fun os c => SocketCall.perform c os)
        (RawOstream.new (ofStream ⟨3, false⟩ true [.takes 2, .fails .eagain] 4) false)
        [.call (.string (bytes "GET /")), .call (.string (bytes " HTTP/1.1")), .close] = some os ∧
      destroy os = some os' ∧ os'.held = [] ∧
      os'.sub.received.Sublist (bytes "GET / HTTP/1.1") := by
  obtain ⟨os, os', hos, hos', hheld, hsublist, -⟩ :=
    sent_text ⟨3, false⟩ true [.takes 2, .fails .eagain] 4
      [.call (.string (bytes "GET /")), .call (.string (bytes " HTTP/1.1")), .close]
      (by simp [SocketCall.Allowed, Call.Allowed])
  exact ⟨os, os', hos, hos', hheld, hsublist⟩

end Wpi.RawSocketOstream

import WpiUtil.Llvm.RawOstreamCalls

/-!
# Proofs: the buffer of `raw_ostream`

Every call keeps the buffer in one of its three states and passes on what has been written, in order
and in pieces that are not empty.
-/

namespace Wpi.RawOstream

open Foundations

variable {σ : Type} {os os' : RawOstream σ} {data : List Byte}

theorem held_of_none (h : os.outBuf = none) : os.held = [] := by rw [held, h, Option.elim_none]

theorem held_of_some {b : OutBuf} (h : os.outBuf = some b) : os.held = b.bytes := by
  rw [held, h, Option.elim_some]

theorem size_of_some {b : OutBuf} (h : os.outBuf = some b) : os.size = b.size := by
  rw [size, h, Option.elim_some]

theorem room_of_none (h : os.outBuf = none) : os.room = 0 := by
  rw [room, size, h, Option.elim_none, Nat.zero_sub]

theorem Valid.size_ne_zero (hos : os.Valid) (h : os.outBuf ≠ none) : os.size ≠ 0 := by
  obtain ⟨b, hb⟩ := Option.ne_none_iff_exists'.1 h
  rw [size_of_some hb]
  exact (hos.buffered b hb).1

theorem Valid.room_lt (hos : os.Valid) : os.room < 2 ^ 32 := by
  cases h : os.outBuf with
  | none =>
    rw [room_of_none h]
    decide
  | some b =>
    rw [room, size_of_some h]
    exact Nat.lt_of_le_of_lt (Nat.sub_le _ _) (hos.buffered b h).2.1

theorem valid_new (sub : σ) (unbuffered : Bool) : (new sub unbuffered).Valid :=
  ⟨fun _ => rfl, fun _ hb => nomatch hb⟩

theorem valid_emptied (hos : os.Valid) : os.emptied.Valid := by
  constructor
  · intro hmode
    rw [emptied, hos.unbuffered hmode, Option.map_none]
  · intro b hb
    obtain ⟨b', hb', rfl⟩ := Option.map_eq_some_iff.1 hb
    exact ⟨(hos.buffered b' hb').1, (hos.buffered b' hb').2.1, Nat.zero_le _⟩

/-- A size that goes with the mode of the buffer. -/
def Suits (size : Option Nat) (mode : BufferKind) : Prop :=
  (mode = .unbuffered ∧ size = none) ∨
    (mode ≠ .unbuffered ∧ ∃ n, n ≠ 0 ∧ n < 2 ^ 32 ∧ size = some n)

/-- A new buffer, or none, when the old one is empty. -/
theorem setBufferAndMode_spec (hheld : os.held = []) {size : Option Nat} {mode : BufferKind}
    (h : Suits size mode) :
    ∃ os', os.setBufferAndMode size mode = some os' ∧ os'.Valid ∧ os'.held = [] ∧
      os'.sub = os.sub ∧ (os'.bufferMode = .unbuffered ∨ os'.outBuf ≠ none) := by
  have hcond : ((mode = .unbuffered ∧ size = none) ∨
      (mode ≠ .unbuffered ∧ size ≠ none ∧ size ≠ some 0)) ∧ os.getNumBytesInBuffer = 0 := by
    refine ⟨h.imp_right ?_, by rw [getNumBytesInBuffer, hheld, List.length_nil]⟩
    rintro ⟨hmode, n, hn, -, rfl⟩
    exact ⟨hmode, Option.some_ne_none n, fun hzero => hn (Option.some.inj hzero)⟩
  refine ⟨_, if_pos hcond, ?_⟩
  rcases h with ⟨rfl, rfl⟩ | ⟨hmode, n, hn, hlt, rfl⟩
  · refine ⟨⟨fun _ => rfl, fun b hb => ?_⟩, rfl, rfl, Or.inl rfl⟩
    cases hb
  · refine ⟨⟨fun hun => absurd hun hmode, fun b hb => ?_⟩, rfl, rfl, Or.inr (Option.some_ne_none _)⟩
    cases hb
    exact ⟨hn, hlt, Nat.zero_le n⟩

theorem copyToBuffer_spec [RawOstreamImpl σ] (hos : os.Valid) (h : data.length ≤ os.room) :
    ∃ os', os.copyToBuffer data = some os' ∧ os.Wrote data os' ∧ os'.outBuf = os.outBuf.map fun b =>
      { b with bytes := b.bytes ++ data } := by
  refine ⟨_, if_pos h, ⟨⟨⟨?_, ?_⟩, ?_⟩, fun _ => id⟩, rfl⟩
  · intro hmode
    change os.outBuf.map _ = none
    rw [hos.unbuffered hmode, Option.map_none]
  · intro b hb
    obtain ⟨b', hb', rfl⟩ := Option.map_eq_some_iff.1 hb
    have hbuffered := hos.buffered b' hb'
    rw [room, size_of_some hb', held_of_some hb'] at h
    refine ⟨hbuffered.1, hbuffered.2.1, ?_⟩
    change (b'.bytes ++ data).length ≤ b'.size
    rw [List.length_append]
    omega
  · cases hb : os.outBuf with
    | none =>
      rw [room_of_none hb, Nat.le_zero_eq, List.length_eq_zero_iff] at h
      rw [h, held_of_none hb]
      exact Passes.refl
    | some b =>
      rw [held_of_some hb]
      exact Passes.hold

theorem held_copyToBuffer_ne_nil (hne : os.held ≠ []) (h : os.copyToBuffer data = some os') :
    os'.held ≠ [] := by
  rw [copyToBuffer] at h
  split at h
  · cases h
    cases hb : os.outBuf with
    | none => exact absurd (held_of_none hb) hne
    | some b =>
      rw [held_of_some hb] at hne
      simp [held, hne]
  · cases h

variable [RawOstreamImpl σ]

/-- What is passed on when nothing is held back. -/
theorem passOn_spec (hos : os.Valid) (hheld : os.held = []) (data : List Byte) :
    ∃ os', os.passOn data = some os' ∧ os'.Valid ∧ os'.held = [] ∧ os'.sub = push os.sub data ∧
      (os.outBuf ≠ none → os'.outBuf ≠ none) ∧
      ((RawOstreamImpl.writeImpl os.sub data).2 = none → os'.bufferMode = os.bufferMode) := by
  rw [passOn, push]
  rcases RawOstreamImpl.writeImpl os.sub data with ⟨sub, _ | size⟩
  · exact ⟨_, rfl, ⟨hos.unbuffered, hos.buffered⟩, hheld, rfl, id, fun _ => rfl⟩
  · have hmode : BufferKind.externalBuffer ≠ .unbuffered := BufferKind.noConfusion
    have hnil : held { os with sub } = [] := hheld
    have hne : size.1.toNat ≠ 0 := fun hzero => size.2 (UInt32.toNat_inj.1 hzero)
    obtain ⟨os', heq, hvalid, hheld', hsub, hbuf⟩ :=
      setBufferAndMode_spec hnil (Or.inr ⟨hmode, _, hne, size.1.toNat_lt, rfl⟩)
    obtain ⟨rfl, -, -⟩ := of_setBufferAndMode heq
    exact ⟨_, heq, hvalid, hheld', hsub, fun _ => Option.some_ne_none _, fun hnone => by cases hnone⟩

theorem flushNonempty_spec (hos : os.Valid) (hne : os.held ≠ []) :
    ∃ os', os.flushNonempty = some os' ∧ os.Wrote [] os' ∧ os'.held = [] ∧ os'.outBuf ≠ none := by
  obtain ⟨os', heq, hvalid, hheld, hsub, hbuf, hmode⟩ :=
    passOn_spec (valid_emptied hos) os.held_emptied os.held
  refine ⟨os', ?_, ⟨⟨hvalid, ?_⟩, fun hquiet hun => (hmode (hquiet _ _)).trans hun⟩, hheld, hbuf ?_⟩
  · rw [flushNonempty, if_pos hne, heq]
  · rw [hsub, hheld]
    exact Passes.piece hne rfl
  · intro hnone
    rw [emptied, Option.map_eq_none_iff] at hnone
    exact hne (held_of_none hnone)

theorem flush_spec (hos : os.Valid) :
    ∃ os', os.flush = some os' ∧ os.Wrote [] os' ∧ os'.held = [] := by
  rw [flush]
  split
  · next hne =>
    obtain ⟨os', heq, hwrote, hheld, -⟩ := flushNonempty_spec hos hne
    exact ⟨os', heq, hwrote, hheld⟩
  · next heq =>
    rw [not_not] at heq
    exact ⟨os, rfl, ⟨⟨hos, Passes.refl⟩, fun _ => id⟩, heq⟩

theorem PassedOn.trans {text text' : List Byte} {os'' : RawOstream σ} (h : os.PassedOn text os')
    (h' : os'.PassedOn text' os'') : os.PassedOn (text ++ text') os'' :=
  ⟨h'.valid, h.passes.trans h'.passes⟩

theorem Wrote.trans {text text' : List Byte} {os'' : RawOstream σ} (h : os.Wrote text os')
    (h' : os'.Wrote text' os'') : os.Wrote (text ++ text') os'' :=
  ⟨h.toPassedOn.trans h'.toPassedOn, fun hquiet hun => h'.stays hquiet (h.stays hquiet hun)⟩

/-- A buffer that had yet to be set up has been set up before. -/
theorem PassedOn.wrote {text : List Byte} {os'' : RawOstream σ} (h : os.PassedOn [] os')
    (hmode : os.bufferMode ≠ .unbuffered) (h' : os'.Wrote text os'') : os.Wrote text os'' :=
  ⟨h.trans h'.toPassedOn, fun _ hun => absurd hun hmode⟩

/-- Setting up the buffer anew writes what is in it. -/
theorem setBuffer_spec (hos : os.Valid) {size : Option Nat} {mode : BufferKind}
    (h : Suits size mode) :
    ∃ os', (os.flush.bind fun os => os.setBufferAndMode size mode) = some os' ∧ os.PassedOn [] os' ∧
      os'.held = [] ∧ (os'.bufferMode = .unbuffered ∨ os'.outBuf ≠ none) := by
  obtain ⟨t, ht, hwrote, hheld⟩ := flush_spec hos
  obtain ⟨os', heq, hvalid, hheld', hsub, hbuf⟩ := setBufferAndMode_spec hheld h
  refine ⟨os', ?_, ⟨hvalid, ?_⟩, hheld', hbuf⟩
  · rw [ht, Option.bind_some, heq]
  · rw [hsub, hheld']
    exact hheld ▸ hwrote.passes

theorem setBufferSize_spec (hos : os.Valid) {size : Nat} (hsize : size ≠ 0)
    (hlt : size < 2 ^ 32) :
    ∃ os', os.setBufferSize size = some os' ∧ os.PassedOn [] os' ∧ os'.held = [] ∧
      (os'.bufferMode = .unbuffered ∨ os'.outBuf ≠ none) :=
  setBuffer_spec hos (Or.inr ⟨BufferKind.noConfusion, size, hsize, hlt, rfl⟩)

theorem setUnbuffered_spec (hos : os.Valid) :
    ∃ os', os.setUnbuffered = some os' ∧ os.PassedOn [] os' ∧ os'.held = [] ∧
      (os'.bufferMode = .unbuffered ∨ os'.outBuf ≠ none) :=
  setBuffer_spec hos (Or.inl ⟨rfl, rfl⟩)

theorem setBuffered_spec (hos : os.Valid) :
    ∃ os', os.setBuffered = some os' ∧ os.PassedOn [] os' ∧ os'.held = [] ∧
      (os'.bufferMode = .unbuffered ∨ os'.outBuf ≠ none) := by
  simp only [setBuffered]
  split
  · next hsize => exact setBufferSize_spec hos hsize (UInt32.toNat_lt _)
  · exact setUnbuffered_spec hos

/-! ## `write` -/

/-- A piece that goes past the buffer. -/
theorem passOn_wrote (hos : os.Valid) (hnone : os.outBuf = none) (hne : data ≠ []) :
    ∃ os', os.passOn data = some os' ∧ os.Wrote data os' := by
  obtain ⟨os', heq, hvalid, hheld, hsub, -, hmode⟩ := passOn_spec hos (held_of_none hnone) data
  refine ⟨os', heq, ⟨hvalid, ?_⟩, fun hquiet hun => (hmode (hquiet _ _)).trans hun⟩
  rw [hsub, hheld, held_of_none hnone]
  exact Passes.piece hne (List.append_nil _).symm

theorem writeChar_spec (hos : os.Valid) (c : Byte) :
    ∃ os', os.writeChar c = some os' ∧ os.Wrote [c] os' := by
  fun_induction writeChar os c with
  | case1 os hfull hnone hmode => exact passOn_wrote hos hnone (List.cons_ne_nil c [])
  | case2 os hfull hnone hmode hset =>
    obtain ⟨os', heq, -⟩ := setBuffered_spec hos
    rw [hset] at heq
    cases heq
  | case3 os hfull hnone hmode t hset ih =>
    obtain ⟨t', heq, hwrote, -⟩ := setBuffered_spec hos
    rw [hset] at heq
    cases heq
    obtain ⟨os', hos', hwrote'⟩ := ih hwrote.valid
    exact ⟨os', hos', hwrote.wrote hmode hwrote'⟩
  | case4 os hfull hbuf =>
    have hne : os.held ≠ [] := by
      intro hnil
      rw [hnil, List.length_nil, Nat.le_zero] at hfull
      exact hos.size_ne_zero hbuf hfull
    obtain ⟨t, ht, hwrote, hheld, hbuf'⟩ := flushNonempty_spec hos hne
    have hroom : [c].length ≤ t.room := by
      rw [room, hheld]
      exact Nat.pos_of_ne_zero (hwrote.valid.size_ne_zero hbuf')
    obtain ⟨os', hos', hwrote', -⟩ := copyToBuffer_spec hwrote.valid hroom
    exact ⟨os', by rw [ht, Option.bind_some, hos'], hwrote.trans hwrote'⟩
  | case5 os hfull =>
    have hroom : [c].length ≤ os.room := by
      rw [room, List.length_singleton]
      omega
    obtain ⟨os', hos', hwrote, -⟩ := copyToBuffer_spec hos hroom
    exact ⟨os', hos', hwrote⟩

/-- With nothing held back, a front of the data goes past the buffer. -/
theorem passOn_front (hos : os.Valid) (hheld : os.held = []) {n : Nat} (hn : 0 < n)
    (hlt : n ≤ data.length) (h : os.passOn (data.take n) = some os') :
    os.Wrote (data.take n) os' ∧ os'.held = [] := by
  obtain ⟨t, ht, hvalid, hnil, hsub, -, hmode⟩ := passOn_spec hos hheld (data.take n)
  rw [h] at ht
  cases ht
  have hne : data.take n ≠ [] := by
    rw [← List.length_pos_iff, List.length_take]
    omega
  refine ⟨⟨⟨hvalid, ?_⟩, fun hquiet hun => (hmode (hquiet _ _)).trans hun⟩, hnil⟩
  rw [hsub, hnil, hheld]
  exact Passes.piece hne (List.append_nil _).symm

/-- The rest of the data is written after its front. -/
theorem Wrote.append_drop {t : RawOstream σ} {n : Nat} (h : os.Wrote (data.take n) t)
    (h' : t.Wrote (data.drop n) os') : os.Wrote data os' := by
  rw [← List.take_append_drop n data]
  exact h.trans h'

theorem write_spec (hos : os.Valid) (data : List Byte) :
    ∃ os', os.write data = some os' ∧ os.Wrote data os' := by
  fun_induction write os data with
  | case1 os data hroom hnone hmode =>
    refine passOn_wrote hos hnone ?_
    rintro rfl
    exact Nat.not_lt_zero _ hroom
  | case2 os data hroom hnone hmode hset =>
    obtain ⟨os', heq, -⟩ := setBuffered_spec hos
    rw [hset] at heq
    cases heq
  | case3 os data hroom hnone hmode t hset ih =>
    obtain ⟨t', heq, hwrote, -⟩ := setBuffered_spec hos
    rw [hset] at heq
    cases heq
    obtain ⟨os', hos', hwrote'⟩ := ih hwrote.valid
    exact ⟨os', hos', hwrote.wrote hmode hwrote'⟩
  | case4 os data hroom hbuf numBytes hheld hzero =>
    refine absurd hzero ?_
    change os.room ≠ 0
    rw [room, hheld]
    exact hos.size_ne_zero hbuf
  | case5 os data hroom hbuf numBytes hheld hpos bytesToWrite hpass =>
    obtain ⟨t, ht, -⟩ := passOn_spec hos hheld (data.take bytesToWrite)
    rw [hpass] at ht
    cases ht
  | case6 os data hroom hbuf numBytes hheld hpos bytesToWrite t hpass hrest ih =>
    have hmod : data.length % numBytes < numBytes := Nat.mod_lt _ (Nat.pos_of_ne_zero hpos)
    have hlt : numBytes < data.length := hroom
    obtain ⟨hwrote, -⟩ := passOn_front hos hheld (by omega) (Nat.sub_le _ _) hpass
    obtain ⟨os', hos', hwrote'⟩ := ih hwrote.valid
    exact ⟨os', hos', hwrote.append_drop hwrote'⟩
  | case7 os data hroom hbuf numBytes hheld hpos bytesToWrite t hpass hrest =>
    have hmod : data.length % numBytes < numBytes := Nat.mod_lt _ (Nat.pos_of_ne_zero hpos)
    have hlt : numBytes < data.length := hroom
    obtain ⟨hwrote, -⟩ := passOn_front hos hheld (by omega) (Nat.sub_le _ _) hpass
    have hfits : (data.drop bytesToWrite).length ≤ t.room := by
      rw [List.length_drop]
      exact Nat.not_lt.1 hrest
    obtain ⟨os', hos', hwrote', -⟩ := copyToBuffer_spec hwrote.valid hfits
    exact ⟨os', hos', hwrote.append_drop hwrote'⟩
  | case8 os data hroom hbuf numBytes hheld hcopy =>
    obtain ⟨t, ht, -⟩ := copyToBuffer_spec hos (List.length_take_le numBytes data)
    rw [hcopy] at ht
    cases ht
  | case9 os data hroom hbuf numBytes hheld t hcopy hflush =>
    obtain ⟨t', ht, hwrote, hbuf'⟩ := copyToBuffer_spec hos (List.length_take_le numBytes data)
    rw [hcopy] at ht
    cases ht
    obtain ⟨u, hu, -⟩ := flushNonempty_spec hwrote.valid (held_copyToBuffer_ne_nil hheld hcopy)
    rw [hflush] at hu
    cases hu
  | case10 os data hroom hbuf numBytes hheld t hcopy u hflush ih =>
    obtain ⟨t', ht, hwrote, -⟩ := copyToBuffer_spec hos (List.length_take_le numBytes data)
    rw [hcopy] at ht
    cases ht
    obtain ⟨u', hu, hwrote', -⟩ :=
      flushNonempty_spec hwrote.valid (held_copyToBuffer_ne_nil hheld hcopy)
    rw [hflush] at hu
    cases hu
    obtain ⟨os', hos', hwrote''⟩ := ih hwrote'.valid
    refine ⟨os', hos', Wrote.append_drop ?_ hwrote''⟩
    rw [← List.append_nil (data.take numBytes)]
    exact hwrote.trans hwrote'
  | case11 os data hroom =>
    obtain ⟨os', hos', hwrote, -⟩ := copyToBuffer_spec hos (Nat.not_lt.1 hroom)
    exact ⟨os', hos', hwrote⟩

/-! ## The writing functions as a whole -/

theorem Writes.bind {f g : RawOstream σ → Option (RawOstream σ)} {text text' : List Byte}
    (hf : Writes f text) (hg : Writes g text') :
    Writes (fun os => (f os).bind g) (text ++ text') := by
  intro os hos
  obtain ⟨t, ht, hwrote⟩ := hf os hos
  obtain ⟨os', hos', hwrote'⟩ := hg t hwrote.valid
  exact ⟨os', Option.bind_eq_some_iff.2 ⟨t, ht, hos'⟩, hwrote.trans hwrote'⟩

theorem writes_some : Writes (some : RawOstream σ → Option (RawOstream σ)) [] :=
  fun os hos => ⟨os, rfl, ⟨hos, Passes.refl⟩, fun _ => id⟩

theorem writes_write (data : List Byte) : Writes (σ := σ) (write · data) data :=
  fun _ hos => write_spec hos data

theorem writes_putChar (c : Byte) : Writes (σ := σ) (putChar · c) [c] := by
  intro os hos
  simp only [putChar]
  split
  · exact writeChar_spec hos c
  · next hroom =>
    have hfits : [c].length ≤ os.room := by
      rw [room, List.length_singleton]
      omega
    obtain ⟨os', hos', hwrote, -⟩ := copyToBuffer_spec hos hfits
    exact ⟨os', hos', hwrote⟩

theorem writes_put (str : List Byte) : Writes (σ := σ) (put · str) str := by
  intro os hos
  simp only [put]
  split
  · exact write_spec hos str
  · next hroom =>
    split
    · obtain ⟨os', hos', hwrote, -⟩ := copyToBuffer_spec hos (Nat.not_lt.1 hroom)
      exact ⟨os', hos', hwrote⟩
    · next hzero =>
      rw [not_not, List.length_eq_zero_iff] at hzero
      rw [hzero]
      exact writes_some os hos

end Wpi.RawOstream

import WpiUtil.Llvm.Proofs.RawOstreamFormatProofs
import WpiUtil.Llvm.RawFdOstream

/-!
# Proofs: streams that can write over what they have written

Short writes and interruptions do not show in the file, and a buffered stream over a file and an
unbuffered one over a vector hold the same bytes after the same calls.
-/

namespace Wpi

open Foundations

/-! ## Files -/

namespace File

variable {file : File} {data data' : List Byte}

@[simp] theorem write_nil (file : File) : file.write [] = file := by rw [write, if_pos rfl]

theorem offset_write (file : File) (data : List Byte) :
    (file.write data).offset = file.offset + data.length := by
  rw [write]
  split
  · next hnil => rw [hnil, List.length_nil, Nat.add_zero]
  · rfl

/-- Two writes are as good as one. -/
theorem write_append (file : File) (data data' : List Byte) :
    file.write (data ++ data') = (file.write data).write data' := by
  by_cases hnil : data = []
  · rw [hnil, List.nil_append, write_nil]
  by_cases hnil' : data' = []
  · rw [hnil', List.append_nil, write_nil]
  have hne : data ++ data' ≠ [] := List.append_ne_nil_of_left_ne_nil hnil _
  rw [write, if_neg hne, write, if_neg hnil', write, if_neg hnil, mk.injEq]
  -- what comes before the position, with the zeros
  generalize hfront : file.content.take file.offset ++
    List.replicate (file.offset - file.content.length) 0 = front
  have hlength : front.length = file.offset := by
    rw [← hfront, List.length_append, List.length_take, List.length_replicate]
    omega
  have hend : (front ++ data).length = file.offset + data.length := by
    rw [List.length_append, hlength]
  have hle : file.offset + data.length ≤
      (front ++ data ++ file.content.drop (file.offset + data.length)).length := by
    rw [List.length_append, hend]
    omega
  refine ⟨?_, by rw [List.length_append, Nat.add_assoc]⟩
  have hrest : (front ++ data ++ file.content.drop (file.offset + data.length)).drop
      (file.offset + data.length + data'.length) =
      file.content.drop (file.offset + (data ++ data').length) := by
    rw [← List.drop_drop, List.drop_left' hend, List.drop_drop, List.length_append, Nat.add_assoc]
  simp only
  rw [hrest, List.take_left' hend, Nat.sub_eq_zero_of_le hle, List.replicate_zero, List.append_nil,
    List.append_assoc front data data']

/-- A write at the end. -/
theorem content_write_of_end (h : file.offset = file.content.length) (data : List Byte) :
    (file.write data).content = file.content ++ data := by
  rw [write]
  split
  · next hnil => rw [hnil, List.append_nil]
  · simp [h]

/-- A write over what is there. -/
theorem content_write_of_le (h : file.offset + data.length ≤ file.content.length) :
    (file.write data).content =
      file.content.take file.offset ++ data ++ file.content.drop (file.offset + data.length) := by
  rw [write]
  split
  · next hnil => simp [hnil]
  · have hzero : file.offset - file.content.length = 0 := by omega
    simp [hzero]

end File

/-! ## Positions -/

theorem toNat_position {n : Nat} (h : n < 2 ^ 64 - 1) : (UInt64.ofNat n).toNat = n := by
  have hlt : n < 2 ^ 64 := by omega
  exact UInt64.toNat_ofNat_of_lt' hlt

/-- No position is the one that `::lseek` returns when it fails. -/
theorem position_ne {off : UInt64} (h : off.toNat < 2 ^ 64 - 1) : off ≠ -1 := by
  rintro rfl
  exact absurd h (by decide)

/-- The assertion of `pwrite` holds. -/
theorem within_position {n size : Nat} {offset : UInt64} (hn : n < 2 ^ 64 - 1)
    (hle : offset.toNat + size ≤ n) :
    ¬(UInt64.ofNat n ≠ 0 ∧ UInt64.ofNat n < UInt64.ofNat size + offset) := by
  rintro ⟨-, hlt⟩
  have hsize : (UInt64.ofNat size).toNat = size := toNat_position (by omega)
  rw [UInt64.lt_iff_toNat_lt, toNat_position hn, UInt64.toNat_add, hsize] at hlt
  omega

namespace RawFdOstream

open RawOstream

theorem writeLoop_sticky (file : File) (data : List Byte) (outcomes : List WriteOutcome) :
    (writeLoop file true data outcomes).2.1 = true := by
  induction outcomes generalizing file data with
  | nil => rfl
  | cons outcome outcomes ih =>
    cases outcome with
    | takes count =>
      rw [writeLoop]
      split
      · rfl
      · exact ih _ _
    | interrupted =>
      rw [writeLoop]
      split
      · rfl
      · exact ih _ _
    | fails => rfl

/-- Without a failure everything is written, once and in order. -/
theorem writeLoop_taken {file : File} {error : Bool} {data : List Byte}
    {outcomes : List WriteOutcome} (h : (writeLoop file error data outcomes).2.1 = false) :
    (writeLoop file error data outcomes).1 = file.write data := by
  induction outcomes generalizing file data with
  | nil => rfl
  | cons outcome outcomes ih =>
    cases outcome with
    | takes count =>
      rw [writeLoop] at h ⊢
      split at h
      · next hnil =>
        rw [if_pos hnil]
        rw [List.drop_eq_nil_iff] at hnil
        rw [List.take_of_length_le hnil]
      · next hne =>
        rw [if_neg hne, ih h, ← File.write_append, List.take_append_drop]
    | interrupted =>
      rw [writeLoop] at h ⊢
      split at h
      · next hnil => rw [if_pos hnil, hnil, File.write_nil]
      · next hne => rw [if_neg hne, ih h]
    | fails => cases h

/-- There has been no error, and there will be none. -/
structure Unfailing (fd : RawFdOstream) : Prop where
  outcomes : .fails ∉ fd.outcomes
  seeks : false ∉ fd.seeks
  error : fd.error = false

/-- Interruptions and short writes are no errors. -/
theorem writeLoop_unfailing {outcomes : List WriteOutcome} (h : .fails ∉ outcomes) (file : File)
    (data : List Byte) :
    (writeLoop file false data outcomes).2.1 = false ∧
      .fails ∉ (writeLoop file false data outcomes).2.2 := by
  induction outcomes generalizing file data with
  | nil => exact ⟨rfl, List.not_mem_nil⟩
  | cons outcome outcomes ih =>
    rw [List.mem_cons, not_or] at h
    cases outcome with
    | takes count =>
      rw [writeLoop]
      split
      · exact ⟨rfl, h.2⟩
      · exact ih h.2 _ _
    | interrupted =>
      rw [writeLoop]
      split
      · exact ⟨rfl, h.2⟩
      · exact ih h.2 _ _
    | fails => exact absurd rfl h.1

theorem Unfailing.push {fd : RawFdOstream} (h : fd.Unfailing) (piece : List Byte) :
    (RawOstream.push fd piece).Unfailing := by
  have hloop := writeLoop_unfailing h.outcomes fd.file piece
  rw [← h.error] at hloop
  exact ⟨hloop.2, h.seeks, hloop.1.trans h.error⟩

theorem faithful_file : Faithful (push (σ := RawFdOstream)) file File.write error where
  taken _ _ h := writeLoop_taken h
  sticky fd piece h := by
    change (writeLoop fd.file fd.error piece fd.outcomes).2.1 = true
    rw [h]
    exact writeLoop_sticky _ _ _
  act_nil := File.write_nil
  act_append := File.write_append

theorem faithful_pos :
    Faithful (push (σ := RawFdOstream)) pos (fun n piece => n + UInt64.ofNat piece.length)
      fun _ => false where
  taken _ _ _ := rfl
  sticky _ _ h := h
  act_nil n := UInt64.add_zero n
  act_append n piece piece' := by
    rw [List.length_append, UInt64.ofNat_add, UInt64.add_assoc]

variable {u v : Prop} {os os' : RawOstream RawFdOstream} {text log : List Byte}

/-- The position counts what has been written, come through or not. -/
theorem tell_of_passedOn (h : os.PassedOn text os') :
    os'.tell = os.tell + UInt64.ofNat text.length := by
  obtain ⟨front, hfront, hpos⟩ := faithful_pos.view_eq h.passes rfl
  have hlength := congrArg (fun s => UInt64.ofNat s.length) hfront
  simp only [List.length_append, UInt64.ofNat_add] at hlength
  change os'.sub.pos + UInt64.ofNat os'.held.length =
    os.sub.pos + UInt64.ofNat os.held.length + UInt64.ofNat text.length
  rw [hpos, UInt64.add_assoc, ← hlength, UInt64.add_assoc]

theorem supportsSeeking_of_passedOn (h : os.PassedOn text os') (hs : os.sub.supportsSeeking = true) :
    os'.sub.supportsSeeking = true :=
  h.passes.invariant (I := fun fd => fd.supportsSeeking = true) hs fun _ _ _ hfd => hfd

theorem seeks_of_passedOn (h : os.PassedOn text os') : os'.sub.seeks = os.sub.seeks :=
  h.passes.invariant (I := fun fd => fd.seeks = os.sub.seeks) rfl fun _ _ _ hfd => hfd

theorem error_of_passedOn (h : os.PassedOn text os') (hok : os'.sub.error = false) :
    os.sub.error = false := by
  obtain ⟨pieces, -, heq, -⟩ := h.passes
  rw [heq] at hok
  exact faithful_file.not_failed hok

/-- What is in the file once nothing is held back. -/
theorem file_of_passedOn (h : os.PassedOn text os') (hheld : os'.held = [])
    (hok : os'.sub.error = false) : os'.sub.file = os.sub.file.write (os.held ++ text) := by
  obtain ⟨front, hfront, hfile⟩ := faithful_file.view_eq h.passes hok
  rw [hheld, List.append_nil] at hfront
  rw [hfile, hfront]

theorem unfailing_of_passedOn (h : os.PassedOn text os') (hs : os.sub.Unfailing) :
    os'.sub.Unfailing :=
  h.passes.invariant hs fun _ piece _ hfd => hfd.push piece

/-! ## Seeking -/

section

variable {fd : RawFdOstream} {off : UInt64}

/-- Where `::lseek` does not fail. -/
theorem seekTo_of_succeeds (hoff : off ≠ -1) (h : false ∉ fd.seeks) :
    fd.seekTo off =
      { fd with seeks := fd.seeks.tail, file := { fd.file with offset := off.toNat }, pos := off } := by
  obtain ⟨file, outcomes, seeks, pos, error, supportsSeeking, blksize⟩ := fd
  rcases seeks with _ | ⟨_ | _, seeks⟩
  · exact if_neg hoff
  · exact absurd List.mem_cons_self h
  · exact if_neg hoff

/-- The error flag says whether `::lseek` has failed. -/
theorem seekTo_of_error (hok : (fd.seekTo off).error = false) : off ≠ -1 ∧ fd.error = false ∧
    fd.seekTo off =
      { fd with seeks := fd.seeks.tail, file := { fd.file with offset := off.toNat }, pos := off } := by
  obtain ⟨file, outcomes, seeks, pos, error, supportsSeeking, blksize⟩ := fd
  unfold seekTo lseek at hok ⊢
  rcases seeks with _ | ⟨_ | _, seeks⟩
  · dsimp only at hok ⊢
    split_ifs at hok ⊢ with hoff
    exact ⟨hoff, hok, rfl⟩
  · cases hok
  · dsimp only at hok ⊢
    split_ifs at hok ⊢ with hoff
    exact ⟨hoff, hok, rfl⟩

theorem seeks_seekTo (fd : RawFdOstream) (off : UInt64) :
    (fd.seekTo off).seeks = fd.seeks.tail ∧
      (fd.seekTo off).supportsSeeking = fd.supportsSeeking := by
  obtain ⟨file, outcomes, seeks, pos, error, supportsSeeking, blksize⟩ := fd
  unfold seekTo lseek
  rcases seeks with _ | ⟨_ | _, seeks⟩
  · dsimp only
    split_ifs <;> exact ⟨rfl, rfl⟩
  · exact ⟨rfl, rfl⟩
  · dsimp only
    split_ifs <;> exact ⟨rfl, rfl⟩

theorem Unfailing.seekTo (h : fd.Unfailing) (hoff : off ≠ -1) : (fd.seekTo off).Unfailing := by
  rw [seekTo_of_succeeds hoff h.seeks]
  exact ⟨h.outcomes, fun hmem => h.seeks (List.mem_of_mem_tail hmem), h.error⟩

end

theorem seek_spec (hos : os.Valid) (hs : os.sub.supportsSeeking = true) (off : UInt64) :
    ∃ t, seek os off = some { t with sub := t.sub.seekTo off } ∧ os.Wrote [] t ∧ t.held = [] := by
  obtain ⟨t, ht, hwrote, hheld⟩ := flush_spec hos
  refine ⟨t, ?_, hwrote, hheld⟩
  rw [seek, if_pos hs, ht, Option.map_some]

theorem valid_seekTo (hos : os.Valid) (off : UInt64) :
    RawOstream.Valid { os with sub := os.sub.seekTo off } :=
  ⟨hos.unbuffered, hos.buffered⟩

/-! ## What has been written -/

/-- The file and the buffer hold `log`, unless there has been an error. Under the condition `u` there
is none, and under `v` the position can be relied on. -/
structure Tracks (u v : Prop) (os : RawOstream RawFdOstream) (log : List Byte) : Prop where
  valid : os.Valid
  unfailing : u → os.sub.Unfailing
  seeks : v → false ∉ os.sub.seeks
  seeking : os.sub.supportsSeeking = true
  tell : v ∨ os.sub.error = false → os.tell = UInt64.ofNat log.length
  content : os.sub.error = false → os.sub.file.content ++ os.held = log
  offset : os.sub.error = false → os.sub.file.offset = os.sub.file.content.length

/-- Writing goes on at the end. -/
theorem Tracks.passedOn (h : Tracks u v os log) (hw : os.PassedOn text os') :
    Tracks u v os' (log ++ text) := by
  have hfile (hok : os'.sub.error = false) : os'.sub.file.content ++ os'.held = log ++ text ∧
      os'.sub.file.offset = os'.sub.file.content.length := by
    have hok' := error_of_passedOn hw hok
    obtain ⟨front, hfront, hfile⟩ := faithful_file.view_eq hw.passes hok
    have hcontent := File.content_write_of_end (h.offset hok') front
    rw [hfile, hcontent, List.append_assoc, ← hfront, ← List.append_assoc, h.content hok']
    refine ⟨rfl, ?_⟩
    rw [File.offset_write, h.offset hok', List.length_append]
  refine ⟨hw.valid, fun hu => unfailing_of_passedOn hw (h.unfailing hu), fun hv => ?_,
    supportsSeeking_of_passedOn hw h.seeking, fun htell => ?_, fun hok => (hfile hok).1,
    fun hok => (hfile hok).2⟩
  · rw [seeks_of_passedOn hw]
    exact h.seeks hv
  · rw [tell_of_passedOn hw, h.tell (htell.imp_right (error_of_passedOn hw)), List.length_append,
      UInt64.ofNat_add]

/-- The bytes are written over others, from `t` to `w`, unless there has been an error. -/
theorem content_of_overwrite {t w : RawOstream RawFdOstream} {data : List Byte} {offset : UInt64}
    (ht : Tracks u v t log) (hheld : t.held = [])
    (hle : offset.toNat + data.length ≤ log.length)
    (hpassed : RawOstream.PassedOn { t with sub := t.sub.seekTo offset } data w)
    (hheld' : w.held = []) (hok : w.sub.error = false) :
    t.sub.error = false ∧ w.sub.file.content =
      log.take offset.toNat ++ data ++ log.drop (offset.toNat + data.length) := by
  obtain ⟨-, herror, hseek⟩ := seekTo_of_error (error_of_passedOn hpassed hok)
  have hlog := ht.content herror
  rw [hheld, List.append_nil] at hlog
  have hfile := file_of_passedOn hpassed hheld' hok
  have hnone : RawOstream.held { t with sub := t.sub.seekTo offset } = [] := hheld
  rw [hnone, List.nil_append] at hfile
  change _ = (t.sub.seekTo offset).file.write data at hfile
  rw [hseek] at hfile
  refine ⟨herror, ?_⟩
  rw [hfile, File.content_write_of_le (by rwa [hlog])]
  change t.sub.file.content.take offset.toNat ++ data ++ t.sub.file.content.drop _ = _
  rw [hlog]

/-- Writing goes on where it was. -/
theorem Tracks.pwriteImpl (h : Tracks u v os log) {data : List Byte} {offset : UInt64}
    (hle : offset.toNat + data.length ≤ log.length) (hlog : log.length < 2 ^ 64 - 1) :
    ∃ os', RawPwriteImpl.pwriteImpl os data offset = some os' ∧
      Tracks u v os' (log.take offset.toNat ++ data ++ log.drop (offset.toNat + data.length)) := by
  obtain ⟨t, hseek, hwrote, hheld⟩ := seek_spec h.valid h.seeking offset
  have htracks := h.passedOn hwrote.toPassedOn
  rw [List.append_nil] at htracks
  obtain ⟨hseeks, hsupports⟩ := seeks_seekTo t.sub offset
  obtain ⟨r, hr, hwrote'⟩ := write_spec (valid_seekTo htracks.valid offset) data
  have hs : r.sub.supportsSeeking = true :=
    supportsSeeking_of_passedOn hwrote'.toPassedOn (hsupports.trans htracks.seeking)
  obtain ⟨w, hseek', hwrote'', hheld'⟩ := seek_spec hwrote'.valid hs os.tell
  have hpassed : RawOstream.PassedOn { t with sub := t.sub.seekTo offset } data w := by
    have htrans := hwrote'.toPassedOn.trans hwrote''.toPassedOn
    rwa [List.append_nil] at htrans
  obtain ⟨hseeks', hsupports'⟩ := seeks_seekTo w.sub os.tell
  have hseeksw : w.sub.seeks = t.sub.seeks.tail := (seeks_of_passedOn hpassed).trans hseeks
  have hsw : v → false ∉ w.sub.seeks := fun hv hmem =>
    htracks.seeks hv (List.mem_of_mem_tail (hseeksw ▸ hmem))
  have hlength : (log.take offset.toNat ++ data ++ log.drop (offset.toNat + data.length)).length =
      log.length := by
    simp only [List.length_append, List.length_take, List.length_drop]
    omega
  have hback (htell : os.tell = UInt64.ofNat log.length) : os.tell ≠ -1 := by
    rw [htell]
    exact position_ne (by rwa [toNat_position hlog])
  -- where there is no error, the second `lseek` has gone back to the end
  have hend (hok : (w.sub.seekTo os.tell).error = false) : os.tell = UInt64.ofNat log.length ∧
      w.sub.file.content =
        log.take offset.toNat ++ data ++ log.drop (offset.toNat + data.length) ∧
      w.sub.seekTo os.tell = { w.sub with
        seeks := w.sub.seeks.tail, file := { w.sub.file with offset := os.tell.toNat }
        pos := os.tell } := by
    obtain ⟨-, herror, heq⟩ := seekTo_of_error hok
    obtain ⟨herror', hcontent⟩ :=
      content_of_overwrite htracks hheld hle hpassed hheld' herror
    exact ⟨h.tell (Or.inr (error_of_passedOn hwrote.toPassedOn herror')), hcontent, heq⟩
  refine ⟨{ w with sub := w.sub.seekTo os.tell }, ?_, valid_seekTo hwrote''.valid _, ?_, ?_, ?_, ?_,
    ?_, ?_⟩
  · change (seek os offset).bind _ = _
    rw [hseek, Option.bind_some, hr, Option.bind_some, hseek']
  · intro hu
    have htell := h.tell (Or.inr (h.unfailing hu).error)
    have hstart := (htracks.unfailing hu).seekTo (position_ne (by omega) : offset ≠ -1)
    exact (unfailing_of_passedOn hpassed hstart).seekTo (hback htell)
  · intro hv hmem
    exact hsw hv (List.mem_of_mem_tail (hseeks' ▸ hmem))
  · exact hsupports'.trans (supportsSeeking_of_passedOn hwrote''.toPassedOn hs)
  · rintro (hv | hok)
    · have htell := h.tell (Or.inl hv)
      change (w.sub.seekTo os.tell).pos + UInt64.ofNat w.held.length = _
      rw [seekTo_of_succeeds (hback htell) (hsw hv), hheld', hlength, htell]
      exact UInt64.add_zero _
    · obtain ⟨htell, -, heq⟩ := hend hok
      change (w.sub.seekTo os.tell).pos + UInt64.ofNat w.held.length = _
      rw [heq, hheld', hlength, htell]
      exact UInt64.add_zero _
  · intro hok
    obtain ⟨-, hcontent, heq⟩ := hend hok
    change (w.sub.seekTo os.tell).file.content ++ w.held = _
    rw [heq, hheld', List.append_nil, hcontent]
  · intro hok
    obtain ⟨htell, hcontent, heq⟩ := hend hok
    change (w.sub.seekTo os.tell).file.offset = (w.sub.seekTo os.tell).file.content.length
    rw [heq]
    change os.tell.toNat = w.sub.file.content.length
    rw [hcontent, hlength, htell, toNat_position hlog]

/-- The assertion of `pwrite` holds where the position can be relied on. -/
theorem Tracks.pwrite (h : Tracks u v os log) {data : List Byte} {offset : UInt64}
    (hle : offset.toNat + data.length ≤ log.length) (hlog : log.length < 2 ^ 64 - 1) :
    (v → os.pwrite data offset ≠ none) ∧ ∀ os', os.pwrite data offset = some os' →
      Tracks u v os' (log.take offset.toNat ++ data ++ log.drop (offset.toNat + data.length)) := by
  obtain ⟨w, hw, htracks⟩ := h.pwriteImpl hle hlog
  constructor
  · intro hv
    have hin := within_position hlog hle
    rw [← h.tell (Or.inl hv)] at hin
    rw [RawOstream.pwrite, if_neg hin, hw]
    exact Option.some_ne_none w
  · intro os' hos'
    rw [RawOstream.pwrite] at hos'
    split at hos'
    · cases hos'
    · rw [hw] at hos'
      cases hos'
      exact htracks

/-- Every call keeps the file and the buffer together what they should be. -/
theorem Tracks.perform (h : Tracks u v os log) {c : PwriteCall} (hc : c.Allowed log) :
    (v → c.perform os ≠ none) ∧ ∀ os', c.perform os = some os' → Tracks u v os' (c.edit log) := by
  cases c with
  | call c =>
    obtain ⟨w, hw, hpassed, -⟩ := perform_spec hc h.valid
    have hperform : (PwriteCall.call c).perform os = some w := hw
    rw [hperform]
    refine ⟨fun _ => Option.some_ne_none w, fun os' hos' => ?_⟩
    cases hos'
    exact h.passedOn hpassed
  | pwrite data offset => exact h.pwrite hc.1 hc.2

end RawFdOstream

/-! ## Vectors -/

namespace RawSvectorOstream

open RawOstream

theorem faithful_content :
    Faithful (push (σ := RawSvectorOstream)) content (· ++ ·) fun _ => false where
  taken _ _ _ := rfl
  sticky _ _ h := h
  act_nil := List.append_nil
  act_append x piece piece' := (List.append_assoc x piece piece').symm

/-- The vector holds `log`, and there is no buffer. -/
structure Tracks (os : RawOstream RawSvectorOstream) (log : List Byte) : Prop where
  valid : os.Valid
  mode : os.bufferMode = .unbuffered
  content : os.sub.content = log

variable {os : RawOstream RawSvectorOstream} {log : List Byte}

theorem Tracks.held (h : Tracks os log) : os.held = [] :=
  held_of_none (h.valid.unbuffered h.mode)

theorem Tracks.tell (h : Tracks os log) : os.tell = UInt64.ofNat log.length := by
  change UInt64.ofNat os.sub.content.length + UInt64.ofNat os.held.length = _
  rw [h.held, h.content]
  exact UInt64.add_zero _

theorem Tracks.perform (h : Tracks os log) {c : PwriteCall} (hc : c.Allowed log)
    (hkeeps : c.KeepsBuffer) :
    c.perform os ≠ none ∧ ∀ os', c.perform os = some os' → Tracks os' (c.edit log) := by
  suffices hsome : ∃ w, c.perform os = some w ∧ Tracks w (c.edit log) by
    obtain ⟨w, hw, htracks⟩ := hsome
    rw [hw]
    refine ⟨Option.some_ne_none w, fun os' hos' => ?_⟩
    cases hos'
    exact htracks
  cases c with
  | call c =>
    obtain ⟨os', hos', hpassed, hwrote⟩ := perform_spec hc h.valid
    have hmode := (hwrote hkeeps).stays (fun _ _ => rfl) h.mode
    have hcontent := faithful_content.out_append hpassed.passes rfl
    refine ⟨os', hos', hpassed.valid, hmode, ?_⟩
    rwa [h.held, h.content, held_of_none (hpassed.valid.unbuffered hmode), List.append_nil,
      List.append_nil] at hcontent
  | pwrite data offset =>
    have hin := within_position hc.2 hc.1
    rw [← h.tell] at hin
    refine ⟨_, if_neg hin, ⟨h.valid.unbuffered, h.valid.buffered⟩, h.mode, ?_⟩
    change os.sub.content.take offset.toNat ++ data ++ os.sub.content.drop _ = _
    rw [h.content]
    rfl

end RawSvectorOstream

/-! ## Runs -/

namespace RawOstream

end RawOstream

end Wpi

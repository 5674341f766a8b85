import WpiUtil.Support.MultipartReads
import WpiUtil.Support.Proofs.MultipartSearchProofs

/-!
# `FindMultipartBoundary` comes to an end

The position at which a turn of the search loop reads is never at the end of the buffer: the fast
scan does not return the position of the first byte, so that at least one byte is dropped. Hence
every turn that goes on has taken something from the stream.
-/

namespace Wpi.FindMultipartBoundary

open Foundations ByteSource

variable {σ : Type} {boundary : List Byte} {saveBuf : Option (List Byte)} {fuel : Nat}

/-- There is room in the buffer for the next read. -/
structure Turn.HasRoom (boundary : List Byte) (t : Turn σ) : Prop where
  searchPos_lt : t.searchPos < boundary.length + 2
  length_searchBuf : t.searchBuf.length = boundary.length + 2

theorem Turn.HasRoom.asked_pos {t : Turn σ} (h : t.HasRoom boundary) : 0 < t.asked boundary :=
  Nat.sub_pos_of_lt h.searchPos_lt

section Calls

variable [RawIstream σ]

/-! ## One turn -/

/-- What a turn of the first pass does. -/
theorem skipTurn_cases (is : σ) :
    (RawIstream.hasError (RawIstream.read is 1).2 = true ∧
      skipTurn is = .inl (none, (RawIstream.read is 1).2)) ∨
    RawIstream.hasError (RawIstream.read is 1).2 = false ∧
      (skipTurn is = .inr (RawIstream.read is 1).2 ∨
        ∃ c, skipTurn is = .inl (some c, (RawIstream.read is 1).2)) := by
  unfold skipTurn
  by_cases herror : RawIstream.hasError (RawIstream.read is 1).2 = true
  · exact Or.inl ⟨herror, if_pos herror⟩
  · refine Or.inr ⟨Bool.eq_false_iff.2 herror, ?_⟩
    by_cases hc : (RawIstream.read is 1).1.headD 0 = 0x0d ∨ (RawIstream.read is 1).1.headD 0 = 0x0a
    · exact Or.inl ((if_neg herror).trans (if_pos hc))
    · exact Or.inr ⟨_, (if_neg herror).trans (if_neg hc)⟩

/-- The buffer once a turn has filled it. -/
def Turn.filled (boundary : List Byte) (t : Turn σ) : List Byte :=
  t.searchBuf.take t.searchPos ++ (RawIstream.read t.is (t.asked boundary)).1

/-- The stream then. -/
def Turn.after (boundary : List Byte) (t : Turn σ) : σ :=
  (RawIstream.read t.is (t.asked boundary)).2

/-- What a turn of the search loop does. -/
theorem searchTurn_cases (boundary : List Byte) (t : Turn σ) :
    (RawIstream.hasError (t.after boundary) = true ∧
      searchTurn boundary t = .inl (false, t.saveBuf, t.after boundary)) ∨
    RawIstream.hasError (t.after boundary) = false ∧
      (searchTurn boundary t = .inl (true, t.saveBuf, t.after boundary) ∨
        (nextDash (t.filled boundary) = none ∧
          searchTurn boundary t = .inr ⟨t.filled boundary, t.searchPos,
            t.saveBuf.map (· ++ t.filled boundary), t.after boundary⟩) ∨
        ∃ pos, nextDash (t.filled boundary) = some pos ∧
          searchTurn boundary t = .inr
            ⟨(t.filled boundary).drop pos ++
                (t.filled boundary).drop (boundary.length + 2 - pos),
              boundary.length + 2 - pos, t.saveBuf.map (· ++ (t.filled boundary).take pos),
              t.after boundary⟩) := by
  by_cases herror : RawIstream.hasError (t.after boundary) = true
  · exact Or.inl ⟨herror, if_pos herror⟩
  · refine Or.inr ⟨Bool.eq_false_iff.2 herror, ?_⟩
    unfold searchTurn Turn.filled Turn.after
    simp only
    rw [Turn.after] at herror
    generalize t.searchBuf.take t.searchPos ++ (RawIstream.read t.is (t.asked boundary)).1 = filled
    by_cases hfound : filled.getD 0 0 = dash ∧ filled.getD 1 0 = dash ∧ filled.drop 2 = boundary
    · exact Or.inl ((if_neg herror).trans (if_pos hfound))
    · refine Or.inr ?_
      rw [if_neg herror, if_neg hfound]
      cases hdash : nextDash filled with
      | none => exact Or.inl ⟨rfl, rfl⟩
      | some pos => exact Or.inr ⟨pos, rfl, rfl⟩

theorem skipTurn_inr {is is' : σ} (h : skipTurn is = .inr is') :
    RawIstream.hasError (RawIstream.read is 1).2 = false ∧ is' = (RawIstream.read is 1).2 := by
  rcases skipTurn_cases is with ⟨-, heq⟩ | ⟨herror, heq | ⟨c, heq⟩⟩ <;> rw [heq] at h <;> cases h
  exact ⟨herror, rfl⟩

theorem searchTurn_inr {t t' : Turn σ} (h : searchTurn boundary t = .inr t') :
    RawIstream.hasError (t.after boundary) = false ∧ t'.is = t.after boundary ∧
      ((t'.searchBuf = t.filled boundary ∧ t'.searchPos = t.searchPos) ∨
        ∃ pos, nextDash (t.filled boundary) = some pos ∧
          t'.searchBuf = (t.filled boundary).drop pos ++
            (t.filled boundary).drop (boundary.length + 2 - pos) ∧
          t'.searchPos = boundary.length + 2 - pos) := by
  rcases searchTurn_cases boundary t with ⟨-, heq⟩ | ⟨herror, heq | ⟨-, heq⟩ | ⟨pos, hdash, heq⟩⟩ <;>
    rw [heq] at h <;> cases h
  · exact ⟨herror, rfl, Or.inl ⟨rfl, rfl⟩⟩
  · exact ⟨herror, rfl, Or.inr ⟨pos, hdash, rfl, rfl⟩⟩

end Calls

variable [FiniteSource σ] {is is' : σ} {t t' : Turn σ}

theorem Turn.HasRoom.length_filled (h : t.HasRoom boundary)
    (herror : RawIstream.hasError (t.after boundary) = false) :
    (t.filled boundary).length = boundary.length + 2 := by
  have hread : (RawIstream.read t.is (t.asked boundary)).1.length = t.asked boundary :=
    FiniteSource.length_read herror
  have hlt := h.searchPos_lt
  rw [filled, List.length_append, hread, List.length_take, h.length_searchBuf, asked]
  omega

/-- A turn that goes on leaves room for the next read. -/
theorem Turn.HasRoom.next (h : t.HasRoom boundary)
    (hturn : searchTurn boundary t = .inr t') : t'.HasRoom boundary := by
  obtain ⟨herror, -, ⟨hbuf, hsearchPos⟩ | ⟨pos, hdash, hbuf, hsearchPos⟩⟩ := searchTurn_inr hturn
  · exact ⟨hsearchPos ▸ h.searchPos_lt, hbuf ▸ h.length_filled herror⟩
  · -- the next '-' is not at the start of the buffer
    obtain ⟨hpos, hlt, -⟩ := nextDash_eq_some hdash
    rw [h.length_filled herror] at hlt
    refine ⟨by omega, ?_⟩
    rw [hbuf, List.length_append, List.length_drop, List.length_drop, h.length_filled herror]
    omega

/-- A turn that goes on has taken something from the stream. -/
theorem Turn.HasRoom.content_lt (h : t.HasRoom boundary)
    (hturn : searchTurn boundary t = .inr t') :
    (content t'.is).length < (content t.is).length := by
  obtain ⟨herror, his, -⟩ := searchTurn_inr hturn
  rw [his]
  exact FiniteSource.read_lt h.asked_pos herror

theorem Turn.HasRoom.readsWell (h : t.HasRoom boundary) : t.ReadsWell boundary where
  one_le := h.asked_pos
  le_length := Nat.sub_le _ _
  fits := by
    rw [h.length_searchBuf, asked, Nat.add_sub_of_le h.searchPos_lt.le]
  consumes := by
    rcases searchTurn_cases boundary t with ⟨-, heq⟩ | ⟨herror, -⟩
    · exact Or.inr heq
    · exact Or.inl (FiniteSource.read_lt h.asked_pos herror)

/-! ## The first pass -/

theorem content_lt_of_skipTurn (h : skipTurn is = .inr is') :
    (content is').length < (content is).length := by
  obtain ⟨herror, rfl⟩ := skipTurn_inr h
  exact FiniteSource.read_lt Nat.one_pos herror

theorem exists_skip_eq (is : σ) :
    ∃ r, ∀ fuel, (content is).length < fuel → Loop.run skipTurn fuel is = some r :=
  Loop.exists_run_eq (I := fun _ => True) (fun is => (content is).length) (fun _ _ => trivial)
    (fun _ hturn => content_lt_of_skipTurn hturn) trivial

/-- The first pass takes at least the byte that it finds. -/
theorem content_lt_of_skip {c : Byte} (h : Loop.run skipTurn fuel is = some (some c, is')) :
    (content is').length < (content is).length := by
  obtain ⟨last, hreaches, hlast⟩ := Loop.exists_of_run_eq_some h
  have hle : (content last).length ≤ (content is).length :=
    hreaches.invariant (I := fun s => (content s).length ≤ (content is).length)
      (fun hs hturn => Nat.le_trans (content_lt_of_skipTurn hturn).le hs) (Nat.le_refl _)
  rcases skipTurn_cases last with ⟨-, heq⟩ | ⟨herror, heq | ⟨d, heq⟩⟩ <;> rw [heq] at hlast <;>
    cases hlast
  exact Nat.lt_of_lt_of_le (FiniteSource.read_lt Nat.one_pos herror) hle

/-! ## The whole call -/

/-- The search loop starts with room in the buffer and with no more than the content. -/
theorem hasRoom_of_start (h : start boundary fuel is saveBuf = some (.inr t)) :
    t.HasRoom boundary ∧ (content t.is).length ≤ (content is).length := by
  unfold start at h
  cases saveBuf with
  | some old =>
    cases h
    exact ⟨⟨Nat.succ_pos _, List.length_replicate⟩, Nat.le_refl _⟩
  | none =>
    obtain ⟨⟨c, is'⟩, hskip, heq⟩ := Option.map_eq_some_iff.1 h
    cases c with
    | none => cases heq
    | some c =>
      cases heq
      refine ⟨⟨Nat.succ_lt_succ (Nat.succ_pos _), ?_⟩, (content_lt_of_skip hskip).le⟩
      rw [List.length_cons, List.length_tail, List.length_replicate]
      rfl

theorem exists_start_eq (is : σ) (boundary : List Byte) (saveBuf : Option (List Byte)) :
    ∃ r, ∀ fuel, (content is).length < fuel → start boundary fuel is saveBuf = some r := by
  cases saveBuf with
  | some old => exact ⟨_, fun _ _ => rfl⟩
  | none =>
    obtain ⟨r, hr⟩ := exists_skip_eq is
    exact ⟨_, fun fuel hfuel => Option.map_eq_some_iff.2 ⟨r, hr fuel hfuel, rfl⟩⟩

theorem exists_search_eq (h : t.HasRoom boundary) :
    ∃ r, ∀ fuel, (content t.is).length < fuel →
      Loop.run (searchTurn boundary) fuel t = some r :=
  Loop.exists_run_eq (fun t => (content t.is).length) Turn.HasRoom.next Turn.HasRoom.content_lt h

theorem exists_call_eq (is : σ) (boundary : List Byte) (saveBuf : Option (List Byte)) :
    ∃ r, ∀ fuel, (content is).length < fuel → call boundary fuel is saveBuf = some r := by
  obtain ⟨r, hr⟩ := exists_start_eq is boundary saveBuf
  cases r with
  | inl r =>
    refine ⟨r, fun fuel hfuel => ?_⟩
    rw [call, hr fuel hfuel]
    rfl
  | inr t =>
    obtain ⟨hroom, hle⟩ := hasRoom_of_start (hr _ (Nat.lt_succ_self _))
    obtain ⟨r, hsearch⟩ := exists_search_eq hroom
    refine ⟨r, fun fuel hfuel => ?_⟩
    rw [call, hr fuel hfuel]
    exact hsearch fuel (Nat.lt_of_le_of_lt hle hfuel)

/-! ## The recursions in `HttpUtil` -/

section Recursions

variable {σ : Type} [RawIstream σ]

theorem skipLineEnds_succ (fuel : Nat) (is : σ) :
    skipLineEnds (fuel + 1) is =
      match skipTurn is with
      | .inl r => r
      | .inr is' => skipLineEnds fuel is' := by
  rw [skipLineEnds, skipTurn]
  simp only
  split
  · rfl
  · split <;> rfl

theorem search_succ (boundary : List Byte) (fuel : Nat) (t : Turn σ) :
    search boundary (fuel + 1) t.searchBuf t.searchPos t.saveBuf t.is =
      match searchTurn boundary t with
      | .inl r => r
      | .inr t' => search boundary fuel t'.searchBuf t'.searchPos t'.saveBuf t'.is := by
  rw [search, searchTurn, Turn.asked]
  simp only
  split
  · rfl
  · split
    · rfl
    · cases nextDash (t.searchBuf.take t.searchPos ++
        (RawIstream.read t.is (boundary.length + 2 - t.searchPos)).1) <;> rfl

theorem skipLineEnds_eq_of_run {fuel : Nat} {is : σ} {r : Option Byte × σ}
    (h : Loop.run skipTurn fuel is = some r) : skipLineEnds fuel is = r :=
  Loop.eq_of_run_eq_some (fun hturn => by rw [skipLineEnds_succ, hturn])
    (fun hturn => by rw [skipLineEnds_succ, hturn]) h

theorem search_eq_of_run {fuel : Nat} {t : Turn σ} {r : Bool × Option (List Byte) × σ}
    (h : Loop.run (searchTurn boundary) fuel t = some r) :
    search boundary fuel t.searchBuf t.searchPos t.saveBuf t.is = r :=
  Loop.eq_of_run_eq_some
    (f := fun fuel t => search boundary fuel t.searchBuf t.searchPos t.saveBuf t.is)
    (fun hturn => by rw [search_succ, hturn]) (fun hturn => by rw [search_succ, hturn]) h

end Recursions

/-- On a stream in memory the call has the result of `findMultipartBoundary`, which thus never runs
out of turns. -/
theorem call_eq_findMultipartBoundary (is : RawMemIstream) (boundary : List Byte)
    (saveBuf : Option (List Byte)) :
    call boundary (is.mem.length + 1) is saveBuf =
      some (findMultipartBoundary is boundary saveBuf) := by
  obtain ⟨r, hr⟩ := exists_call_eq is boundary saveBuf
  have hcall := hr (is.mem.length + 1) (Nat.lt_succ_self _)
  rw [hcall]
  obtain ⟨s, hstart, hsearch⟩ := Option.bind_eq_some_iff.1 hcall
  unfold findMultipartBoundary
  cases saveBuf with
  | some old =>
    cases hstart
    exact congrArg some (search_eq_of_run hsearch).symm
  | none =>
    obtain ⟨⟨c, is'⟩, hskip, heq⟩ := Option.map_eq_some_iff.1 hstart
    cases c with
    | none =>
      cases heq
      cases hsearch
      simp only [skipLineEnds_eq_of_run hskip]
    | some c =>
      cases heq
      simp only [skipLineEnds_eq_of_run hskip]
      -- `findMultipartBoundary` counts the turns of the search from what the first pass has left
      obtain ⟨hroom, hle⟩ := hasRoom_of_start hstart
      obtain ⟨r', hr'⟩ := exists_search_eq hroom
      obtain rfl : r' = r := Option.some.inj ((hr' _ (Nat.lt_succ_of_le hle)).symm.trans hsearch)
      exact congrArg some (search_eq_of_run (hr' _ (Nat.lt_succ_self _))).symm

end Wpi.FindMultipartBoundary

namespace Wpi

/-- `FindMultipartBoundary` returns on every stream that ends, and each turn of its search loop takes
at least one byte or ends with an error. -/
theorem findMultipartBoundary_terminates {σ : Type} [FiniteSource σ] (is : σ)
    (boundary : List Byte) (saveBuf : Option (List Byte)) :
    FindMultipartBoundary.Terminates is boundary saveBuf where
  returns := FindMultipartBoundary.exists_call_eq is boundary saveBuf
  reads fuel t₀ t hstart hreaches := by
    obtain ⟨hroom, -⟩ := FindMultipartBoundary.hasRoom_of_start hstart
    exact (hreaches.invariant FindMultipartBoundary.Turn.HasRoom.next hroom).readsWell

end Wpi

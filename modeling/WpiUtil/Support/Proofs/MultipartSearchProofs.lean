import Mathlib.Tactic.Common
import WpiUtil.Foundations.Decimal
import WpiUtil.Support.MultipartSearch

/-!
# What `FindMultipartBoundary` finds

The search is followed on the bytes it still has to look at, `carry ++ unread`. A round that carries
a `'-'` over only drops bytes before which the delimiter does not occur; a round that leaves stale
bytes puts them in front of the rest a second time.
-/

namespace Wpi

open Foundations

@[simp] theorem length_delimiter (boundary : List Byte) :
    (delimiter boundary).length = boundary.length + 2 := rfl

/-! ## The fast scan -/

theorem findDash_eq_none {s : List Byte} {start : Nat} (h : findDash s start = none) {i : Nat}
    (hi : start ≤ i) : s[i]? ≠ some dash := by
  intro hs
  rw [findDash, Option.map_eq_none_iff, List.findIdx?_eq_none_iff] at h
  have hmem : dash ∈ s.drop start := by
    refine List.mem_of_getElem? (i := i - start) ?_
    rw [List.getElem?_drop, show start + (i - start) = i by omega, hs]
  simpa using h dash hmem

theorem findDash_eq_some {s : List Byte} {start pos : Nat} (h : findDash s start = some pos) :
    start ≤ pos ∧ s[pos]? = some dash ∧ ∀ i, start ≤ i → i < pos → s[i]? ≠ some dash := by
  rw [findDash, Option.map_eq_some_iff] at h
  obtain ⟨k, hk, rfl⟩ := h
  rw [List.findIdx?_eq_some_iff_getElem] at hk
  obtain ⟨hlen, hdash, hmin⟩ := hk
  refine ⟨by omega, ?_, fun i hi hlt hs => ?_⟩
  · rw [← List.getElem?_drop, List.getElem?_eq_getElem hlen]
    simpa using hdash
  · have := hmin (i - start) (by omega)
    rw [List.getElem_drop] at this
    rw [List.getElem?_eq_some_iff] at hs
    obtain ⟨hi', he⟩ := hs
    simp [show start + (i - start) = i by omega, he] at this

/-- The fast scan skips the first byte. -/
theorem nextDash_eq_none {s : List Byte} (h : nextDash s = none) {i : Nat} (hi : 1 ≤ i) :
    s[i]? ≠ some dash := by
  unfold nextDash at h
  split at h
  · exact findDash_eq_none h hi
  · exact findDash_eq_none h (Nat.zero_le i)

theorem nextDash_eq_some {s : List Byte} {pos : Nat} (h : nextDash s = some pos) :
    1 ≤ pos ∧ pos < s.length ∧ ∀ i, 1 ≤ i → i < pos → s[i]? ≠ some dash := by
  have hlt : s[pos]? = some dash → pos < s.length := fun hs => (List.getElem?_eq_some_iff.1 hs).1
  unfold nextDash at h
  split at h
  · obtain ⟨hpos, hdash, hmin⟩ := findDash_eq_some h
    exact ⟨hpos, hlt hdash, hmin⟩
  · next hhead =>
    obtain ⟨-, hdash, hmin⟩ := findDash_eq_some h
    refine ⟨?_, hlt hdash, fun i _ => hmin i (Nat.zero_le i)⟩
    by_contra h0
    have hpos : pos = 0 := by omega
    subst hpos
    cases s with
    | nil => simp at hdash
    | cons c cs => exact hhead (by simpa using hdash)

/-! ## One round -/

namespace Search

variable {boundary : List Byte}

/-- What the search still has to look at. -/
def ahead (st : Search) : List Byte := st.carry ++ st.unread

/-- A state of the search: the buffer is never full of carried bytes. -/
def Room (boundary : List Byte) (st : Search) : Prop := st.carry.length < boundary.length + 2

theorem buffer_eq_take {st : Search} (hroom : st.Room boundary) :
    st.buffer boundary = st.ahead.take (boundary.length + 2) := by
  rw [buffer, ahead, List.take_append, List.take_of_length_le hroom.le]

theorem rest_eq_drop {st : Search} (hroom : st.Room boundary) :
    st.rest boundary = st.ahead.drop (boundary.length + 2) := by
  rw [rest, ahead, List.drop_append, List.drop_eq_nil_of_le hroom.le, List.nil_append]

theorem buffer_append_rest (st : Search) :
    st.buffer boundary ++ st.rest boundary = st.ahead := by
  rw [buffer, rest, List.append_assoc, List.take_append_drop, ahead]

theorem length_buffer {st : Search} (hroom : st.Room boundary)
    (h : boundary.length + 2 ≤ st.carry.length + st.unread.length) :
    (st.buffer boundary).length = boundary.length + 2 := by
  rw [buffer_eq_take hroom, List.length_take, ahead, List.length_append]
  omega

theorem length_rest_lt {st : Search} (hroom : st.Room boundary)
    (h : boundary.length + 2 ≤ st.carry.length + st.unread.length) :
    (st.rest boundary).length < st.unread.length := by
  unfold Room at hroom
  rw [rest, List.length_drop]
  omega

/-- A round only drops bytes before which the delimiter does not occur. -/
theorem not_occursAt_of_continues {st : Search} (hroom : st.Room boundary)
    (h : st.Continues boundary) {k : Nat} (hk : k ≤ boundary.length + 2)
    (hdash : ∀ i, 1 ≤ i → i < k → (st.buffer boundary)[i]? ≠ some dash) :
    ∀ j < k, ¬ OccursAt (delimiter boundary) st.ahead j := by
  intro j hj hocc
  rcases Nat.eq_zero_or_pos j with rfl | hpos
  · refine h.2 ?_
    rw [buffer_eq_take hroom]
    have := List.prefix_iff_eq_take.1 hocc
    simpa using this.symm
  · refine hdash j hpos hj ?_
    rw [buffer_eq_take hroom, List.getElem?_take, if_pos (by omega)]
    exact hocc.getElem?_eq

theorem Step.room {st st' : Search} (h : Step boundary st st') (hroom : st.Room boundary) :
    st'.Room boundary := by
  cases h with
  | move hc hdash =>
    obtain ⟨hpos, -, -⟩ := nextDash_eq_some hdash
    unfold Room
    rw [List.length_drop, length_buffer hroom hc.1]
    omega
  | keep => exact hroom

theorem Step.length_lt {st st' : Search} (h : Step boundary st st') (hroom : st.Room boundary) :
    st'.unread.length < st.unread.length := by
  cases h with
  | move hc => exact length_rest_lt hroom hc.1
  | keep hc => exact length_rest_lt hroom hc.1

/-- Carrying a `'-'` over: the search goes on with what is ahead from that position on. -/
theorem ahead_move {st : Search} {pos : Nat} (hlen : pos ≤ (st.buffer boundary).length) :
    ahead ⟨(st.buffer boundary).drop pos, st.rest boundary⟩ = st.ahead.drop pos := by
  rw [ahead, ← buffer_append_rest, List.drop_append_of_le_length hlen]

/-- Stale bytes have no part in the delimiter, unless they are taken for its start. -/
theorem not_occursAt_of_stale {st : Search} (hroom : st.Room boundary)
    (h : st.Stale boundary) (hf : ¬ st.FalseMatch boundary) :
    ∀ j < st.carry.length,
      ¬ OccursAt (delimiter boundary) (ahead ⟨st.carry, st.rest boundary⟩) j := by
  intro j hj hocc
  rcases Nat.eq_zero_or_pos j with rfl | hpos
  · refine hf ⟨h, ?_⟩
    have hroom' : Room boundary ⟨st.carry, st.rest boundary⟩ := hroom
    rw [buffer_eq_take hroom']
    have := List.prefix_iff_eq_take.1 hocc
    simpa using this.symm
  · refine nextDash_eq_none h.2.1 hpos ?_
    have := hocc.getElem?_eq
    rw [ahead, List.getElem?_append_left hj] at this
    rwa [buffer, List.getElem?_append_left hj]

/-! ## The loop -/

/-- The loop of `FindMultipartBoundary` in terms of the carried and the unread bytes. -/
def run (boundary : List Byte) : Nat → Search → Option (List Byte) →
    Bool × Option (List Byte) × RawMemIstream
  | 0, st, saveBuf => (false, saveBuf, RawMemIstream.ofBytes st.unread)
  | fuel + 1, st, saveBuf =>
    if st.carry.length + st.unread.length < boundary.length + 2 then
      (false, saveBuf, ⟨st.unread, true⟩)
    else if st.buffer boundary = delimiter boundary then
      (true, saveBuf, RawMemIstream.ofBytes (st.rest boundary))
    else
      match nextDash (st.buffer boundary) with
      | none =>
        run boundary fuel ⟨st.carry, st.rest boundary⟩ (saveBuf.map (· ++ st.buffer boundary))
      | some pos =>
        run boundary fuel ⟨(st.buffer boundary).drop pos, st.rest boundary⟩
          (saveBuf.map (· ++ (st.buffer boundary).take pos))

theorem eq_delimiter_iff {s boundary : List Byte} (h : s.length = boundary.length + 2) :
    s.getD 0 0 = dash ∧ s.getD 1 0 = dash ∧ s.drop 2 = boundary ↔ s = delimiter boundary := by
  match s with
  | [] => simp at h
  | [_] => simp at h
  | a :: b :: cs => simp [delimiter]

theorem search_eq_run (fuel : Nat) (st : Search) (buf : List Byte) (saveBuf : Option (List Byte))
    (hroom : st.Room boundary) (hbuf : buf.take st.carry.length = st.carry) :
    FindMultipartBoundary.search boundary fuel buf st.carry.length saveBuf
      (RawMemIstream.ofBytes st.unread) = run boundary fuel st saveBuf := by
  induction fuel generalizing st buf saveBuf with
  | zero => rfl
  | succ fuel ih =>
    rw [run, FindMultipartBoundary.search]
    by_cases hshort : st.carry.length + st.unread.length < boundary.length + 2
    · have hread : RawIstream.read (RawMemIstream.ofBytes st.unread)
          (boundary.length + 2 - st.carry.length) = ([], ⟨st.unread, true⟩) :=
        if_pos (show _ - _ > st.unread.length by omega)
      rw [hread, if_pos hshort]
      rfl
    · have hread : RawIstream.read (RawMemIstream.ofBytes st.unread)
          (boundary.length + 2 - st.carry.length) =
            (st.unread.take (boundary.length + 2 - st.carry.length),
              RawMemIstream.ofBytes (st.rest boundary)) :=
        if_neg (show ¬ _ - _ > st.unread.length by omega)
      have hfill : buf.take st.carry.length ++
          st.unread.take (boundary.length + 2 - st.carry.length) = st.buffer boundary := by
        rw [hbuf]
        rfl
      have hlen : (st.buffer boundary).length = boundary.length + 2 :=
        length_buffer hroom (by omega)
      rw [hread, if_neg hshort]
      simp only [hfill]
      rw [if_neg (show ¬ RawIstream.hasError (RawMemIstream.ofBytes (st.rest boundary)) = true from
        Bool.false_ne_true)]
      simp only [eq_delimiter_iff hlen]
      by_cases hm : st.buffer boundary = delimiter boundary
      · rw [if_pos hm, if_pos hm]
      · rw [if_neg hm, if_neg hm]
        have hc : st.Continues boundary := ⟨by omega, hm⟩
        cases hd : nextDash (st.buffer boundary) with
        | none =>
          refine ih ⟨st.carry, st.rest boundary⟩ _ _ hroom ?_
          rw [buffer, List.take_left]
        | some pos =>
          have hr := (Step.move hc hd).room hroom
          have hsub : boundary.length + 2 - pos = ((st.buffer boundary).drop pos).length := by
            rw [List.length_drop, hlen]
          simp only [hsub]
          exact ih ⟨(st.buffer boundary).drop pos, st.rest boundary⟩ _ _ hr List.take_left

/-- What one round of the loop does. -/
theorem run_cases (fuel : Nat) (st : Search) (saveBuf : Option (List Byte)) :
    (st.carry.length + st.unread.length < boundary.length + 2 ∧
      run boundary (fuel + 1) st saveBuf = (false, saveBuf, ⟨st.unread, true⟩)) ∨
    (boundary.length + 2 ≤ st.carry.length + st.unread.length ∧
      st.buffer boundary = delimiter boundary ∧
      run boundary (fuel + 1) st saveBuf =
        (true, saveBuf, RawMemIstream.ofBytes (st.rest boundary))) ∨
    (∃ pos, st.Continues boundary ∧ nextDash (st.buffer boundary) = some pos ∧
      run boundary (fuel + 1) st saveBuf =
        run boundary fuel ⟨(st.buffer boundary).drop pos, st.rest boundary⟩
          (saveBuf.map (· ++ (st.buffer boundary).take pos))) ∨
    (st.Continues boundary ∧ nextDash (st.buffer boundary) = none ∧
      run boundary (fuel + 1) st saveBuf =
        run boundary fuel ⟨st.carry, st.rest boundary⟩
          (saveBuf.map (· ++ st.buffer boundary))) := by
  by_cases hshort : st.carry.length + st.unread.length < boundary.length + 2
  · exact Or.inl ⟨hshort, by rw [run, if_pos hshort]⟩
  · by_cases hm : st.buffer boundary = delimiter boundary
    · exact Or.inr (Or.inl ⟨by omega, hm, by rw [run, if_neg hshort, if_pos hm]⟩)
    · have hc : st.Continues boundary := ⟨by omega, hm⟩
      cases hd : nextDash (st.buffer boundary) with
      | some pos =>
        exact Or.inr (Or.inr (Or.inl ⟨pos, hc, rfl, by rw [run, if_neg hshort, if_neg hm, hd]⟩))
      | none =>
        exact Or.inr (Or.inr (Or.inr ⟨hc, rfl, by rw [run, if_neg hshort, if_neg hm, hd]⟩))

theorem not_occursAt_of_short {st : Search}
    (h : st.carry.length + st.unread.length < boundary.length + 2) :
    ¬ ∃ i, OccursAt (delimiter boundary) st.ahead i := by
  rintro ⟨i, hi⟩
  have := hi.le_length (List.cons_ne_nil _ _)
  rw [length_delimiter, ahead, List.length_append] at this
  omega

theorem firstAt_zero_of_match {st : Search} (hroom : st.Room boundary)
    (h : st.buffer boundary = delimiter boundary) :
    FirstAt (delimiter boundary) st.ahead 0 := by
  refine ⟨?_, fun j hj => absurd hj (Nat.not_lt_zero j)⟩
  rw [OccursAt, List.drop_zero, ← h, buffer_eq_take hroom]
  exact List.take_prefix _ _

/-- The outcome of a search over `s`: nothing is found and nothing is there, or the first occurrence
is found and the stream is right after it. -/
def Outcome (boundary s : List Byte) (r : Bool × Option (List Byte) × RawMemIstream) : Prop :=
  (r.1 = false ∧ ¬ ∃ i, OccursAt (delimiter boundary) s i) ∨
  (r.1 = true ∧ ∃ i, FirstAt (delimiter boundary) s i ∧
    r.2.2 = RawMemIstream.ofBytes (s.drop (i + (delimiter boundary).length)))

theorem Outcome.transfer {s s' : List Byte} {r : Bool × Option (List Byte) × RawMemIstream}
    {k k' : Nat} (h : Outcome boundary s' r)
    (hs : ∀ j < k, ¬ OccursAt (delimiter boundary) s j)
    (hs' : ∀ j < k', ¬ OccursAt (delimiter boundary) s' j) (hdrop : s.drop k = s'.drop k') :
    Outcome boundary s r := by
  rcases h with ⟨hr, hnone⟩ | ⟨hr, i, hi, hrest⟩
  · exact Or.inl ⟨hr, not_occursAt_transfer hnone hs hdrop⟩
  · obtain ⟨j, hj, hji, -⟩ := hi.transfer hs hs' hdrop
    refine Or.inr ⟨hr, j, hj, ?_⟩
    rw [hrest, ← List.drop_drop, ← List.drop_drop, hji]

/-- As long as stale bytes are not taken for the start of the delimiter, the search finds what it
should. -/
theorem run_outcome (fuel : Nat) (st : Search) (saveBuf : Option (List Byte))
    (hfuel : st.unread.length < fuel) (hroom : st.Room boundary) (hnf : st.NoFalseMatch boundary) :
    Outcome boundary st.ahead (run boundary fuel st saveBuf) := by
  induction fuel generalizing st saveBuf with
  | zero => exact absurd hfuel (Nat.not_lt_zero _)
  | succ fuel ih =>
    have hstep : ∀ st', Step boundary st st' → ∀ saveBuf,
        Outcome boundary st'.ahead (run boundary fuel st' saveBuf) := by
      intro st' hs saveBuf
      have hlt := hs.length_lt hroom
      exact ih st' saveBuf (by omega) (hs.room hroom)
        fun st'' hr => hnf st'' (Relation.ReflTransGen.head hs hr)
    rcases run_cases fuel st saveBuf with
      ⟨hshort, hr⟩ | ⟨-, hm, hr⟩ | ⟨pos, hc, hd, hr⟩ | ⟨hc, hd, hr⟩
    · rw [hr]
      exact Or.inl ⟨rfl, not_occursAt_of_short hshort⟩
    · rw [hr]
      refine Or.inr ⟨rfl, 0, firstAt_zero_of_match hroom hm, ?_⟩
      rw [rest_eq_drop hroom, Nat.zero_add, length_delimiter]
    · rw [hr]
      obtain ⟨hpos, hlt, hmin⟩ := nextDash_eq_some hd
      have hlen := length_buffer hroom hc.1
      have ho := hstep _ (Step.move hc hd) (saveBuf.map (· ++ (st.buffer boundary).take pos))
      rw [ahead_move hlt.le] at ho
      exact ho.transfer (not_occursAt_of_continues hroom hc (by omega) hmin)
        (fun j hj => absurd hj (Nat.not_lt_zero j)) rfl
    · rw [hr]
      have ho := hstep _ (Step.keep hc hd) (saveBuf.map (· ++ st.buffer boundary))
      have hbefore := not_occursAt_of_continues hroom hc le_rfl
        fun i hi _ => nextDash_eq_none hd hi
      have hdrop : st.ahead.drop (boundary.length + 2) =
          (ahead ⟨st.carry, st.rest boundary⟩).drop st.carry.length := by
        rw [← rest_eq_drop hroom]
        exact List.drop_left.symm
      refine ho.transfer hbefore ?_ hdrop
      by_cases hcarry : st.carry = []
      · intro j hj
        rw [hcarry] at hj
        exact absurd hj (Nat.not_lt_zero j)
      · have hstale : st.Stale boundary := ⟨hc, hd, hcarry⟩
        exact not_occursAt_of_stale hroom hstale (hnf st Relation.ReflTransGen.refl)

/-- As long as no stale bytes are left, the bytes saved are those before the delimiter. -/
theorem run_saved (fuel : Nat) (st : Search) (old : List Byte)
    (hfuel : st.unread.length < fuel) (hroom : st.Room boundary) (hns : st.NeverStale boundary)
    {i : Nat} (hi : FirstAt (delimiter boundary) st.ahead i) :
    (run boundary fuel st (some old)).2.1 = some (old ++ st.ahead.take i) := by
  induction fuel generalizing st old i with
  | zero => exact absurd hfuel (Nat.not_lt_zero _)
  | succ fuel ih =>
    have hstep : ∀ st' pos, Step boundary st st' → st'.ahead = st.ahead.drop pos →
        (∀ j < pos, ¬ OccursAt (delimiter boundary) st.ahead j) →
        (run boundary fuel st' (some (old ++ st.ahead.take pos))).2.1 =
          some (old ++ st.ahead.take i) := by
      intro st' pos hs hahead hbefore
      have hlt := hs.length_lt hroom
      have hle := hi.le_of_forall_not hbefore
      have hi' : FirstAt (delimiter boundary) st'.ahead (i - pos) := by
        rw [hahead, firstAt_drop_iff hbefore, show pos + (i - pos) = i by omega]
        exact hi
      rw [ih st' _ (by omega) (hs.room hroom)
        (fun st'' hr => hns st'' (Relation.ReflTransGen.head hs hr)) hi', hahead,
        List.append_assoc, ← List.take_add, show pos + (i - pos) = i by omega]
    rcases run_cases fuel st (some old) with
      ⟨hshort, hr⟩ | ⟨-, hm, hr⟩ | ⟨pos, hc, hd, hr⟩ | ⟨hc, hd, hr⟩
    · exact absurd ⟨i, hi.1⟩ (not_occursAt_of_short hshort)
    · rw [hr, hi.unique (firstAt_zero_of_match hroom hm), List.take_zero, List.append_nil]
    · obtain ⟨hpos, hlt, hmin⟩ := nextDash_eq_some hd
      have hlen := length_buffer hroom hc.1
      have htake : (st.buffer boundary).take pos = st.ahead.take pos := by
        rw [buffer_eq_take hroom, List.take_take, Nat.min_eq_left (by omega)]
      rw [hr, Option.map_some, htake]
      exact hstep _ pos (Step.move hc hd) (ahead_move hlt.le)
        (not_occursAt_of_continues hroom hc (by omega) hmin)
    · have hcarry : st.carry = [] := by
        by_contra hne
        exact hns st Relation.ReflTransGen.refl ⟨hc, hd, hne⟩
      have hahead : ahead ⟨st.carry, st.rest boundary⟩ =
          st.ahead.drop (boundary.length + 2) := by
        rw [ahead, hcarry, List.nil_append, rest_eq_drop hroom]
      rw [hr, Option.map_some, buffer_eq_take hroom]
      exact hstep _ _ (Step.keep hc hd) hahead
        (not_occursAt_of_continues hroom hc le_rfl fun i hi _ => nextDash_eq_none hd hi)

theorem Step.continues {st st' : Search} (h : Step boundary st st') : st.Continues boundary := by
  cases h with
  | move hc => exact hc
  | keep hc => exact hc

theorem Step.unread_suffix {st st' : Search} (h : Step boundary st st') :
    st'.unread <:+ st.unread := by
  cases h with
  | move => exact List.drop_suffix _ _
  | keep => exact List.drop_suffix _ _

/-- The loop follows the rounds. -/
theorem Step.run_eq {st st' : Search} (h : Step boundary st st') (fuel : Nat)
    (saveBuf : Option (List Byte)) :
    ∃ saveBuf', run boundary (fuel + 1) st saveBuf = run boundary fuel st' saveBuf' := by
  have hc := h.continues
  have hlong : ¬ st.carry.length + st.unread.length < boundary.length + 2 := by
    have := hc.1
    omega
  cases h with
  | move _ hdash => exact ⟨_, by rw [run, if_neg hlong, if_neg hc.2, hdash]⟩
  | keep _ hdash => exact ⟨_, by rw [run, if_neg hlong, if_neg hc.2, hdash]⟩

/-! ## Stale bytes taken for the delimiter -/

/-- Only a single stale `'-'` can be taken for the start of the delimiter, and what was read in the
round before ends with some other byte. -/
theorem FalseMatch.unread_eq {st : Search} (hroom : st.Room boundary)
    (h : st.FalseMatch boundary) :
    ∃ v a, a ≠ dash ∧
      st.unread = v ++ a :: dash :: boundary ++ rest boundary ⟨st.carry, st.rest boundary⟩ := by
  obtain ⟨⟨hc, hd, hcarry⟩, hmatch⟩ := h
  obtain ⟨carry, unread⟩ := st
  obtain ⟨c, cs, rfl⟩ := List.exists_cons_of_ne_nil hcarry
  have hcs : cs = [] := by
    cases cs with
    | nil => rfl
    | cons d ds =>
      refine absurd ?_ (nextDash_eq_none hd (i := 1) le_rfl)
      have := congrArg (·[1]?) hmatch
      simpa [buffer, delimiter] using this
  subst hcs
  have htail : (rest boundary ⟨[c], unread⟩).take (boundary.length + 1) = dash :: boundary := by
    have := congrArg List.tail hmatch
    simpa [buffer, delimiter] using this
  have hlen : (unread.take (boundary.length + 1)).length = boundary.length + 1 := by
    have h1 : boundary.length + 2 ≤ 1 + unread.length := hc.1
    rw [List.length_take]
    omega
  -- `v ++ [a]` was read in the round before
  obtain ⟨v, a, hva⟩ : ∃ v a, unread.take (boundary.length + 1) = v ++ [a] := by
    rcases List.eq_nil_or_concat (unread.take (boundary.length + 1)) with hnil | ⟨v, a, h⟩
    · rw [hnil] at hlen
      cases hlen
    · exact ⟨v, a, by rw [h, List.concat_eq_append]⟩
  refine ⟨v, a, fun ha => ?_, ?_⟩
  · have hv : v.length = boundary.length := by
      rw [hva, List.length_append, List.length_singleton] at hlen
      omega
    refine nextDash_eq_none hd (i := boundary.length + 1) (by omega) ?_
    have : buffer boundary ⟨[c], unread⟩ = c :: (v ++ [a]) := by
      rw [← hva]
      rfl
    rw [this, List.getElem?_cons_succ, ← hv, List.getElem?_concat_length, ha]
  · calc unread
        = unread.take (boundary.length + 1) ++ rest boundary ⟨[c], unread⟩ :=
          (List.take_append_drop _ _).symm
      _ = v ++ [a] ++ (dash :: boundary ++
            rest boundary ⟨[c], rest boundary ⟨[c], unread⟩⟩) := by
          rw [hva, ← htail]
          exact congrArg _ (List.take_append_drop _ _).symm
      _ = _ := by simp [List.append_assoc]

/-- Then the search ends one byte too early. -/
theorem run_falseMatch {st st' : Search} (hr : Reaches boundary st st')
    (hf : st'.FalseMatch boundary) :
    ∀ fuel saveBuf, st.Room boundary → st.unread.length < fuel →
      (run boundary fuel st saveBuf).1 = true ∧ ∃ v a rest, a ≠ dash ∧
        st.unread = v ++ a :: dash :: boundary ++ rest ∧
        (run boundary fuel st saveBuf).2.2 = RawMemIstream.ofBytes rest := by
  induction hr using Relation.ReflTransGen.head_induction_on with
  | refl =>
    intro fuel saveBuf hroom hfuel
    obtain ⟨v, a, ha, hunread⟩ := hf.unread_eq hroom
    obtain ⟨⟨hc, hd, -⟩, hmatch⟩ := hf
    obtain ⟨fuel, rfl⟩ : ∃ k, fuel = k + 2 := by
      refine ⟨fuel - 2, ?_⟩
      rw [hunread] at hfuel
      simp only [List.length_append, List.length_cons] at hfuel
      omega
    obtain ⟨saveBuf', hrun⟩ := (Step.keep hc hd).run_eq (fuel + 1) saveBuf
    have hlong : ¬ st'.carry.length + (st'.rest boundary).length < boundary.length + 2 := by
      have hlen := congrArg List.length hmatch
      rw [buffer, List.length_append, List.length_take, length_delimiter] at hlen
      simp only at hlen
      omega
    rw [hrun, run, if_neg hlong, if_pos hmatch]
    exact ⟨rfl, v, a, _, ha, hunread, rfl⟩
  | head hs _ ih =>
    intro fuel saveBuf hroom hfuel
    have hlt := hs.length_lt hroom
    obtain ⟨fuel, rfl⟩ : ∃ k, fuel = k + 1 := ⟨fuel - 1, by omega⟩
    obtain ⟨saveBuf', hrun⟩ := hs.run_eq fuel saveBuf
    obtain ⟨hfound, v, a, rest, ha, hunread, hpos⟩ :=
      ih fuel saveBuf' (hs.room hroom) (by omega)
    obtain ⟨w, hw⟩ := hs.unread_suffix
    rw [hrun]
    refine ⟨hfound, w ++ v, a, rest, ha, ?_, hpos⟩
    rw [← hw, hunread]
    simp [List.append_assoc]

/-- No occurrence of the delimiter ends there. -/
theorem not_occursAt_of_early {s v rest : List Byte} {a : Byte} (ha : a ≠ dash)
    (hs : s = v ++ a :: dash :: boundary ++ rest) {i : Nat}
    (hi : OccursAt (delimiter boundary) s i)
    (hrest : rest = s.drop (i + (delimiter boundary).length)) : False := by
  have hle := hi.le_length (List.cons_ne_nil _ _)
  have hlen := congrArg List.length hrest
  rw [List.length_drop, length_delimiter] at hlen
  rw [length_delimiter] at hle
  have hv : i = v.length := by
    have := congrArg List.length hs
    simp only [List.length_append, List.length_cons] at this
    omega
  have hget := hi.getElem?_eq
  rw [hs, hv, List.append_assoc, List.getElem?_append_right le_rfl] at hget
  simp only [Nat.sub_self, List.cons_append, List.getElem?_cons_zero, Option.some.injEq] at hget
  exact ha hget

/-! ## Stale bytes saved again -/

theorem neverStale_of_step {st st' : Search} (h : Step boundary st st')
    (hns : ¬ st.Stale boundary) (hns' : st'.NeverStale boundary) : st.NeverStale boundary := by
  intro st'' hr
  rcases Relation.ReflTransGen.cases_head hr with rfl | ⟨mid, hmid, hr'⟩
  · exact hns
  · have : mid = st' := by
      cases h with
      | move hc hd =>
        cases hmid with
        | move hc' hd' => rw [hd, Option.some.injEq] at hd'; rw [hd']
        | keep hc' hd' => rw [hd] at hd'; cases hd'
      | keep hc hd =>
        cases hmid with
        | move hc' hd' => rw [hd] at hd'; cases hd'
        | keep => rfl
    subst this
    exact hns' st'' hr'

theorem neverStale_of_not_continues {st : Search} (h : ¬ st.Continues boundary) :
    st.NeverStale boundary := by
  intro st' hr
  rcases Relation.ReflTransGen.cases_head hr with rfl | ⟨mid, hmid, -⟩
  · exact fun hst => h hst.1
  · exact absurd hmid.continues h

/-- Each byte ahead is saved, is part of the delimiter or is left in the stream, and every stale
byte is saved once more. -/
theorem run_length (fuel : Nat) (st : Search) (old : List Byte) (hroom : st.Room boundary)
    (hfound : (run boundary fuel st (some old)).1 = true) :
    ∃ saved rest, (run boundary fuel st (some old)).2 = (some saved, RawMemIstream.ofBytes rest) ∧
      old.length + st.ahead.length ≤ saved.length + (boundary.length + 2) + rest.length ∧
      (saved.length + (boundary.length + 2) + rest.length = old.length + st.ahead.length →
        st.NeverStale boundary) := by
  induction fuel generalizing st old with
  | zero => exact absurd hfound Bool.false_ne_true
  | succ fuel ih =>
    rcases run_cases fuel st (some old) with
      ⟨hshort, hr⟩ | ⟨hlong, hm, hr⟩ | ⟨pos, hc, hd, hr⟩ | ⟨hc, hd, hr⟩
    · rw [hr] at hfound
      exact absurd hfound Bool.false_ne_true
    · refine ⟨old, st.rest boundary, by rw [hr], ?_, fun _ => ?_⟩
      · rw [rest_eq_drop hroom, List.length_drop]
        omega
      · exact neverStale_of_not_continues fun hc => hc.2 hm
    · obtain ⟨hpos, hlt, -⟩ := nextDash_eq_some hd
      have hs := Step.move hc hd
      rw [hr] at hfound
      obtain ⟨saved, rest, heq, hle, hns⟩ := ih _ _ (hs.room hroom) hfound
      have hlen : (old ++ (st.buffer boundary).take pos).length +
          (ahead ⟨(st.buffer boundary).drop pos, st.rest boundary⟩).length =
            old.length + st.ahead.length := by
        have := congrArg List.length (@buffer_append_rest boundary st)
        rw [List.length_append] at this
        simp only [ahead, List.length_append, List.length_take, List.length_drop] at this ⊢
        omega
      rw [hlen] at hle hns
      refine ⟨saved, rest, by rw [hr]; exact heq, hle, fun h => ?_⟩
      refine neverStale_of_step hs (fun hst => ?_) (hns h)
      have := hst.2.1
      rw [hd] at this
      cases this
    · have hs := Step.keep hc hd
      rw [hr] at hfound
      obtain ⟨saved, rest, heq, hle, hns⟩ := ih _ _ (hs.room hroom) hfound
      have hlen : (old ++ st.buffer boundary).length +
          (ahead ⟨st.carry, st.rest boundary⟩).length =
            old.length + st.ahead.length + st.carry.length := by
        have := congrArg List.length (@buffer_append_rest boundary st)
        rw [List.length_append] at this
        simp only [ahead, List.length_append] at this ⊢
        omega
      rw [hlen] at hle hns
      refine ⟨saved, rest, by rw [hr]; exact heq, by omega, fun h => ?_⟩
      have hcarry : st.carry = [] := List.length_eq_zero_iff.1 (by omega)
      exact neverStale_of_step hs (fun hst => hst.2.2 hcarry) (hns (by omega))

end Search

/-! ## The whole function -/

open Search

theorem findMultipartBoundary_some (boundary old s : List Byte) :
    findMultipartBoundary (RawMemIstream.ofBytes s) boundary (some old) =
      run boundary (s.length + 1) ⟨[], s⟩ (some old) :=
  search_eq_run (s.length + 1) ⟨[], s⟩ _ (some old) (Nat.succ_pos _) rfl

theorem skipLineEnds_eq (s : List Byte) (fuel : Nat) (hfuel : s.length < fuel) :
    FindMultipartBoundary.skipLineEnds fuel (RawMemIstream.ofBytes s) =
      match s.dropWhile isLineEnd with
      | [] => (none, ⟨[], true⟩)
      | c :: r => (some c, RawMemIstream.ofBytes r) := by
  induction s generalizing fuel with
  | nil =>
    obtain ⟨fuel, rfl⟩ : ∃ k, fuel = k + 1 := ⟨fuel - 1, by omega⟩
    rfl
  | cons c r ih =>
    obtain ⟨fuel, rfl⟩ : ∃ k, fuel = k + 1 := ⟨fuel - 1, by omega⟩
    have hread : RawIstream.read (RawMemIstream.ofBytes (c :: r)) 1 =
        ([c], RawMemIstream.ofBytes r) := rfl
    have herr : ¬ RawIstream.hasError (RawMemIstream.ofBytes r) = true := Bool.false_ne_true
    rw [FindMultipartBoundary.skipLineEnds, hread]
    simp only [if_neg herr]
    by_cases hc : c = 0x0d ∨ c = 0x0a
    · have hline : isLineEnd c = true := by simpa [isLineEnd] using hc
      rw [if_pos (show [c].headD 0 = 0x0d ∨ [c].headD 0 = 0x0a from hc),
        List.dropWhile_cons_of_pos hline]
      exact ih fuel (by rw [List.length_cons] at hfuel; omega)
    · have hline : ¬ isLineEnd c = true := by simpa [isLineEnd] using hc
      rw [if_neg (show ¬ ([c].headD 0 = 0x0d ∨ [c].headD 0 = 0x0a) from hc),
        List.dropWhile_cons_of_neg hline]
      rfl

theorem findMultipartBoundary_none (boundary s : List Byte) :
    findMultipartBoundary (RawMemIstream.ofBytes s) boundary none =
      match s.dropWhile isLineEnd with
      | [] => (false, none, ⟨[], true⟩)
      | c :: r => run boundary (r.length + 1) ⟨[c], r⟩ none := by
  have hskip := skipLineEnds_eq s (s.length + 1) (Nat.lt_succ_self _)
  cases hs : s.dropWhile isLineEnd with
  | nil =>
    rw [hs] at hskip
    simp only [findMultipartBoundary]
    rw [show (RawMemIstream.ofBytes s).mem = s from rfl, hskip]
  | cons c r =>
    rw [hs] at hskip
    simp only [findMultipartBoundary]
    rw [show (RawMemIstream.ofBytes s).mem = s from rfl, hskip]
    exact search_eq_run (r.length + 1) ⟨[c], r⟩ _ none (show 1 < boundary.length + 2 by omega) rfl

/-- The delimiter does not start with a line end. -/
theorem not_occursAt_lineEnd (boundary s : List Byte) {j : Nat}
    (hj : j < (s.takeWhile isLineEnd).length) : ¬ OccursAt (delimiter boundary) s j := by
  intro hocc
  have hget := hocc.getElem?_eq
  rw [← List.takeWhile_append_dropWhile (p := isLineEnd) (l := s),
    List.getElem?_append_left hj] at hget
  have := (List.all_eq_true.1 (List.all_takeWhile (p := isLineEnd) (l := s))) _
    (List.mem_of_getElem? hget)
  exact absurd this (by decide)

theorem Search.Outcome.found {boundary s : List Byte}
    {r : Bool × Option (List Byte) × RawMemIstream} (h : Outcome boundary s r) :
    r.1 = true ↔ delimiter boundary <:+: s := by
  rw [← exists_occursAt_iff_infix]
  rcases h with ⟨hr, hnone⟩ | ⟨hr, i, hi, -⟩
  · exact ⟨fun htrue => absurd (hr.symm.trans htrue) Bool.false_ne_true, fun h => absurd h hnone⟩
  · exact ⟨fun _ => ⟨i, hi.1⟩, fun _ => hr⟩

theorem Search.Outcome.position {boundary s : List Byte}
    {r : Bool × Option (List Byte) × RawMemIstream} (h : Outcome boundary s r) (hr : r.1 = true) :
    ∃ i, FirstAt (delimiter boundary) s i ∧
      r.2.2 = RawMemIstream.ofBytes (s.drop (i + (delimiter boundary).length)) := by
  rcases h with ⟨hfalse, -⟩ | ⟨-, hi⟩
  · exact absurd (hfalse.symm.trans hr) Bool.false_ne_true
  · exact hi

/-- A search that takes stale bytes for the delimiter does not keep the promise. -/
theorem FindsBoundary.noFalseMatch {boundary s before : List Byte} {saveBuf : Option (List Byte)}
    {st : Search} {fuel : Nat} (h : FindsBoundary boundary saveBuf s)
    (hrun : findMultipartBoundary (RawMemIstream.ofBytes s) boundary saveBuf =
      run boundary fuel st saveBuf)
    (hroom : st.Room boundary) (hfuel : st.unread.length < fuel) (hs : s = before ++ st.unread) :
    st.NoFalseMatch boundary := by
  intro st' hr hf
  obtain ⟨hfound, v, a, rest, ha, hunread, hpos⟩ := run_falseMatch hr hf fuel saveBuf hroom hfuel
  rw [← hrun] at hfound hpos
  obtain ⟨i, hi, hrest⟩ := h.position hfound
  rw [hpos, RawMemIstream.ofBytes, RawMemIstream.ofBytes, RawMemIstream.mk.injEq] at hrest
  refine not_occursAt_of_early (v := before ++ v) ha ?_ hi.1 hrest.1
  rw [hs, hunread]
  simp [List.append_assoc]

theorem findsBoundary_some_iff (boundary old s : List Byte) :
    FindsBoundary boundary (some old) s ↔
      Search.NeverStale boundary ⟨[], s⟩ ∨
        ¬ delimiter boundary <:+: s ∧ Search.NoFalseMatch boundary ⟨[], s⟩ := by
  have hrun := findMultipartBoundary_some boundary old s
  have hroom : Room boundary ⟨[], s⟩ := Nat.succ_pos _
  have hfuel : s.length < s.length + 1 := Nat.lt_succ_self _
  constructor
  · intro h
    by_cases hocc : delimiter boundary <:+: s
    · left
      have hfound := h.found.2 hocc
      obtain ⟨i, hi, hpos⟩ := h.position hfound
      obtain ⟨i', hi', hsaved⟩ := h.saved old rfl hfound
      rw [← hi.unique hi'] at hsaved
      rw [hrun] at hfound hpos hsaved
      obtain ⟨saved, rest, heq, -, hns⟩ := run_length (s.length + 1) ⟨[], s⟩ old hroom hfound
      rw [heq, Option.some.injEq] at hsaved
      rw [heq, RawMemIstream.ofBytes, RawMemIstream.ofBytes, RawMemIstream.mk.injEq] at hpos
      have hle := hi.1.le_length (List.cons_ne_nil _ _)
      refine hns ?_
      rw [show saved = _ from hsaved, show rest = _ from hpos.1, List.length_append,
        List.length_take, List.length_drop]
      rw [length_delimiter] at hle ⊢
      simp only [ahead, List.nil_append]
      omega
    · exact Or.inr ⟨hocc, h.noFalseMatch hrun hroom hfuel (List.nil_append s).symm⟩
  · intro h
    have hnf : Search.NoFalseMatch boundary ⟨[], s⟩ := by
      rcases h with hns | ⟨-, hnf⟩
      · exact fun st' hr hf => hns st' hr hf.1
      · exact hnf
    have hout := run_outcome (s.length + 1) ⟨[], s⟩ (some old) hfuel hroom hnf
    rw [← hrun] at hout
    refine ⟨hout.found, hout.position, ?_⟩
    rintro old' hold hfound
    obtain rfl : old = old' := Option.some.inj hold
    obtain ⟨i, hi, -⟩ := hout.position hfound
    have hocc := hout.found.1 hfound
    rcases h with hns | ⟨hnone, -⟩
    · exact ⟨i, hi, by rw [hrun]; exact run_saved (s.length + 1) ⟨[], s⟩ old hfuel hroom hns hi⟩
    · exact absurd hocc hnone

theorem findsBoundary_none_iff (boundary s : List Byte) :
    FindsBoundary boundary none s ↔
      ∀ c r, s.dropWhile isLineEnd = c :: r → Search.NoFalseMatch boundary ⟨[c], r⟩ := by
  have hrun := findMultipartBoundary_none boundary s
  have hdrop := dropWhile_eq_drop isLineEnd s
  have hbefore := fun j (hj : j < (s.takeWhile isLineEnd).length) =>
    not_occursAt_lineEnd boundary s hj
  cases hs : s.dropWhile isLineEnd with
  | nil =>
    rw [hs] at hrun hdrop
    have hnone : ¬ delimiter boundary <:+: s := by
      rw [← exists_occursAt_iff_infix]
      rintro ⟨i, hi⟩
      have hle := hi.le_length (List.cons_ne_nil _ _)
      rw [length_delimiter] at hle
      have := List.drop_eq_nil_iff.1 hdrop.symm
      exact hbefore i (by omega) hi
    refine ⟨fun _ c r h => absurd h (List.cons_ne_nil c r).symm,
      fun _ => ⟨?_, ?_, fun old h => by cases h⟩⟩
    · rw [hrun]
      exact ⟨fun h => absurd h Bool.false_ne_true, fun h => absurd h hnone⟩
    · intro h
      rw [hrun] at h
      exact absurd h Bool.false_ne_true
  | cons c r =>
    rw [hs] at hrun hdrop
    simp only at hrun
    have hroom : Room boundary ⟨[c], r⟩ := show 1 < boundary.length + 2 by omega
    have hfuel : r.length < r.length + 1 := Nat.lt_succ_self _
    constructor
    · rintro h c' r' heq
      obtain ⟨rfl, rfl⟩ := List.cons.inj heq
      have hs' : s = s.takeWhile isLineEnd ++ [c] ++ r := by
        rw [List.append_assoc]
        exact (List.takeWhile_append_dropWhile (p := isLineEnd) (l := s) |>.symm).trans
          (congrArg _ hs)
      exact h.noFalseMatch hrun hroom hfuel hs'
    · intro h
      have hout := run_outcome (r.length + 1) ⟨[c], r⟩ none hfuel hroom (h c r rfl)
      rw [← hrun] at hout
      have hout' := hout.transfer hbefore (fun j hj => absurd hj (Nat.not_lt_zero j))
        (show _ = (ahead ⟨[c], r⟩).drop 0 from hdrop.symm)
      exact ⟨hout'.found, hout'.position, fun old h => by cases h⟩

/-- `FindMultipartBoundary` keeps its promise exactly when no stale bytes get in its way. -/
theorem findsBoundary_iff (boundary : List Byte) (saveBuf : Option (List Byte)) (s : List Byte) :
    FindsBoundary boundary saveBuf s ↔ FindsWhen boundary saveBuf s := by
  cases saveBuf with
  | none => exact findsBoundary_none_iff boundary s
  | some old => exact findsBoundary_some_iff boundary old s

/-- In `-xyz-ab` the `'-'` at the start is still in the buffer when `-ab` is read, and `--ab` is
reported although it does not occur. -/
theorem not_findsBoundary_ab :
    ¬ FindsBoundary [0x61, 0x62] none [0x2d, 0x78, 0x79, 0x7a, 0x2d, 0x61, 0x62] := by
  intro h
  have hocc := h.found.1 (by decide +kernel)
  revert hocc
  decide

end Wpi

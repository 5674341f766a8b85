import Mathlib.Data.List.SplitLengths
import Mathlib.Data.Option.Basic
import WpiUtil.Support.FdCursor

/-!
# What a `raw_fd_istream` delivers

A request that straddles a refill is answered with the bytes left in the buffer, repeated: the
stream delivers the content only as long as that makes no difference.
-/

namespace Wpi

open RawIstream

/-! ## `raw_mem_istream` -/

/-- A memory stream delivers the prefix asked for. -/
theorem readAll_mem (c : List Byte) (lens : List Nat) (h : lens.sum ≤ c.length) :
    readAll (RawMemIstream.ofBytes c) lens =
      (c.take lens.sum, RawMemIstream.ofBytes (c.drop lens.sum)) := by
  induction lens generalizing c with
  | nil => simp [readAll]
  | cons len lens ih =>
    simp only [List.sum_cons] at h
    have hread : read (RawMemIstream.ofBytes c) len =
        (c.take len, RawMemIstream.ofBytes (c.drop len)) := by
      show RawMemIstream.readImpl _ _ = _
      rw [RawMemIstream.readImpl, if_neg (by simp [RawMemIstream.ofBytes]; omega)]
      rfl
    simp only [readAll, hread, List.sum_cons]
    rw [ih (c.drop len) (by simp; omega), List.drop_drop, ← List.take_add]

/-! ## One request -/

namespace FdCursor

theorem advance_le_left {left : Nat} (len : Nat) (h : 0 < left) : advance left len ≤ left := by
  unfold advance
  split
  · omega
  · exact Nat.mod_lt _ h

theorem advance_le (left len : Nat) : advance left len ≤ len := by
  unfold advance
  split
  · omega
  · have := Nat.mod_le (len - 1) left
    omega

theorem advance_of_le {left len : Nat} (h : len ≤ left) : advance left len = len := by
  unfold advance
  split
  · omega
  · rw [Nat.mod_eq_of_lt (by omega)]
    omega

theorem advance_sub {left len : Nat} (h : left < len) :
    advance left (len - left) = advance left len := by
  have hl : len - 1 = (len - left - 1) + left := by omega
  rw [advance, advance, if_neg (by omega), if_neg (by omega), hl, Nat.add_mod_right]

theorem length_serve (c : FdCursor) (len : Nat) : (c.serve len).1.length = len := by
  unfold serve
  split
  · simp_all
  · simp

theorem refill_off (c : FdCursor) : c.refill.off = c.off := by
  unfold refill
  split <;> rfl

theorem serve_off_le (c : FdCursor) (len : Nat) : (c.serve len).2.off ≤ c.off + len := by
  unfold serve
  split
  · exact Nat.le_add_right _ _
  · have := advance_le c.refill.left len
    simp only [refill_off]
    omega

theorem length_positions (c : FdCursor) (lens : List Nat) :
    (c.positions lens).length = lens.sum := by
  induction lens generalizing c with
  | nil => rfl
  | cons len lens ih => simp [positions, length_serve, ih]

end FdCursor

open FdCursor

variable {bufSize : Nat}

/-- A non-empty buffer serves any request alone, from its own bytes over and over again. -/
theorem readImpl_cyclic (s : RawFdIstream bufSize) (hs : s.avail ≠ []) (len : Nat) :
    s.readImpl len =
      ((List.range len).map fun i => s.avail.getD (i % s.avail.length) 0,
        { s with avail := s.avail.drop (advance s.avail.length len) }) := by
  have hpos : 0 < s.avail.length := List.length_pos_iff.2 hs
  induction len using Nat.strong_induction_on with
  | _ len ih =>
    by_cases h : len ≤ s.avail.length
    · rw [RawFdIstream.readImpl_of_le h, advance_of_le h]
      congr 1
      refine List.ext_getElem (by simpa using h) fun i hi _ => ?_
      have hi' : i < s.avail.length := by simp at hi; omega
      simp [Nat.mod_eq_of_lt hi', hi']
    · have hlt : s.avail.length < len := by omega
      rw [RawFdIstream.readImpl_straddle hs hlt, ih _ (by omega), advance_sub hlt]
      congr 1
      conv => rhs; rw [show len = s.avail.length + (len - s.avail.length) by omega, List.range_add,
        List.map_append]
      congr 1
      · refine List.ext_getElem (by simp) fun i hi _ => ?_
        simp [Nat.mod_eq_of_lt hi, hi]
      · simp

/-- The stream `s` stands at the cursor `c` of a file with the given content. -/
structure CursorAt (content : List Byte) (s : RawFdIstream bufSize) (c : FdCursor) : Prop where
  left : s.avail.length = c.left
  sizes : s.fd.sizes = c.sizes
  bytes : s.avail ++ s.fd.content = content.drop c.off
  ok : s.error = false

theorem cursorAt_start (fd : Descriptor bufSize) :
    CursorAt fd.content (RawFdIstream.ofDescriptor fd) (start fd.sizes) :=
  ⟨rfl, rfl, rfl, rfl⟩

namespace CursorAt

variable {content : List Byte} {s : RawFdIstream bufSize} {c : FdCursor}

/-- Refilling an empty buffer: unless the file is at its end there is a `::read` result, and the
request goes on as if its bytes had been in the buffer all along. -/
theorem refill (h : CursorAt content s c) (len : Nat) (hlen : 0 < len)
    (hoff : c.off < content.length) :
    ∃ s', s.readImpl len = s'.readImpl len ∧ s'.avail ≠ [] ∧ CursorAt content s' c.refill := by
  unfold FdCursor.refill
  split
  · next h0 =>
    have ha : s.avail = [] := List.length_eq_zero_iff.1 (h.left.trans h0)
    have hb := h.bytes
    rw [ha, List.nil_append, Descriptor.content] at hb
    cases hr : s.fd.reads with
    | nil =>
      rw [hr] at hb
      have := List.drop_eq_nil_iff.1 hb.symm
      omega
    | cons r rs =>
      have hc : c.sizes = r.length :: rs.map List.length := by
        rw [← h.sizes, Descriptor.sizes, hr, List.map_cons]
      refine ⟨_, RawFdIstream.readImpl_refill ha hlen hr, ?_, ?_⟩
      · exact List.length_pos_iff.1 (s.fd.read_pos r (by simp [hr]))
      · refine ⟨by simp [hc], by simp [hc, Descriptor.sizes, Descriptor.tail, hr], ?_, h.ok⟩
        rw [← hb, hr]
        simp [Descriptor.content, Descriptor.tail, hr]
  · next h0 =>
    exact ⟨s, rfl, fun ha => h0 (by rw [← h.left, ha]; rfl), h⟩

/-- One request: the bytes come from the positions the cursor names, and the stream stays at the
cursor. -/
theorem serve (h : CursorAt content s c) (len : Nat) (hlen : c.off + len ≤ content.length) :
    (s.readImpl len).1.map some = (c.serve len).1.map (content[·]?) ∧
      CursorAt content (s.readImpl len).2 (c.serve len).2 := by
  by_cases h0 : len = 0
  · subst h0
    rw [RawFdIstream.readImpl_of_le (Nat.zero_le _)]
    simpa [FdCursor.serve] using h
  · obtain ⟨s', hs', hne, h'⟩ := h.refill len (by omega) (by omega)
    have hpos : 0 < s'.avail.length := List.length_pos_iff.2 hne
    rw [hs', readImpl_cyclic s' hne, h'.left, FdCursor.serve, if_neg h0]
    have hleft := h'.left
    have hoff := c.refill_off
    constructor
    · simp only [List.map_map]
      refine List.map_congr_left fun i _ => ?_
      have hi : i % c.refill.left < s'.avail.length := by
        rw [hleft]
        exact Nat.mod_lt _ (hleft ▸ hpos)
      have hb : (content.drop c.refill.off)[i % c.refill.left]? =
          some (s'.avail.getD (i % c.refill.left) 0) := by
        rw [← h'.bytes, List.getElem?_append_left hi]
        simp [hi]
      simpa [List.getElem?_drop] using hb.symm
    · have hadv := advance_le_left len (hleft ▸ hpos)
      refine ⟨by simp [hleft], h'.sizes, ?_, h'.ok⟩
      rw [← List.drop_drop, ← h'.bytes, List.drop_append_of_le_length (by omega)]

/-- A run of requests. -/
theorem readAll (h : CursorAt content s c) (lens : List Nat)
    (hlen : c.off + lens.sum ≤ content.length) :
    (RawIstream.readAll s lens).1.map some = (c.positions lens).map (content[·]?) ∧
      (RawIstream.readAll s lens).2.error = false := by
  induction lens generalizing s c with
  | nil => exact ⟨rfl, h.ok⟩
  | cons len lens ih =>
    simp only [List.sum_cons] at hlen
    obtain ⟨hdata, hs⟩ := h.serve len (by omega)
    have hle := c.serve_off_le len
    obtain ⟨hrest, herr⟩ := ih hs (by omega)
    refine ⟨?_, herr⟩
    show ((s.readImpl len).1 ++ (RawIstream.readAll (s.readImpl len).2 lens).1).map some = _
    rw [List.map_append, hdata, hrest, positions, List.map_append]

end CursorAt

/-- The stream delivers the content exactly when the positions it copies from hold the right
bytes. -/
theorem delivers_iff_sameBytes (fd : Descriptor bufSize) (lens : List Nat)
    (h : lens.sum ≤ fd.content.length) :
    Delivers fd lens ↔ SameBytes fd.content ((start fd.sizes).positions lens) := by
  obtain ⟨hdata, herr⟩ := (cursorAt_start fd).readAll lens (by simpa [start] using h)
  have hlen := length_positions (start fd.sizes) lens
  have hok : hasError (readAll (RawFdIstream.ofDescriptor fd) lens).2 = false := herr
  unfold Delivers SameBytes
  rw [and_iff_left hok, ← (List.map_injective_iff.2 (Option.some_injective Byte)).eq_iff, hdata,
    List.map_take]
  constructor
  · intro heq i p hp
    have hi : i < lens.sum := hlen ▸ (List.getElem?_eq_some_iff.1 hp).1
    have := congrArg (·[i]?) heq
    simp only [List.getElem?_map, hp, Option.map_some, List.getElem?_take, if_pos hi] at this
    rw [List.getElem?_eq_getElem (show i < fd.content.length by omega)] at this ⊢
    simpa using this
  · intro hsame
    refine List.ext_getElem (by simp [hlen, h]) fun i hi _ => ?_
    have hi' : i < ((start fd.sizes).positions lens).length := by simpa using hi
    have := hsame i _ (List.getElem?_eq_getElem hi')
    rw [List.getElem?_eq_getElem (show i < fd.content.length by omega)] at this
    simp [this]

/-! ## Requests that do not straddle -/

theorem serve_of_le {c : FdCursor} {len : Nat} (h : 0 < len → len ≤ c.refill.left) :
    (c.serve len).1 = List.range' c.off len ∧ (c.serve len).2.off = c.off + len := by
  unfold serve
  split
  · simp_all
  · next h0 =>
    have hle := h (by omega)
    refine ⟨?_, by simp [refill_off, advance_of_le hle]⟩
    refine List.ext_getElem (by simp) fun i hi _ => ?_
    have hi' : i < c.refill.left := by simp at hi; omega
    simp [Nat.mod_eq_of_lt hi', refill_off]

/-- Without straddling requests the positions are those of the content, in order. -/
theorem positions_of_noStraddle {c : FdCursor} {lens : List Nat} (h : c.NoStraddle lens) :
    c.positions lens = List.range' c.off lens.sum := by
  induction lens generalizing c with
  | nil => rfl
  | cons len lens ih =>
    obtain ⟨hpos, hoff⟩ := serve_of_le h.1
    rw [positions, hpos, ih h.2, hoff, List.sum_cons, List.range'_append_1]

theorem delivers_of_noStraddle (fd : Descriptor bufSize) (lens : List Nat)
    (h : lens.sum ≤ fd.content.length) (hns : (start fd.sizes).NoStraddle lens) :
    Delivers fd lens := by
  rw [delivers_iff_sameBytes fd lens h, positions_of_noStraddle hns]
  intro i p hp
  obtain ⟨hi, rfl⟩ := List.getElem?_eq_some_iff.1 hp
  simp [start]

/-- The first straddling request is served from a position before the right one. -/
theorem exists_earlier_of_straddle {c : FdCursor} {lens : List Nat} (h : ¬ c.NoStraddle lens)
    (hpos : ∀ n ∈ c.sizes, 0 < n) (hsum : lens.sum ≤ c.left + c.sizes.sum) :
    ∃ j p : Nat, (c.positions lens)[j]? = some p ∧ p < c.off + j := by
  induction lens generalizing c with
  | nil => exact absurd trivial h
  | cons len lens ih =>
    simp only [List.sum_cons] at hsum
    have hsizes : (∀ n ∈ c.refill.sizes, 0 < n) ∧ (0 < len → 0 < c.refill.left) ∧
        c.left + c.sizes.sum = c.refill.left + c.refill.sizes.sum := by
      unfold refill
      split
      · next h0 =>
        cases hs : c.sizes with
        | nil => simp [hs] at hsum ⊢; omega
        | cons n ns =>
          rw [hs] at hpos
          have := hpos n (by simp)
          exact ⟨fun m hm => hpos m (List.mem_cons_of_mem _ hm), by simp [this], by simp [h0]⟩
      · next h0 => exact ⟨hpos, by omega, rfl⟩
    obtain ⟨hpos', hleft, hsum'⟩ := hsizes
    by_cases hfit : 0 < len → len ≤ c.refill.left
    · -- the head request is served in order, so the straddle is further down
      obtain ⟨hhead, hoff⟩ := serve_of_le hfit
      have hrest : ¬ (c.serve len).2.NoStraddle lens := fun hr => h ⟨hfit, hr⟩
      have hinv : (∀ n ∈ (c.serve len).2.sizes, 0 < n) ∧
          lens.sum ≤ (c.serve len).2.left + (c.serve len).2.sizes.sum := by
        unfold serve
        split
        · exact ⟨hpos, by simp_all⟩
        · have hle := hfit (by omega)
          simp only [advance_of_le hle]
          exact ⟨hpos', by omega⟩
      obtain ⟨j, p, hj, hp⟩ := ih hrest hinv.1 hinv.2
      refine ⟨len + j, p, ?_, by omega⟩
      rw [positions, List.getElem?_append_right (by simp [length_serve])]
      simpa [length_serve] using hj
    · -- the byte after the last one in the buffer is the first one in the buffer again
      push Not at hfit
      have hl := hleft hfit.1
      refine ⟨c.refill.left, c.off, ?_, by omega⟩
      rw [positions, List.getElem?_append_left (by simp [length_serve, hfit.2]), serve,
        if_neg (by omega)]
      simp [hfit.2, refill_off]

/-- A file of any content, fragmented in given sizes. -/
def Descriptor.ofSizes (sizes : List Nat) (hpos : ∀ n ∈ sizes, 0 < n)
    (hle : ∀ n ∈ sizes, n ≤ bufSize) (content : List Byte) (h : sizes.sum ≤ content.length) :
    Descriptor bufSize where
  reads := sizes.splitLengths content
  read_pos _ hr := hpos _ (List.map_splitLengths_length content sizes h ▸ List.mem_map_of_mem hr)
  read_le _ hr := hle _ (List.map_splitLengths_length content sizes h ▸ List.mem_map_of_mem hr)

/-- What the stream delivers, exactly. For a given file, the positions the requests are served from
must hold the right bytes; for all files that are fragmented in the same way, no request may
straddle a refill. -/
theorem fd_delivers_iff (fd : Descriptor bufSize) (lens : List Nat)
    (h : lens.sum ≤ fd.content.length) :
    (Delivers fd lens ↔ SameBytes fd.content ((start fd.sizes).positions lens)) ∧
    ((∀ fd' : Descriptor bufSize, fd'.sizes = fd.sizes → Delivers fd' lens) ↔
      (start fd.sizes).NoStraddle lens) := by
  have hlen : fd.sizes.sum = fd.content.length := (List.length_flatten ..).symm
  refine ⟨delivers_iff_sameBytes fd lens h, fun hall => ?_, fun hns fd' hfd' => ?_⟩
  · by_contra hns
    have hpos : ∀ n ∈ fd.sizes, 0 < n := by
      simpa [Descriptor.sizes] using fd.read_pos
    have hle : ∀ n ∈ fd.sizes, n ≤ bufSize := by
      simpa [Descriptor.sizes] using fd.read_le
    obtain ⟨j, p, hj, hp⟩ :=
      exists_earlier_of_straddle hns hpos (by simpa [start, hlen] using h)
    simp only [start, Nat.zero_add] at hp
    have hjlt : j < fd.content.length := by
      have := (List.getElem?_eq_some_iff.1 hj).1
      rw [length_positions] at this
      omega
    -- a file that is zero but at position `j`
    set content : List Byte := (List.range fd.content.length).map fun i => if i = j then 1 else 0
      with hcontent
    have hsum : fd.sizes.sum = content.length := by simp [hcontent, hlen]
    have hsizes : (Descriptor.ofSizes fd.sizes hpos hle content hsum.le).sizes = fd.sizes :=
      List.map_splitLengths_length content fd.sizes hsum.le
    have hflat : (Descriptor.ofSizes fd.sizes hpos hle content hsum.le).content = content :=
      List.flatten_splitLengths content fd.sizes hsum.ge
    have hd := (delivers_iff_sameBytes _ lens (by rw [hflat]; simpa [hcontent] using h)).1
      (hall _ hsizes)
    rw [hsizes, hflat] at hd
    have := hd j p hj
    simp only [hcontent, List.getElem?_map, List.getElem?_range hjlt,
      List.getElem?_range (show p < fd.content.length by omega), Option.map_some,
      if_neg (show p ≠ j by omega), if_true] at this
    exact absurd this (by decide)
  · have hlen' : fd'.sizes.sum = fd'.content.length := (List.length_flatten ..).symm
    refine delivers_of_noStraddle fd' lens ?_ (hfd' ▸ hns)
    rw [← hlen', hfd', hlen]
    exact h

/-- Three bytes that the operating system returns as two and one. -/
def twoThenOne : Descriptor 4096 where
  reads := [[97, 98], [99]]
  read_pos := by decide
  read_le := by decide

theorem fd_delivers_iff_twoThenOne :
    (Delivers twoThenOne [2, 1] ↔
      SameBytes twoThenOne.content ((start twoThenOne.sizes).positions [2, 1])) ∧
    ((∀ fd' : Descriptor 4096, fd'.sizes = twoThenOne.sizes → Delivers fd' [2, 1]) ↔
      (start twoThenOne.sizes).NoStraddle [2, 1]) :=
  fd_delivers_iff twoThenOne [2, 1] (by decide)

/-- Reading one byte and then two delivers `abb` instead of `abc`. -/
theorem not_delivers_twoThenOne :
    [1, 2].sum ≤ twoThenOne.content.length ∧ ¬ Delivers twoThenOne [1, 2] := by
  refine ⟨by decide, fun h => ?_⟩
  have := (delivers_iff_sameBytes twoThenOne [1, 2] (by decide)).1 h 2 1 (by decide)
  exact absurd this (by decide)

end Wpi

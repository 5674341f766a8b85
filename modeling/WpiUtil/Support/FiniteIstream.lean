import WpiUtil.Support.Proofs.FdCursorProofs
import WpiUtil.Support.RawSocketIstream

/-!
# Streams that end

A read takes as many bytes as it asks for and leaves less of the content, or it fails.
-/

namespace Wpi

/-- A stream with a content that comes to an end. -/
class FiniteSource (σ : Type) extends ByteSource σ where
  length_read : ∀ {s : σ} {len : Nat}, hasError (readImpl s len).2 = false →
    (readImpl s len).1.length = len
  read_lt : ∀ {s : σ} {len : Nat}, 0 < len → hasError (readImpl s len).2 = false →
    (content (readImpl s len).2).length < (content s).length

/-- A read that does not fail finds all its bytes. -/
theorem RawMemIstream.readImpl_of_not_error {s : RawMemIstream} {len : Nat}
    (herror : (s.readImpl len).2.error = false) :
    len ≤ s.mem.length ∧ s.readImpl len = (s.mem.take len, { s with mem := s.mem.drop len }) := by
  unfold readImpl at herror ⊢
  split at herror
  · cases herror
  · next hle => exact ⟨Nat.not_lt.1 hle, if_neg hle⟩

instance : FiniteSource RawMemIstream where
  length_read := by
    intro s len herror
    obtain ⟨hle, hread⟩ := RawMemIstream.readImpl_of_not_error herror
    show (s.readImpl len).1.length = len
    rw [hread, List.length_take, Nat.min_eq_left hle]
  read_lt := by
    intro s len hlen herror
    obtain ⟨hle, hread⟩ := RawMemIstream.readImpl_of_not_error herror
    show (s.readImpl len).2.mem.length < s.mem.length
    rw [hread, List.length_drop]
    exact Nat.sub_lt (Nat.lt_of_lt_of_le hlen hle) hlen

variable {bufSize : Nat}

theorem Descriptor.append_content_tail {fd : Descriptor bufSize} {r : List Byte}
    {rs : List (List Byte)} (h : fd.reads = r :: rs) : r ++ fd.tail.content = fd.content := by
  show r ++ fd.reads.tail.flatten = fd.reads.flatten
  rw [h]
  rfl

namespace RawFdIstream

/-- A request that does not fail is served by a buffer that is not empty, if need be after a
refill. -/
theorem exists_readImpl_eq {s : RawFdIstream bufSize} {len : Nat} (hlen : 0 < len)
    (herror : (s.readImpl len).2.error = false) :
    ∃ s' : RawFdIstream bufSize, s'.avail ≠ [] ∧ s.readImpl len = s'.readImpl len ∧
      s'.avail ++ s'.fd.content = s.avail ++ s.fd.content := by
  by_cases havail : s.avail = []
  · cases hreads : s.fd.reads with
    | nil =>
      rw [readImpl_eof havail hlen hreads] at herror
      cases herror
    | cons r rs =>
      refine ⟨⟨r, s.fd.tail, s.error⟩, ?_, readImpl_refill havail hlen hreads, ?_⟩
      · exact List.length_pos_iff.1 (s.fd.read_pos r (by rw [hreads]; exact List.mem_cons_self))
      · rw [havail, List.nil_append, Descriptor.append_content_tail hreads]
  · exact ⟨s, havail, rfl, rfl⟩

end RawFdIstream

instance : FiniteSource (RawFdIstream bufSize) where
  length_read := by
    intro s len herror
    show (s.readImpl len).1.length = len
    rcases Nat.eq_zero_or_pos len with rfl | hlen
    · rw [RawFdIstream.readImpl_of_le (Nat.zero_le _)]
      rfl
    · obtain ⟨s', havail, hread, -⟩ := RawFdIstream.exists_readImpl_eq hlen herror
      rw [hread, readImpl_cyclic s' havail, List.length_map, List.length_range]
  read_lt := by
    intro s len hlen herror
    obtain ⟨s', havail, hread, hcontent⟩ := RawFdIstream.exists_readImpl_eq hlen herror
    have hpos := List.length_pos_iff.2 havail
    have hadvance : 0 < FdCursor.advance s'.avail.length len := by
      rw [FdCursor.advance, if_neg (Nat.ne_of_gt hlen)]
      exact Nat.succ_pos _
    show ((s.readImpl len).2.avail ++ (s.readImpl len).2.fd.content).length <
      (s.avail ++ s.fd.content).length
    rw [hread, readImpl_cyclic s' havail, ← hcontent, List.length_append, List.length_append,
      List.length_drop]
    exact Nat.add_lt_add_right (Nat.sub_lt hpos hadvance) _

theorem RawSocketIstream.le_of_not_error {s : RawSocketIstream} {len : Nat}
    (herror : (s.readImpl len).2.error = false) : len ≤ s.stream.content.length := by
  by_contra hlt
  rw [(readImpl_of_lt (Nat.not_le.1 hlt)).1] at herror
  cases herror

instance : FiniteSource RawSocketIstream where
  length_read := by
    intro s len herror
    exact (RawSocketIstream.readImpl_of_le (RawSocketIstream.le_of_not_error herror)).1
  read_lt := by
    intro s len hlen herror
    have hle := RawSocketIstream.le_of_not_error herror
    show (s.readImpl len).2.stream.content.length < s.stream.content.length
    rw [← s.readImpl_append len, List.length_append, (RawSocketIstream.readImpl_of_le hle).1]
    omega

end Wpi

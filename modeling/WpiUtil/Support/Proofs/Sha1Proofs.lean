import Mathlib.Data.Nat.Basic
import Mathlib.Tactic.Set
import WpiUtil.Support.Sha1

/-!
# Hashing strings and files

`Update` consumes its input block by block, whatever was left over by earlier calls.

`Update(raw_istream&)` takes a `readsome` that returns nothing for the end of the input. A
`raw_fd_istream` has nothing available until its first `read`, so `FromFile` hashes the empty
string.
-/

namespace Wpi.Sha1

open RawIstream

/-! ## Strings -/

/-- Hashing `data`, of which nothing is in the buffer yet: every complete block is transformed, what
is left stays in the buffer. -/
def absorb (sha : Sha1) (data : List Byte) : Sha1 :=
  if data.length < blockBytes then { sha with buffer := data }
  else
    absorb ⟨transform sha.digest (bufferToBlock (data.take blockBytes)), [], sha.transforms + 1⟩
      (data.drop blockBytes)
termination_by data.length
decreasing_by
  rw [List.length_drop, blockBytes] at *
  omega

/-- The loop of `Update` ends on a string, after as many rounds as there are blocks to complete. -/
theorem update_loop_mem (fuel : Nat) (sha : Sha1) (s : List Byte) (hfuel : s.length < fuel)
    (hbuf : sha.buffer.length < blockBytes) :
    (update.loop fuel sha (RawMemIstream.ofBytes s)).1 = absorb sha (sha.buffer ++ s) := by
  induction fuel generalizing sha s with
  | zero => exact absurd hfuel (Nat.not_lt_zero _)
  | succ fuel ih =>
    by_cases hs : s = []
    · subst hs
      have hread : readsome (RawMemIstream.ofBytes []) (blockBytes - sha.buffer.length) =
          (0, [], RawMemIstream.ofBytes []) := readsome_zero (Nat.zero_min _)
      rw [update.loop, hread, absorb, List.append_nil, if_pos hbuf]
      simp only [List.append_nil]
      rw [if_pos (Nat.ne_of_lt hbuf)]
    · have hpos : 0 < s.length := List.length_pos_iff.2 hs
      set n := min s.length (blockBytes - sha.buffer.length) with hn
      have hread : readsome (RawMemIstream.ofBytes s) (blockBytes - sha.buffer.length) =
          (n, s.take n, RawMemIstream.ofBytes (s.drop n)) := by
        refine (readsome_pos (show n ≠ 0 by omega)).trans (congrArg _ ?_)
        exact if_neg (Nat.not_lt.2 (Nat.min_le_left _ _))
      simp only [update.loop, hread]
      by_cases hfull : (sha.buffer ++ s.take n).length ≠ blockBytes
      · -- the string ends before the block does
        rw [if_pos hfull]
        rw [List.length_append, List.length_take] at hfull
        have hshort : (sha.buffer ++ s).length < blockBytes := by
          rw [List.length_append]
          omega
        rw [absorb, if_pos hshort, List.take_of_length_le (by omega)]
      · rw [if_neg hfull]
        rw [ne_eq, not_not] at hfull
        have hlong : ¬ (sha.buffer ++ s).length < blockBytes := by
          rw [List.length_append, List.length_take] at hfull
          rw [List.length_append]
          omega
        have hsplit : sha.buffer ++ s = (sha.buffer ++ s.take n) ++ s.drop n := by
          rw [List.append_assoc, List.take_append_drop]
        refine (ih _ _ ?_ ?_).trans ?_
        · rw [List.length_drop]
          omega
        · exact Nat.succ_pos 63
        · rw [absorb.eq_1 sha, if_neg hlong, hsplit, ← hfull, List.take_left, List.drop_left]
          rfl

theorem updateString_eq (sha : Sha1) (s : List Byte) (hbuf : sha.buffer.length < blockBytes) :
    sha.updateString s = absorb sha (sha.buffer ++ s) :=
  update_loop_mem _ sha s (Nat.lt_succ_self _) hbuf

/-! ## Files -/

/-- `readsome` on a file stream takes from the buffer what it would take from memory. -/
theorem readsome_fd {bufSize : Nat} (is : RawFdIstream bufSize) (len : Nat) :
    ∃ n data rest, readsome (RawMemIstream.ofBytes is.avail) len =
        (n, data, RawMemIstream.ofBytes rest) ∧
      readsome is len = (n, data, { is with avail := rest }) := by
  have hmin : min is.avail.length len ≤ is.avail.length := Nat.min_le_left _ _
  by_cases h : min is.avail.length len = 0
  · exact ⟨0, [], is.avail, readsome_zero h, readsome_zero h⟩
  · refine ⟨_, is.avail.take (min is.avail.length len), is.avail.drop (min is.avail.length len),
      (readsome_pos h).trans (congrArg _ ?_), (readsome_pos h).trans (congrArg _ ?_)⟩
    · exact if_neg (Nat.not_lt.2 hmin)
    · exact RawFdIstream.readImpl_of_le hmin

theorem update_loop_fd {bufSize : Nat} (fuel : Nat) (sha : Sha1) (is : RawFdIstream bufSize) :
    ∃ rest, update.loop fuel sha (RawMemIstream.ofBytes is.avail) =
        ((update.loop fuel sha is).1, RawMemIstream.ofBytes rest) ∧
      (update.loop fuel sha is).2 = { is with avail := rest } := by
  induction fuel generalizing sha is with
  | zero => exact ⟨is.avail, rfl, rfl⟩
  | succ fuel ih =>
    obtain ⟨n, data, rest, hmem, hfd⟩ := readsome_fd is (blockBytes - sha.buffer.length)
    simp only [update.loop, hmem, hfd]
    by_cases h : (sha.buffer ++ data).length ≠ blockBytes
    · rw [if_pos h, if_pos h]
      exact ⟨rest, rfl, rfl⟩
    · rw [if_neg h, if_neg h]
      exact ih _ { is with avail := rest }

/-- `Update` on a file stream hashes what is in its buffer at that moment, and nothing else. -/
theorem update_fd {bufSize : Nat} (sha : Sha1) (is : RawFdIstream bufSize) :
    (sha.update is).1 = sha.updateString is.avail := by
  obtain ⟨rest, hmem, -⟩ := update_loop_fd (inAvail is + 1) sha is
  rw [updateString, update, update]
  exact (congrArg Prod.fst hmem).symm

/-- The digest of the empty string, `da39a3ee5e6b4b0d3255bfef95601890afd80709`. -/
def emptyDigest : List Byte :=
  [100, 97, 51, 57, 97, 51, 101, 101, 53, 101, 54, 98, 52, 98, 48, 100, 51, 50, 53, 53, 98, 102,
    101, 102, 57, 53, 54, 48, 49, 56, 57, 48, 97, 102, 100, 56, 48, 55, 48, 57]

theorem digestOf_nil : digestOf [] = emptyDigest := by decide +kernel

/-- Whatever is in the file, `FromFile` returns the digest of the empty string. -/
theorem fromFile_eq (fd : Descriptor 4096) : fromFile fd = emptyDigest := by
  rw [fromFile, update_fd]
  exact digestOf_nil

/-- `FromFile` hashes the content exactly when the file is empty, or when its content happens to
have the same digest as the empty string. -/
theorem fromFile_eq_digestOf_iff (fd : Descriptor 4096) :
    fromFile fd = digestOf fd.content ↔
      fd.content = [] ∨ fd.content ≠ [] ∧ digestOf fd.content = emptyDigest := by
  rw [fromFile_eq]
  constructor
  · intro h
    by_cases hc : fd.content = []
    · exact Or.inl hc
    · exact Or.inr ⟨hc, h.symm⟩
  · rintro (hc | ⟨-, hc⟩)
    · rw [hc, digestOf_nil]
    · exact hc.symm

/-- The file that holds the letter `a`. -/
def fileA : Descriptor 4096 where
  reads := [[97]]
  read_pos := by decide
  read_le := by decide

theorem fromFile_fileA : fromFile fileA ≠ digestOf fileA.content := by
  rw [fromFile_eq]
  decide +kernel

end Wpi.Sha1

import WpiUtil.Support.RawIstream

/-!
# Streams that are metered

How many characters a stream has been asked for.
-/

namespace Wpi

/-- A stream that counts the characters it is asked for. -/
structure CountedIstream (σ : Type) where
  is : σ
  asked : Nat

/-- A stream of which it may be known how many characters it has been asked for. -/
class MeteredSource (σ : Type) extends ByteSource σ where
  /-- The stream has been asked for this many characters, as far as that is known. -/
  Asked : σ → Nat → Prop
  asked_read : ∀ {s : σ} {k : Nat}, Asked s k → Asked (readImpl s 1).2 (k + 1)

instance {σ : Type} [ByteSource σ] : MeteredSource (CountedIstream σ) where
  inAvail s := RawIstream.inAvail s.is
  readImpl s len := ((RawIstream.readImpl s.is len).1,
    ⟨(RawIstream.readImpl s.is len).2, s.asked + len⟩)
  hasError s := RawIstream.hasError s.is
  content s := ByteSource.content s.is
  read_cons := by
    intro s b bs he hc
    obtain ⟨is', hread, he', hc'⟩ := ByteSource.read_cons he hc
    exact ⟨⟨is', s.asked + 1⟩, by rw [hread], he', hc'⟩
  read_nil := fun hc => ByteSource.read_nil hc
  Asked s k := s.asked = k
  asked_read := by
    rintro s k rfl
    rfl

/-- No more than `n + 1` characters have been asked for. -/
def MeteredSource.Within {σ : Type} [MeteredSource σ] (n : Nat) (is : σ) : Prop :=
  ∃ k ≤ n + 1, MeteredSource.Asked is k

/-- A stream of which nothing is known. -/
abbrev MeteredSource.ofByteSource (σ : Type) [ByteSource σ] : MeteredSource σ where
  Asked _ _ := True
  asked_read := fun _ => trivial

/-- A `raw_mem_istream` does not count. -/
instance : MeteredSource RawMemIstream := .ofByteSource RawMemIstream

/-- A stream in memory that counts. -/
def CountedIstream.ofBytes (s : List Byte) : CountedIstream RawMemIstream :=
  ⟨RawMemIstream.ofBytes s, 0⟩

end Wpi

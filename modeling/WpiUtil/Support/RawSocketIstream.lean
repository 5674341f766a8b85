import WpiUtil.Support.RawIstream

/-!
# `raw_socket_istream`

A stream that reads from a `NetworkStream`. There is no buffer: a read asks the network again until
it has all the bytes.
-/

namespace Wpi

/-- What is to arrive on a `NetworkStream`, piece by piece. After the last piece the connection is
closed, reset or timed out. -/
abbrev Arrivals := List {piece : List Byte // piece ≠ []}

namespace Arrivals

/-- The bytes that are to arrive. -/
def content : Arrivals → List Byte
  | [] => []
  | piece :: rest => piece.1 ++ content rest

/-- `NetworkStream::receive`: at most `len` bytes of the next piece. -/
def receive (len : Nat) : Arrivals → List Byte × Arrivals
  | [] => ([], [])
  | piece :: rest =>
    if h : len < piece.1.length then
      (piece.1.take len,
        ⟨piece.1.drop len, fun hnil => Nat.not_le.2 h (List.drop_eq_nil_iff.1 hnil)⟩ :: rest)
    else (piece.1, rest)

variable {stream stream' : Arrivals} {len : Nat} {data : List Byte}

/-- No more than what is asked for, from the front of the content. -/
theorem receive_spec (h : receive len stream = (data, stream')) :
    data ++ content stream' = content stream ∧ data.length ≤ len := by
  cases stream with
  | nil =>
    cases h
    exact ⟨rfl, Nat.zero_le _⟩
  | cons piece rest =>
    rw [receive] at h
    split at h
    · cases h
      rw [content, content, ← List.append_assoc, List.take_append_drop]
      exact ⟨rfl, List.length_take_le _ _⟩
    · next hle =>
      cases h
      exact ⟨rfl, Nat.not_lt.1 hle⟩

/-- Nothing is received only at the end. -/
theorem content_eq_nil_of_receive (hlen : 0 < len) (h : receive len stream = ([], stream')) :
    content stream = [] := by
  cases stream with
  | nil => rfl
  | cons piece rest =>
    rw [receive] at h
    split at h
    · rcases List.take_eq_nil_iff.1 (congrArg Prod.fst h) with hzero | hnil
      · omega
      · exact absurd hnil piece.2
    · exact absurd (congrArg Prod.fst h) piece.2

end Arrivals

/-- A `raw_socket_istream`. -/
structure RawSocketIstream where
  stream : Arrivals
  error : Bool

namespace RawSocketIstream

/-- `raw_socket_istream(stream)`. -/
def ofStream (stream : Arrivals) : RawSocketIstream := ⟨stream, false⟩

/-- `raw_socket_istream::read_impl`, with `len` for the `len - pos` bytes that are missing. -/
def readImpl (s : RawSocketIstream) (len : Nat) : List Byte × RawSocketIstream :=
  if 0 < len then
    match s.stream.receive len with
    | ([], stream) => ([], ⟨stream, true⟩)
    | (b :: bs, stream) =>
      let (data, s') := readImpl ⟨stream, s.error⟩ (len - (b :: bs).length)
      (b :: bs ++ data, s')
  else ([], s)
termination_by len
decreasing_by
  rw [List.length_cons]
  omega

/-- What is delivered and what is left are the content. -/
theorem readImpl_append (s : RawSocketIstream) (len : Nat) :
    (s.readImpl len).1 ++ (s.readImpl len).2.stream.content = s.stream.content := by
  fun_induction readImpl s len with
  | case1 s len hlen stream hreceive => exact (Arrivals.receive_spec hreceive).1
  | case2 s len hlen b bs stream hreceive data s' hrest ih =>
    rw [hrest] at ih
    rw [List.append_assoc, ih]
    exact (Arrivals.receive_spec hreceive).1
  | case3 s len hlen => rfl

/-- Bytes that are to arrive are waited for. -/
theorem readImpl_of_le {s : RawSocketIstream} {len : Nat} (h : len ≤ s.stream.content.length) :
    (s.readImpl len).1.length = len ∧ (s.readImpl len).2.error = s.error := by
  fun_induction readImpl s len with
  | case1 s len hlen stream hreceive =>
    rw [Arrivals.content_eq_nil_of_receive hlen hreceive, List.length_nil] at h
    omega
  | case2 s len hlen b bs stream hreceive data s' hrest ih =>
    obtain ⟨happend, hle⟩ := Arrivals.receive_spec hreceive
    rw [← happend, List.length_append] at h
    rw [hrest] at ih
    obtain ⟨hlength, herror⟩ := ih (Nat.sub_le_of_le_add (by rwa [Nat.add_comm] at h))
    refine ⟨?_, herror⟩
    rw [List.length_append, hlength, Nat.add_sub_of_le hle]
  | case3 s len hlen => exact ⟨(Nat.eq_zero_of_not_pos hlen).symm, rfl⟩

/-- A read past the end is an error, and takes everything. -/
theorem readImpl_of_lt {s : RawSocketIstream} {len : Nat} (h : s.stream.content.length < len) :
    (s.readImpl len).2.error = true ∧ (s.readImpl len).2.stream.content = [] := by
  fun_induction readImpl s len with
  | case1 s len hlen stream hreceive =>
    refine ⟨rfl, ?_⟩
    rw [← Arrivals.content_eq_nil_of_receive hlen hreceive]
    exact (Arrivals.receive_spec hreceive).1
  | case2 s len hlen b bs stream hreceive data s' hrest ih =>
    rw [← (Arrivals.receive_spec hreceive).1, List.length_append] at h
    rw [hrest] at ih
    exact ih (Nat.lt_sub_of_add_lt (by rwa [Nat.add_comm] at h))
  | case3 s len hlen => omega

/-- A byte that is to arrive is delivered. -/
theorem readImpl_cons {s : RawSocketIstream} {b : Byte} {bs : List Byte} (he : s.error = false)
    (hc : s.stream.content = b :: bs) :
    ∃ s', s.readImpl 1 = ([b], s') ∧ s'.error = false ∧ s'.stream.content = bs := by
  have hle : 1 ≤ s.stream.content.length := by
    rw [hc, List.length_cons]
    omega
  have happend := s.readImpl_append 1
  obtain ⟨hlength, herror⟩ := readImpl_of_le hle
  obtain ⟨c, hdata⟩ := List.length_eq_one_iff.1 hlength
  rw [hdata, hc] at happend
  obtain ⟨rfl, hrest⟩ := List.cons.inj happend
  exact ⟨(s.readImpl 1).2, Prod.ext hdata rfl, herror.trans he, hrest⟩

theorem readImpl_nil {s : RawSocketIstream} (hc : s.stream.content = []) :
    (s.readImpl 1).2.error = true ∧ (s.readImpl 1).2.stream.content = [] :=
  readImpl_of_lt (by rw [hc, List.length_nil]; exact Nat.one_pos)

end RawSocketIstream

instance : ByteSource RawSocketIstream where
  inAvail _ := 0
  readImpl := RawSocketIstream.readImpl
  hasError s := s.error
  content s := s.stream.content
  read_cons := RawSocketIstream.readImpl_cons
  read_nil := RawSocketIstream.readImpl_nil

end Wpi

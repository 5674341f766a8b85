import WpiUtil.Support.Proofs.Sha1Proofs
import WpiUtil.Support.Proofs.Sha1TransformProofs

/-!
# `SHA1` computes the message digest

Every way to split a message leads to the same object, and what `finalize` appends is the padding of
the standard.
-/

namespace Wpi.Sha1

open Foundations SecureHash

/-! ## Updates -/

/-- `transform` with the words of a block. -/
def transformBytes (d : Digest) (block : List Byte) : Digest := transform d (bufferToBlock block)

/-- Full blocks are transformed and counted, and the rest stays in the buffer. -/
theorem absorb_flatten {blocks : List (List Byte)} (hblocks : ∀ b ∈ blocks, b.length = blockBytes)
    {rest : List Byte} (hrest : rest.length < blockBytes) (sha : Sha1) :
    absorb sha (blocks.flatten ++ rest) =
      ⟨blocks.foldl transformBytes sha.digest, rest,
        sha.transforms + UInt64.ofNat blocks.length⟩ := by
  induction blocks generalizing sha with
  | nil =>
    rw [absorb, List.flatten_nil, List.nil_append, if_pos hrest]
    simp
  | cons block blocks ih =>
    rw [List.forall_mem_cons] at hblocks
    have hlong : ¬(block ++ (blocks.flatten ++ rest)).length < blockBytes := by
      rw [List.length_append]
      omega
    rw [List.flatten_cons, List.append_assoc, absorb, if_neg hlong, ← hblocks.1, List.take_left,
      List.drop_left, ih hblocks.2, List.foldl_cons, List.length_cons, UInt64.ofNat_add,
      UInt64.add_assoc, UInt64.add_comm 1]
    rfl

theorem exists_blocks (message : List Byte) :
    ∃ (blocks : List (List Byte)) (rest : List Byte), message = blocks.flatten ++ rest ∧
      (∀ b ∈ blocks, b.length = blockBytes) ∧ rest.length < blockBytes :=
  exists_full_chunks (by decide) message

theorem length_buffer_absorb (message : List Byte) :
    (absorb new message).buffer.length < blockBytes := by
  obtain ⟨blocks, rest, rfl, hblocks, hrest⟩ := exists_blocks message
  rw [absorb_flatten hblocks hrest]
  exact hrest

/-- An update goes on where the one before has stopped. -/
theorem absorb_append (message s : List Byte) :
    absorb (absorb new message) ((absorb new message).buffer ++ s) = absorb new (message ++ s) := by
  obtain ⟨blocks, rest, rfl, hblocks, hrest⟩ := exists_blocks message
  obtain ⟨blocks', rest', hsplit, hblocks', hrest'⟩ := exists_blocks (rest ++ s)
  have hwhole : blocks.flatten ++ rest ++ s = (blocks ++ blocks').flatten ++ rest' := by
    rw [List.append_assoc, hsplit, List.flatten_append, List.append_assoc]
  have hall : ∀ b ∈ blocks ++ blocks', b.length = blockBytes :=
    List.forall_mem_append.2 ⟨hblocks, hblocks'⟩
  rw [hwhole, absorb_flatten hall hrest', absorb_flatten hblocks hrest]
  dsimp only
  rw [hsplit, absorb_flatten hblocks' hrest', List.foldl_append, List.length_append,
    UInt64.ofNat_add, UInt64.add_assoc]

/-- The split into strings does not matter. -/
theorem foldl_updateString (message : List Byte) (strings : List (List Byte)) :
    strings.foldl updateString (absorb new message) = absorb new (message ++ strings.flatten) := by
  induction strings generalizing message with
  | nil => rw [List.flatten_nil, List.append_nil, List.foldl_nil]
  | cons s strings ih =>
    rw [List.foldl_cons, updateString_eq _ s (length_buffer_absorb message), absorb_append, ih,
      List.flatten_cons, List.append_assoc]

/-! ## Padding -/

/-- The hash value after a block. -/
def compressBytes (h : State) (block : List Byte) : State := compress h ((words block).getD · 0)

theorem length_words {n : Nat} {v : List Byte} (h : v.length = 4 * n) : (words v).length = n := by
  obtain ⟨ps, rest, rfl, hps, hrest⟩ := exists_full_chunks (show 4 ≠ 0 by decide) v
  have hflatten := length_flatten_of_full hps
  rw [List.length_append, hflatten] at h
  have hnil : rest = [] := List.length_eq_zero_iff.1 (by omega)
  rw [words, List.length_map, hnil, chunks_flatten_append (by decide) hps, chunks_nil,
    List.append_nil]
  omega

theorem state_transformBytes (d : Digest) {block : List Byte} (h : block.length = blockBytes) :
    (transformBytes d block).state = compressBytes d.state block := by
  rw [transformBytes, bufferToBlock_eq h, transform_state d (length_words h), compressBytes]

theorem state_foldl {blocks : List (List Byte)} (hblocks : ∀ b ∈ blocks, b.length = blockBytes)
    (d : Digest) :
    (blocks.foldl transformBytes d).state = blocks.foldl compressBytes d.state := by
  induction blocks generalizing d with
  | nil => rfl
  | cons block blocks ih =>
    rw [List.forall_mem_cons] at hblocks
    rw [List.foldl_cons, List.foldl_cons, ih hblocks.2, state_transformBytes d hblocks.1]

/-- The padding of what is left in the buffer, for a message of `bits` bits. -/
def padRest (rest : List Byte) (bits : Nat) : List Byte :=
  rest ++ 0x80 :: List.replicate (zeros rest.length) 0 ++ bigEndian 8 bits

theorem pad_flatten {blocks : List (List Byte)} (hblocks : ∀ b ∈ blocks, b.length = blockBytes)
    (rest : List Byte) : pad (blocks.flatten ++ rest) =
      blocks.flatten ++ padRest rest (8 * (blocks.flatten ++ rest).length) := by
  have hzeros : zeros (blocks.flatten ++ rest).length = zeros rest.length := by
    rw [List.length_append, length_flatten_of_full hblocks, blockBytes, zeros, zeros,
      Nat.mul_add_mod]
  rw [pad, padRest, hzeros]
  simp only [List.append_assoc]

/-- The words for `bits` as `finalize` computes them. -/
def lengthWords (bits : UInt64) : List UInt32 := [(bits >>> 32).toUInt32, bits.toUInt32]

theorem words_append_length {p : List Byte} {bits : Nat} (h : p.length = 56) :
    words (p ++ bigEndian 8 bits) = words p ++ lengthWords (UInt64.ofNat bits) := by
  rw [words_append (h ▸ by decide), words_bitLength]
  rfl

theorem length_padded {rest : List Byte} {n : Nat} :
    (rest ++ 0x80 :: List.replicate n 0).length = rest.length + 1 + n := by
  rw [List.length_append, List.length_cons, List.length_replicate, Nat.add_assoc, Nat.add_comm n]

/-- There is room for the length in the block. -/
theorem state_of_short (d : Digest) {rest : List Byte} (h : rest.length + 1 ≤ 56) (bits : Nat) :
    (transform d ((bufferToBlock (rest ++ 0x80 :: List.replicate (63 - rest.length) 0)).take 14 ++
      lengthWords (UInt64.ofNat bits))).state =
        (chunks 64 (padRest rest bits)).foldl compressBytes d.state := by
  have hzeros : zeros rest.length = 55 - rest.length := by
    rw [zeros]
    omega
  have hlength : (rest ++ 0x80 :: List.replicate (55 - rest.length) (0 : Byte)).length = 56 := by
    rw [length_padded]
    omega
  have hbuffer : rest ++ 0x80 :: List.replicate (63 - rest.length) (0 : Byte) =
      rest ++ 0x80 :: List.replicate (55 - rest.length) 0 ++ List.replicate (4 * 2) 0 := by
    rw [show 63 - rest.length = 55 - rest.length + 4 * 2 by omega, List.replicate_add,
      List.append_assoc, List.cons_append]
  rw [padRest, hzeros, hbuffer]
  generalize rest ++ 0x80 :: List.replicate (55 - rest.length) (0 : Byte) = p at hlength ⊢
  have hwords : (words p).length = 14 := length_words hlength
  have hblock : bufferToBlock (p ++ List.replicate (4 * 2) 0) = words p ++ [0, 0] := by
    rw [bufferToBlock_eq (by rw [List.length_append, hlength]; rfl),
      words_append (hlength ▸ by decide), words_replicate]
    rfl
  have hpadded : (p ++ bigEndian 8 bits).length = 64 := by
    rw [List.length_append, hlength, length_bigEndian]
  have hne : p ++ bigEndian 8 bits ≠ [] := by
    rw [← List.length_pos_iff, hpadded]
    decide
  rw [hblock, ← hwords, List.take_left, chunks_of_length_le hne hpadded.le, List.foldl_cons,
    List.foldl_nil, compressBytes, words_append_length hlength, transform_state]
  rw [List.length_append, hwords]
  rfl

/-- The length needs a block of its own. -/
theorem state_of_long (d : Digest) {rest : List Byte} (h : 56 < rest.length + 1)
    (hrest : rest.length < blockBytes) (bits : Nat) :
    (transform (transformBytes d (rest ++ 0x80 :: List.replicate (63 - rest.length) 0))
      (List.replicate 14 0 ++ lengthWords (UInt64.ofNat bits))).state =
        (chunks 64 (padRest rest bits)).foldl compressBytes d.state := by
  rw [blockBytes] at hrest
  have hzeros : zeros rest.length = 63 - rest.length + 56 := by
    rw [zeros]
    omega
  have hlength : (rest ++ 0x80 :: List.replicate (63 - rest.length) (0 : Byte)).length =
      blockBytes := by
    rw [length_padded, blockBytes]
    omega
  have hpadded : padRest rest bits =
      [rest ++ 0x80 :: List.replicate (63 - rest.length) 0].flatten ++
        (List.replicate 56 0 ++ bigEndian 8 bits) := by
    rw [padRest, hzeros, List.replicate_add, List.flatten_singleton]
    simp only [List.append_assoc, List.cons_append]
  have hlast : (List.replicate 56 (0 : Byte) ++ bigEndian 8 bits).length = 64 := by
    rw [List.length_append, List.length_replicate, length_bigEndian]
  have hne : List.replicate 56 (0 : Byte) ++ bigEndian 8 bits ≠ [] := by
    rw [← List.length_pos_iff, hlast]
    decide
  have hfull : ∀ b ∈ [rest ++ 0x80 :: List.replicate (63 - rest.length) (0 : Byte)],
      b.length = 64 := List.forall_mem_singleton.2 hlength
  rw [hpadded, chunks_flatten_append (by decide) hfull,
    chunks_of_length_le hne hlast.le, List.singleton_append, List.foldl_cons, List.foldl_cons,
    List.foldl_nil, ← state_transformBytes d hlength, transform_state, compressBytes,
    words_append_length (List.length_replicate ..), show 56 = 4 * 14 from rfl, words_replicate]
  rw [List.length_append, List.length_replicate]
  rfl

/-! ## Hexadecimal digits -/

theorem hexDigit_eq {v : UInt32} {n : Nat} (h : v.toNat = n) (hn : n < 16) :
    hexDigit v = UInt8.ofNat (Nat.digitChar n).toNat := by
  have htable : ∀ n < 16, hexDigit (UInt32.ofNat n) = UInt8.ofNat (Nat.digitChar n).toNat := by
    decide
  rw [← htable n hn, ← h, UInt32.ofNat_toNat]

theorem toNat_nibble (v : UInt32) {s : Nat} (hs : s < 32) :
    ((v >>> UInt32.ofNat s) &&& 0xf).toNat = v.toNat / 2 ^ s % 16 := by
  have hmod : (UInt32.ofNat s).toNat % 32 = s := by
    rw [UInt32.toNat_ofNat_of_lt' (by rw [UInt32.size]; omega), Nat.mod_eq_of_lt hs]
  rw [UInt32.toNat_and, UInt32.toNat_shiftRight, hmod, Nat.shiftRight_eq_div_pow]
  exact Nat.and_two_pow_sub_one_eq_mod _ 4

/-- The digit for a number below sixteen. -/
def digit (n : Nat) : Byte := UInt8.ofNat (Nat.digitChar n).toNat

theorem hexDigit_nibble (v : UInt32) {s : Nat} (hs : s < 32) :
    hexDigit ((v >>> UInt32.ofNat s) &&& 0xf) = digit (v.toNat / 2 ^ s % 16) :=
  hexDigit_eq (toNat_nibble v hs) (Nat.mod_lt _ (by decide))

theorem hexByte_ofNat (n : Nat) :
    hexByte (UInt8.ofNat n) = [digit (n / 16 % 16), digit (n % 16)] := by
  have hhigh : n % 256 / 16 = n / 16 % 16 := by omega
  have hlow : n % 256 % 16 = n % 16 := by omega
  rw [hexByte, UInt8.toNat_ofNat', show 2 ^ 8 = 256 from rfl, hhigh, hlow]
  rfl

theorem hexWord_eq (v : UInt32) : hexWord v = SecureHash.hexWord v := by
  have hdigits : hexWord v =
      [digit (v.toNat / 2 ^ 28 % 16), digit (v.toNat / 2 ^ 24 % 16),
        digit (v.toNat / 2 ^ 20 % 16), digit (v.toNat / 2 ^ 16 % 16),
        digit (v.toNat / 2 ^ 12 % 16), digit (v.toNat / 2 ^ 8 % 16),
        digit (v.toNat / 2 ^ 4 % 16), digit (v.toNat / 2 ^ 0 % 16)] := by
    rw [← hexDigit_nibble v (show 28 < 32 by decide), ← hexDigit_nibble v (show 24 < 32 by decide),
      ← hexDigit_nibble v (show 20 < 32 by decide), ← hexDigit_nibble v (show 16 < 32 by decide),
      ← hexDigit_nibble v (show 12 < 32 by decide), ← hexDigit_nibble v (show 8 < 32 by decide),
      ← hexDigit_nibble v (show 4 < 32 by decide), ← hexDigit_nibble v (show 0 < 32 by decide)]
    rfl
  rw [hdigits, SecureHash.hexWord]
  simp only [bigEndian, List.flatMap_cons, List.flatMap_nil, hexByte_ofNat, List.cons_append,
    List.nil_append, Nat.div_div_eq_div_mul]
  rfl

/-! ## The digest -/

theorem hex_state (d : Digest) : d.state.hex = d.hex := by
  simp only [Digest.hex, State.hex, Digest.state, hexWord_eq]

theorem totalBits_eq (blocks rest : Nat) :
    (UInt64.ofNat blocks * blockBytes.toUInt64 + rest.toUInt64) * 8 =
      UInt64.ofNat (8 * (64 * blocks + rest)) := by
  rw [Nat.mul_comm 8, Nat.mul_comm 64, UInt64.ofNat_mul, UInt64.ofNat_add, UInt64.ofNat_mul]
  rfl

/-- What `finalize` does, in the two cases of its padding. -/
theorem final_eq (d : Digest) (rest : List Byte) (transforms : UInt64) :
    (⟨d, rest, transforms⟩ : Sha1).final =
      let padded := rest ++ 0x80 :: List.replicate (63 - rest.length) 0
      let bits := (transforms * blockBytes.toUInt64 + rest.length.toUInt64) * 8
      ((if 56 < rest.length + 1 then
          transform (transformBytes d padded) (List.replicate 14 0 ++ lengthWords bits)
        else transform d ((bufferToBlock padded).take 14 ++ lengthWords bits)).hex, new) := by
  have hlength : (rest ++ [0x80]).length = rest.length + 1 := List.length_append
  have hpadded : rest ++ [0x80] ++ List.replicate (blockBytes - (rest ++ [0x80]).length) 0 =
      rest ++ 0x80 :: List.replicate (63 - rest.length) (0 : Byte) := by
    rw [hlength, List.append_assoc, blockBytes, Nat.add_comm, ← Nat.sub_sub]
    rfl
  rw [final]
  dsimp only
  rw [hpadded, hlength]
  by_cases h : 56 < rest.length + 1
  · rw [if_pos (show rest.length + 1 > blockBytes - 8 from h), if_pos h]
    rfl
  · rw [if_neg (show ¬rest.length + 1 > blockBytes - 8 from h), if_neg h]
    rfl

theorem final_absorb (message : Message) :
    (absorb new message.bytes).final = ((SecureHash.digest message).hex, new) := by
  obtain ⟨message, hmessage⟩ := message
  obtain ⟨blocks, rest, rfl, hblocks, hrest⟩ := exists_blocks message
  have hlength : (blocks.flatten ++ rest).length = 64 * blocks.length + rest.length := by
    rw [List.length_append, length_flatten_of_full hblocks, blockBytes]
  have hinit : Digest.init.state = SecureHash.init := rfl
  have hdigest : SecureHash.digest ⟨blocks.flatten ++ rest, hmessage⟩ =
      (chunks 64 (padRest rest (8 * (blocks.flatten ++ rest).length))).foldl compressBytes
        (blocks.foldl transformBytes Digest.init).state := by
    rw [state_foldl hblocks, ← List.foldl_append, hinit]
    have hchunks : blocks ++ chunks 64 (padRest rest (8 * (blocks.flatten ++ rest).length)) =
        chunks 64 (pad (blocks.flatten ++ rest)) := by
      rw [pad_flatten hblocks]
      exact (chunks_flatten_append (by decide) hblocks _).symm
    rw [hchunks]
    rfl
  have habsorb : absorb new (blocks.flatten ++ rest) =
      ⟨blocks.foldl transformBytes Digest.init, rest, UInt64.ofNat blocks.length⟩ := by
    rw [absorb_flatten hblocks hrest, new, UInt64.zero_add]
  rw [hdigest, hlength, habsorb, final_eq]
  dsimp only
  rw [totalBits_eq]
  by_cases h : 56 < rest.length + 1
  · rw [if_pos h, ← hex_state, state_of_long _ h hrest]
  · rw [if_neg h, ← hex_state, state_of_short _ (Nat.not_lt.1 h)]

/-- For every split of a message into strings, `Final` returns its message digest, and resets the
object. -/
theorem final_foldl_updateString {strings : List (List Byte)}
    (h : strings.flatten.length < 2 ^ 61) :
    (strings.foldl updateString new).final =
      ((SecureHash.digest ⟨strings.flatten, by omega⟩).hex, new) := by
  have hnew : absorb new [] = new := by
    rw [absorb, if_pos (by decide)]
    rfl
  have hall := foldl_updateString [] strings
  rw [hnew, List.nil_append] at hall
  rw [hall]
  exact final_absorb ⟨strings.flatten, by omega⟩

/-- The test vector `abc`, in three strings. -/
theorem final_foldl_updateString_abc :
    [bytes "a", [], bytes "bc"].flatten.length < 2 ^ 61 ∧
      ([bytes "a", [], bytes "bc"].foldl updateString new).final =
        ((SecureHash.digest ⟨[bytes "a", [], bytes "bc"].flatten, by decide⟩).hex, new) := by
  have h : [bytes "a", [], bytes "bc"].flatten.length < 2 ^ 61 := by decide
  exact ⟨h, final_foldl_updateString h⟩

example : digestOf (bytes "abc") = bytes "a9993e364706816aba3e25717850c26c9cd0d89d" := by
  decide +kernel

end Wpi.Sha1

import WpiUtil.Support.RawIstream

/-!
# Unsigned LEB128

`SizeUleb128`, `WriteUleb128` and the two overloads of `ReadUleb128`. Values are 64-bit, but both
readers accumulate into a `uint32_t`.
-/

namespace Wpi

theorem UInt64.shiftRight_seven_lt {val : UInt64} (h : val >>> 7 ≠ 0) :
    (val >>> 7).toNat < val.toNat := by
  have h0 : (val >>> 7).toNat ≠ 0 := fun h' => h (UInt64.toNat_inj.1 h')
  rw [UInt64.toNat_shiftRight, UInt64.toNat_ofNat, Nat.shiftRight_eq_div_pow] at h0 ⊢
  simp only [Nat.reducePow, Nat.reduceMod] at h0 ⊢
  omega

/-- `SizeUleb128`, from the `count` reached so far. -/
def sizeUleb128.loop (val : UInt64) (count : Nat) : Nat :=
  let val' := val >>> 7
  if val' ≠ 0 then loop val' (count + 1) else count + 1
termination_by val.toNat
decreasing_by exact UInt64.shiftRight_seven_lt ‹_›

def sizeUleb128 (val : UInt64) : Nat := sizeUleb128.loop val 0

/-- `WriteUleb128`, from the `dest` and `count` reached so far. -/
def writeUleb128.loop (dest : List Byte) (val : UInt64) (count : Nat) : List Byte × Nat :=
  let byte := (val &&& 0x7f).toUInt8
  let val' := val >>> 7
  if val' ≠ 0 then loop (dest ++ [byte ||| 0x80]) val' (count + 1) else (dest ++ [byte], count + 1)
termination_by val.toNat
decreasing_by exact UInt64.shiftRight_seven_lt ‹_›

def writeUleb128 (dest : List Byte) (val : UInt64) : List Byte × Nat := writeUleb128.loop dest val 0

/-- `result |= (byte & 0x7f) << shift`, in 32 bits. A shift by 32 or more has no defined result in
C++; here it is the one of the usual hardware, which only looks at the low five bits. -/
def accumulate (result : UInt32) (byte : Byte) (shift : Nat) : UInt32 :=
  result ||| ((byte &&& 0x7f).toUInt32 <<< UInt32.ofNat shift)

/-- `ReadUleb128(const char*, uint64_t*)`: the value stored in `*ret` and the count returned. There
is no result when the memory that may be read ends first. -/
def readUleb128.loop : List Byte → UInt32 → Nat → Nat → Option (UInt64 × Nat)
  | [], _, _, _ => none
  | byte :: addr, result, shift, count =>
    let result := accumulate result byte shift
    if byte &&& 0x80 = 0 then some (result.toUInt64, count + 1)
    else loop addr result (shift + 7) (count + 1)

def readUleb128 (addr : List Byte) : Option (UInt64 × Nat) := readUleb128.loop addr 0 0 0

section Stream

variable {σ : Type} [ByteSource σ]

/-- `ReadUleb128(raw_istream&, uint64_t*)`: `none` is the result `false`. The loop reads one byte in
every round and stops at the end of the input, so the content bounds the number of rounds. -/
def readUleb128Stream.loop : Nat → σ → UInt32 → Nat → Option UInt64 × σ
  | 0, is, _, _ => (none, is)
  | fuel + 1, is, result, shift =>
    let (data, is) := RawIstream.read is 1
    if RawIstream.hasError is then (none, is)
    else
      let byte := data.headD 0
      let result := accumulate result byte shift
      if byte &&& 0x80 = 0 then (some result.toUInt64, is) else loop fuel is result (shift + 7)

def readUleb128Stream (is : σ) : Option UInt64 × σ :=
  readUleb128Stream.loop ((ByteSource.content is).length + 1) is 0 0

end Stream

/-- Writing and reading `v`: the writer appends as many bytes as `SizeUleb128` says, and both
readers, given these bytes and `rest`, deliver `v` and consume just these bytes. -/
structure UlebRoundTrip {σ : Type} [ByteSource σ] (v : UInt64) (rest : List Byte) (is : σ) :
    Prop where
  write : ∀ dest, ∃ bytes, writeUleb128 dest v = (dest ++ bytes, sizeUleb128 v) ∧
    bytes.length = sizeUleb128 v
  read : readUleb128 ((writeUleb128 [] v).1 ++ rest) = some (v, sizeUleb128 v)
  readStream : ∃ is', readUleb128Stream is = (some v, is') ∧
    RawIstream.hasError is' = false ∧ ByteSource.content is' = rest

end Wpi

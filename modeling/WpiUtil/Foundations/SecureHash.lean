import WpiUtil.Foundations.BigEndian
import WpiUtil.Foundations.Chunks

/-!
# The secure hash algorithm SHA-1

As the standard defines it, for messages of whole bytes.
-/

namespace Foundations.SecureHash

/-! ## Functions and constants -/

/-- `ROTL`. -/
def rotl (n : ℕ) (x : UInt32) : UInt32 := ⟨x.toBitVec.rotateLeft n⟩

/-- `Ch`: `x` chooses between `y` and `z`. -/
def ch (x y z : UInt32) : UInt32 := (x &&& y) ^^^ (~~~x &&& z)

def parity (x y z : UInt32) : UInt32 := x ^^^ y ^^^ z

/-- `Maj`: what two of the three agree on. -/
def maj (x y z : UInt32) : UInt32 := (x &&& y) ^^^ (x &&& z) ^^^ (y &&& z)

/-- The function that is used in round `t`. -/
def f (t : ℕ) : UInt32 → UInt32 → UInt32 → UInt32 :=
  if t < 20 then ch else if t < 40 then parity else if t < 60 then maj else parity

/-- The constant that is used in round `t`. -/
def k (t : ℕ) : UInt32 :=
  if t < 20 then 0x5a827999 else if t < 40 then 0x6ed9eba1
  else if t < 60 then 0x8f1bbcdc else 0xca62c1d6

/-! ## Rounds -/

/-- The five working variables, or the five words of a hash value. -/
structure State where
  a : UInt32
  b : UInt32
  c : UInt32
  d : UInt32
  e : UInt32
deriving DecidableEq, Repr

/-- The initial hash value. -/
def init : State := ⟨0x67452301, 0xefcdab89, 0x98badcfe, 0x10325476, 0xc3d2e1f0⟩

/-- The message schedule, for a block with the words `m`. -/
def schedule (m : ℕ → UInt32) (t : ℕ) : UInt32 :=
  if t < 16 then m t
  else rotl 1 (schedule m (t - 3) ^^^ schedule m (t - 8) ^^^ schedule m (t - 14) ^^^
    schedule m (t - 16))
termination_by t

/-- Round `t`, with the word `w` of the schedule. -/
def round (s : State) (t : ℕ) (w : UInt32) : State where
  a := rotl 5 s.a + f t s.b s.c s.d + s.e + k t + w
  b := s.a
  c := rotl 30 s.b
  d := s.c
  e := s.d

/-- The hash value after a block with the words `m`. -/
def compress (h : State) (m : ℕ → UInt32) : State :=
  let s := (List.range 80).foldl (fun s t => round s t (schedule m t)) h
  ⟨s.a + h.a, s.b + h.b, s.c + h.c, s.d + h.d, s.e + h.e⟩

/-! ## Messages -/

/-- The bytes as words of four bytes. -/
def words (bs : List UInt8) : List UInt32 :=
  (chunks 4 bs).map fun w => UInt32.ofNat (ofBigEndian 0 w)

/-- The number of zero bytes in the padding, the least with which there are eight bytes missing to a
multiple of the block size after `length + 1` bytes. -/
def zeros (length : ℕ) : ℕ := (119 - length % 64) % 64

/-- Padding: a one bit, zeros, and the length in bits. -/
def pad (message : List UInt8) : List UInt8 :=
  message ++ 0x80 :: List.replicate (zeros message.length) 0 ++ bigEndian 8 (8 * message.length)

/-- The messages that have a digest. -/
structure Message where
  bytes : List UInt8
  length_lt : 8 * bytes.length < 2 ^ 64

/-- The message digest. -/
def digest (message : Message) : State :=
  (chunks 64 (pad message.bytes)).foldl (fun h block => compress h ((words block).getD · 0)) init

/-! ## Hexadecimal digits -/

/-- The digits of a byte, with lower-case letters. -/
def hexByte (b : UInt8) : List UInt8 :=
  [b.toNat / 16, b.toNat % 16].map fun n => UInt8.ofNat (Nat.digitChar n).toNat

/-- The digits of a word. -/
def hexWord (w : UInt32) : List UInt8 := (bigEndian 4 w.toNat).flatMap hexByte

def State.hex (s : State) : List UInt8 :=
  hexWord s.a ++ hexWord s.b ++ hexWord s.c ++ hexWord s.d ++ hexWord s.e

end Foundations.SecureHash

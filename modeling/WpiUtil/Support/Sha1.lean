import WpiUtil.Support.RawIstream

/-!
# SHA-1

The class `SHA1`: a digest in progress, fed by strings or by input streams in pieces of any size.
-/

namespace Wpi.Sha1

/-- `BLOCK_BYTES`. -/
def blockBytes : Nat := 64

/-- The five words of `digest`. -/
structure Digest where
  d0 : UInt32
  d1 : UInt32
  d2 : UInt32
  d3 : UInt32
  d4 : UInt32
deriving DecidableEq, Repr

/-- The initialization constants of `reset`. -/
def Digest.init : Digest := ⟨0x67452301, 0xefcdab89, 0x98badcfe, 0x10325476, 0xc3d2e1f0⟩

/-! ## The block transformation -/

def rol (value : UInt32) (bits : UInt32) : UInt32 := (value <<< bits) ||| (value >>> (32 - bits))

/-- The word `block[i]` of a block of sixteen words. -/
def word (block : List UInt32) (i : Nat) : UInt32 := block.getD i 0

def blk (block : List UInt32) (i : Nat) : UInt32 :=
  rol (word block ((i + 13) % 16) ^^^ word block ((i + 8) % 16) ^^^ word block ((i + 2) % 16) ^^^
    word block i) 1

/-- The working variables, in the roles they have in the next round, and the block. -/
structure Work where
  v : UInt32
  w : UInt32
  x : UInt32
  y : UInt32
  z : UInt32
  block : List UInt32

/-- What the macros `R0` to `R4` have in common: `z += mix + block[i] + k + rol(v, 5)` and
`w = rol(w, 30)`. The next round takes `z` for `v`, `v` for `w` and so on. -/
def Work.round (s : Work) (mix k : UInt32) (i : Nat) : Work :=
  { s with
    v := s.z + (mix + word s.block i + k + rol s.v 5)
    w := s.v
    x := rol s.w 30
    y := s.x
    z := s.y }

/-- `block[i] = blk(block, i)`. -/
def Work.schedule (s : Work) (i : Nat) : Work := { s with block := s.block.set i (blk s.block i) }

def r0 (s : Work) (i : Nat) : Work := s.round ((s.w &&& (s.x ^^^ s.y)) ^^^ s.y) 0x5a827999 i

def r1 (s : Work) (i : Nat) : Work :=
  (s.schedule i).round ((s.w &&& (s.x ^^^ s.y)) ^^^ s.y) 0x5a827999 i

def r2 (s : Work) (i : Nat) : Work := (s.schedule i).round (s.w ^^^ s.x ^^^ s.y) 0x6ed9eba1 i

def r3 (s : Work) (i : Nat) : Work :=
  (s.schedule i).round (((s.w ||| s.x) &&& s.y) ||| (s.w &&& s.x)) 0x8f1bbcdc i

def r4 (s : Work) (i : Nat) : Work := (s.schedule i).round (s.w ^^^ s.x ^^^ s.y) 0xca62c1d6 i

/-- Round number `t` of the unrolled loop: four groups of twenty, over the words of the block in
turn. -/
def step (s : Work) (t : Nat) : Work :=
  if t < 16 then r0 s (t % 16)
  else if t < 20 then r1 s (t % 16)
  else if t < 40 then r2 s (t % 16)
  else if t < 60 then r3 s (t % 16)
  else r4 s (t % 16)

/-- `transform`: the working variables are back in their first roles after the eighty rounds. -/
def transform (digest : Digest) (block : List UInt32) : Digest :=
  let s := (List.range 80).foldl step
    ⟨digest.d0, digest.d1, digest.d2, digest.d3, digest.d4, block⟩
  ⟨digest.d0 + s.v, digest.d1 + s.w, digest.d2 + s.x, digest.d3 + s.y, digest.d4 + s.z⟩

/-- `buffer_to_block`: sixteen big-endian words. -/
def bufferToBlock (buffer : List Byte) : List UInt32 :=
  (List.range 16).map fun i =>
    (buffer.getD (4 * i + 3) 0).toUInt32 ||| (buffer.getD (4 * i + 2) 0).toUInt32 <<< 8 |||
      (buffer.getD (4 * i + 1) 0).toUInt32 <<< 16 ||| (buffer.getD (4 * i) 0).toUInt32 <<< 24

end Sha1

/-! ## The class -/

/-- A `SHA1` object. `buffer` holds the first `buf_size` bytes of the array of that name; the others
are never looked at. -/
structure Sha1 where
  digest : Sha1.Digest
  buffer : List Byte
  transforms : UInt64
deriving DecidableEq, Repr

namespace Sha1

/-- `SHA1()`, and what `reset` makes of an object. -/
def new : Sha1 := ⟨Digest.init, [], 0⟩

/-- `Update(raw_istream&)`. Every round but the last one takes something from the stream, so what
the stream has available bounds their number. -/
def update.loop {σ : Type} [RawIstream σ] : Nat → Sha1 → σ → Sha1 × σ
  | 0, sha, is => (sha, is)
  | fuel + 1, sha, is =>
    let (_, data, is) := RawIstream.readsome is (blockBytes - sha.buffer.length)
    let buffer := sha.buffer ++ data
    if buffer.length ≠ blockBytes then ({ sha with buffer := buffer }, is)
    else
      loop fuel ⟨transform sha.digest (bufferToBlock buffer), [], sha.transforms + 1⟩ is

def update {σ : Type} [RawIstream σ] (sha : Sha1) (is : σ) : Sha1 × σ :=
  update.loop (RawIstream.inAvail is + 1) sha is

/-- `Update(StringRef)`. -/
def updateString (sha : Sha1) (s : List Byte) : Sha1 :=
  (sha.update (RawMemIstream.ofBytes s)).1

/-- `LUT[v]`, a digit or one of the letters `a` to `f`. -/
def hexDigit (v : UInt32) : Byte := (if v < 10 then 48 + v else 87 + v).toUInt8

/-- The eight hex digits of one word. -/
def hexWord (v : UInt32) : List Byte :=
  ([28, 24, 20, 16, 12, 8, 4, 0] : List UInt32).map fun s => hexDigit ((v >>> s) &&& 0xf)

/-- The hex string of a digest. -/
def Digest.hex (d : Digest) : List Byte :=
  hexWord d.d0 ++ hexWord d.d1 ++ hexWord d.d2 ++ hexWord d.d3 ++ hexWord d.d4

/-- `finalize`: pads, appends the number of bits, and writes the digest; the object is reset. -/
def final (sha : Sha1) : List Byte × Sha1 :=
  let totalBits : UInt64 :=
    (sha.transforms * blockBytes.toUInt64 + sha.buffer.length.toUInt64) * 8
  let padded := sha.buffer ++ [0x80]
  let block := bufferToBlock (padded ++ List.replicate (blockBytes - padded.length) 0)
  let (digest, words) :=
    if padded.length > blockBytes - 8 then
      (transform sha.digest block, List.replicate 14 0)
    else (sha.digest, block.take 14)
  let digest := transform digest (words ++ [(totalBits >>> 32).toUInt32, totalBits.toUInt32])
  (digest.hex, new)

/-- `FromFile`, for a file that opens without error. -/
def fromFile (fd : Descriptor 4096) : List Byte :=
  (new.update (RawFdIstream.ofDescriptor fd)).1.final.1

/-- The digest of a whole string, by a fresh object. -/
def digestOf (s : List Byte) : List Byte := (new.updateString s).final.1

end Sha1

end Wpi

import WpiUtil.Support.RawIstream

/-!
# Base64
-/

namespace Wpi

/-- `basis_64`. -/
def basis64 : List Byte :=
  bytes "ABCDEFGHIJKLMNOPQRSTUVWXYZabcdefghijklmnopqrstuvwxyz0123456789+/"

/-- `basis_64[i]`. -/
def base64Digit (i : Byte) : Byte := basis64.getD i.toNat 0

/-- `Base64Encode`. -/
def base64Encode : List Byte → List Byte
  | a :: b :: c :: plain =>
    base64Digit ((a >>> 2) &&& 0x3f) ::
      base64Digit (((a &&& 0x3) <<< 4) ||| ((b &&& 0xf0) >>> 4)) ::
      base64Digit (((b &&& 0xf) <<< 2) ||| ((c &&& 0xc0) >>> 6)) ::
      base64Digit (c &&& 0x3f) :: base64Encode plain
  | [a, b] =>
    [base64Digit ((a >>> 2) &&& 0x3f), base64Digit (((a &&& 0x3) <<< 4) ||| ((b &&& 0xf0) >>> 4)),
      base64Digit ((b &&& 0xf) <<< 2), 0x3d]
  | [a] => [base64Digit ((a >>> 2) &&& 0x3f), base64Digit ((a &&& 0x3) <<< 4), 0x3d, 0x3d]
  | [] => []

/-- A `StringRef` in the memory around it: `data i` is the byte at `bytes_begin() + i`. -/
structure MemoryRef where
  data : Nat → Byte
  size : Nat

def MemoryRef.bytes (s : MemoryRef) : List Byte := (List.range s.size).map s.data

/-- `pr2six`. -/
def pr2sixTable : List Nat :=
  [64, 64, 64, 64, 64, 64, 64, 64, 64, 64, 64, 64, 64, 64, 64, 64, 64, 64, 64,
   64, 64, 64, 64, 64, 64, 64, 64, 64, 64, 64, 64, 64, 64, 64, 64, 64, 64, 64,
   64, 64, 64, 64, 64, 62, 64, 64, 64, 63, 52, 53, 54, 55, 56, 57, 58, 59, 60,
   61, 64, 64, 64, 64, 64, 64, 64, 0, 1, 2, 3, 4, 5, 6, 7, 8, 9, 10,
   11, 12, 13, 14, 15, 16, 17, 18, 19, 20, 21, 22, 23, 24, 25, 64, 64, 64, 64,
   64, 64, 26, 27, 28, 29, 30, 31, 32, 33, 34, 35, 36, 37, 38, 39, 40, 41, 42,
   43, 44, 45, 46, 47, 48, 49, 50, 51, 64, 64, 64, 64, 64, 64, 64, 64, 64, 64,
   64, 64, 64, 64, 64, 64, 64, 64, 64, 64, 64, 64, 64, 64, 64, 64, 64, 64, 64,
   64, 64, 64, 64, 64, 64, 64, 64, 64, 64, 64, 64, 64, 64, 64, 64, 64, 64, 64,
   64, 64, 64, 64, 64, 64, 64, 64, 64, 64, 64, 64, 64, 64, 64, 64, 64, 64, 64,
   64, 64, 64, 64, 64, 64, 64, 64, 64, 64, 64, 64, 64, 64, 64, 64, 64, 64, 64,
   64, 64, 64, 64, 64, 64, 64, 64, 64, 64, 64, 64, 64, 64, 64, 64, 64, 64, 64,
   64, 64, 64, 64, 64, 64, 64, 64, 64, 64, 64, 64, 64, 64, 64, 64, 64, 64, 64,
   64, 64, 64, 64, 64, 64, 64, 64, 64]

/-- `pr2six[c]`. -/
def pr2six (c : Byte) : Nat := pr2sixTable.getD c.toNat 0

/-- What `Base64Decode` does, with the positions of the bytes that it looks at. -/
abbrev Examining := StateM (List Nat)

/-- `encoded.bytes_begin()[i]`. -/
def examine (encoded : MemoryRef) (i : Nat) : Examining Byte := do
  modify (· ++ [i])
  return encoded.data i

/-- The scan for the end, with `left` bytes in front of `bytes_end()`. The table is asked before the
position is compared. -/
def scanLoop (encoded : MemoryRef) : Nat → Nat → Examining Nat
  | 0, fin => do
    let _ ← examine encoded fin
    return fin
  | left + 1, fin => do
    let c ← examine encoded fin
    if pr2six c ≤ 63 then scanLoop encoded left (fin + 1) else return fin

/-- The first byte of a group. -/
def firstByte (encoded : MemoryRef) (cur : Nat) : Examining Byte := do
  let a ← examine encoded cur
  let b ← examine encoded (cur + 1)
  return UInt8.ofNat (pr2six a <<< 2 ||| pr2six b >>> 4)

/-- The second byte of a group. -/
def secondByte (encoded : MemoryRef) (cur : Nat) : Examining Byte := do
  let b ← examine encoded (cur + 1)
  let c ← examine encoded (cur + 2)
  return UInt8.ofNat (pr2six b <<< 4 ||| pr2six c >>> 2)

/-- The third byte of a group. -/
def thirdByte (encoded : MemoryRef) (cur : Nat) : Examining Byte := do
  let c ← examine encoded (cur + 2)
  let d ← examine encoded (cur + 3)
  return UInt8.ofNat (pr2six c <<< 6 ||| pr2six d)

/-- A byte that is written if there are more than `k` characters. -/
def ifMoreThan (k nprbytes : Nat) (byte : Examining Byte) : Examining (List Byte) :=
  if k < nprbytes then (fun a => [a]) <$> byte else pure []

/-- The last group, and the number of characters in it. -/
def lastGroup (encoded : MemoryRef) (cur nprbytes : Nat) : Examining (List Byte × Nat) := do
  let a ← ifMoreThan 1 nprbytes (firstByte encoded cur)
  let b ← ifMoreThan 2 nprbytes (secondByte encoded cur)
  let c ← ifMoreThan 3 nprbytes (thirdByte encoded cur)
  return (a ++ b ++ c, nprbytes)

/-- The loop over the groups, and what comes after it. -/
def groupLoop (encoded : MemoryRef) (cur : Nat) : Nat → Examining (List Byte × Nat)
  | nprbytes + 5 => do
    let a ← firstByte encoded cur
    let b ← secondByte encoded cur
    let c ← thirdByte encoded cur
    let (plain, rest) ← groupLoop encoded (cur + 4) (nprbytes + 1)
    return (a :: b :: c :: plain, rest)
  | nprbytes => lastGroup encoded cur nprbytes

/-- `Base64Decode`: what is written to `os`, and the number of bytes read. -/
def base64Decode (encoded : MemoryRef) : Examining (List Byte × Nat) := do
  let fin ← scanLoop encoded encoded.size 0
  if fin = 0 then return ([], 0)
  else
    let (plain, nprbytes) ← groupLoop encoded 0 fin
    return (plain, fin + ((4 - nprbytes) &&& 3))

/-- The bytes that are written. -/
def MemoryRef.plain (encoded : MemoryRef) : List Byte := ((base64Decode encoded).run []).1.1

/-- The count that is returned. -/
def MemoryRef.numRead (encoded : MemoryRef) : Nat := ((base64Decode encoded).run []).1.2

/-- The positions of the bytes that are looked at. -/
def MemoryRef.examined (encoded : MemoryRef) : List Nat := ((base64Decode encoded).run []).2

/-- The characters of the alphabet that the input starts with. -/
def MemoryRef.digits (encoded : MemoryRef) : List Byte :=
  encoded.bytes.takeWhile fun c => decide (c ∈ basis64)

end Wpi

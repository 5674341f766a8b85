import Mathlib.Algebra.Notation.Lemmas
import Mathlib.Tactic.Common
import WpiUtil.Foundations.Converter

/-!
# `ConvertUTF`

The conversions between UTF-8, UTF-16 and UTF-32. A source pointer is the list of the units from it
on, and a target pointer the list of the units that the call has written before it, so that
`target >= targetEnd` compares the length of the list with the capacity of the target.
-/

namespace Wpi.ConvertUTF

inductive ConversionResult where
  | conversionOK
  | sourceExhausted
  | targetExhausted
  | sourceIllegal
  deriving DecidableEq, Repr

inductive ConversionFlags where
  | strictConversion
  | lenientConversion
  deriving DecidableEq, Repr

open ConversionResult ConversionFlags

/-- What a call returns and what it leaves in `*sourceStart` and `*targetStart`. -/
abbrev Conversion (α β : Type) := Foundations.Converted α β ConversionResult

def halfShift : UInt32 := 10
def halfBase : UInt32 := 0x10000
def halfMask : UInt32 := 0x3ff
def uniSurHighStart : UInt32 := 0xd800
def uniSurHighEnd : UInt32 := 0xdbff
def uniSurLowStart : UInt32 := 0xdc00
def uniSurLowEnd : UInt32 := 0xdfff
def uniReplacementChar : UInt32 := 0xfffd
def uniMaxBmp : UInt32 := 0xffff
def uniMaxUtf16 : UInt32 := 0x10ffff
def uniMaxLegalUtf32 : UInt32 := 0x10ffff

/-- The table `trailingBytesForUTF8`, which has one value for each kind of first byte. -/
def trailingBytesForUTF8 (first : UInt8) : Nat :=
  if first < 0xc0 then 0
  else if first < 0xe0 then 1
  else if first < 0xf0 then 2
  else if first < 0xf8 then 3
  else if first < 0xfc then 4
  else 5

/-- The table `offsetsFromUTF8`. -/
def offsetsFromUTF8 : Nat → UInt32
  | 0 => 0x00000000
  | 1 => 0x00003080
  | 2 => 0x000e2080
  | 3 => 0x03c82080
  | 4 => 0xfa082080
  | _ => 0x82082080

/-- The table `firstByteMark`. -/
def firstByteMark : Nat → UInt32
  | 0 => 0x00
  | 1 => 0x00
  | 2 => 0xc0
  | 3 => 0xe0
  | 4 => 0xf0
  | 5 => 0xf8
  | _ => 0xfc

def isSurrogate (ch : UInt32) : Bool := uniSurHighStart ≤ ch ∧ ch ≤ uniSurLowEnd
def isHighSurrogate (ch : UInt32) : Bool := uniSurHighStart ≤ ch ∧ ch ≤ uniSurHighEnd
def isLowSurrogate (ch : UInt32) : Bool := uniSurLowStart ≤ ch ∧ ch ≤ uniSurLowEnd

/-! ## From UTF-32 to UTF-16 -/

/-- The two units for a character beyond the basic plane. -/
def surrogatePair (ch : UInt32) : List UInt16 :=
  let ch := ch - halfBase
  [((ch >>> halfShift) + uniSurHighStart).toUInt16, ((ch &&& halfMask) + uniSurLowStart).toUInt16]

/-- The loop of `ConvertUTF32toUTF16`. -/
def convertUTF32toUTF16Loop (flags : ConversionFlags) (capacity : Nat) (result : ConversionResult) :
    List UInt32 → List UInt16 → Conversion UInt32 UInt16
  | [], target => ⟨result, [], target⟩
  | ch :: source, target =>
    if capacity ≤ target.length then ⟨targetExhausted, ch :: source, target⟩
    else if ch ≤ uniMaxBmp then
      if isSurrogate ch then
        if flags = strictConversion then ⟨sourceIllegal, ch :: source, target⟩
        else
          convertUTF32toUTF16Loop flags capacity result source
            (target ++ [uniReplacementChar.toUInt16])
      else convertUTF32toUTF16Loop flags capacity result source (target ++ [ch.toUInt16])
    else if uniMaxLegalUtf32 < ch then
      -- the strict conversion goes on here, past a value it has no unit for
      if flags = strictConversion then
        convertUTF32toUTF16Loop flags capacity sourceIllegal source target
      else
        convertUTF32toUTF16Loop flags capacity result source
          (target ++ [uniReplacementChar.toUInt16])
    else if capacity ≤ target.length + 1 then ⟨targetExhausted, ch :: source, target⟩
    else convertUTF32toUTF16Loop flags capacity result source (target ++ surrogatePair ch)

def convertUTF32toUTF16 (source : List UInt32) (capacity : Nat) (flags : ConversionFlags) :
    Conversion UInt32 UInt16 :=
  convertUTF32toUTF16Loop flags capacity conversionOK source []

/-! ## From UTF-16 -/

/-- The first character of a source in UTF-16 with what is behind it, or the result that the
conversion stops with at this place. -/
def readUTF16 (flags : ConversionFlags) :
    List UInt16 → Except ConversionResult (UInt32 × List UInt16)
  | [] => .error sourceExhausted
  | unit :: source =>
    let ch := unit.toUInt32
    if isHighSurrogate ch then
      match source with
      | [] => .error sourceExhausted
      | unit2 :: source2 =>
        let ch2 := unit2.toUInt32
        if isLowSurrogate ch2 then
          .ok (((ch - uniSurHighStart) <<< halfShift) + (ch2 - uniSurLowStart) + halfBase, source2)
        else if flags = strictConversion then .error sourceIllegal
        else .ok (ch, source)
    else if flags = strictConversion then
      if isLowSurrogate ch then .error sourceIllegal else .ok (ch, source)
    else .ok (ch, source)

theorem length_of_readUTF16_eq_ok {flags : ConversionFlags} {source rest : List UInt16}
    {ch : UInt32} (h : readUTF16 flags source = .ok (ch, rest)) : rest.length < source.length := by
  have hok : ∀ {ch' : UInt32} {rest' : List UInt16},
      (Except.ok (ch', rest') : Except ConversionResult _) = .ok (ch, rest) → rest = rest' := by
    intro ch' rest' heq
    injection heq with hpair
    exact (congrArg Prod.snd hpair).symm
  cases source with
  | nil => cases h
  | cons unit units =>
    unfold readUTF16 at h
    cases units with
    | nil =>
      dsimp only at h
      split_ifs at h <;> simp [hok h]
    | cons unit2 units =>
      dsimp only at h
      split_ifs at h
      · rw [hok h, List.length_cons, List.length_cons]
        omega
      all_goals simp [hok h]

/-- The loop of `ConvertUTF16toUTF32`. -/
def convertUTF16toUTF32Loop (flags : ConversionFlags) (capacity : Nat) (source : List UInt16)
    (target : List UInt32) : Conversion UInt16 UInt32 :=
  match source with
  | [] => ⟨conversionOK, [], target⟩
  | unit :: units =>
    match _ : readUTF16 flags (unit :: units) with
    | .error result => ⟨result, unit :: units, target⟩
    | .ok (ch, rest) =>
      if capacity ≤ target.length then ⟨targetExhausted, unit :: units, target⟩
      else convertUTF16toUTF32Loop flags capacity rest (target ++ [ch])
termination_by source.length
decreasing_by exact length_of_readUTF16_eq_ok ‹_›

def convertUTF16toUTF32 (source : List UInt16) (capacity : Nat) (flags : ConversionFlags) :
    Conversion UInt16 UInt32 :=
  convertUTF16toUTF32Loop flags capacity source []

/-! ## To UTF-8 -/

def byteMask : UInt32 := 0xbf
def byteMark : UInt32 := 0x80

/-- `bytesToWrite` with the character to write, which the replacement character stands in for beyond
the last plane. -/
def bytesToWrite (ch : UInt32) : Nat × UInt32 :=
  if ch < 0x80 then (1, ch)
  else if ch < 0x800 then (2, ch)
  else if ch < 0x10000 then (3, ch)
  else if ch < 0x110000 then (4, ch)
  else (3, uniReplacementChar)

/-- The switch that writes a character from its last byte to its first one, from the case for
`count + 1` bytes on. -/
def writeUTF8 (mark : UInt32) : Nat → UInt32 → List UInt8 → List UInt8
  | 0, ch, written => (ch ||| mark).toUInt8 :: written
  | count + 1, ch, written =>
    writeUTF8 mark count (ch >>> 6) (((ch ||| byteMark) &&& byteMask).toUInt8 :: written)

/-- The loop of `ConvertUTF16toUTF8`. -/
def convertUTF16toUTF8Loop (flags : ConversionFlags) (capacity : Nat) (source : List UInt16)
    (target : List UInt8) : Conversion UInt16 UInt8 :=
  match source with
  | [] => ⟨conversionOK, [], target⟩
  | unit :: units =>
    match _ : readUTF16 flags (unit :: units) with
    | .error result => ⟨result, unit :: units, target⟩
    | .ok (ch, rest) =>
      let (count, ch) := bytesToWrite ch
      if capacity < target.length + count then ⟨targetExhausted, unit :: units, target⟩
      else
        convertUTF16toUTF8Loop flags capacity rest
          (target ++ writeUTF8 (firstByteMark count) (count - 1) ch [])
termination_by source.length
decreasing_by exact length_of_readUTF16_eq_ok ‹_›

def convertUTF16toUTF8 (source : List UInt16) (capacity : Nat) (flags : ConversionFlags) :
    Conversion UInt16 UInt8 :=
  convertUTF16toUTF8Loop flags capacity source []

/-- The loop of `ConvertUTF32toUTF8`, which writes the replacement character for a value beyond the
last plane and goes on, but has no success to report any more. -/
def convertUTF32toUTF8Loop (flags : ConversionFlags) (capacity : Nat) (result : ConversionResult) :
    List UInt32 → List UInt8 → Conversion UInt32 UInt8
  | [], target => ⟨result, [], target⟩
  | ch :: source, target =>
    if flags = strictConversion ∧ isSurrogate ch then ⟨sourceIllegal, ch :: source, target⟩
    else
      let result := if ch ≤ uniMaxLegalUtf32 then result else sourceIllegal
      let (count, written) := bytesToWrite ch
      if capacity < target.length + count then ⟨targetExhausted, ch :: source, target⟩
      else
        convertUTF32toUTF8Loop flags capacity result source
          (target ++ writeUTF8 (firstByteMark count) (count - 1) written [])

def convertUTF32toUTF8 (source : List UInt32) (capacity : Nat) (flags : ConversionFlags) :
    Conversion UInt32 UInt8 :=
  convertUTF32toUTF8Loop flags capacity conversionOK source []

/-! ## From UTF-8 -/

/-- `a < 0x80 || a > 0xBF` is false. -/
def isTrailingByte (a : UInt8) : Bool := 0x80 ≤ a ∧ a ≤ 0xbf

/-- The inner switch of `isLegalUTF8`. -/
def isLegalSecond (first a : UInt8) : Bool :=
  if first = 0xe0 then 0xa0 ≤ a
  else if first = 0xed then a ≤ 0x9f
  else if first = 0xf0 then 0x90 ≤ a
  else if first = 0xf4 then a ≤ 0x8f
  else 0x80 ≤ a

/-- What `isLegalUTF8` checks of the first byte, at the case for one byte and behind the switch. -/
def isLegalFirst (first : UInt8) : Bool := !(0x80 ≤ first && first < 0xc2) && first ≤ 0xf4

/-- `isLegalUTF8`, for a source of at least `length` bytes. The cases fall through from the last
byte to the first one. -/
def isLegalUTF8 : List UInt8 → Nat → Bool
  | a :: _, 1 => isLegalFirst a
  | a :: b :: _, 2 => isTrailingByte b && isLegalSecond a b && isLegalFirst a
  | a :: b :: c :: _, 3 =>
    isTrailingByte c && isTrailingByte b && isLegalSecond a b && isLegalFirst a
  | a :: b :: c :: d :: _, 4 =>
    isTrailingByte d && isTrailingByte c && isTrailingByte b && isLegalSecond a b && isLegalFirst a
  | _, _ => false

theorem length_drop_lt (first : UInt8) (rest : List UInt8) {n : Nat} (h : 0 < n) :
    ((first :: rest).drop n).length < (first :: rest).length := by
  rw [List.length_drop, List.length_cons]
  omega

def getNumBytesForUTF8 (first : UInt8) : Nat := trailingBytesForUTF8 first + 1

/-- `isLegalUTF8Sequence`, for a source that is not empty. -/
def isLegalUTF8Sequence (source : List UInt8) : Bool :=
  match source with
  | [] => false
  | first :: _ =>
    let length := trailingBytesForUTF8 first + 1
    if source.length < length then false else isLegalUTF8 source length

/-- `isLegalUTF8String` with the place in the source where it stops. -/
def isLegalUTF8String (source : List UInt8) : Bool × List UInt8 :=
  match source with
  | [] => (true, [])
  | first :: rest =>
    let length := trailingBytesForUTF8 first + 1
    if (first :: rest).length < length || !isLegalUTF8 (first :: rest) length then
      (false, first :: rest)
    else isLegalUTF8String ((first :: rest).drop length)
termination_by source.length
decreasing_by exact length_drop_lt first rest (Nat.succ_pos _)

/-- The end of the subpart behind two bytes that a third one may follow. -/
def subpartFromThird : List UInt8 → Nat
  | [] => 2
  | b3 :: _ => if 0x80 ≤ b3 ∧ b3 ≤ 0xbf then 3 else 2

/-- `findMaximalSubpartOfIllFormedUTF8Sequence`. -/
def findMaximalSubpartOfIllFormedUTF8Sequence : List UInt8 → Nat
  | [] => 0
  | [_] => 1
  | b1 :: b2 :: source =>
    if 0xc2 ≤ b1 ∧ b1 ≤ 0xdf then 1
    else if b1 = 0xe0 then (if 0xa0 ≤ b2 ∧ b2 ≤ 0xbf then 2 else 1)
    else if 0xe1 ≤ b1 ∧ b1 ≤ 0xec then (if 0x80 ≤ b2 ∧ b2 ≤ 0xbf then 2 else 1)
    else if b1 = 0xed then (if 0x80 ≤ b2 ∧ b2 ≤ 0x9f then 2 else 1)
    else if 0xee ≤ b1 ∧ b1 ≤ 0xef then (if 0x80 ≤ b2 ∧ b2 ≤ 0xbf then 2 else 1)
    else if b1 = 0xf0 then (if 0x90 ≤ b2 ∧ b2 ≤ 0xbf then subpartFromThird source else 1)
    else if 0xf1 ≤ b1 ∧ b1 ≤ 0xf3 then
      (if 0x80 ≤ b2 ∧ b2 ≤ 0xbf then subpartFromThird source else 1)
    else if b1 = 0xf4 then (if 0x80 ≤ b2 ∧ b2 ≤ 0x8f then subpartFromThird source else 1)
    else 1

theorem subpartFromThird_pos (source : List UInt8) : 0 < subpartFromThird source := by
  cases source with
  | nil => exact Nat.two_pos
  | cons b3 source => exact ite_pos (Nat.succ_pos 2) Nat.two_pos

theorem findMaximalSubpart_pos (first : UInt8) (rest : List UInt8) :
    0 < findMaximalSubpartOfIllFormedUTF8Sequence (first :: rest) := by
  cases rest with
  | nil => exact Nat.one_pos
  | cons b2 source =>
    have hthird := subpartFromThird_pos source
    have hone := Nat.one_pos
    have htwo := Nat.two_pos
    unfold findMaximalSubpartOfIllFormedUTF8Sequence
    repeat' apply ite_pos
    all_goals assumption

/-- The switch that reads a character, from the case for `extraBytesToRead` on. -/
def readUTF8 : Nat → UInt32 → List UInt8 → UInt32
  | _, ch, [] => ch
  | 0, ch, b :: _ => ch + b.toUInt32
  | extraBytesToRead + 1, ch, b :: source =>
    readUTF8 extraBytesToRead ((ch + b.toUInt32) <<< 6) source

/-- The loop of `ConvertUTF8toUTF16`. -/
def convertUTF8toUTF16Loop (flags : ConversionFlags) (capacity : Nat) (source : List UInt8)
    (target : List UInt16) : Conversion UInt8 UInt16 :=
  match source with
  | [] => ⟨conversionOK, [], target⟩
  | first :: rest =>
    let source := first :: rest
    let extraBytesToRead := trailingBytesForUTF8 first
    if source.length ≤ extraBytesToRead then ⟨sourceExhausted, source, target⟩
    else if !isLegalUTF8 source (extraBytesToRead + 1) then ⟨sourceIllegal, source, target⟩
    else
      let ch := readUTF8 extraBytesToRead 0 source - offsetsFromUTF8 extraBytesToRead
      if capacity ≤ target.length then ⟨targetExhausted, source, target⟩
      else if ch ≤ uniMaxBmp then
        if isSurrogate ch then
          if flags = strictConversion then ⟨sourceIllegal, source, target⟩
          else
            convertUTF8toUTF16Loop flags capacity ((first :: rest).drop (extraBytesToRead + 1))
              (target ++ [uniReplacementChar.toUInt16])
        else
          convertUTF8toUTF16Loop flags capacity ((first :: rest).drop (extraBytesToRead + 1))
            (target ++ [ch.toUInt16])
      else if uniMaxUtf16 < ch then
        if flags = strictConversion then ⟨sourceIllegal, source, target⟩
        else
          convertUTF8toUTF16Loop flags capacity ((first :: rest).drop (extraBytesToRead + 1))
            (target ++ [uniReplacementChar.toUInt16])
      else if capacity ≤ target.length + 1 then ⟨targetExhausted, source, target⟩
      else
        convertUTF8toUTF16Loop flags capacity ((first :: rest).drop (extraBytesToRead + 1))
          (target ++ surrogatePair ch)
termination_by source.length
decreasing_by all_goals exact length_drop_lt first rest (Nat.succ_pos _)

def convertUTF8toUTF16 (source : List UInt8) (capacity : Nat) (flags : ConversionFlags) :
    Conversion UInt8 UInt16 :=
  convertUTF8toUTF16Loop flags capacity source []

/-- The loop of `ConvertUTF8toUTF32Impl`. Where the source ends within a sequence and must not be
continued, it writes without a look at the end of the target. -/
def convertUTF8toUTF32Loop (flags : ConversionFlags) (inputIsPartial : Bool) (capacity : Nat)
    (result : ConversionResult) (source : List UInt8) (target : List UInt32) :
    Conversion UInt8 UInt32 :=
  match source with
  | [] => ⟨result, [], target⟩
  | first :: rest =>
    let source := first :: rest
    let extraBytesToRead := trailingBytesForUTF8 first
    let subpart := findMaximalSubpartOfIllFormedUTF8Sequence source
    if source.length ≤ extraBytesToRead then
      if flags = strictConversion ∨ inputIsPartial then ⟨sourceExhausted, source, target⟩
      else
        convertUTF8toUTF32Loop flags inputIsPartial capacity sourceIllegal
          ((first :: rest).drop subpart) (target ++ [uniReplacementChar])
    else if capacity ≤ target.length then ⟨targetExhausted, source, target⟩
    else if !isLegalUTF8 source (extraBytesToRead + 1) then
      if flags = strictConversion then ⟨sourceIllegal, source, target⟩
      else
        convertUTF8toUTF32Loop flags inputIsPartial capacity sourceIllegal
          ((first :: rest).drop subpart) (target ++ [uniReplacementChar])
    else
      let ch := readUTF8 extraBytesToRead 0 source - offsetsFromUTF8 extraBytesToRead
      if ch ≤ uniMaxLegalUtf32 then
        if isSurrogate ch then
          if flags = strictConversion then ⟨sourceIllegal, source, target⟩
          else
            convertUTF8toUTF32Loop flags inputIsPartial capacity result
              ((first :: rest).drop (extraBytesToRead + 1)) (target ++ [uniReplacementChar])
        else
          convertUTF8toUTF32Loop flags inputIsPartial capacity result
            ((first :: rest).drop (extraBytesToRead + 1)) (target ++ [ch])
      else
        convertUTF8toUTF32Loop flags inputIsPartial capacity sourceIllegal
          ((first :: rest).drop (extraBytesToRead + 1)) (target ++ [uniReplacementChar])
termination_by source.length
decreasing_by
  · exact length_drop_lt first rest (findMaximalSubpart_pos first rest)
  · exact length_drop_lt first rest (findMaximalSubpart_pos first rest)
  all_goals exact length_drop_lt first rest (Nat.succ_pos _)

def convertUTF8toUTF32Impl (source : List UInt8) (capacity : Nat) (flags : ConversionFlags)
    (inputIsPartial : Bool) : Conversion UInt8 UInt32 :=
  convertUTF8toUTF32Loop flags inputIsPartial capacity conversionOK source []

def convertUTF8toUTF32Partial (source : List UInt8) (capacity : Nat) (flags : ConversionFlags) :
    Conversion UInt8 UInt32 :=
  convertUTF8toUTF32Impl source capacity flags true

def convertUTF8toUTF32 (source : List UInt8) (capacity : Nat) (flags : ConversionFlags) :
    Conversion UInt8 UInt32 :=
  convertUTF8toUTF32Impl source capacity flags false

/-- `convertUTF8Sequence`, with what it leaves in `*target`, if it writes there. -/
def convertUTF8Sequence (source : List UInt8) (flags : ConversionFlags) :
    Conversion UInt8 UInt32 :=
  match source with
  | [] => ⟨sourceExhausted, [], []⟩
  | first :: rest =>
    let size := getNumBytesForUTF8 first
    if (first :: rest).length < size then ⟨sourceExhausted, first :: rest, []⟩
    else
      let c := convertUTF8toUTF32 ((first :: rest).take size) 1 flags
      ⟨c.result, c.source ++ (first :: rest).drop size, c.target⟩

end Wpi.ConvertUTF

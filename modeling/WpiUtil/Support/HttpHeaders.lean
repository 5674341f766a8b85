import WpiUtil.Foundations.Chunks
import WpiUtil.Llvm.StringRef
import WpiUtil.Support.Cstdlib

/-!
# HTTP headers

`ParseHttpHeaders`, which saves the values of two header fields. It reads at most 1024 bytes at a
time, so that a longer line comes in pieces, each of which is a line to it.
-/

namespace Wpi

open StringRef

/-- `':'`. -/
def colon : Byte := 0x3a

/-- The variables of `ParseHttpHeaders`. A null pointer is `none`. -/
structure HeaderState where
  inContentType : Bool
  inContentLength : Bool
  contentType : Option (List Byte)
  contentLength : Option (List Byte)
deriving DecidableEq, Repr

namespace HeaderState

/-- Saves field data, with the whitespace collapsed. -/
def save (st : HeaderState) (line : List Byte) : HeaderState :=
  let line := ltrim line
  if st.inContentType && st.contentType.isSome then
    { st with contentType := st.contentType.map (· ++ line) }
  else if st.inContentLength && st.contentLength.isSome then
    { st with contentLength := st.contentLength.map (· ++ line) }
  else st

/-- The body of the loop for a line that is not empty. Header fields start at the beginning of the
line; other lines continue the field before them. -/
def processLine (st : HeaderState) (line : List Byte) : HeaderState :=
  if !isspace (line.headD 0) then
    let (field, line) := StringRef.split line colon
    let field := rtrim field
    if equalsLower field (bytes "content-type") then
      save { st with inContentType := true, inContentLength := false } line
    else if equalsLower field (bytes "content-length") then
      save { st with inContentType := false, inContentLength := true } line
    else { st with inContentType := false, inContentLength := false }
  else save st line

end HeaderState

namespace ParseHttpHeaders

variable {σ : Type}

/-- The loop: an empty line signals the end of the headers. -/
def loop [RawIstream σ] : Nat → HeaderState → σ → Bool × HeaderState × σ
  | 0, st, is => (false, st, is)
  | fuel + 1, st, is =>
    let (buf, is) := RawIstream.getline is 1024
    let line := rtrim buf
    if RawIstream.hasError is then (false, st, is)
    else if line = [] then (true, st, is)
    else loop fuel (st.processLine line) is

end ParseHttpHeaders

/-- `ParseHttpHeaders`: the result, what has been saved, and the stream afterwards. Every round of
the loop reads at least one byte. -/
def parseHttpHeaders {σ : Type} [ByteSource σ] (is : σ)
    (contentType contentLength : Option (List Byte)) :
    Bool × Option (List Byte) × Option (List Byte) × σ :=
  let st : HeaderState := ⟨false, false, contentType.map fun _ => [], contentLength.map fun _ => []⟩
  let (result, st, is) := ParseHttpHeaders.loop ((ByteSource.content is).length + 1) st is
  (result, st.contentType, st.contentLength, is)

/-! ## Header sections -/

/-- The end of a line. -/
def crlf : List Byte := [0x0d, 0x0a]

/-- There is something in the line, and nothing in it ends a line. -/
def IsHeaderLine (line : List Byte) : Prop := line ≠ [] ∧ 0x0d ∉ line ∧ 0x0a ∉ line

instance : DecidablePred IsHeaderLine := fun line =>
  inferInstanceAs (Decidable (line ≠ [] ∧ 0x0d ∉ line ∧ 0x0a ∉ line))

/-- The lines and an empty line. -/
def headerSection (lines : List (List Byte)) : List Byte := lines.flatMap (· ++ crlf) ++ crlf

/-- The pieces in which a line is read. -/
def headerPieces (line : List Byte) : List (List Byte) := Foundations.chunks 1024 (line ++ crlf)

/-- The line that the parser sees for a piece. -/
def headerText (piece : List Byte) : List Byte := rtrim (piece.filter (· ≠ 0x0d))

/-- What the parser does with the pieces of a header section: the state afterwards, and the pieces
that are left when it has taken one of them for the empty line. -/
def hear : HeaderState → List (List Byte) → HeaderState × Option (List (List Byte))
  | st, [] => (st, none)
  | st, piece :: pieces =>
    if headerText piece = [] then (st, some pieces)
    else hear (st.processLine (headerText piece)) pieces

/-- A line with the field `name`. -/
def fieldLine (name value : List Byte) : List Byte := name ++ colon :: value

/-- The fields whose values are saved. -/
def isSavedName (name : List Byte) : Bool :=
  equalsLower (rtrim name) (bytes "content-type") ||
    equalsLower (rtrim name) (bytes "content-length")

/-- The name of a field that is ignored. -/
structure IsIgnoredName (name : List Byte) : Prop where
  ne_nil : name ≠ []
  head : isspace (name.headD 0) = false
  no_colon : colon ∉ name
  not_saved : isSavedName name = false

/-- The piece is taken for the start of a field. -/
def startsField (piece : List Byte) : Bool := !isspace ((headerText piece).headD 0)

/-- The pieces have no effect: none is blank, and when one starts a field that is saved, then the
value is empty and the next piece does not continue it. -/
def Inert : List (List Byte) → Prop
  | [] => True
  | piece :: pieces =>
    headerText piece ≠ [] ∧
    (startsField piece = true → isSavedName (StringRef.split (headerText piece) colon).1 = true →
      ltrim (StringRef.split (headerText piece) colon).2 = [] ∧
        ∃ next ∈ pieces.head?, startsField next = true) ∧
    Inert pieces

/-- The same line, or two values that `P` admits for the field. -/
def SameUpTo (P : List Byte → List Byte → Prop) (line line' : List Byte) : Prop :=
  line = line' ∨
    ∃ name value value', P name value ∧ P name value' ∧ line = fieldLine name value ∧
      line' = fieldLine name value'

/-- `P` admits values of ignored fields: header lines with something else than white space in the
value. -/
def IgnoredValues (P : List Byte → List Byte → Prop) : Prop :=
  ∀ name value, P name value → IsIgnoredName name ∧ IsHeaderLine (fieldLine name value) ∧
    ∃ c ∈ value, isspace c = false

/-- What is saved from two header sections is the same if they differ only in values that `P`
admits. -/
def NeverInfluence (P : List Byte → List Byte → Prop) : Prop :=
  ∀ (σ σ' : Type) [ByteSource σ] [ByteSource σ'] (is : σ) (is' : σ')
    (lines lines' : List (List Byte)) (body body' : List Byte)
    (contentType contentLength : Option (List Byte)),
    (∀ line ∈ lines, IsHeaderLine line) → List.Forall₂ (SameUpTo P) lines lines' →
    RawIstream.hasError is = false → RawIstream.hasError is' = false →
    ByteSource.content is = headerSection lines ++ body →
    ByteSource.content is' = headerSection lines' ++ body' →
    (parseHttpHeaders is contentType contentLength).2.1 =
        (parseHttpHeaders is' contentType contentLength).2.1 ∧
      (parseHttpHeaders is contentType contentLength).2.2.1 =
        (parseHttpHeaders is' contentType contentLength).2.2.1

end Wpi

import WpiUtil.Json.BinaryReader
import WpiUtil.Json.Parser
import WpiUtil.Support.CountedIstream

/-!
# The outcomes of reading
-/

namespace Wpi.Json

/-- What is documented for reading `n` bytes: a value, none of whose entries has been written past
its end, a `parse_error` with the position of one of the bytes or of the end, and where `overflow` is
set an `out_of_range.406`. -/
inductive Documented (n : Nat) (overflow : Bool) : Except Failure Json → Prop where
  | value (j : Json) (hfits : j.KeysFit) : Documented n overflow (.ok j)
  | parseError (e : JsonException) (htype : e.type = .parseError) (hpos : 1 ≤ e.byte)
      (hle : e.byte ≤ n + 1) : Documented n overflow (.error (.thrown e))
  | outOfRange (e : JsonException) (hoverflow : overflow = true) (htype : e.type = .outOfRange)
      (hid : e.id = 406) : Documented n overflow (.error (.thrown e))

/-- `json::parse` of a stream, with the parser it leaves behind. -/
def parseStream {σ : Type} [ByteSource σ] (is : σ) (cb : Option ParserCallback) :
    Except Failure Json × Parser σ :=
  (Parser.parse (2 * (ByteSource.content is).length + 1) true).run.run (Parser.new is cb)

end Wpi.Json

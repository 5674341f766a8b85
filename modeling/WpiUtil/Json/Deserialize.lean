import WpiUtil.Json.ParseTree

/-!
# Deserialization from a stream

`operator>>`, which leaves in the stream what comes after the value.
-/

namespace Wpi

open Foundations
open Foundations.JsonText (Blanks Derives Tree)

namespace Json

variable {σ : Type} [ByteSource σ]

/-- `operator>>`: what `j` is set to, and the stream afterwards. -/
def deserialize (i : σ) : Except Failure Json × σ :=
  let (r, p) := (Parser.parse (2 * (ByteSource.content i).length + 1) false).run.run
    (Parser.new i none)
  (r, p.lexer.is)

/-- `ws value` -/
def IsValueText (t : List Byte) (tree : Tree) : Prop :=
  ∃ u, Blanks t u ∧ Derives (.value tree) u []

/-- The text `t` has the value `v`: no number in it is too large for a double. -/
def HasValue (t : List Byte) (v : Value) : Prop :=
  ∃ tree, IsValueText t tree ∧ ParseTree.Finite tree ∧ ParseTree.value tree = v

/-- No longer part of `t ++ rest`, from its start on, is a value. -/
def IsLongest (t rest : List Byte) : Prop :=
  ∀ t', t' <+: t ++ rest → t.length < t'.length → ∀ tree, ¬IsValueText t' tree

/-- The value is stored, and the next bytes to be read are those of `rest`. -/
structure Extracts (i : σ) (v : Value) (rest : List Byte) : Prop where
  value : ∃ j, (deserialize i).1 = .ok j ∧ j.denote = v
  content : ByteSource.content (deserialize i).2 = rest
  hasError : RawIstream.hasError (deserialize i).2 = false

end Json

def Value.isNumber : Value → Bool
  | .integer _ => true
  | .float _ => true
  | _ => false

end Wpi

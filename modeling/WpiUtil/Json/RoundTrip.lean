import WpiUtil.Foundations.Utf8
import WpiUtil.Json.BinaryWriter
import WpiUtil.Json.CborHead

/-!
# What reading back an encoding means
-/

namespace Wpi

/-- `j'` is the same value as `j`; only negative numbers are held as `number_integer`. -/
structure Recovers (j j' : Json) : Prop where
  wf : j'.WF
  value : j'.denote = j.denote
  unsigned : j'.NonnegUnsigned

/-- Strings, arrays and objects have fewer than `2 ^ 32` bytes or elements. -/
def Json.NodeBelow32 : Json → Prop
  | .string s => s.length < 2 ^ 32
  | .array xs => xs.length < 2 ^ 32
  | .object m => m.size < 2 ^ 32 ∧ ∀ e ∈ m.toList, e.1.length < 2 ^ 32
  | _ => True

def Json.Below32 : Json → Prop := Json.All Json.NodeBelow32

/-- Strings and keys are well-formed UTF-8. -/
def Json.NodeUtf8 : Json → Prop
  | .string s => Foundations.Utf8.IsUtf8 s
  | .object m => ∀ e ∈ m.toList, Foundations.Utf8.IsUtf8 e.1
  | _ => True

def Json.IsUtf8 : Json → Prop := Json.All Json.NodeUtf8

/-- The integer can be held. However it is held, it is written to the same bytes, it is read from
them, and it is not read from fewer. -/
def Json.WrittenShortest (v : Int) : Prop :=
  (∃ j : Json, j.denote = .integer v) ∧
    ∀ j : Json, j.denote = .integer v →
      (∀ j' : Json, j'.denote = .integer v →
        j'.toCbor = j.toCbor ∧ j'.toMsgpack = j.toMsgpack) ∧
      (∃ j', fromCborString j.toCbor = .ok j' ∧ j'.denote = .integer v) ∧
      (∃ j', fromMsgpackString j.toMsgpack = .ok j' ∧ j'.denote = .integer v) ∧
      (∀ s j', fromCborString s = .ok j' → j'.denote = .integer v →
        j.toCbor.length ≤ s.length) ∧
      ∀ s j', fromMsgpackString s = .ok j' → j'.denote = .integer v →
        j.toMsgpack.length ≤ s.length

namespace BinaryReader

variable {σ α : Type} [ByteSource σ]

/-- With `c` as the current character and `bs` next in the stream, the action consumes `bs` and
returns `a`. -/
def YieldsAt (c : Option Byte) (x : Action σ α) (bs : List Byte) (a : α) : Prop :=
  ∀ (br : BinaryReader σ) (rest : List Byte), br.current = c →
    RawIstream.hasError br.is = false → ByteSource.content br.is = bs ++ rest →
    ∃ br', x.run.run br = (.ok a, br') ∧ RawIstream.hasError br'.is = false ∧
      ByteSource.content br'.is = rest

/-- The same, whatever the current character is. -/
def Yields (x : Action σ α) (bs : List Byte) (a : α) : Prop := ∀ c, YieldsAt c x bs a

/-- With `c` as the current character and `bs` next in the stream, the action consumes `bs` and goes
on as `y`. -/
def LeadsAt (c : Option Byte) (x : Action σ α) (bs : List Byte) (y : Action σ α) : Prop :=
  ∀ (br : BinaryReader σ) (rest : List Byte), br.current = c →
    RawIstream.hasError br.is = false → ByteSource.content br.is = bs ++ rest →
    ∃ br', x.run.run br = y.run.run br' ∧ RawIstream.hasError br'.is = false ∧
      ByteSource.content br'.is = rest

/-- The same, whatever the current character is. -/
def Leads (x : Action σ α) (bs : List Byte) (y : Action σ α) : Prop := ∀ c, LeadsAt c x bs y

/-- When a run of `x` returns, then `y` returns the same from the bytes that have been consumed,
whatever follows them, with fuel for `k` bytes more. The current character is then related by `C` to
what it was. -/
def ReplaysFrom (C : Option Byte → Option Byte → Prop) (k : Nat) (x : Action σ α)
    (y : Nat → Action σ α) : Prop :=
  ∀ (br br' : BinaryReader σ) (a : α), RawIstream.hasError br.is = false →
    x.run.run br = (.ok a, br') →
    ∃ bs, ByteSource.content br.is = bs ++ ByteSource.content br'.is ∧
      RawIstream.hasError br'.is = false ∧
      ∀ fuel c, bs.length + k ≤ fuel → C br.current c → YieldsAt c (y fuel) bs a

/-- The current character is the same. -/
abbrev ReplaysAt (k : Nat) (x : Action σ α) (y : Nat → Action σ α) : Prop :=
  ReplaysFrom (fun c c' => c' = c) k x y

/-- The current character can be any. -/
abbrev Replays (k : Nat) (x : Action σ α) (y : Nat → Action σ α) : Prop :=
  ReplaysFrom (fun _ _ => True) k x y

end BinaryReader

end Wpi

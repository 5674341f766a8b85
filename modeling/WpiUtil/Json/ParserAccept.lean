import WpiUtil.Json.Parser

/-!
# Acceptance

`accept`, which goes through the tokens like `parse` without building a value.
-/

namespace Wpi

namespace Parser

variable {σ : Type} [ByteSource σ]

mutual

/-- `accept_internal`. -/
def acceptInternal : Nat → Action σ Bool
  | 0 => throw .outOfFuel
  | fuel + 1 => do
    let p : Parser σ ← MonadState.get
    match p.lastToken with
    | .beginObject => do
      if (← getToken fuel) = .endObject then return true else acceptMembers fuel
    | .beginArray => do
      if (← getToken fuel) = .endArray then return true else acceptElements fuel
    | .literalFalse => return true
    | .literalNull => return true
    | .literalTrue => return true
    | .valueFloat => return true
    | .valueInteger => return true
    | .valueString => return true
    | .valueUnsigned => return true
    | _ => return false

/-- The loop over the members of an object. -/
def acceptMembers : Nat → Action σ Bool
  | 0 => throw .outOfFuel
  | fuel + 1 => do
    let p : Parser σ ← MonadState.get
    if p.lastToken ≠ .valueString then return false
    else if (← getToken fuel) ≠ .nameSeparator then return false
    else do
      let _ ← getToken fuel
      if ← acceptInternal fuel then do
        let t ← getToken fuel
        if t = .valueSeparator then do
          let _ ← getToken fuel
          acceptMembers fuel
        else if t ≠ .endObject then return false
        else return true
      else return false

/-- The loop over the elements of an array. -/
def acceptElements : Nat → Action σ Bool
  | 0 => throw .outOfFuel
  | fuel + 1 => do
    if ← acceptInternal fuel then do
      let t ← getToken fuel
      if t = .valueSeparator then do
        let _ ← getToken fuel
        acceptElements fuel
      else if t ≠ .endArray then return false
      else return true
    else return false

end

/-- `accept`. -/
def accept (fuel : Nat) (strict : Bool) : Action σ Bool := do
  let _ ← getToken fuel
  if ← acceptInternal fuel then
    if strict then
      if (← getToken fuel) ≠ .endOfInput then return false else return true
    else return true
  else return false

end Parser

namespace Json

/-- What a new parser without a callback answers, asked whether it accepts the text. -/
def accept (s : List Byte) (strict : Bool) : Except Failure Bool :=
  ((Parser.accept (2 * s.length + 1) strict).run.run
    (Parser.new (RawMemIstream.ofBytes s) none)).1

/-- What a new parser without a callback makes of the text. -/
def parseText (s : List Byte) (strict : Bool) : Except Failure Json :=
  ((Parser.parse (2 * s.length + 1) strict).run.run
    (Parser.new (RawMemIstream.ofBytes s) none)).1

end Json

end Wpi

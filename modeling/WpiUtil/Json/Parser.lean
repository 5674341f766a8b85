import WpiUtil.Json.Json
import WpiUtil.Json.Lexer

/-!
# Syntax analysis

The class `parser`. The calls of the callback are written down in the order in which they are made.
-/

namespace Wpi

inductive ParseEvent where
  | objectStart
  | objectEnd
  | arrayStart
  | arrayEnd
  | key
  | value
deriving DecidableEq, Repr

/-- A `parser_callback_t`: its answer, and what it leaves in `parsed`. -/
abbrev ParserCallback := Int → ParseEvent → Json → Bool × Json

/-- The depth and the event of a call of the callback. -/
abbrev Call := Int × ParseEvent

/-- The member `depth` of a parser, and the calls made so far. -/
structure Calls where
  depth : Int
  made : List Call
deriving DecidableEq

/-! ## The callback -/

namespace Calls

/-- A call of the callback with the present depth. -/
def call (cb : ParserCallback) (event : ParseEvent) (parsed : Json) :
    StateM Calls (Bool × Json) := do
  let s ← get
  set { s with made := s.made ++ [(s.depth, event)] }
  return cb s.depth event parsed

/-- What is done at an opening bracket: whether to keep the container, and `result`. -/
def startContainer (cb : Option ParserCallback) (event : ParseEvent) (container : Json)
    (keep : Bool) : StateM Calls (Bool × Json) := do
  if keep then
    match cb with
    | none => return (true, container)
    | some cb => do
      let (keep, parsed) ← call cb event .discarded
      modify fun s => { s with depth := s.depth + 1 }
      return (keep, if keep then container else parsed)
  else return (false, .discarded)

/-- What is done at a closing bracket. -/
def endContainer (cb : Option ParserCallback) (event : ParseEvent) (keep : Bool) (result : Json) :
    StateM Calls Json := do
  if keep then
    match cb with
    | none => return result
    | some cb => do
      modify fun s => { s with depth := s.depth - 1 }
      let (keep, parsed) ← call cb event result
      return if keep then parsed else .discarded
  else return result

/-- What is done after a value that is not a container. -/
def endValue (cb : Option ParserCallback) (keep : Bool) (result : Json) : StateM Calls Json := do
  if keep then
    match cb with
    | none => return result
    | some cb => do
      let (keep, parsed) ← call cb .value result
      return if keep then parsed else .discarded
  else return result

/-- `keep_tag`. -/
def keepTag (cb : Option ParserCallback) (keep : Bool) (key : Key) : StateM Calls Bool := do
  if keep then
    match cb with
    | none => return true
    | some cb => do
      let (keep, _) ← call cb .key (.string key)
      return keep
  else return false

end Calls

/-- A `parser`. -/
structure Parser (σ : Type) where
  calls : Calls
  callback : Option ParserCallback
  lastToken : TokenType
  lexer : Lexer σ

namespace Parser

variable {σ : Type} [ByteSource σ]

/-- A member function: it returns a value or throws, and changes the parser either way. -/
abbrev Action (σ α : Type) := ExceptT Failure (StateM (Parser σ)) α

def new (is : σ) (callback : Option ParserCallback) : Parser σ where
  calls := ⟨0, []⟩
  callback := callback
  lastToken := .uninitialized
  lexer := Lexer.new is

/-- What concerns the callback only. -/
def withCalls {α : Type} (x : Option ParserCallback → StateM Calls α) : Action σ α :=
  modifyGet fun p =>
    let (a, calls) := (x p.callback).run p.calls
    (a, { p with calls := calls })

/-- `get_token`. -/
def getToken (fuel : Nat) : Action σ TokenType := do
  let p : Parser σ ← MonadState.get
  match (Lexer.scan fuel).run.run p.lexer with
  | (.ok t, lexer) =>
    set { p with lastToken := t, lexer := lexer }
    return t
  | (.error e, lexer) =>
    set { p with lexer := lexer }
    throw e

/-- The start of the message of a `parse_error.101`. -/
def syntaxError (p : Parser σ) (separator : List Byte) : List Byte :=
  bytes "syntax error - " ++
    if p.lastToken = .parseError then
      p.lexer.errorMessage ++ separator ++ p.lexer.getTokenString ++ bytes "'"
    else bytes "unexpected " ++ p.lastToken.name

/-- `expect`. -/
def expect (t : TokenType) : Action σ Unit := do
  let p : Parser σ ← MonadState.get
  if t ≠ p.lastToken then
    throw <| .thrown <| parseError 101 p.lexer.charsRead
      (syntaxError p (bytes "; last read: '") ++ bytes "; expected " ++ t.name)

/-- `unexpect(last_token)`. -/
def unexpect : Action σ Json := do
  let p : Parser σ ← MonadState.get
  throw <| .thrown <| parseError 101 p.lexer.charsRead (syntaxError p (bytes "; last read '"))

/-- `result[key] = std::move(value)`: `result` is an object when it is kept. -/
def assignMember (result : Json) (key : Key) (value : Json) : Json :=
  match result with
  | .object m => .object (Json.assign m key value)
  | result => result

/-- `result.push_back(std::move(value))`: `result` is an array when it is kept. -/
def pushBack (result value : Json) : Json :=
  match result with
  | .array xs => .array (xs ++ [value])
  | result => result

/-- The start of a member, up to the first token of its value: the key, and `keep_tag`. -/
def parseKey (fuel : Nat) (keep : Bool) : Action σ (Key × Bool) := do
  expect .valueString
  let p : Parser σ ← MonadState.get
  let key := p.lexer.yytext
  let keepTag ← withCalls (Calls.keepTag · keep key)
  let _ ← getToken fuel
  expect .nameSeparator
  let _ ← getToken fuel
  return (key, keepTag)

mutual

/-- `parse_internal`. -/
def parseInternal : Nat → Bool → Action σ Json
  | 0, _ => throw .outOfFuel
  | fuel + 1, keep => do
    let p : Parser σ ← MonadState.get
    match p.lastToken with
    | .beginObject => do
      let (keep, result) ← withCalls fun cb =>
        Calls.startContainer cb .objectStart Json.emptyObject keep
      if (← getToken fuel) = .endObject then withCalls (Calls.endContainer · .objectEnd keep result)
      else do
        let result ← parseMembers fuel keep result
        withCalls (Calls.endContainer · .objectEnd keep result)
    | .beginArray => do
      let (keep, result) ← withCalls fun cb =>
        Calls.startContainer cb .arrayStart Json.emptyArray keep
      -- the callback is asked whether or not the empty array is kept
      if (← getToken fuel) = .endArray then withCalls (Calls.endContainer · .arrayEnd true result)
      else do
        let result ← parseElements fuel keep result
        withCalls (Calls.endContainer · .arrayEnd keep result)
    | .literalNull => withCalls (Calls.endValue · keep .null)
    | .valueString => withCalls (Calls.endValue · keep (.string p.lexer.yytext))
    | .literalTrue => withCalls (Calls.endValue · keep (.boolean true))
    | .literalFalse => withCalls (Calls.endValue · keep (.boolean false))
    | .valueUnsigned => withCalls (Calls.endValue · keep (.numberUnsigned p.lexer.valueUnsigned))
    | .valueInteger => withCalls (Calls.endValue · keep (.numberInteger p.lexer.valueInteger))
    | .valueFloat =>
      if Foundations.Binary64.isFinite p.lexer.valueFloat then
        withCalls (Calls.endValue · keep (.numberFloat p.lexer.valueFloat))
      else
        throw <| .thrown <| outOfRange 406
          (bytes "number overflow parsing '" ++ p.lexer.getTokenString ++ bytes "'")
    | _ => unexpect

/-- The loop over the members of an object. -/
def parseMembers : Nat → Bool → Json → Action σ Json
  | 0, _, _ => throw .outOfFuel
  | fuel + 1, keep, result => do
    let (key, keepTag) ← parseKey fuel keep
    let value ← parseInternal fuel keep
    let result :=
      if keep && keepTag && !value.isDiscarded then assignMember result key value else result
    if (← getToken fuel) = .valueSeparator then do
      let _ ← getToken fuel
      parseMembers fuel keep result
    else do
      expect .endObject
      return result

/-- The loop over the elements of an array. -/
def parseElements : Nat → Bool → Json → Action σ Json
  | 0, _, _ => throw .outOfFuel
  | fuel + 1, keep, result => do
    let value ← parseInternal fuel keep
    let result := if keep && !value.isDiscarded then pushBack result value else result
    if (← getToken fuel) = .valueSeparator then do
      let _ ← getToken fuel
      parseElements fuel keep result
    else do
      expect .endArray
      return result

end

/-- `parse`: the value, or null for one that the callback has discarded. -/
def parse (fuel : Nat) (strict : Bool) : Action σ Json := do
  let _ ← getToken fuel
  let result ← parseInternal fuel true
  if strict then do
    let _ ← getToken fuel
    expect .endOfInput
  return if result.isDiscarded then .null else result

end Parser

/-- `json::parse`, with the parser it leaves behind. A level of nesting takes two rounds, and a loop
takes no more rounds than there are characters left. -/
def Json.parse (s : List Byte) (cb : Option ParserCallback) :
    Except Failure Json × Parser RawMemIstream :=
  (Parser.parse (2 * s.length + 1) true).run.run (Parser.new (RawMemIstream.ofBytes s) cb)

end Wpi

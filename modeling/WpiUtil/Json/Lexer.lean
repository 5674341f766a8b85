import WpiUtil.Foundations.Utf8
import WpiUtil.Json.Exceptions

/-!
# Lexical analysis

The class `lexer`. Its loops get a bound on the number of rounds: every round reads a character, so
one more than there are characters is enough.
-/

namespace Wpi

open Foundations

inductive TokenType where
  | uninitialized
  | literalTrue
  | literalFalse
  | literalNull
  | valueString
  | valueUnsigned
  | valueInteger
  | valueFloat
  | beginArray
  | beginObject
  | endArray
  | endObject
  | nameSeparator
  | valueSeparator
  | parseError
  | endOfInput
deriving DecidableEq, Repr

/-- `token_type_name`. -/
def TokenType.name : TokenType → List Byte
  | uninitialized => bytes "<uninitialized>"
  | literalTrue => bytes "true literal"
  | literalFalse => bytes "false literal"
  | literalNull => bytes "null literal"
  | valueString => bytes "string literal"
  | valueUnsigned => bytes "number literal"
  | valueInteger => bytes "number literal"
  | valueFloat => bytes "number literal"
  | beginArray => bytes "'['"
  | beginObject => bytes "'\x7b'"
  | endArray => bytes "']'"
  | endObject => bytes "'\x7d'"
  | nameSeparator => bytes "':'"
  | valueSeparator => bytes "','"
  | parseError => bytes "<parse error>"
  | endOfInput => bytes "end of input"

/-- A `lexer`: `current` is `none` at the end of the input, and a `double` is given by its bits. -/
structure Lexer (σ : Type) where
  is : σ
  current : Option Byte
  nextUnget : Bool
  charsRead : Nat
  tokenString : List Byte
  yytext : List Byte
  errorMessage : List Byte
  valueInteger : Int64
  valueUnsigned : UInt64
  valueFloat : UInt64

/-- `codepoint_to_string`. -/
def codepointToString (codepoint : Nat) : List Byte :=
  let digits := (Nat.toDigits 16 codepoint).map fun c => UInt8.ofNat c.toUpper.toNat
  bytes "U+" ++ List.replicate (4 - digits.length) 0x30 ++ digits

namespace Lexer

variable {σ : Type} [ByteSource σ]

/-- A member function: it returns a value, and changes the lexer. -/
abbrev Action (σ α : Type) := ExceptT Failure (StateM (Lexer σ)) α

def new (is : σ) : Lexer σ where
  is := is
  current := none
  nextUnget := false
  charsRead := 0
  tokenString := []
  yytext := []
  errorMessage := []
  valueInteger := 0
  valueUnsigned := 0
  valueFloat := 0

/-! ## Input management -/

def reset : Action σ Unit :=
  modify fun lx => { lx with tokenString := [], yytext := [] }

/-- What `get` returns, and the lexer after it. -/
def next (lx : Lexer σ) : Option Byte × Lexer σ :=
  let lx := { lx with charsRead := lx.charsRead + 1 }
  if lx.nextUnget then (lx.current, { lx with nextUnget := false })
  else
    let (data, is) := RawIstream.read lx.is 1
    if RawIstream.hasError is then (none, { lx with is := is, current := none })
    else
      (data.head?, { lx with
        is := is, current := data.head?, tokenString := lx.tokenString ++ data })

def get : Action σ (Option Byte) := modifyGet next

def add (c : Byte) : Action σ Unit :=
  modify fun lx => { lx with yytext := lx.yytext ++ [c] }

def addAll (cs : List Byte) : Action σ Unit :=
  modify fun lx => { lx with yytext := lx.yytext ++ cs }

/-- `error_message = …; return token_type::parse_error;` -/
def fail (errorMessage : List Byte) : Action σ TokenType := do
  modify fun lx => { lx with errorMessage := errorMessage }
  return .parseError

/-- `get_token_string`. A `char` is signed, so the byte `0xff` passes for `eof()`. -/
def getTokenString (lx : Lexer σ) : List Byte :=
  lx.tokenString.flatMap fun c =>
    if c = 0x00 ∨ c = 0xff then []
    else if c ≤ 0x1f then bytes "<" ++ codepointToString c.toNat ++ bytes ">"
    else [c]

/-! ## Strings -/

/-- The value of a hexadecimal digit. -/
def hexDigit (c : Option Byte) : Option Nat :=
  match c with
  | none => none
  | some c =>
    if 0x30 ≤ c ∧ c ≤ 0x39 then some (c.toNat - 0x30)
    else if 0x41 ≤ c ∧ c ≤ 0x46 then some (c.toNat - 0x41 + 10)
    else if 0x61 ≤ c ∧ c ≤ 0x66 then some (c.toNat - 0x61 + 10)
    else none

/-- The digits of `get_codepoint`, with what they count for. -/
def getDigits : List Nat → Nat → Action σ (Option Nat)
  | [], codepoint => return some codepoint
  | weight :: weights, codepoint => do
    let c ← get
    match hexDigit c with
    | none => return none
    | some digit => getDigits weights (codepoint + digit * weight)

/-- `get_codepoint`, with `none` for `-1`. -/
def getCodepoint : Action σ (Option Nat) := getDigits [0x1000, 0x0100, 0x0010, 0x0001] 0

/-- The bytes of a code point. -/
def translate (codepoint : Nat) : List Byte :=
  if codepoint < 0x80 then [UInt8.ofNat codepoint]
  else if codepoint ≤ 0x7ff then
    [UInt8.ofNat (0xc0 ||| (codepoint >>> 6)), UInt8.ofNat (0x80 ||| (codepoint &&& 0x3f))]
  else if codepoint ≤ 0xffff then
    [UInt8.ofNat (0xe0 ||| (codepoint >>> 12)),
      UInt8.ofNat (0x80 ||| ((codepoint >>> 6) &&& 0x3f)),
      UInt8.ofNat (0x80 ||| (codepoint &&& 0x3f))]
  else
    [UInt8.ofNat (0xf0 ||| (codepoint >>> 18)),
      UInt8.ofNat (0x80 ||| ((codepoint >>> 12) &&& 0x3f)),
      UInt8.ofNat (0x80 ||| ((codepoint >>> 6) &&& 0x3f)),
      UInt8.ofNat (0x80 ||| (codepoint &&& 0x3f))]

/-- The case `'u'` of the escapes: `none` to go on with the string. -/
def scanUnicodeEscape : Action σ (Option TokenType) := do
  let needDigits := bytes "invalid string: '\\u' must be followed by 4 hex digits"
  match ← getCodepoint with
  | none => return some (← fail needDigits)
  | some codepoint1 =>
    if 0xd800 ≤ codepoint1 ∧ codepoint1 ≤ 0xdbff then
      let needLow := bytes "invalid string: surrogate " ++ codepointToString codepoint1 ++
        bytes " must be followed by U+DC00..U+DFFF"
      if (← get) = some 0x5c then
        if (← get) = some 0x75 then
          match ← getCodepoint with
          | none => return some (← fail needDigits)
          | some codepoint2 =>
            if 0xdc00 ≤ codepoint2 ∧ codepoint2 ≤ 0xdfff then
              addAll (translate ((codepoint1 <<< 10) + codepoint2 - 0x35fdc00))
              return none
            else
              return some (← fail (needLow ++ bytes " instead of " ++ codepointToString codepoint2))
        else return some (← fail needLow)
      else return some (← fail needLow)
    else if 0xdc00 ≤ codepoint1 ∧ codepoint1 ≤ 0xdfff then
      return some (← fail (bytes "invalid string: surrogate " ++ codepointToString codepoint1 ++
        bytes " must follow U+D800..U+DBFF"))
    else
      addAll (translate codepoint1)
      return none

/-- What a byte other than `u` stands for after a backslash. -/
def escapeCharacter (c : Byte) : Option Byte :=
  if c = 0x22 then some 0x22
  else if c = 0x5c then some 0x5c
  else if c = 0x2f then some 0x2f
  else if c = 0x62 then some 0x08
  else if c = 0x66 then some 0x0c
  else if c = 0x6e then some 0x0a
  else if c = 0x72 then some 0x0d
  else if c = 0x74 then some 0x09
  else none

/-- The case of the backslash. -/
def scanEscape : Action σ (Option TokenType) := do
  match ← get with
  | none =>
    return some (← fail (bytes "invalid string: forbidden character after backslash"))
  | some c =>
    if c = 0x75 then scanUnicodeEscape
    else
      match escapeCharacter c with
      | some d => do
        add d
        return none
      | none =>
        return some (← fail (bytes "invalid string: forbidden character after backslash"))

def illFormed : List Byte := bytes "invalid string: ill-formed UTF-8 byte"

/-- The bytes after a lead byte, each in its range. -/
def scanTrailing : List (Nat × Nat) → Action σ (Option TokenType)
  | [] => return none
  | (lo, hi) :: ranges => do
    match ← get with
    | none => return some (← fail illFormed)
    | some c =>
      if lo ≤ c.toNat ∧ c.toNat ≤ hi then
        add c
        scanTrailing ranges
      else return some (← fail illFormed)

/-- One round of the loop of `scan_string`: `none` to go on. -/
def scanCharacter : Action σ (Option TokenType) := do
  match ← get with
  | none => return some (← fail (bytes "invalid string: missing closing quote"))
  | some c =>
    if c = 0x22 then return some .valueString
    else if c = 0x5c then scanEscape
    else if c ≤ 0x1f then
      return some (← fail (bytes "invalid string: control character " ++
        codepointToString c.toNat ++ bytes " must be escaped"))
    else if c ≤ 0x7f then do
      add c
      return none
    else
      match Utf8.trailing c with
      | some ranges => do
        add c
        scanTrailing ranges
      | none => return some (← fail illFormed)

def scanCharacters : Nat → Action σ TokenType
  | 0 => throw .outOfFuel
  | fuel + 1 => do
    match ← scanCharacter with
    | some t => return t
    | none => scanCharacters fuel

/-- `scan_string`. -/
def scanString (fuel : Nat) : Action σ TokenType := do
  reset
  scanCharacters fuel

/-! ## Numbers -/

/-- The labels of `scan_number`. -/
inductive NumberState where
  | minus
  | zero
  | any1
  | decimal1
  | decimal2
  | exponent
  | sign
  | any2
deriving DecidableEq, Repr

/-- Where `scan_number` goes from a label: on with a character, or to `scan_number_done`, or out with
a message. -/
inductive NumberStep where
  | goto (state : NumberState)
  | done
  | error (message : List Byte)
deriving DecidableEq

/-- The `switch` at a label of `scan_number`. -/
def numberStep (state : NumberState) (current : Option Byte) : NumberStep :=
  match state with
  | .minus =>
    match current with
    | none => .error (bytes "invalid number; expected digit after '-'")
    | some c =>
      if c = 0x30 then .goto .zero
      else if isDigit c then .goto .any1
      else .error (bytes "invalid number; expected digit after '-'")
  | .zero =>
    match current with
    | none => .done
    | some c =>
      if c = 0x2e then .goto .decimal1
      else if c = 0x65 ∨ c = 0x45 then .goto .exponent
      else .done
  | .any1 =>
    match current with
    | none => .done
    | some c =>
      if isDigit c then .goto .any1
      else if c = 0x2e then .goto .decimal1
      else if c = 0x65 ∨ c = 0x45 then .goto .exponent
      else .done
  | .decimal1 =>
    match current with
    | none => .error (bytes "invalid number; expected digit after '.'")
    | some c =>
      if isDigit c then .goto .decimal2
      else .error (bytes "invalid number; expected digit after '.'")
  | .decimal2 =>
    match current with
    | none => .done
    | some c =>
      if isDigit c then .goto .decimal2
      else if c = 0x65 ∨ c = 0x45 then .goto .exponent
      else .done
  | .exponent =>
    match current with
    | none => .error (bytes "invalid number; expected '+', '-', or digit after exponent")
    | some c =>
      if c = 0x2b ∨ c = 0x2d then .goto .sign
      else if isDigit c then .goto .any2
      else .error (bytes "invalid number; expected '+', '-', or digit after exponent")
  | .sign =>
    match current with
    | none => .error (bytes "invalid number; expected digit after exponent sign")
    | some c =>
      if isDigit c then .goto .any2
      else .error (bytes "invalid number; expected digit after exponent sign")
  | .any2 =>
    match current with
    | none => .done
    | some c => if isDigit c then .goto .any2 else .done

/-- What is assigned to `number_type` at a label. -/
def numberType (state : NumberState) (type : TokenType) : TokenType :=
  match state with
  | .minus => .valueInteger
  | .decimal1 => .valueFloat
  | .exponent => .valueFloat
  | _ => type

/-- From `scan_number_done` on. -/
def scanNumberDone (type : TokenType) : Action σ TokenType := do
  modify fun lx => { lx with charsRead := lx.charsRead - 1, nextUnget := true }
  let lx : Lexer σ ← MonadState.get
  let scanFloat : Action σ TokenType := do
    modify fun lx => { lx with valueFloat := strtod lx.yytext }
    return .valueFloat
  if type = .valueUnsigned then
    match strtoull lx.yytext with
    | some x => do
      modify fun lx => { lx with valueUnsigned := x }
      return .valueUnsigned
    | none => scanFloat
  else if type = .valueInteger then
    match strtoll lx.yytext with
    | some x => do
      modify fun lx => { lx with valueInteger := x }
      return .valueInteger
    | none => scanFloat
  else scanFloat

/-- `scan_number` from a label on. -/
def scanNumberFrom : Nat → NumberState → TokenType → Action σ TokenType
  | 0, _, _ => throw .outOfFuel
  | fuel + 1, state, type => do
    let type := numberType state type
    let c ← get
    match numberStep state c with
    | .goto state => do
      addAll c.toList
      scanNumberFrom fuel state type
    | .done => scanNumberDone type
    | .error message => fail message

/-- `scan_number`, which is called with a minus sign or a digit as the current character. The
decimal point of the C locale is the one that is read. -/
def scanNumber (fuel : Nat) : Action σ TokenType := do
  reset
  let lx : Lexer σ ← MonadState.get
  addAll lx.current.toList
  if lx.current = some 0x2d then scanNumberFrom fuel .minus .valueUnsigned
  else if lx.current = some 0x30 then scanNumberFrom fuel .zero .valueUnsigned
  else scanNumberFrom fuel .any1 .valueUnsigned

/-! ## Tokens -/

/-- Whether the next characters are those of `text`; the first other character is read as well. -/
def expectText : List Byte → Action σ Bool
  | [] => return true
  | c :: text => do
    if (← get) = some c then expectText text else return false

/-- `scan_true`, `scan_false` and `scan_null`. -/
def scanLiteral (text : List Byte) (type : TokenType) (message : List Byte) :
    Action σ TokenType := do
  if ← expectText text then return type else fail message

def scanTrue : Action σ TokenType :=
  scanLiteral (bytes "rue") .literalTrue (bytes "invalid literal; expected 'true'")

def scanFalse : Action σ TokenType :=
  scanLiteral (bytes "alse") .literalFalse (bytes "invalid literal; expected 'false'")

def scanNull : Action σ TokenType :=
  scanLiteral (bytes "ull") .literalNull (bytes "invalid literal; expected 'null'")

/-- The next character that is not white space. -/
def skipWhitespace : Nat → Action σ (Option Byte)
  | 0 => throw .outOfFuel
  | fuel + 1 => do
    let c ← get
    if c = some 0x20 ∨ c = some 0x09 ∨ c = some 0x0a ∨ c = some 0x0d then skipWhitespace fuel
    else return c

/-- The structural characters. -/
def symbolToken (c : Byte) : Option TokenType :=
  if c = 0x5b then some .beginArray
  else if c = 0x5d then some .endArray
  else if c = 0x7b then some .beginObject
  else if c = 0x7d then some .endObject
  else if c = 0x3a then some .nameSeparator
  else if c = 0x2c then some .valueSeparator
  else none

/-- The `switch` of `scan`. -/
def scanToken (fuel : Nat) (current : Option Byte) : Action σ TokenType := do
  match current with
  | none => return .endOfInput
  | some c =>
    match symbolToken c with
    | some t => return t
    | none =>
      if c = 0x74 then scanTrue
      else if c = 0x66 then scanFalse
      else if c = 0x6e then scanNull
      else if c = 0x22 then scanString fuel
      else if c = 0x2d ∨ isDigit c then scanNumber fuel
      else if c = 0x00 then return .endOfInput
      else fail (bytes "invalid literal")

/-- `scan`. -/
def scan (fuel : Nat) : Action σ TokenType := do
  let current ← skipWhitespace fuel
  scanToken fuel current

end Lexer

end Wpi

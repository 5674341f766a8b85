import WpiUtil.Llvm.StringRef

/-!
# URLs

`UnescapeURI`, `EscapeURI` and the constructor of `HttpLocation`.
-/

namespace Wpi

open StringRef

/-- `hexDigitValue`. -/
def hexDigitValue (c : Byte) : Option Byte :=
  if 0x30 ≤ c ∧ c ≤ 0x39 then some (c - 0x30)
  else if 0x61 ≤ c ∧ c ≤ 0x66 then some (c - 0x61 + 10)
  else if 0x41 ≤ c ∧ c ≤ 0x46 then some (c - 0x41 + 10)
  else none

/-- `UnescapeURI`, `none` on an error. -/
def unescapeURI : List Byte → Option (List Byte)
  | [] => some []
  | 0x25 :: h :: l :: str =>
    match hexDigitValue h, hexDigitValue l with
    | some val1, some val2 => (unescapeURI str).map ((val1 <<< 4 ||| val2) :: ·)
    | _, _ => none
  -- not enough characters are left
  | 0x25 :: _ => none
  | 0x2b :: str => (unescapeURI str).map (0x20 :: ·)
  | c :: str => (unescapeURI str).map (c :: ·)

/-- `isalnum`. -/
def isalnum (c : Byte) : Bool :=
  (0x30 ≤ c && c ≤ 0x39) || (0x41 ≤ c && c ≤ 0x5a) || (0x61 ≤ c && c ≤ 0x7a)

/-- `hexLut`. -/
def hexLut : List Byte := bytes "0123456789ABCDEF"

/-- What `EscapeURI` puts out for a character. -/
def escapeURIChar (spacePlus : Bool) (c : Byte) : List Byte :=
  if isalnum c || (bytes "-_.~").contains c then [c]
  else if spacePlus && c == 0x20 then [0x2b]
  else [0x25, hexLut.getD (c >>> 4).toNat 0, hexLut.getD (c &&& 0x0f).toNat 0]

/-- `EscapeURI`. -/
def escapeURI (str : List Byte) (spacePlus : Bool) : List Byte :=
  str.flatMap (escapeURIChar spacePlus)

/-! ## Escaped text -/

/-- A hexadecimal digit. -/
def isxdigit (c : Byte) : Bool :=
  (0x30 ≤ c && c ≤ 0x39) || (0x41 ≤ c && c ≤ 0x46) || (0x61 ≤ c && c ≤ 0x66)

/-- Two hexadecimal digits come first. -/
def StartsWithDigits (str : List Byte) : Prop :=
  ∃ h l rest, str = h :: l :: rest ∧ isxdigit h = true ∧ isxdigit l = true

/-- Text that is read from left to right, where every `%` takes two hexadecimal digits with it. -/
inductive WellEscaped : List Byte → Prop
  | nil : WellEscaped []
  | char {c : Byte} {str : List Byte} : c ≠ 0x25 → WellEscaped str → WellEscaped (c :: str)
  | escape {h l : Byte} {str : List Byte} : isxdigit h = true → isxdigit l = true →
      WellEscaped str → WellEscaped (0x25 :: h :: l :: str)

/-! ## URLs -/

structure HttpLocation where
  url : List Byte
  user : List Byte
  password : List Byte
  host : List Byte
  port : Int32
  path : List Byte
  params : List (List Byte × List Byte)
  fragment : List Byte
deriving DecidableEq, Repr

/-- The part of an `HttpLocation` that comes from the text in front of the path. -/
structure Authority where
  user : List Byte
  password : List Byte
  host : List Byte
  port : Int32
deriving DecidableEq, Repr

namespace HttpLocation

/-- `user:password`, unescaped. An error message is the one before with the new one after it. -/
def parseUserpass (userpass errorMsg : List Byte) :
    Except (List Byte) (List Byte × List Byte) :=
  if userpass = [] then .ok ([], [])
  else
    let (rawUser, rawPassword) := StringRef.split userpass 0x3a
    match unescapeURI rawUser with
    | none => .error (errorMsg ++ bytes "could not unescape user \"" ++ rawUser ++ bytes "\"")
    | some user =>
      match unescapeURI rawPassword with
      | none =>
        .error (errorMsg ++ bytes "could not unescape password \"" ++ rawPassword ++ bytes "\"")
      | some password => .ok (user, password)

/-- `host:port`. -/
def parseHostport (hostport errorMsg : List Byte) : Except (List Byte) (List Byte × Int32) :=
  let (host, portStr) := rsplit hostport 0x3a
  if host = [] then .error (bytes "host is empty")
  else if portStr = [] then .ok (host, 80)
  else
    match getAsInteger portStr 10 with
    | none => .error (errorMsg ++ bytes "port \"" ++ portStr ++ bytes "\" is not an integer")
    | some port => .ok (host, port)

/-- `user:password@host:port`. -/
def parseAuthority (authority errorMsg : List Byte) : Except (List Byte) Authority :=
  let (userpass, hostport) := StringRef.split authority 0x40
  -- split leaves the right side empty if there is no separator
  let (userpass, hostport) := if hostport = [] then ([], userpass) else (userpass, hostport)
  match parseUserpass userpass errorMsg with
  | .error e => .error e
  | .ok (user, password) =>
    match parseHostport hostport errorMsg with
    | .error e => .error e
    | .ok (host, port) => .ok ⟨user, password, host, port⟩

/-- The loop that splits the query string into parameters. Every round takes something from it. -/
def parseParams (errorMsg : List Byte) :
    Nat → List Byte → Except (List Byte) (List (List Byte × List Byte))
  | 0, _ => .ok []
  | fuel + 1, query =>
    if query = [] then .ok []
    else
      let (rawParam, query) := StringRef.split query 0x26
      -- ignores "&&"
      if rawParam = [] then parseParams errorMsg fuel query
      else
        let (rawParam, rawValue) := StringRef.split rawParam 0x3d
        match unescapeURI rawParam with
        | none =>
          .error (errorMsg ++ bytes "could not unescape parameter \"" ++ rawParam ++ bytes "\"")
        | some param =>
          match unescapeURI rawValue with
          | none =>
            .error (errorMsg ++ bytes "could not unescape value \"" ++ rawValue ++ bytes "\"")
          | some value => (parseParams errorMsg fuel query).map ((param, value) :: ·)

/-- The constructor of `HttpLocation`: the location, or the message when there is an error. -/
def ofUrl (url errorMsg : List Byte) : Except (List Byte) HttpLocation :=
  let (scheme, query) := StringRef.split url 0x3a
  if !equalsLower scheme (bytes "http") then .error (bytes "only supports http URLs")
  else if !startswith query (bytes "//") then .error (bytes "expected http://...")
  else
    let (authority, query) := StringRef.split (query.drop 2) 0x2f
    match parseAuthority authority errorMsg with
    | .error e => .error e
    | .ok ⟨user, password, host, port⟩ =>
      let (query, fragment) := StringRef.split query 0x23
      let (path, query) := StringRef.split query 0x3f
      match parseParams errorMsg query.length query with
      | .error e => .error e
      | .ok params => .ok ⟨url, user, password, host, port, path, params, fragment⟩

/-- `user`, `password`, `host` and `port`. -/
def authority (loc : HttpLocation) : Authority := ⟨loc.user, loc.password, loc.host, loc.port⟩

end HttpLocation

/-! ## The parts of a URL -/

/-- What ends the authority of a URL. -/
def endsAuthority (c : Byte) : Bool := c == 0x2f || c == 0x3f || c == 0x23

/-- The text between `http://` and the first `/`, `?` or `#`. -/
def authorityText (url : List Byte) : List Byte := (url.drop 7).takeWhile fun c => !endsAuthority c

/-- No `?` and no `#` comes in front of the first `/`. -/
def MarksAfterSlash (url : List Byte) : Prop :=
  ∀ c ∈ (url.drop 7).takeWhile fun c => c != 0x2f, c ≠ 0x3f ∧ c ≠ 0x23

/-- `host:port` in a URL: what the first `@` in front of the path leaves. -/
def hostportText (url : List Byte) : List Byte :=
  let (userpass, hostport) := StringRef.split (StringRef.split (url.drop 7) 0x2f).1 0x40
  if hostport = [] then userpass else hostport

/-- What comes after the last `:` of `host:port`. -/
def portText (url : List Byte) : List Byte := (rsplit (hostportText url) 0x3a).2

end Wpi

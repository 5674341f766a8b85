import WpiUtil.Support.Base64
import WpiUtil.Support.HttpHeaders
import WpiUtil.Support.HttpLocation

/-!
# HTTP requests

The class `HttpRequest`, and the handshake of an `HttpConnection`. What is sent is recorded.
-/

namespace Wpi

open StringRef

structure HttpRequest where
  host : List Byte
  port : Int32
  auth : List Byte
  path : List Byte
deriving DecidableEq, Repr

namespace HttpRequest

/-- What `SetPath` writes for a parameter, after the `?` or `&`. -/
def pathParam (param : List Byte × List Byte) : List Byte :=
  escapeURI param.1 true ++ if param.2 = [] then [] else 0x3d :: escapeURI param.2 true

/-- The loop of `SetPath`. -/
def pathParams : Bool → List (List Byte × List Byte) → List Byte
  | _, [] => []
  | first, param :: params =>
    (if first then 0x3f else 0x26) :: pathParam param ++ pathParams false params

/-- `SetPath`: the path with the query string. -/
def setPath (path : List Byte) (params : List (List Byte × List Byte)) : List Byte :=
  path ++ pathParams true params

/-- `SetAuth`. -/
def setAuth (loc : HttpLocation) : List Byte :=
  if loc.user ≠ [] then base64Encode (loc.user ++ [0x3a] ++ loc.password) else []

/-- `HttpRequest(loc)`. -/
def ofLocation (loc : HttpLocation) : HttpRequest :=
  ⟨loc.host, loc.port, setAuth loc, setPath loc.path loc.params⟩

end HttpRequest

/-- An `HttpConnection`: `is` is what comes from the peer, and `os` what has been sent to it. -/
structure HttpConnection (σ : Type) where
  is : σ
  os : List Byte
  contentType : List Byte
  contentLength : List Byte

namespace HttpConnection

/-- The GET request that `Handshake` sends. -/
def getRequest (request : HttpRequest) : List Byte :=
  bytes "GET /" ++ request.path ++ bytes " HTTP/1.1\r\n" ++
    (bytes "Host: " ++ request.host ++ bytes "\r\n") ++
    (if request.auth ≠ [] then bytes "Authorization: Basic " ++ request.auth ++ bytes "\r\n"
      else []) ++
    bytes "\r\n"

/-- `Handshake`: the result, the warning message and the connection afterwards. -/
def handshake {σ : Type} [ByteSource σ] (conn : HttpConnection σ) (request : HttpRequest)
    (warnMsg : List Byte) : Bool × List Byte × HttpConnection σ :=
  let conn := { conn with os := conn.os ++ getRequest request }
  -- the first line of the response
  let (lineBuf, is) := RawIstream.getline conn.is 1024
  let conn := { conn with is := is }
  if RawIstream.hasError is then (false, bytes "disconnected before response", conn)
  else
    let (httpver, line) := StringRef.split (rtrim lineBuf) 0x20
    let (code, codeText) := StringRef.split line 0x20
    if !startswith httpver (bytes "HTTP") then (false, bytes "did not receive HTTP response", conn)
    else if code ≠ bytes "200" then
      (false, warnMsg ++ bytes "received " ++ code ++ bytes " " ++ codeText ++ bytes " response",
        conn)
    else
      match parseHttpHeaders conn.is (some conn.contentType) (some conn.contentLength) with
      | (result, contentType, contentLength, is) =>
        (result, if result then warnMsg else bytes "disconnected during headers",
          { conn with
            is := is
            contentType := contentType.getD []
            contentLength := contentLength.getD [] })

end HttpConnection

/-! ## The parts of a URL that are sent -/

/-- The host with the port, in the text in front of the first `/`. -/
def sentHost (url : List Byte) : List Byte :=
  let authority := (url.drop 7).takeWhile fun c => c != 0x2f
  let hostport := (authority.dropWhile fun c => c != 0x40).tail
  if hostport = [] then authority.takeWhile fun c => c != 0x40 else hostport

/-- What comes after the first `/`, without the query and the fragment. -/
def sentPath (url : List Byte) : List Byte :=
  ((url.drop 7).dropWhile fun c => c != 0x2f).tail.takeWhile fun c => c != 0x3f && c != 0x23

/-- The byte ends no line. -/
def StaysInLine (c : Byte) : Prop := c ≠ 0x0d ∧ c ≠ 0x0a

instance (c : Byte) : Decidable (StaysInLine c) :=
  inferInstanceAs (Decidable (c ≠ 0x0d ∧ c ≠ 0x0a))

end Wpi

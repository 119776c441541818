/-
Requests and responses.

The data model of `http_request.cc` and `http_response.cc`: methods and
statuses with their texts, the fields of a message with the setters that the
parsers and the client use, the close flag that `initConnection` derives from
version and `Connection` header, and the serialization `dump`.

* `stringToHttpMethod_httpMethodToString` — method texts are read back;
* `HttpRequest.dump`, `HttpResponse.dump` — the bytes of a message.
-/
import Droplet.Http.HttpMap

namespace Http

inductive HttpMethod
  | delete | get | head | post | put | connect | options | trace | copy | lock | mkcol | move
  | propfind | proppatch | search | unlock | bind | rebind | unbind | acl | report | mkactivity
  | checkout | merge | msearch | notify | subscribe | unsubscribe | patch | purge | mkcalendar
  | link | unlink | source | invalidMethod
  deriving DecidableEq, Repr

/-- The methods in the order of their codes. -/
def kMethods : List HttpMethod :=
  [.delete, .get, .head, .post, .put, .connect, .options, .trace, .copy, .lock, .mkcol, .move,
   .propfind, .proppatch, .search, .unlock, .bind, .rebind, .unbind, .acl, .report, .mkactivity,
   .checkout, .merge, .msearch, .notify, .subscribe, .unsubscribe, .patch, .purge, .mkcalendar,
   .link, .unlink, .source]

def kMethodNames : List Bytes :=
  ["DELETE", "GET", "HEAD", "POST", "PUT", "CONNECT", "OPTIONS", "TRACE", "COPY", "LOCK",
   "MKCOL", "MOVE", "PROPFIND", "PROPPATCH", "SEARCH", "UNLOCK", "BIND", "REBIND", "UNBIND",
   "ACL", "REPORT", "MKACTIVITY", "CHECKOUT", "MERGE", "M-SEARCH", "NOTIFY", "SUBSCRIBE",
   "UNSUBSCRIBE", "PATCH", "PURGE", "MKCALENDAR", "LINK", "UNLINK", "SOURCE"].map ascii

def stringToHttpMethod (method : Bytes) : HttpMethod :=
  match kMethodNames.findIdx? (· == method) with
  | none => .invalidMethod
  | some index => kMethods.getD index .invalidMethod

def httpMethodToString (method : HttpMethod) : Bytes :=
  kMethodNames.getD (kMethods.idxOf method) (ascii "INVALID_METHOD")

theorem stringToHttpMethod_httpMethodToString {method : HttpMethod}
    (h : method ≠ .invalidMethod) : stringToHttpMethod (httpMethodToString method) = method := by
  cases method <;> first | exact absurd rfl h | decide +kernel

/-- A response status: any value of the source's 16-bit enumeration. -/
abbrev HttpStatus := UInt16

def kStatusNames : List (HttpStatus × String) :=
  [(100, "Continue"), (101, "Switching Protocols"), (102, "Processing"), (103, "Early Hints"),
   (200, "OK"), (201, "Created"), (202, "Accepted"), (203, "Non-Authoritative Information"),
   (204, "No Content"), (205, "Reset Content"), (206, "Partial Content"), (207, "Multi-Status"),
   (208, "Already Reported"), (226, "IM Used"), (300, "Multiple Choices"),
   (301, "Moved Permanently"), (302, "Found"), (303, "See Other"), (304, "Not Modified"),
   (305, "Use Proxy"), (307, "Temporary Redirect"), (308, "Permanent Redirect"),
   (400, "Bad Request"), (401, "Unauthorized"), (402, "Payment Required"), (403, "Forbidden"),
   (404, "Not Found"), (405, "Method Not Allowed"), (406, "Not Acceptable"),
   (407, "Proxy Authentication Required"), (408, "Request Timeout"), (409, "Conflict"),
   (410, "Gone"), (411, "Length Required"), (412, "Precondition Failed"),
   (413, "Payload Too Large"), (414, "URI Too Long"), (415, "Unsupported Media Type"),
   (416, "Range Not Satisfiable"), (417, "Expectation Failed"), (418, "I'm a Teapot"),
   (421, "Misdirected Request"), (422, "Unprocessable Entity"), (423, "Locked"),
   (424, "Failed Dependency"), (425, "Too Early"), (426, "Upgrade Required"),
   (428, "Precondition Required"), (429, "Too Many Requests"),
   (431, "Request Header Fields Too Large"), (451, "Unavailable For Legal Reasons"),
   (500, "Internal Server Error"), (501, "Not Implemented"), (502, "Bad Gateway"),
   (503, "Service Unavailable"), (504, "Gateway Timeout"), (505, "HTTP Version Not Supported"),
   (506, "Variant Also Negotiates"), (507, "Insufficient Storage"), (508, "Loop Detected"),
   (510, "Not Extended"), (511, "Network Authentication Required")]

def httpStatusToString (status : HttpStatus) : Bytes :=
  match kStatusNames.find? (·.1 == status) with
  | none => ascii "Unknown"
  | some entry => ascii entry.2

/-- One header line of a serialized message. -/
def fieldLine (field : Bytes × Bytes) : Bytes := field.1 ++ ascii ": " ++ field.2 ++ crlf

/-- The `major.minor` digits of a version byte. -/
def versionText (version : UInt8) : Bytes :=
  decimal (version.toNat / 16) ++ ascii "." ++ decimal (version.toNat % 16)

/-- The `Connection` value that a close flag is sent as. -/
def connectionValue (close : Bool) : Bytes := if close then ascii "close" else ascii "keep-alive"

/-- The close flag that a version and a `Connection` header ask for. -/
def closeFrom (version : UInt8) (connection : Bytes) : Bool :=
  if headerContainsToken connection (ascii "close") then true
  else if headerContainsToken connection (ascii "keep-alive") then false
  else version ≤ 0x10

/-! ### Requests -/

/-- The fields of `HttpRequest`, the lazily parsed parameters and cookies
included. -/
structure HttpRequest where
  method : HttpMethod
  version : UInt8
  close : Bool
  websocket : Bool
  path : Bytes
  query : Bytes
  fragment : Bytes
  body : Bytes
  headers : HttpMap
  params : HttpMap
  cookies : HttpMap
  paramsInitialized : Bool
  cookiesInitialized : Bool
  deriving DecidableEq

namespace HttpRequest

/-- The constructor `HttpRequest(version, close)`. -/
def new (version : UInt8) (close : Bool) : HttpRequest where
  method := .get
  version := version
  close := close
  websocket := false
  path := ascii "/"
  query := []
  fragment := []
  body := []
  headers := .empty
  params := .empty
  cookies := .empty
  paramsInitialized := false
  cookiesInitialized := false

def clearParams (r : HttpRequest) : HttpRequest :=
  { r with params := .empty, paramsInitialized := false }

def clearCookies (r : HttpRequest) : HttpRequest :=
  { r with cookies := .empty, cookiesInitialized := false }

def setMethod (r : HttpRequest) (value : HttpMethod) : HttpRequest := { r with method := value }

def setPath (r : HttpRequest) (value : Bytes) : HttpRequest := { r with path := value }

def setQuery (r : HttpRequest) (value : Bytes) : HttpRequest :=
  { r with query := value }.clearParams

def setFragment (r : HttpRequest) (value : Bytes) : HttpRequest := { r with fragment := value }

def setBody (r : HttpRequest) (value : Bytes) : HttpRequest :=
  { r with body := value }.clearParams

def setClose (r : HttpRequest) (value : Bool) : HttpRequest := { r with close := value }

def setHeader (r : HttpRequest) (key value : Bytes) : HttpRequest :=
  let r' := { r with headers := r.headers.insertOrAssign key value }
  let r' := if caseInsensitiveEqual key (ascii "content-type") then r'.clearParams else r'
  if caseInsensitiveEqual key (ascii "cookie") then r'.clearCookies else r'

def getHeader (r : HttpRequest) (key : Bytes) : Bytes := (r.headers.find? key).getD []

def initConnection (r : HttpRequest) : HttpRequest :=
  { r with close := closeFrom r.version (r.getHeader (ascii "connection")) }

def shouldSkipHeader (name : Bytes) (websocket hasBody : Bool) : Bool :=
  (!websocket && caseInsensitiveEqual name (ascii "connection")) ||
    (hasBody && caseInsensitiveEqual name (ascii "content-length"))

/-- The header fields that `dump` writes, in order. -/
def sentFields (r : HttpRequest) : List (Bytes × Bytes) :=
  (r.headers.entries.filter fun e => !shouldSkipHeader e.1 r.websocket !r.body.isEmpty) ++
    (if r.websocket then [] else [(ascii "Connection", connectionValue r.close)]) ++
    (if r.body.isEmpty then [] else [(ascii "Content-Length", decimal r.body.length)])

/-- The request target that `dump` writes. -/
def sentTarget (r : HttpRequest) : Bytes :=
  (if r.path.isEmpty then ascii "/" else r.path) ++
    (if r.query.isEmpty then [] else ascii "?" ++ r.query) ++
    (if r.fragment.isEmpty then [] else ascii "#" ++ r.fragment)

def requestLine (r : HttpRequest) : Bytes :=
  httpMethodToString r.method ++ ascii " " ++ r.sentTarget ++ ascii " HTTP/" ++
    versionText r.version

/-- The bytes of a request; `toString` is the same text. -/
def dump (r : HttpRequest) : Bytes :=
  r.requestLine ++ crlf ++ r.sentFields.flatMap fieldLine ++ crlf ++ r.body

@[simp] theorem setHeader_headers (r : HttpRequest) (key value : Bytes) :
    (r.setHeader key value).headers = r.headers.insertOrAssign key value := by
  simp only [setHeader]
  split_ifs <;> rfl

/-- What the request line says. -/
structure Line where
  method : HttpMethod
  version : UInt8
  path : Bytes
  query : Bytes
  fragment : Bytes

def line (r : HttpRequest) : Line := ⟨r.method, r.version, r.path, r.query, r.fragment⟩

@[simp] theorem setHeader_line (r : HttpRequest) (key value : Bytes) :
    (r.setHeader key value).line = r.line := by
  simp only [setHeader]
  split_ifs <;> rfl

@[simp] theorem setHeader_websocket (r : HttpRequest) (key value : Bytes) :
    (r.setHeader key value).websocket = r.websocket := by
  simp only [setHeader]
  split_ifs <;> rfl

end HttpRequest

/-! ### Responses -/

structure HttpResponse where
  status : HttpStatus
  version : UInt8
  close : Bool
  websocket : Bool
  body : Bytes
  reason : Bytes
  headers : HttpMap
  cookies : List Bytes
  deriving DecidableEq

namespace HttpResponse

/-- The constructor `HttpResponse(version, close)`. -/
def new (version : UInt8) (close : Bool) : HttpResponse where
  status := 200
  version := version
  close := close
  websocket := false
  body := []
  reason := []
  headers := .empty
  cookies := []

def setStatus (r : HttpResponse) (value : HttpStatus) : HttpResponse := { r with status := value }

def setBody (r : HttpResponse) (value : Bytes) : HttpResponse := { r with body := value }

def setReason (r : HttpResponse) (value : Bytes) : HttpResponse := { r with reason := value }

def setClose (r : HttpResponse) (value : Bool) : HttpResponse := { r with close := value }

def setHeader (r : HttpResponse) (key value : Bytes) : HttpResponse :=
  { r with headers := r.headers.insertOrAssign key value }

def addCookie (r : HttpResponse) (value : Bytes) : HttpResponse :=
  { r with cookies := r.cookies ++ [value] }

def getHeader (r : HttpResponse) (key : Bytes) : Bytes := (r.headers.find? key).getD []

def initConnection (r : HttpResponse) : HttpResponse :=
  { r with close := closeFrom r.version (r.getHeader (ascii "connection")) }

/-- `ResponseAllowsBody` of the serializer. -/
def responseAllowsBody (status : HttpStatus) : Bool :=
  !(100 ≤ status && status < 200) && status != 204 && status != 304

/-- The header fields that `dump` writes, in order. -/
def sentFields (r : HttpResponse) : List (Bytes × Bytes) :=
  (r.headers.entries.filter fun e =>
      !(!r.websocket && caseInsensitiveEqual e.1 (ascii "connection") ||
        !r.websocket && caseInsensitiveEqual e.1 (ascii "content-length"))) ++
    r.cookies.map (fun cookie => (ascii "Set-Cookie", cookie)) ++
    (if r.websocket then []
      else (ascii "Connection", connectionValue r.close) ::
        (if responseAllowsBody r.status then
          [(ascii "Content-Length", decimal r.body.length)] else []))

/-- The reason phrase that `dump` writes. -/
def sentReason (r : HttpResponse) : Bytes :=
  if r.reason.isEmpty then httpStatusToString r.status else r.reason

def statusLine (r : HttpResponse) : Bytes :=
  ascii "HTTP/" ++ versionText r.version ++ ascii " " ++ decimal r.status.toNat ++ ascii " " ++
    r.sentReason

/-- The body that `dump` writes. -/
def sentBody (r : HttpResponse) : Bytes := if responseAllowsBody r.status then r.body else []

/-- The bytes of a response; `toString` is the same text. -/
def dump (r : HttpResponse) : Bytes :=
  r.statusLine ++ crlf ++ r.sentFields.flatMap fieldLine ++ crlf ++ r.sentBody

end HttpResponse

/-- `HttpRequest::createResponse`. -/
def HttpRequest.createResponse (r : HttpRequest) : HttpResponse :=
  HttpResponse.new r.version r.close

end Http

/-
The request parser.

`HttpRequestParser.parse` restarts from the beginning of the buffer on every
call.  Bytes that are appended change neither the header section nor a body
that is already complete:

* `parseMessage_append` — a report other than "incomplete" is final.
-/
import Droplet.Http.HeaderBlock

open Search

namespace Http

namespace HttpRequestParser

def kMaxHeaderSize : ℕ := 64 * 1024

def kMaxBodySize : ℕ := 64 * 1024 * 1024

def headerMessages : HeaderMessages where
  unterminated := ascii "HTTP header line is not terminated with CRLF"
  folded := ascii "empty or folded HTTP header line is not supported"
  missingColon := ascii "HTTP header line is missing ':'"
  invalid := ascii "HTTP header contains an invalid name or value"

/-- Version byte of the version text of a request line. -/
def encodedVersion (version : Bytes) : Option UInt8 :=
  if version = ascii "HTTP/1.1" then some 0x11
  else if version = ascii "HTTP/1.0" then some 0x10
  else none

/-- Fragment, query and path of a request target. -/
def setTarget (request : HttpRequest) (target : Bytes) : HttpRequest :=
  let fragmentPosition := find [35] target 0
  let request := match fragmentPosition with
    | some position => request.setFragment (target.drop (position + 1))
    | none => request
  let targetWithoutFragment := match fragmentPosition with
    | some position => target.take position
    | none => target
  match find [63] targetWithoutFragment 0 with
  | some position =>
    (request.setPath (targetWithoutFragment.take position)).setQuery
      (targetWithoutFragment.drop (position + 1))
  | none => request.setPath targetWithoutFragment

/-- The request line: method, target and version. -/
def parseRequestLine (requestLine : Bytes) : Except ParseFailure HttpRequest :=
  let malformed : ParseFailure :=
    ⟨.invalidRequestTarget, ascii "HTTP request line must contain method, target and version"⟩
  match find [32] requestLine 0 with
  | none => .error malformed
  | some methodEnd =>
    match find [32] requestLine (methodEnd + 1) with
    | none => .error malformed
    | some targetEnd =>
      if methodEnd = 0 ∨ targetEnd = methodEnd + 1 ∨
          find [32] requestLine (targetEnd + 1) ≠ none then .error malformed
      else
        let methodText := substr requestLine 0 methodEnd
        let method := stringToHttpMethod methodText
        if method = .invalidMethod then
          .error ⟨.invalidMethod, ascii "unsupported HTTP method: " ++ methodText⟩
        else
          let target := substr requestLine (methodEnd + 1) (targetEnd - methodEnd - 1)
          if target.any fun character => character ≤ 0x20 || character == 0x7F then
            .error ⟨.invalidRequestTarget,
              ascii "HTTP request target contains an invalid character"⟩
          else
            match encodedVersion (requestLine.drop (targetEnd + 1)) with
            | none => .error ⟨.invalidVersion,
                ascii "only HTTP/1.0 and HTTP/1.1 requests are supported"⟩
            | some version =>
              let request := setTarget ((HttpRequest.new version (version ≤ 0x10)).setMethod method)
                target
              if request.path.isEmpty then
                .error ⟨.invalidRequestTarget, ascii "HTTP request target has an empty path"⟩
              else .ok request

/-- The variables of the header loop. -/
structure Headers where
  contentLengthSeen : Bool
  parsedContentLength : ℕ
  request : HttpRequest

/-- The content length, as a field sets it. -/
def frameField (s : Headers) (name value : Bytes) : Except ParseFailure Headers :=
  if caseInsensitiveEqual name (ascii "content-length") then
    match parseContentLength value with
    | none => .error ⟨.invalidContentLength,
        ascii "Content-Length must be one unsigned decimal value"⟩
    | some currentLength =>
      if s.contentLengthSeen then
        .error ⟨.invalidContentLength,
          ascii "Content-Length must be one unsigned decimal value"⟩
      else .ok { s with contentLengthSeen := true, parsedContentLength := currentLength }
  else if caseInsensitiveEqual name (ascii "transfer-encoding") && !value.isEmpty then
    .error ⟨.unsupportedTransferEncoding,
      ascii "Transfer-Encoding is not supported by the request parser yet"⟩
  else .ok s

/-- What the header loop does with a field. -/
def onField (s : Headers) (name value : Bytes) : Except ParseFailure Headers :=
  (frameField s name value).map fun s => { s with request := s.request.setHeader name value }

/-- A finished parse: bytes consumed, request and content length. -/
structure Parsed where
  consumed : ℕ
  request : HttpRequest
  contentLength : ℕ
  deriving DecidableEq

/-- The end of `parse`: the body once all of it is there. -/
def parseBody (input : Bytes) (headerSize : ℕ) (s : Headers) : Except ParseFailure (Option Parsed) :=
  if kMaxBodySize < s.parsedContentLength then
    .error ⟨.bodyTooLarge, ascii "HTTP request body exceeds the configured limit"⟩
  else if sizeMax - headerSize < s.parsedContentLength then
    .error ⟨.bodyTooLarge, ascii "HTTP request size overflows size_t"⟩
  else
    let messageSize := headerSize + s.parsedContentLength
    if input.length < messageSize then .ok none
    else .ok <| some
      { consumed := messageSize
        request :=
          (s.request.setBody (substr input headerSize s.parsedContentLength)).initConnection
        contentLength := s.parsedContentLength }

def blockErrors : BlockErrors where
  tooLarge := ⟨.headerTooLarge, ascii "HTTP request headers exceed the configured limit"⟩
  incompleteLine := ⟨.invalidVersion, ascii "HTTP request line is incomplete"⟩

/-- The request line and the header section. -/
def parseHead : Bytes → Except ParseFailure (Option (ℕ × Headers)) :=
  parseBlock kMaxHeaderSize blockErrors headerMessages
    (fun line => (parseRequestLine line).map fun request => ⟨false, 0, request⟩) onField

/-- What `parse` finds in the buffer: an error, nothing yet, or a request. -/
def parseMessage (input : Bytes) : Except ParseFailure (Option Parsed) := do
  match ← parseHead input with
  | none => return none
  | some (headerSize, s) => parseBody input headerSize s

end HttpRequestParser

/-- The parser object. -/
structure HttpRequestParser where
  data : HttpRequest
  error : HttpParseError
  errorMessage : Bytes
  contentLength : ℕ
  finished : Bool
  deriving DecidableEq

namespace HttpRequestParser

def new : HttpRequestParser := ⟨HttpRequest.new 0x11 true, .none, [], 0, false⟩

def hasError (p : HttpRequestParser) : Bool := p.error != .none

def setError (p : HttpRequestParser) (error : HttpParseError) (message : Bytes) :
    HttpRequestParser :=
  { p with error := error, errorMessage := message, finished := false }

/-- The parser after the call and the number of bytes consumed. -/
def parse (p : HttpRequestParser) (input : Bytes) : HttpRequestParser × ℕ :=
  match parseMessage input with
  | .error failure => (p.setError failure.error failure.message, 0)
  | .ok none => (p, 0)
  | .ok (some m) =>
    ({ p with data := m.request, contentLength := m.contentLength, finished := true }, m.consumed)

/-- `execute(std::string_view)`. -/
def execute (p : HttpRequestParser) (data : Bytes) : HttpRequestParser × ℕ :=
  if p.finished || p.hasError then (p, 0) else p.parse data

end HttpRequestParser

namespace HttpRequestParser

/-- `execute(char*, size_t)`: the parser, the buffer and the number of bytes
consumed. -/
def executeBuffer (p : HttpRequestParser) (data : Bytes) : HttpRequestParser × Bytes × ℕ :=
  if data.length = 0 || p.finished || p.hasError then (p, data, 0)
  else
    let (p, consumed) := p.parse data
    (p, afterExecute data consumed, consumed)

/-! ### Reports are final -/

/-- A fresh parser on a whole buffer. -/
theorem execute_new (input : Bytes) :
    new.execute input =
      match parseMessage input with
      | .error failure => (new.setError failure.error failure.message, 0)
      | .ok none => (.new, 0)
      | .ok (some m) =>
        (⟨m.request, .none, [], m.contentLength, true⟩, m.consumed) := by
  have hfresh : (new.finished || new.hasError) = false := by
    decide
  rw [execute, hfresh, if_neg (by simp), parse]
  rcases parseMessage input with failure | _ | m <;> rfl

/-- Only the body depends on what follows the header section, and it is final
once it is complete. -/
theorem parseBody_append {input t : Bytes} {headerSize : ℕ} {s : Headers}
    (h : parseBody input headerSize s ≠ .ok none) :
    parseBody (input ++ t) headerSize s = parseBody input headerSize s := by
  rw [parseBody] at h
  rw [parseBody, parseBody]
  by_cases hbody : kMaxBodySize < s.parsedContentLength
  · rw [if_pos hbody, if_pos hbody]
  · rw [if_neg hbody, if_neg hbody]
    rw [if_neg hbody] at h
    by_cases hsize : sizeMax - headerSize < s.parsedContentLength
    · rw [if_pos hsize, if_pos hsize]
    · rw [if_neg hsize, if_neg hsize]
      rw [if_neg hsize] at h
      have hle : headerSize + s.parsedContentLength ≤ input.length := by
        by_contra hlt
        exact h (if_pos (by omega))
      rw [if_neg (by rw [List.length_append]; omega), if_neg (by omega), substr_append hle]

/-- **A report is final**: what the parser reports on a buffer, an error or a
request, it reports on every extension of the buffer. -/
theorem parseMessage_append {input t : Bytes} (h : parseMessage input ≠ .ok none) :
    parseMessage (input ++ t) = parseMessage input := by
  rw [parseMessage] at h
  rw [parseMessage, parseMessage]
  have hhead : parseHead input ≠ .ok none := by
    intro hnone
    exact h (by rw [hnone]; rfl)
  rw [show parseHead (input ++ t) = parseHead input from parseBlock_append t hhead]
  rcases hparse : parseHead input with failure | _ | ⟨headerSize, s⟩
  · rfl
  · exact absurd hparse hhead
  · rw [hparse] at h
    exact parseBody_append h

/-! ### Header fields -/

/-- What a field does. -/
theorem onField_iff {s s' : Headers} {name value : Bytes} : onField s name value = .ok s' ↔
    s'.request = s.request.setHeader name value ∧
      (caseInsensitiveEqual name (ascii "transfer-encoding") = true → value = []) ∧
      ((caseInsensitiveEqual name (ascii "content-length") = true ∧ s.contentLengthSeen = false ∧
          parseContentLength value = some s'.parsedContentLength ∧ s'.contentLengthSeen = true) ∨
        (¬ caseInsensitiveEqual name (ascii "content-length") = true ∧
          s'.contentLengthSeen = s.contentLengthSeen ∧
          s'.parsedContentLength = s.parsedContentLength)) := by
  obtain ⟨seen, length, request⟩ := s
  obtain ⟨seen', length', request'⟩ := s'
  rw [onField, frameField]
  by_cases hlength : caseInsensitiveEqual name (ascii "content-length") = true
  · have hcoding : ¬ caseInsensitiveEqual name (ascii "transfer-encoding") = true := by
      rw [caseInsensitiveEqual_congr hlength]
      decide
    rw [if_pos hlength]
    rcases hvalue : parseContentLength value with _ | n
    · simp [Except.map, hlength, hcoding]
    · cases seen <;> simp [Except.map, hlength, hcoding, eq_comm, and_comm, and_assoc]
  · rw [if_neg hlength]
    by_cases hcoding : caseInsensitiveEqual name (ascii "transfer-encoding") = true
    · rcases value with _ | ⟨b, bs⟩
      · simp [Except.map, hlength, hcoding, eq_comm, and_comm, and_assoc]
      · simp [Except.map, hlength, hcoding]
    · simp [Except.map, hlength, hcoding, eq_comm, and_comm, and_assoc]

/-! ### Errors -/

theorem parseRequestLine_coded (line : Bytes) : Coded (parseRequestLine line) := by
  rw [parseRequestLine]
  split
  · exact Coded.error (by simp)
  · split
    · exact Coded.error (by simp)
    · simp only
      split_ifs
      · exact Coded.error (by simp)
      · exact Coded.error (by simp)
      · exact Coded.error (by simp)
      · split
        · exact Coded.error (by simp)
        · split
          · exact Coded.error (by simp)
          · exact Coded.ok _

theorem onField_coded (s : Headers) (name value : Bytes) : Coded (onField s name value) := by
  refine Coded.map ?_ _
  rw [frameField]
  split
  · split
    · exact Coded.error (by simp)
    · split
      · exact Coded.error (by simp)
      · exact Coded.ok _
  · split
    · exact Coded.error (by simp)
    · exact Coded.ok _

theorem parseBody_coded (input : Bytes) (headerSize : ℕ) (s : Headers) :
    Coded (parseBody input headerSize s) := by
  rw [parseBody]
  split
  · exact Coded.error (by simp)
  · split
    · exact Coded.error (by simp)
    · simp only
      split
      · exact Coded.ok _
      · exact Coded.ok _

/-- A parse that fails sets an error. -/
theorem parseMessage_coded (input : Bytes) : Coded (parseMessage input) := by
  refine Coded.bind ?_ fun head => ?_
  · exact parseBlock_coded (by decide) (fun line => (parseRequestLine_coded line).map _)
      onField_coded input
  · rcases head with _ | ⟨headerSize, s⟩
    · exact Coded.ok none
    · exact parseBody_coded input headerSize s

theorem parseMessage_nil : parseMessage [] = .ok none := by decide +kernel

/-- A finished parse consumed at least the header terminator, and no more than
the buffer. -/
theorem consumed_le {input : Bytes} {m : Parsed} (h : parseMessage input = .ok (some m)) :
    0 < m.consumed ∧ m.consumed ≤ input.length := by
  rw [parseMessage] at h
  rcases hparse : parseHead input with failure | _ | ⟨headerSize, s⟩
  · rw [hparse] at h
    exact absurd h (by simp [bind, Except.bind])
  · rw [hparse] at h
    exact absurd h (by simp [bind, Except.bind, pure, Except.pure])
  · have hsize := parseBlock_size hparse
    rw [hparse] at h
    simp only [bind, Except.bind, parseBody] at h
    split_ifs at h
    · simp at h
    · simp only [Except.ok.injEq, Option.some.injEq] at h
      rw [← h]
      constructor
      · simp only
        omega
      · simp only
        omega

end HttpRequestParser

end Http

/-
The response parser.

`HttpResponseParser.parse` restarts from the beginning of the buffer on every
call, like the request parser.  A body is absent, chunked, of a given length, or
ends with the connection; `eof` tells the parser that it has.

* `parseMessage_restartable` — complete responses are final, and found as soon
  as all of their bytes are there;
* `ResponseFrame` — how a response is framed, with bounds on the lines of a
  chunked body; `frame_of_ok` and `ResponseFrame.ok` say that it is what the
  parser accepts.
-/
import Droplet.Http.ChunkLimits
import Droplet.Http.HeaderBlock

open Search

namespace Http

namespace HttpResponseParser

def kDefaultBufferSize : ℕ := 4 * 1024

def headerMessages : HeaderMessages where
  unterminated := ascii "HTTP response header line is not terminated with CRLF"
  folded := ascii "empty or folded HTTP header line is not supported"
  missingColon := ascii "HTTP response header line is missing ':'"
  invalid := ascii "HTTP response header contains an invalid name or value"

def blockErrors : BlockErrors where
  tooLarge := ⟨.headerTooLarge, ascii "HTTP response headers exceed the configured limit"⟩
  incompleteLine := ⟨.invalidStatus, ascii "HTTP status line is incomplete"⟩

/-- Version byte of the version text of a status line. -/
def encodedVersion (version : Bytes) : Option UInt8 :=
  if version = ascii "HTTP/1.1" then some 0x11
  else if version = ascii "HTTP/1.0" then some 0x10
  else none

/-- The status line: version, status and reason. -/
def parseStatusLine (statusLine : Bytes) : Except ParseFailure HttpResponse :=
  if statusLine.length < 12 || statusLine[8]? != some 32 then
    .error ⟨.invalidStatus, ascii "HTTP status line must contain version and status code"⟩
  else
    match encodedVersion (substr statusLine 0 8) with
    | none => .error ⟨.invalidVersion,
        ascii "only HTTP/1.0 and HTTP/1.1 responses are supported"⟩
    | some version =>
      let reasonBegin := find [32] statusLine 9
      let statusText := match reasonBegin with
        | none => substr statusLine 9 (statusLine.length - 9)
        | some reasonBegin => substr statusLine 9 (reasonBegin - 9)
      if statusText.length ≠ 3 then
        .error ⟨.invalidStatus, ascii "HTTP status code must contain exactly three digits"⟩
      else
        match wholeNumber (2 ^ 16 - 1) 10 statusText with
        | none => .error ⟨.invalidStatus, ascii "invalid HTTP status code"⟩
        | some status =>
          if status < 100 ∨ 999 < status then
            .error ⟨.invalidStatus, ascii "invalid HTTP status code"⟩
          else
            let reason := match reasonBegin with
              | none => []
              | some reasonBegin => statusLine.drop (reasonBegin + 1)
            if !isValidHeaderValue reason then
              .error ⟨.invalidStatus, ascii "HTTP reason phrase contains an invalid character"⟩
            else
              .ok (((HttpResponse.new version (version ≤ 0x10)).setStatus
                (UInt16.ofNat status)).setReason reason)

/-- The variables of the header loop. -/
structure Headers where
  contentLengthSeen : Bool
  transferEncodingSeen : Bool
  connectionSeen : Bool
  parsedContentLength : ℕ
  transferEncoding : Bytes
  connectionHeader : Bytes
  response : HttpResponse

/-- The values of repeated fields are joined by commas. -/
def joinValues (seen : Bool) (values value : Bytes) : Bytes :=
  (if seen then values ++ ascii "," else values) ++ value

/-- The framing of the body and the state of the connection, as a field sets
them. -/
def frameField (s : Headers) (name value : Bytes) : Except ParseFailure Headers :=
  if caseInsensitiveEqual name (ascii "content-length") then
    match parseContentLength value with
    | none => .error ⟨.invalidContentLength,
        ascii "Content-Length must be one unsigned decimal value"⟩
    | some currentLength =>
      if s.contentLengthSeen then
        .error ⟨.invalidContentLength,
          ascii "Content-Length must be one unsigned decimal value"⟩
      else .ok { s with contentLengthSeen := true, parsedContentLength := currentLength }
  else if caseInsensitiveEqual name (ascii "transfer-encoding") then
    .ok { s with
      transferEncoding := joinValues s.transferEncodingSeen s.transferEncoding value
      transferEncodingSeen := true }
  else if caseInsensitiveEqual name (ascii "connection") then
    .ok { s with
      connectionHeader := joinValues s.connectionSeen s.connectionHeader value
      connectionSeen := true }
  else .ok s

/-- The cookie or header of the response that a field sets. -/
def storeField (name value : Bytes) (s : Headers) : Headers :=
  if caseInsensitiveEqual name (ascii "set-cookie") then
    { s with response := s.response.addCookie value }
  else if !caseInsensitiveEqual name (ascii "transfer-encoding") &&
      !caseInsensitiveEqual name (ascii "connection") then
    { s with response := s.response.setHeader name value }
  else s

/-- What the header loop does with a field. -/
def onField (s : Headers) (name value : Bytes) : Except ParseFailure Headers :=
  (frameField s name value).map (storeField name value)

/-- What follows the header loop: the joined headers and the limit on the
length. -/
def finishHeaders (s : Headers) : Except ParseFailure Headers :=
  if s.contentLengthSeen && s.transferEncodingSeen then
    .error ⟨.invalidContentLength,
      ascii "Content-Length and Transfer-Encoding cannot be combined"⟩
  else
    let response := if s.transferEncodingSeen then
        s.response.setHeader (ascii "Transfer-Encoding") s.transferEncoding
      else s.response
    let response := if s.connectionSeen then
        response.setHeader (ascii "Connection") s.connectionHeader
      else response
    if kMaxBodySize < s.parsedContentLength then
      .error ⟨.bodyTooLarge, ascii "HTTP response body exceeds the configured limit"⟩
    else .ok { s with response := response.initConnection }

/-- The status line and the header loop. -/
def parseHeaders : Bytes → Except ParseFailure (Option (ℕ × Headers)) :=
  parseBlock kMaxHeaderSize blockErrors headerMessages
    (fun line => (parseStatusLine line).map fun response =>
      ⟨false, false, false, 0, [], [], response⟩) onField

/-- The status line and the header section. -/
def parseHead (input : Bytes) : Except ParseFailure (Option (ℕ × Headers)) := do
  match ← parseHeaders input with
  | none => return none
  | some (headerSize, s) =>
    let s ← finishHeaders s
    return some (headerSize, s)

def responseHasNoBody (requestMethod : HttpMethod) (status : HttpStatus) : Bool :=
  requestMethod == .head || (requestMethod == .connect && 200 ≤ status && status < 300) ||
    (100 ≤ status && status < 200) || status == 204 || status == 304

/-- A finished parse: bytes consumed, response, content length and whether the
body was chunked. -/
structure Parsed where
  consumed : ℕ
  response : HttpResponse
  contentLength : ℕ
  chunked : Bool
  deriving DecidableEq

/-- A finished parse of a chunked response. -/
def Parsed.ofChunked (result : ℕ × HttpResponse) : Parsed where
  consumed := result.1
  response := result.2
  contentLength := result.2.body.length
  chunked := true

/-- The end of `parse`: the body as the header section frames it. -/
def parseBody (method : HttpMethod) (input : Bytes) (eof : Bool) (headerSize : ℕ) (s : Headers) :
    Except ParseFailure (Option Parsed) :=
  if responseHasNoBody method s.response.status then
    .ok (some ⟨headerSize, s.response, 0, false⟩)
  else if s.transferEncodingSeen then
    if !headerContainsFinalChunked s.transferEncoding then
      .error ⟨.unsupportedTransferEncoding, ascii "the final Transfer-Encoding must be chunked"⟩
    else (chunkLoop input headerSize [] s.response).map (Option.map Parsed.ofChunked)
  else if s.contentLengthSeen then
    if sizeMax - headerSize < s.parsedContentLength then
      .error ⟨.bodyTooLarge, ascii "HTTP response size overflows size_t"⟩
    else
      let messageSize := headerSize + s.parsedContentLength
      if input.length < messageSize then .ok none
      else .ok <| some
        { consumed := messageSize
          response := s.response.setBody (substr input headerSize s.parsedContentLength)
          contentLength := s.parsedContentLength
          chunked := false }
  else if kMaxBodySize < input.length - headerSize then
    .error ⟨.bodyTooLarge, ascii "HTTP close-delimited body exceeds the configured limit"⟩
  else if !eof then .ok none
  else
    let body := input.drop headerSize
    .ok (some ⟨input.length, (s.response.setClose true).setBody body, body.length, false⟩)

/-- What `parse` finds in the buffer: an error, nothing yet, or a response. -/
def parseMessage (method : HttpMethod) (input : Bytes) (eof : Bool) :
    Except ParseFailure (Option Parsed) := do
  match ← parseHead input with
  | none => return none
  | some (headerSize, s) => parseBody method input eof headerSize s

/-- `parse` reached the body of a response that ends with the connection. -/
def reachesCloseDelimited (method : HttpMethod) (input : Bytes) : Bool :=
  match parseHead input with
  | .ok (some (_, s)) => !responseHasNoBody method s.response.status &&
      !s.transferEncodingSeen && !s.contentLengthSeen
  | _ => false

end HttpResponseParser

/-- The parser object. -/
structure HttpResponseParser where
  data : HttpResponse
  requestMethod : HttpMethod
  error : HttpParseError
  errorMessage : Bytes
  contentLength : ℕ
  chunked : Bool
  closeDelimited : Bool
  finished : Bool
  deriving DecidableEq

namespace HttpResponseParser

def new (requestMethod : HttpMethod) : HttpResponseParser :=
  ⟨HttpResponse.new 0x11 true, requestMethod, .none, [], 0, false, false, false⟩

def hasError (p : HttpResponseParser) : Bool := p.error != .none

def setError (p : HttpResponseParser) (error : HttpParseError) (message : Bytes) :
    HttpResponseParser :=
  { p with error := error, errorMessage := message, finished := false }

/-- The parser after the call and the number of bytes consumed. -/
def parse (p : HttpResponseParser) (input : Bytes) (eof : Bool) : HttpResponseParser × ℕ :=
  let p := { p with
    closeDelimited := p.closeDelimited || reachesCloseDelimited p.requestMethod input }
  match parseMessage p.requestMethod input eof with
  | .error failure => (p.setError failure.error failure.message, 0)
  | .ok none => (p, 0)
  | .ok (some m) =>
    ({ p with
      data := m.response
      contentLength := m.contentLength
      chunked := p.chunked || m.chunked
      finished := true }, m.consumed)

/-- `execute(std::string_view, bool)`. -/
def execute (p : HttpResponseParser) (data : Bytes) (eof : Bool) : HttpResponseParser × ℕ :=
  if p.finished || p.hasError then (p, 0) else p.parse data eof

/-- `execute(char*, size_t, bool)`: the parser, the buffer and the number of bytes
consumed. -/
def executeBuffer (p : HttpResponseParser) (data : Bytes) (eof : Bool) :
    HttpResponseParser × Bytes × ℕ :=
  if p.finished || p.hasError then (p, data, 0)
  else
    let (p, consumed) := p.parse data eof
    (p, afterExecute data consumed, consumed)

/-! ### The header section -/

section Head

variable {input : Bytes} {headerSize : ℕ} {hs : Headers}

theorem parseHead_eq_some (h : parseHead input = .ok (some (headerSize, hs))) :
    ∃ hs₀, parseHeaders input = .ok (some (headerSize, hs₀)) ∧ finishHeaders hs₀ = .ok hs := by
  rw [parseHead] at h
  rcases hheaders : parseHeaders input with failure | _ | ⟨size, hs₀⟩
  · rw [hheaders] at h
    exact absurd h (by simp [bind, Except.bind])
  · rw [hheaders] at h
    exact absurd h (by simp [bind, Except.bind, pure, Except.pure])
  · rw [hheaders] at h
    rcases hfinish : finishHeaders hs₀ with failure | hs₁
    · exact absurd h (by simp [bind, Except.bind, hfinish])
    · simp only [bind, Except.bind, hfinish, pure, Except.pure, Except.ok.injEq,
        Option.some.injEq, Prod.mk.injEq] at h
      obtain ⟨rfl, rfl⟩ := h
      exact ⟨hs₀, rfl, hfinish⟩

theorem parseHead_eq_none_iff : parseHead input = .ok none ↔ parseHeaders input = .ok none := by
  rw [parseHead]
  rcases parseHeaders input with failure | _ | ⟨size, hs₀⟩
  · simp [bind, Except.bind]
  · simp [bind, Except.bind, pure, Except.pure]
  · rcases hfinish : finishHeaders hs₀ with failure | hs₁
    · simp [bind, Except.bind, hfinish]
    · simp [bind, Except.bind, hfinish, pure, Except.pure]

theorem parseHead_size (h : parseHead input = .ok (some (headerSize, hs))) :
    4 ≤ headerSize ∧ headerSize ≤ kMaxHeaderSize ∧ headerSize ≤ input.length := by
  obtain ⟨hs₀, hheaders, -⟩ := parseHead_eq_some h
  exact parseBlock_size hheaders

/-- What is reported on a buffer is reported on every extension of it. -/
theorem parseHead_append (t : Bytes) (h : parseHead input ≠ .ok none) :
    parseHead (input ++ t) = parseHead input := by
  rw [Ne, parseHead_eq_none_iff] at h
  rw [parseHead, parseHead, show parseHeaders (input ++ t) = parseHeaders input from
    parseBlock_append t h]

/-- On a part of an input the header section is found as soon as it is there. -/
theorem parseHead_take (h : parseHead input = .ok (some (headerSize, hs))) (k : ℕ) :
    parseHead (input.take k) =
      if headerSize ≤ k then .ok (some (headerSize, hs)) else .ok none := by
  obtain ⟨hs₀, hheaders, hfinish⟩ := parseHead_eq_some h
  rw [parseHead, show parseHeaders (input.take k) = _ from parseBlock_take hheaders k]
  by_cases hk : headerSize ≤ k
  · simp [hk, bind, Except.bind, hfinish, pure, Except.pure]
  · simp [hk, bind, Except.bind, pure, Except.pure]

theorem parseHead_take_none (h : parseHead input = .ok none) (k : ℕ) :
    parseHead (input.take k) = .ok none := by
  rw [parseHead_eq_none_iff, parseHeaders, parseBlock_eq_none_iff] at h ⊢
  refine ⟨find_take_eq_none (by simp) h.1 k, ?_⟩
  rw [List.length_take]
  omega

/-- A header section is found in every input that agrees up to its end. -/
theorem parseHead_congr {t : Bytes} {n : ℕ} (h : parseHead input = .ok (some (headerSize, hs)))
    (hn : headerSize ≤ n) (ht : t.take n = input.take n) :
    parseHead t = .ok (some (headerSize, hs)) := by
  have hpart : parseHead (t.take n) = .ok (some (headerSize, hs)) := by
    rw [ht, parseHead_take h, if_pos hn]
  have := parseHead_append (t.drop n) (by rw [hpart]; simp)
  rw [List.take_append_drop] at this
  rw [this, hpart]

end Head

/-! ### How a response is framed -/

section Message

variable {method : HttpMethod} {s t : Bytes} {n : ℕ}

theorem parseMessage_of_head {eof : Bool} {headerSize : ℕ} {hs : Headers} (h : parseHead s = .ok (some (headerSize, hs))) :
    parseMessage method s eof = parseBody method s eof headerSize hs := by
  rw [parseMessage, h]
  rfl

/-- A parse that is complete has found the header section. -/
theorem exists_head_of_ok {eof : Bool} {m : Parsed}
    (h : parseMessage method s eof = .ok (some m)) :
    ∃ headerSize hs, parseHead s = .ok (some (headerSize, hs)) := by
  rw [parseMessage] at h
  rcases hhead : parseHead s with failure | _ | ⟨headerSize, hs⟩
  · rw [hhead] at h
    exact absurd h (by simp [bind, Except.bind])
  · rw [hhead] at h
    exact absurd h (by simp [bind, Except.bind, pure, Except.pure])
  · exact ⟨headerSize, hs, rfl⟩

section Body

variable {eof : Bool} {headerSize : ℕ} {hs : Headers}

theorem parseBody_noBody (hbody : responseHasNoBody method hs.response.status = true) :
    parseBody method s eof headerSize hs = .ok (some ⟨headerSize, hs.response, 0, false⟩) := by
  rw [parseBody, if_pos hbody]

theorem parseBody_chunked (hbody : responseHasNoBody method hs.response.status = false)
    (hseen : hs.transferEncodingSeen = true)
    (hfinal : headerContainsFinalChunked hs.transferEncoding = true) :
    parseBody method s eof headerSize hs =
      (chunkLoop s headerSize [] hs.response).map (Option.map Parsed.ofChunked) := by
  simp [parseBody, hbody, hseen, hfinal]

theorem parseBody_length (hbody : responseHasNoBody method hs.response.status = false)
    (hchunked : hs.transferEncodingSeen = false) (hseen : hs.contentLengthSeen = true)
    (hsize : hs.parsedContentLength ≤ sizeMax - headerSize) :
    parseBody method s eof headerSize hs =
      if s.length < headerSize + hs.parsedContentLength then .ok none
      else .ok (some ⟨headerSize + hs.parsedContentLength,
        hs.response.setBody (substr s headerSize hs.parsedContentLength),
        hs.parsedContentLength, false⟩) := by
  simp [parseBody, hbody, hchunked, hseen, Nat.not_lt.mpr hsize]

theorem parseBody_untilClose (hbody : responseHasNoBody method hs.response.status = false)
    (hchunked : hs.transferEncodingSeen = false) (hseen : hs.contentLengthSeen = false)
    (hlen : s.length - headerSize ≤ kMaxBodySize) :
    parseBody method s false headerSize hs = .ok none := by
  simp [parseBody, hbody, hchunked, hseen, Nat.not_lt.mpr hlen]

end Body

/-- `ResponseFrame method lineMax trailerMax s stop`: `s` starts with a response to
`method` that ends at `stop`, or it is a part of one (`none`).  The complete
chunk-size lines of a chunked body have at most `lineMax` bytes, and the line
that ends its trailers starts at most `trailerMax` bytes after they begin. -/
inductive ResponseFrame (method : HttpMethod) (lineMax trailerMax : ℕ) (s : Bytes) :
    Option ℕ → Prop
  | cutHead (h : parseHead s = .ok none) : ResponseFrame method lineMax trailerMax s none
  | noBody {headerSize hs} (h : parseHead s = .ok (some (headerSize, hs)))
      (hbody : responseHasNoBody method hs.response.status = true) :
      ResponseFrame method lineMax trailerMax s (some headerSize)
  | chunked {headerSize hs stop} (h : parseHead s = .ok (some (headerSize, hs)))
      (hbody : responseHasNoBody method hs.response.status = false)
      (hseen : hs.transferEncodingSeen = true)
      (hfinal : headerContainsFinalChunked hs.transferEncoding = true)
      (chunks : Chunks lineMax trailerMax s 0 headerSize stop) :
      ResponseFrame method lineMax trailerMax s stop
  | length {headerSize hs} (h : parseHead s = .ok (some (headerSize, hs)))
      (hbody : responseHasNoBody method hs.response.status = false)
      (hchunked : hs.transferEncodingSeen = false) (hseen : hs.contentLengthSeen = true)
      (hsize : hs.parsedContentLength ≤ sizeMax - headerSize)
      (hlen : headerSize + hs.parsedContentLength ≤ s.length) :
      ResponseFrame method lineMax trailerMax s (some (headerSize + hs.parsedContentLength))
  | cutLength {headerSize hs} (h : parseHead s = .ok (some (headerSize, hs)))
      (hbody : responseHasNoBody method hs.response.status = false)
      (hchunked : hs.transferEncodingSeen = false) (hseen : hs.contentLengthSeen = true)
      (hsize : hs.parsedContentLength ≤ sizeMax - headerSize)
      (hlen : s.length < headerSize + hs.parsedContentLength) :
      ResponseFrame method lineMax trailerMax s none
  | untilClose {headerSize hs} (h : parseHead s = .ok (some (headerSize, hs)))
      (hbody : responseHasNoBody method hs.response.status = false)
      (hchunked : hs.transferEncodingSeen = false) (hseen : hs.contentLengthSeen = false)
      (hlen : s.length - headerSize ≤ kMaxBodySize) :
      ResponseFrame method lineMax trailerMax s none

/-- What the parser accepts is framed. -/
theorem frame_of_ok {result : Option Parsed} (h : parseMessage method s false = .ok result) :
    ResponseFrame method s.length kMaxHeaderSize s (result.map Parsed.consumed) := by
  rcases hhead : parseHead s with failure | _ | ⟨headerSize, hs⟩
  · rw [parseMessage, hhead] at h
    exact absurd h (by simp [bind, Except.bind])
  · rw [parseMessage, hhead] at h
    simp only [bind, Except.bind, pure, Except.pure, Except.ok.injEq] at h
    subst h
    exact .cutHead hhead
  · rw [parseMessage_of_head hhead, parseBody] at h
    by_cases hbody : responseHasNoBody method hs.response.status = true
    · rw [if_pos hbody, Except.ok.injEq] at h
      subst h
      exact .noBody hhead hbody
    · rw [if_neg hbody] at h
      rw [Bool.not_eq_true] at hbody
      by_cases hchunked : hs.transferEncodingSeen = true
      · rw [if_pos hchunked] at h
        by_cases hfinal : headerContainsFinalChunked hs.transferEncoding = true
        · rw [hfinal, if_neg (by simp)] at h
          rcases hloop : chunkLoop s headerSize [] hs.response with failure | found
          · rw [hloop] at h
            exact absurd h (by simp [Except.map])
          · rw [hloop] at h
            simp only [Except.map, Except.ok.injEq] at h
            subst h
            have hchunks := chunks_of_ok hloop
            rw [Option.map_map]
            exact .chunked hhead hbody hchunked hfinal hchunks
        · rw [Bool.not_eq_true] at hfinal
          rw [hfinal, if_pos (by simp)] at h
          exact absurd h (by simp)
      · rw [if_neg hchunked] at h
        rw [Bool.not_eq_true] at hchunked
        by_cases hseen : hs.contentLengthSeen = true
        · rw [if_pos hseen] at h
          by_cases hsize : sizeMax - headerSize < hs.parsedContentLength
          · rw [if_pos hsize] at h
            exact absurd h (by simp)
          · rw [if_neg hsize] at h
            by_cases hlen : s.length < headerSize + hs.parsedContentLength
            · simp only [hlen, if_true, Except.ok.injEq] at h
              subst h
              exact .cutLength hhead hbody hchunked hseen (Nat.le_of_not_lt hsize) hlen
            · simp only [hlen, if_false, Except.ok.injEq] at h
              subst h
              exact .length hhead hbody hchunked hseen (Nat.le_of_not_lt hsize)
                (Nat.le_of_not_lt hlen)
        · rw [if_neg hseen] at h
          rw [Bool.not_eq_true] at hseen
          by_cases hlen : kMaxBodySize < s.length - headerSize
          · rw [if_pos hlen] at h
            exact absurd h (by simp)
          · rw [if_neg hlen, if_pos (by simp), Except.ok.injEq] at h
            subst h
            exact .untilClose hhead hbody hchunked hseen (Nat.le_of_not_lt hlen)

variable {lineMax trailerMax : ℕ} {stop : Option ℕ}

/-- The body of a chunked response. -/
theorem ResponseFrame.chunks {headerSize : ℕ} {hs : Headers}
    (h : ResponseFrame method lineMax trailerMax s stop)
    (hhead : parseHead s = .ok (some (headerSize, hs)))
    (hbody : responseHasNoBody method hs.response.status = false)
    (hseen : hs.transferEncodingSeen = true) :
    Chunks lineMax trailerMax s 0 headerSize stop := by
  have hsame : ∀ {headerSize' hs'}, parseHead s = .ok (some (headerSize', hs')) →
      headerSize' = headerSize ∧ hs' = hs := by
    intro headerSize' hs' h'
    rw [hhead, Except.ok.injEq, Option.some_inj, Prod.mk.injEq] at h'
    exact ⟨h'.1.symm, h'.2.symm⟩
  cases h with
  | cutHead h => exact absurd (hhead.symm.trans h) (by simp)
  | noBody h hbody' =>
    obtain ⟨rfl, rfl⟩ := hsame h
    exact absurd (hbody.symm.trans hbody') (by simp)
  | chunked h _ _ _ chunks =>
    obtain ⟨rfl, rfl⟩ := hsame h
    exact chunks
  | length h _ hchunked =>
    obtain ⟨rfl, rfl⟩ := hsame h
    exact absurd (hseen.symm.trans hchunked) (by simp)
  | cutLength h _ hchunked =>
    obtain ⟨rfl, rfl⟩ := hsame h
    exact absurd (hseen.symm.trans hchunked) (by simp)
  | untilClose h _ hchunked =>
    obtain ⟨rfl, rfl⟩ := hsame h
    exact absurd (hseen.symm.trans hchunked) (by simp)

/-- What is framed is accepted by the parser. -/
theorem ResponseFrame.ok (h : ResponseFrame method lineMax trailerMax s stop)
    (hmax : trailerMax ≤ kMaxHeaderSize) :
    ∃ result, parseMessage method s false = .ok result ∧ result.map Parsed.consumed = stop := by
  cases h with
  | cutHead h =>
    refine ⟨none, ?_, rfl⟩
    rw [parseMessage, h]
    rfl
  | @noBody headerSize hs h hbody =>
    refine ⟨some ⟨headerSize, hs.response, 0, false⟩, ?_, rfl⟩
    rw [parseMessage_of_head h, parseBody_noBody hbody]
  | @chunked headerSize hs stop h hbody hseen hfinal chunks =>
    have hnil : ([] : Bytes).length = 0 := rfl
    obtain ⟨found, hfound, hstop⟩ := chunks.ok hmax hnil hs.response
    refine ⟨found.map Parsed.ofChunked, ?_, by rw [Option.map_map]; exact hstop⟩
    rw [parseMessage_of_head h, parseBody_chunked hbody hseen hfinal, hfound]
    rfl
  | @length headerSize hs h hbody hchunked hseen hsize hlen =>
    refine ⟨some ⟨headerSize + hs.parsedContentLength,
      hs.response.setBody (substr s headerSize hs.parsedContentLength),
      hs.parsedContentLength, false⟩, ?_, rfl⟩
    rw [parseMessage_of_head h, parseBody_length hbody hchunked hseen hsize, if_neg (by omega)]
  | cutLength h hbody hchunked hseen hsize hlen =>
    refine ⟨none, ?_, rfl⟩
    rw [parseMessage_of_head h, parseBody_length hbody hchunked hseen hsize, if_pos hlen]
  | untilClose h hbody hchunked hseen hlen =>
    refine ⟨none, ?_, rfl⟩
    rw [parseMessage_of_head h, parseBody_untilClose hbody hchunked hseen hlen]

/-- The end of a framed response lies after its header section. -/
theorem ResponseFrame.stop_bounds (h : ResponseFrame method lineMax trailerMax s (some n)) :
    4 ≤ n ∧ n ≤ s.length := by
  cases h with
  | noBody h _ => exact ⟨(parseHead_size h).1, (parseHead_size h).2.2⟩
  | chunked h _ _ _ chunks =>
    have hn := chunks.stop_bounds
    have := parseHead_size h
    omega
  | length h _ _ _ _ hlen =>
    have := parseHead_size h
    omega

/-- Of an input only the part up to the end of a complete response matters. -/
theorem ResponseFrame.congr (h : ResponseFrame method lineMax trailerMax s (some n))
    (ht : t.take n = s.take n) :
    parseMessage method t false = parseMessage method s false := by
  have hn := h.stop_bounds.2
  have hlen : n ≤ t.length := by
    have := congrArg List.length ht
    rw [List.length_take, List.length_take] at this
    omega
  cases h with
  | noBody h hbody =>
    rw [parseMessage_of_head h, parseMessage_of_head (parseHead_congr h (Nat.le_refl _) ht),
      parseBody_noBody hbody, parseBody_noBody hbody]
  | chunked h hbody hseen hfinal chunks =>
    have hhead := parseHead_congr h chunks.stop_bounds.1 ht
    rw [parseMessage_of_head h, parseMessage_of_head hhead,
      parseBody_chunked hbody hseen hfinal, parseBody_chunked hbody hseen hfinal,
      chunks.congr ht rfl]
  | @length headerSize hs h hbody hchunked hseen hsize hle =>
    have hhead := parseHead_congr h (Nat.le_add_right _ _) ht
    have htext : substr t headerSize hs.parsedContentLength =
        substr s headerSize hs.parsedContentLength := by
      rw [← substr_take (Nat.le_refl _), ht, substr_take (Nat.le_refl _)]
    rw [parseMessage_of_head h, parseMessage_of_head hhead,
      parseBody_length hbody hchunked hseen hsize, parseBody_length hbody hchunked hseen hsize,
      if_neg (by omega), if_neg (by omega), htext]

theorem consumed_bounds {m : Parsed} (h : parseMessage method s false = .ok (some m)) :
    0 < m.consumed ∧ m.consumed ≤ s.length := by
  have := (frame_of_ok h).stop_bounds
  omega

/-- The end of the stream completes a response that ends with the connection, and
changes nothing else. -/
theorem parseMessage_eof (method : HttpMethod) (s : Bytes) :
    parseMessage method s true = parseMessage method s false ∨
      parseMessage method s false = .ok none ∧
        ∃ m, parseMessage method s true = .ok (some m) ∧ m.consumed = s.length := by
  rcases hhead : parseHead s with failure | _ | ⟨headerSize, hs⟩
  · exact .inl (by rw [parseMessage, parseMessage, hhead]; rfl)
  · exact .inl (by rw [parseMessage, parseMessage, hhead]; rfl)
  · rw [parseMessage_of_head hhead, parseMessage_of_head hhead, parseBody, parseBody]
    split
    · exact .inl rfl
    · split
      · exact .inl rfl
      · split
        · exact .inl rfl
        · split
          · exact .inl rfl
          · exact .inr ⟨by simp, _, by rw [if_neg (by simp)], rfl⟩

/-- The status of a response is that of its status line. -/
theorem status_of_head {headerSize : ℕ} {hs : Headers} {m : Parsed}
    (hhead : parseHead s = .ok (some (headerSize, hs)))
    (h : parseMessage method s false = .ok (some m)) :
    m.response.status = hs.response.status := by
  rw [parseMessage_of_head hhead, parseBody] at h
  split at h
  · rw [Except.ok.injEq, Option.some_inj] at h
    rw [← h]
  · split at h
    · split at h
      · exact absurd h (by simp)
      · rcases hloop : chunkLoop s headerSize [] hs.response with failure | _ | ⟨n, response⟩
        · rw [hloop] at h
          exact absurd h (by simp [Except.map])
        · rw [hloop] at h
          exact absurd h (by simp [Except.map])
        · rw [hloop] at h
          simp only [Except.map, Option.map_some, Except.ok.injEq, Option.some_inj] at h
          rw [← h]
          exact chunkLoop_status hloop
    · split at h
      · split at h
        · exact absurd h (by simp)
        · simp only at h
          split at h
          · exact absurd h (by simp)
          · rw [Except.ok.injEq, Option.some_inj] at h
            rw [← h]
            rfl
      · split at h
        · exact absurd h (by simp)
        · rw [if_pos (by simp)] at h
          exact absurd h (by simp)

theorem parseMessage_nil (method : HttpMethod) (eof : Bool) :
    parseMessage method [] eof = .ok none := by
  have hhead : parseHead [] = .ok none := by
    rw [parseHead_eq_none_iff, parseHeaders, parseBlock_eq_none_iff]
    decide
  rw [parseMessage, hhead]
  rfl

end Message

/-! ### The parser object on a buffer -/

@[simp] theorem new_finished (method : HttpMethod) : (new method).finished = false := rfl

@[simp] theorem new_hasError (method : HttpMethod) : (new method).hasError = false := rfl

@[simp] theorem new_requestMethod (method : HttpMethod) : (new method).requestMethod = method := rfl

/-- A new parser after a parse that is not complete: the close-delimited flag. -/
def scanned (method : HttpMethod) (data : Bytes) : HttpResponseParser :=
  { new method with closeDelimited := reachesCloseDelimited method data }

/-- A new parser on a buffer. -/
theorem executeBuffer_new (method : HttpMethod) (data : Bytes) (eof : Bool) :
    (new method).executeBuffer data eof =
      match parseMessage method data eof with
      | .error failure => ((scanned method data).setError failure.error failure.message, data, 0)
      | .ok none => (scanned method data, data, 0)
      | .ok (some m) =>
        ({ scanned method data with
            data := m.response
            contentLength := m.contentLength
            chunked := m.chunked
            finished := true }, afterExecute data m.consumed, m.consumed) := by
  have hfresh : ((new method).finished || (new method).hasError) = false := rfl
  rw [executeBuffer, hfresh, if_neg (by simp), parse, new_requestMethod]
  rcases parseMessage method data eof with failure | _ | m
  · simp [scanned, new, afterExecute]
  · simp [scanned, new, afterExecute]
  · simp [scanned, new]

theorem consumed_pos_of_finished {method : HttpMethod} {data : Bytes}
    (hfinished : ((new method).executeBuffer data false).1.finished = true) :
    0 < ((new method).executeBuffer data false).2.2 := by
  rw [executeBuffer_new] at hfinished ⊢
  rcases hparse : parseMessage method data false with failure | _ | m
  · rw [hparse] at hfinished
    exact absurd hfinished (by simp [setError])
  · rw [hparse] at hfinished
    exact absurd hfinished (by simp [scanned])
  · exact (consumed_bounds hparse).1

theorem parseStatusLine_coded (line : Bytes) : Coded (parseStatusLine line) := by
  rw [parseStatusLine]
  split
  · exact Coded.error (by simp)
  · split
    · exact Coded.error (by simp)
    · simp only
      by_cases hlength : (match find [32] line 9 with
          | none => substr line 9 (line.length - 9)
          | some reasonBegin => substr line 9 (reasonBegin - 9)).length ≠ 3
      · rw [if_pos hlength]
        exact Coded.error (by simp)
      · rw [if_neg hlength]
        split
        · exact Coded.error (by simp)
        · split_ifs
          · exact Coded.error (by simp)
          · exact Coded.error (by simp)
          · exact Coded.ok _

theorem onField_coded (s : Headers) (name value : Bytes) : Coded (onField s name value) := by
  refine Coded.map ?_ _
  rw [frameField]
  split
  · split
    · exact Coded.error (by simp)
    · split
      · exact Coded.error (by simp)
      · exact Coded.ok _
  · split
    · exact Coded.ok _
    · split
      · exact Coded.ok _
      · exact Coded.ok _

theorem finishHeaders_coded (s : Headers) : Coded (finishHeaders s) := by
  rw [finishHeaders]
  split
  · exact Coded.error (by simp)
  · simp only
    split
    · exact Coded.error (by simp)
    · exact Coded.ok _

theorem parseHead_coded (input : Bytes) : Coded (parseHead input) := by
  refine Coded.bind ?_ fun head => ?_
  · exact parseBlock_coded (by decide) (fun line => (parseStatusLine_coded line).map _)
      onField_coded input
  · rcases head with _ | ⟨headerSize, s⟩
    · exact Coded.ok none
    · exact (finishHeaders_coded s).bind fun _ => Coded.ok _

theorem parseBody_coded (method : HttpMethod) (input : Bytes) (eof : Bool) (headerSize : ℕ)
    (s : Headers) : Coded (parseBody method input eof headerSize s) := by
  rw [parseBody]
  split
  · exact Coded.ok _
  · split
    · split
      · exact Coded.error (by simp)
      · exact (chunkLoop_coded _ _ _ _).map _
    · split
      · split
        · exact Coded.error (by simp)
        · simp only
          split
          · exact Coded.ok _
          · exact Coded.ok _
      · split
        · exact Coded.error (by simp)
        · split
          · exact Coded.ok _
          · exact Coded.ok _

/-- A parse that fails sets an error. -/
theorem parseMessage_coded (method : HttpMethod) (input : Bytes) (eof : Bool) :
    Coded (parseMessage method input eof) := by
  refine (parseHead_coded input).bind fun head => ?_
  rcases head with _ | ⟨headerSize, s⟩
  · exact Coded.ok none
  · exact parseBody_coded method input eof headerSize s

end HttpResponseParser

end Http

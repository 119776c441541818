/-
The arithmetic of the parsers.

The offsets of the parsers are values of type `size_t`, and a part of a `string_view` that
begins beyond its end is an exception.  The functions of this file are those of the parsers
with every sum, difference and part computed by an operation that has no result out of range.

* `Ranged.parseRequest_eq` — the request parser stays within the range on every input;
* `Ranged.chunkLoop_eq` — so do the loops over the chunks and the trailers of a response.
-/
import Droplet.Lib.Guarded
import Droplet.Http.RequestParser
import Droplet.Http.ResponseFields

open Search Sizes Lines

namespace Http

namespace Ranged

variable {σ : Type}

/-! ### Header sections -/

def parseField (messages : FieldMessages) (line : Bytes) : Guarded ParseFailure (Bytes × Bytes) :=
  match find [58] line 0 with
  | none => total (.error ⟨.invalidHeader, messages.missingColon⟩)
  | some colon => do
    let name ← substr line 0 colon
    let valueBegin ← add sizeMax colon 1
    let value ← rest line valueBegin
    let value := trimOptionalWhitespace value
    if !isValidHeaderName name || !isValidHeaderValue value then
      total (.error ⟨.invalidHeader, messages.invalid⟩)
    else total (.ok (name, value))

def parseHeaderLine (messages : HeaderMessages) (line : Bytes) :
    Guarded ParseFailure (Bytes × Bytes) :=
  if line.isEmpty || line.head? == some 32 || line.head? == some 9 then
    total (.error ⟨.invalidHeader, messages.folded⟩)
  else parseField messages.toFieldMessages line

def headerStep (messages : HeaderMessages) (onField : σ → Bytes → Bytes → Except ParseFailure σ)
    (state : σ) (line : Bytes) : Guarded ParseFailure σ := do
  let field ← parseHeaderLine messages line
  total (onField state field.1 field.2)

def headerLoop (messages : HeaderMessages) (onField : σ → Bytes → Bytes → Except ParseFailure σ)
    (input : Bytes) (headerEnd lineBegin : ℕ) (state : σ) : Guarded ParseFailure σ :=
  if lineBegin < headerEnd then
    match h : find crlf input lineBegin with
    | none => total (.error ⟨.invalidHeader, messages.unterminated⟩)
    | some lineEnd =>
      if headerEnd < lineEnd then total (.error ⟨.invalidHeader, messages.unterminated⟩)
      else do
        let lineSize ← sub lineEnd lineBegin
        let line ← substr input lineBegin lineSize
        let state ← headerStep messages onField state line
        -- the next line begins at the sum
        let _ ← add sizeMax lineEnd 2
        headerLoop messages onField input headerEnd (lineEnd + 2) state
  else total (.ok state)
termination_by headerEnd - lineBegin
decreasing_by
  have := le_of_find (by simp) h
  omega

def parseBlock (limit : ℕ) (errors : BlockErrors) (messages : HeaderMessages)
    (parseFirst : Bytes → Guarded ParseFailure σ)
    (onField : σ → Bytes → Bytes → Except ParseFailure σ) (input : Bytes) :
    Guarded ParseFailure (Option (ℕ × σ)) :=
  match find headerTerminator input 0 with
  | none => total (if limit < input.length then .error errors.tooLarge else .ok none)
  | some headerEnd => do
    let headerSize ← add sizeMax headerEnd 4
    if limit < headerSize then total (.error errors.tooLarge)
    else
      match find crlf input 0 with
      | none => total (.error errors.incompleteLine)
      | some lineEnd =>
        if headerEnd < lineEnd then total (.error errors.incompleteLine)
        else do
          let first ← substr input 0 lineEnd
          let s ← parseFirst first
          let lineBegin ← add sizeMax lineEnd 2
          let s ← headerLoop messages onField input headerEnd lineBegin s
          total (.ok (some (headerSize, s)))

variable {messages : HeaderMessages} {onField : σ → Bytes → Bytes → Except ParseFailure σ}
  {input line : Bytes}

theorem parseField_eq (messages : FieldMessages) (hline : line.length ≤ sizeMax) :
    parseField messages line = total (Http.parseField messages line) := by
  rw [parseField, Http.parseField]
  rcases hcolon : find [58] line 0 with _ | colon
  · rfl
  · have hlen := find_add_length_le (by simp) hcolon
    rw [List.length_singleton] at hlen
    simp only
    rw [substr_eq _ (Nat.zero_le _), ok_bind, add_eq (by omega), ok_bind, rest_eq hlen, ok_bind]
    split_ifs <;> rfl

theorem headerStep_eq (state : σ) (hline : line.length ≤ sizeMax) :
    headerStep messages onField state line = total (Http.headerStep messages onField state line) := by
  have hheader : parseHeaderLine messages line = total (Http.parseHeaderLine messages line) := by
    rw [parseHeaderLine, Http.parseHeaderLine]
    split_ifs
    · rfl
    · exact parseField_eq messages.toFieldMessages hline
  rw [headerStep, hheader]
  exact total_bind _ fun field _ => rfl

theorem headerLoop_line {headerEnd lineBegin lineEnd : ℕ} (state : σ) (hlt : lineBegin < headerEnd)
    (h : find crlf input lineBegin = some lineEnd) :
    Http.headerLoop messages onField input headerEnd lineBegin state =
      if headerEnd < lineEnd then .error ⟨.invalidHeader, messages.unterminated⟩
      else Http.headerStep messages onField state (Search.substr input lineBegin (lineEnd - lineBegin)) >>=
        fun state => Http.headerLoop messages onField input headerEnd (lineEnd + 2) state := by
  rw [Http.headerLoop, if_pos hlt]
  split
  · next h' => exact absurd (h.symm.trans h') (by simp)
  · next lineEnd' h' =>
    obtain rfl := Option.some_inj.mp (h.symm.trans h')
    rfl

theorem headerLoop_cut {headerEnd lineBegin : ℕ} (state : σ) (hlt : lineBegin < headerEnd)
    (h : find crlf input lineBegin = none) :
    Http.headerLoop messages onField input headerEnd lineBegin state =
      .error ⟨.invalidHeader, messages.unterminated⟩ := by
  rw [Http.headerLoop, if_pos hlt]
  split
  · rfl
  · next h' => exact absurd (h.symm.trans h') (by simp)

theorem headerLoop_eq (hinput : input.length ≤ sizeMax) (headerEnd lineBegin : ℕ) (state : σ) :
    headerLoop messages onField input headerEnd lineBegin state =
      total (Http.headerLoop messages onField input headerEnd lineBegin state) := by
  induction hd : headerEnd - lineBegin using Nat.strongRecOn generalizing lineBegin state with
  | ind d ih =>
    rw [headerLoop]
    by_cases hlt : lineBegin < headerEnd
    · rw [if_pos hlt]
      split
      · next hnone => rw [headerLoop_cut state hlt hnone]
      · next lineEnd hfind =>
        obtain ⟨hle, hlen⟩ := HttpResponseParser.line_bounds hfind
        rw [headerLoop_line state hlt hfind]
        split_ifs with hend
        · rfl
        · rw [sub_eq hle, ok_bind, substr_eq _ (by omega), ok_bind,
            headerStep_eq _ (by rw [length_substr]; omega)]
          refine total_bind _ fun state _ => ?_
          rw [add_eq (by omega), ok_bind]
          exact ih _ (by omega) _ _ rfl
    · rw [if_neg hlt, Http.headerLoop, if_neg hlt]

theorem parseBlock_eq (limit : ℕ) (errors : BlockErrors) {parseFirst : Bytes → Guarded ParseFailure σ}
    {parseFirst' : Bytes → Except ParseFailure σ} (hinput : input.length ≤ sizeMax)
    (hfirst : ∀ line : Bytes, line.length ≤ sizeMax → parseFirst line = total (parseFirst' line)) :
    parseBlock limit errors messages parseFirst onField input =
      total (Http.parseBlock limit errors messages parseFirst' onField input) := by
  rw [parseBlock, Http.parseBlock]
  rcases hheader : find headerTerminator input 0 with _ | headerEnd
  · rfl
  · have hlen := find_add_length_le (by simp) hheader
    simp only [List.length_cons, List.length_nil] at hlen
    simp only
    rw [add_eq (by omega), ok_bind]
    split_ifs
    · rfl
    · rcases hfind : find crlf input 0 with _ | lineEnd
      · rfl
      · have hline := (HttpResponseParser.line_bounds hfind).2
        simp only
        split_ifs
        · rfl
        · rw [substr_eq _ (Nat.zero_le _), ok_bind, hfirst _ (by rw [length_substr]; omega)]
          refine total_bind _ fun s _ => ?_
          rw [add_eq (by omega), ok_bind, headerLoop_eq hinput]
          exact total_bind _ fun s _ => rfl

/-! ### Requests -/

section Requests

open HttpRequestParser (encodedVersion blockErrors Headers Parsed kMaxHeaderSize kMaxBodySize)

/-- Path and query of a target without fragment. -/
def setPathAndQuery (request : HttpRequest) (target : Bytes) : Guarded ParseFailure HttpRequest :=
  match find [63] target 0 with
  | some position => do
    let path ← substr target 0 position
    let queryBegin ← add sizeMax position 1
    let query ← rest target queryBegin
    total (.ok ((request.setPath path).setQuery query))
  | none => total (.ok (request.setPath target))

def setTarget (request : HttpRequest) (target : Bytes) : Guarded ParseFailure HttpRequest :=
  match find [35] target 0 with
  | some position => do
    let fragmentBegin ← add sizeMax position 1
    let fragment ← rest target fragmentBegin
    let targetWithoutFragment ← substr target 0 position
    setPathAndQuery (request.setFragment fragment) targetWithoutFragment
  | none => setPathAndQuery request target

def parseRequestLine (requestLine : Bytes) : Guarded ParseFailure HttpRequest :=
  let malformed : ParseFailure :=
    ⟨.invalidRequestTarget, ascii "HTTP request line must contain method, target and version"⟩
  match find [32] requestLine 0 with
  | none => total (.error malformed)
  | some methodEnd => do
    let targetBegin ← add sizeMax methodEnd 1
    match find [32] requestLine targetBegin with
    | none => total (.error malformed)
    | some targetEnd => do
      let versionBegin ← add sizeMax targetEnd 1
      if methodEnd = 0 ∨ targetEnd = targetBegin ∨ find [32] requestLine versionBegin ≠ none then
        total (.error malformed)
      else do
        let methodText ← substr requestLine 0 methodEnd
        let method := stringToHttpMethod methodText
        if method = .invalidMethod then
          total (.error ⟨.invalidMethod, ascii "unsupported HTTP method: " ++ methodText⟩)
        else do
          let targetSize ← sub targetEnd methodEnd
          let targetSize ← sub targetSize 1
          let target ← substr requestLine targetBegin targetSize
          if target.any fun character => character ≤ 0x20 || character == 0x7F then
            total (.error ⟨.invalidRequestTarget,
              ascii "HTTP request target contains an invalid character"⟩)
          else do
            let version ← rest requestLine versionBegin
            match encodedVersion version with
            | none => total (.error ⟨.invalidVersion,
                ascii "only HTTP/1.0 and HTTP/1.1 requests are supported"⟩)
            | some version => do
              let request ← setTarget ((HttpRequest.new version (version ≤ 0x10)).setMethod method)
                target
              if request.path.isEmpty then
                total (.error ⟨.invalidRequestTarget, ascii "HTTP request target has an empty path"⟩)
              else total (.ok request)

def parseRequestBody (input : Bytes) (headerSize : ℕ) (s : Headers) :
    Guarded ParseFailure (Option Parsed) :=
  if kMaxBodySize < s.parsedContentLength then
    total (.error ⟨.bodyTooLarge, ascii "HTTP request body exceeds the configured limit"⟩)
  else do
    let room ← sub sizeMax headerSize
    if room < s.parsedContentLength then
      total (.error ⟨.bodyTooLarge, ascii "HTTP request size overflows size_t"⟩)
    else do
      let messageSize ← add sizeMax headerSize s.parsedContentLength
      if input.length < messageSize then total (.ok none)
      else do
        let body ← substr input headerSize s.parsedContentLength
        total <| .ok <| some
          { consumed := messageSize
            request := (s.request.setBody body).initConnection
            contentLength := s.parsedContentLength }

/-- `HttpRequestParser::parse`. -/
def parseRequest (input : Bytes) : Guarded ParseFailure (Option Parsed) := do
  match ← parseBlock kMaxHeaderSize blockErrors HttpRequestParser.headerMessages
      (fun line => parseRequestLine line >>= fun request => total (.ok (Headers.mk false 0 request)))
      HttpRequestParser.onField input with
  | none => total (.ok none)
  | some (headerSize, s) => parseRequestBody input headerSize s

theorem setPathAndQuery_eq (request : HttpRequest) {target : Bytes}
    (htarget : target.length ≤ sizeMax) :
    setPathAndQuery request target = total (.ok (match find [63] target 0 with
      | some position => (request.setPath (target.take position)).setQuery (target.drop (position + 1))
      | none => request.setPath target)) := by
  rw [setPathAndQuery]
  rcases hfind : find [63] target 0 with _ | position
  · rfl
  · have hlen := find_add_length_le (by simp) hfind
    rw [List.length_singleton] at hlen
    simp only
    rw [substr_eq _ (Nat.zero_le _), ok_bind, add_eq (by omega), ok_bind, rest_eq hlen, ok_bind]
    rfl

theorem setTarget_eq (request : HttpRequest) {target : Bytes} (htarget : target.length ≤ sizeMax) :
    setTarget request target = total (.ok (HttpRequestParser.setTarget request target)) := by
  rw [setTarget, HttpRequestParser.setTarget]
  rcases hfind : find [35] target 0 with _ | position
  · exact setPathAndQuery_eq request htarget
  · have hlen := find_add_length_le (by simp) hfind
    rw [List.length_singleton] at hlen
    simp only
    rw [add_eq (by omega), ok_bind, rest_eq hlen, ok_bind, substr_eq _ (Nat.zero_le _), ok_bind]
    have hpart : (Search.substr target 0 position).length ≤ sizeMax := by
      rw [length_substr]
      omega
    exact setPathAndQuery_eq _ hpart

theorem parseRequestLine_eq (hline : line.length ≤ sizeMax) :
    parseRequestLine line = total (HttpRequestParser.parseRequestLine line) := by
  rw [parseRequestLine, HttpRequestParser.parseRequestLine]
  rcases hmethod : find [32] line 0 with _ | methodEnd
  · rfl
  · have hmethodLen := find_add_length_le (by simp) hmethod
    rw [List.length_singleton] at hmethodLen
    simp only
    rw [add_eq (by omega), ok_bind]
    rcases htarget : find [32] line (methodEnd + 1) with _ | targetEnd
    · rfl
    · have htargetLen := find_add_length_le (by simp) htarget
      have hle := le_of_find (by simp) htarget
      rw [List.length_singleton] at htargetLen
      simp only
      rw [add_eq (by omega), ok_bind]
      by_cases hshape : methodEnd = 0 ∨ targetEnd = methodEnd + 1 ∨
          find [32] line (targetEnd + 1) ≠ none
      · rw [if_pos hshape, if_pos hshape]
      · rw [if_neg hshape, if_neg hshape, substr_eq _ (Nat.zero_le _), ok_bind]
        by_cases hinvalid : stringToHttpMethod (Search.substr line 0 methodEnd) = .invalidMethod
        · rw [if_pos hinvalid, if_pos hinvalid]
        · rw [if_neg hinvalid, if_neg hinvalid, sub_eq (by omega), ok_bind, sub_eq (by omega),
            ok_bind, substr_eq _ (by omega), ok_bind]
          split
          · rfl
          · rw [rest_eq htargetLen, ok_bind]
            rcases encodedVersion (line.drop (targetEnd + 1)) with _ | version
            · rfl
            · simp only
              rw [setTarget_eq _ (by rw [length_substr]; omega), ok_bind]
              split_ifs <;> rfl

theorem parseRequestBody_eq {headerSize : ℕ} {s : Headers} (hinput : input.length ≤ sizeMax)
    (hsize : headerSize ≤ input.length) :
    parseRequestBody input headerSize s =
      total (HttpRequestParser.parseBody input headerSize s) := by
  rw [parseRequestBody, HttpRequestParser.parseBody]
  by_cases hlarge : kMaxBodySize < s.parsedContentLength
  · rw [if_pos hlarge, if_pos hlarge]
  · rw [if_neg hlarge, if_neg hlarge, sub_eq (by omega), ok_bind]
    by_cases hroom : sizeMax - headerSize < s.parsedContentLength
    · rw [if_pos hroom, if_pos hroom]
    · rw [if_neg hroom, if_neg hroom, add_eq (by omega), ok_bind]
      simp only
      split_ifs
      · rfl
      · rw [substr_eq _ hsize, ok_bind]

/-- **Requests**: no size leaves its range, whatever the input. -/
theorem parseRequest_eq (hinput : input.length ≤ sizeMax) :
    parseRequest input = total (HttpRequestParser.parseMessage input) := by
  have hhead : parseBlock kMaxHeaderSize blockErrors HttpRequestParser.headerMessages
      (fun line => parseRequestLine line >>= fun request => total (.ok (Headers.mk false 0 request)))
      HttpRequestParser.onField input = total (HttpRequestParser.parseHead input) := by
    refine parseBlock_eq _ _ hinput fun line hline => ?_
    rw [parseRequestLine_eq hline]
    cases HttpRequestParser.parseRequestLine line <;> rfl
  rw [parseRequest, hhead, HttpRequestParser.parseMessage]
  refine total_bind _ fun head hhead => ?_
  rcases head with _ | ⟨headerSize, s⟩
  · rfl
  · exact parseRequestBody_eq hinput (parseBlock_size hhead).2.2

end Requests

/-! ### Responses -/

section Responses

open HttpResponseParser (kMaxHeaderSize kMaxBodySize trailersTooLarge trailerMessages onTrailer
  encodedVersion blockErrors Headers Parsed finishHeaders responseHasNoBody line_bounds)

/-- The checks on one coding of a list, and what follows them. -/
def finalChunkedItem (sawChunked : Bool) (item : Bytes)
    (next : Bool → Guarded ParseFailure Bool) : Guarded ParseFailure Bool :=
  let token := trimOptionalWhitespace item
  if token.isEmpty then total (.ok false)
  else
    let coding := trimOptionalWhitespace (beforeSemicolon token)
    if coding.isEmpty then total (.ok false)
    else if sawChunked then total (.ok false)
    else next (caseInsensitiveEqual coding (ascii "chunked"))

/-- The loop of `HeaderContainsFinalChunked`. -/
def finalChunkedLoop (value : Bytes) (position : ℕ) (sawToken sawChunked : Bool) :
    Guarded ParseFailure Bool :=
  if position ≤ value.length then
    match h : find [44] value position with
    | none => do
      let itemSize ← sub value.length position
      let item ← substr value position itemSize
      finalChunkedItem sawChunked item fun finalChunked => total (.ok finalChunked)
    | some comma => do
      let itemSize ← sub comma position
      let item ← substr value position itemSize
      finalChunkedItem sawChunked item fun finalChunked => do
        let _ ← add sizeMax comma 1
        finalChunkedLoop value (comma + 1) true finalChunked
  else total (.ok (sawToken && sawChunked))
termination_by value.length + 1 - position
decreasing_by
  have := le_of_find (by simp) h
  omega

def trailerLoop (input : Bytes) (trailersBegin : ℕ) (body : Bytes) (position : ℕ)
    (response : HttpResponse) : Guarded ParseFailure (Option (ℕ × HttpResponse)) :=
  match h : find crlf input position with
  | none => do
    let size ← sub input.length trailersBegin
    total (if kMaxHeaderSize < size then .error trailersTooLarge else .ok none)
  | some trailerEnd => do
    let size ← sub trailerEnd trailersBegin
    if kMaxHeaderSize < size then total (.error trailersTooLarge)
    else do
      let trailerSize ← sub trailerEnd position
      let trailer ← substr input position trailerSize
      let _ ← add sizeMax trailerEnd 2
      if trailer.isEmpty then
        total (.ok (some (trailerEnd + 2, (response.setBody body).initConnection)))
      else do
        let field ← parseField trailerMessages trailer
        trailerLoop input trailersBegin body (trailerEnd + 2) (onTrailer response field.1 field.2)
termination_by input.length - position
decreasing_by
  have := line_bounds h
  omega

def chunkLoop (input : Bytes) (position : ℕ) (body : Bytes) (response : HttpResponse) :
    Guarded ParseFailure (Option (ℕ × HttpResponse)) :=
  match _h : find crlf input position with
  | none => do
    let size ← sub input.length position
    total (if kMaxHeaderSize < size then
        .error ⟨.headerTooLarge, ascii "HTTP chunk metadata exceeds the configured limit"⟩
      else .ok none)
  | some chunkLineEnd => do
    let lineSize ← sub chunkLineEnd position
    let line ← substr input position lineSize
    match parseChunkSize line with
    | none => total (.error ⟨.invalidChunkSize, ascii "invalid HTTP chunk size"⟩)
    | some chunkSize => do
      let dataBegin ← add sizeMax chunkLineEnd 2
      if chunkSize = 0 then trailerLoop input dataBegin body dataBegin response
      else do
        let bodyRoom ← sub kMaxBodySize body.length
        if bodyRoom < chunkSize then
          total (.error ⟨.bodyTooLarge, ascii "HTTP chunked body exceeds the configured limit"⟩)
        else do
          let room ← sub sizeMax dataBegin
          let room ← sub room 2
          if room < chunkSize then
            total (.error ⟨.bodyTooLarge, ascii "HTTP chunk size overflows size_t"⟩)
          else do
            let dataEnd ← add sizeMax dataBegin chunkSize
            let next ← add sizeMax dataEnd 2
            if input.length < next then total (.ok none)
            else do
              let terminator ← substr input dataEnd 2
              if terminator ≠ crlf then
                total (.error ⟨.invalidChunkSize,
                  ascii "HTTP chunk data is not followed by CRLF"⟩)
              else do
                let data ← substr input dataBegin chunkSize
                chunkLoop input (chunkLineEnd + 2 + chunkSize + 2) (body ++ data) response
termination_by input.length - position
decreasing_by
  have := line_bounds _h
  omega

def parseStatusLine (statusLine : Bytes) : Guarded ParseFailure HttpResponse :=
  if statusLine.length < 12 || statusLine[8]? != some 32 then
    total (.error ⟨.invalidStatus,
      ascii "HTTP status line must contain version and status code"⟩)
  else do
    let version ← substr statusLine 0 8
    match encodedVersion version with
    | none => total (.error ⟨.invalidVersion,
        ascii "only HTTP/1.0 and HTTP/1.1 responses are supported"⟩)
    | some version => do
      let reasonBegin := find [32] statusLine 9
      let statusSize ← sub (reasonBegin.getD statusLine.length) 9
      let statusText ← substr statusLine 9 statusSize
      if statusText.length ≠ 3 then
        total (.error ⟨.invalidStatus,
          ascii "HTTP status code must contain exactly three digits"⟩)
      else
        match wholeNumber (2 ^ 16 - 1) 10 statusText with
        | none => total (.error ⟨.invalidStatus, ascii "invalid HTTP status code"⟩)
        | some status =>
          if status < 100 ∨ 999 < status then
            total (.error ⟨.invalidStatus, ascii "invalid HTTP status code"⟩)
          else do
            let reason ← match reasonBegin with
              | none => total (.ok [])
              | some reasonBegin => do
                let reasonTextBegin ← add sizeMax reasonBegin 1
                rest statusLine reasonTextBegin
            if !isValidHeaderValue reason then
              total (.error ⟨.invalidStatus,
                ascii "HTTP reason phrase contains an invalid character"⟩)
            else
              total (.ok (((HttpResponse.new version (version ≤ 0x10)).setStatus
                (UInt16.ofNat status)).setReason reason))

def parseResponseBody (method : HttpMethod) (input : Bytes) (eof : Bool) (headerSize : ℕ)
    (s : Headers) : Guarded ParseFailure (Option Parsed) :=
  if responseHasNoBody method s.response.status then
    total (.ok (some ⟨headerSize, s.response, 0, false⟩))
  else if s.transferEncodingSeen then do
    let finalChunked ← finalChunkedLoop s.transferEncoding 0 false false
    if !finalChunked then
      total (.error ⟨.unsupportedTransferEncoding,
        ascii "the final Transfer-Encoding must be chunked"⟩)
    else do
      let result ← chunkLoop input headerSize [] s.response
      total (.ok (result.map Parsed.ofChunked))
  else if s.contentLengthSeen then do
    let room ← sub sizeMax headerSize
    if room < s.parsedContentLength then
      total (.error ⟨.bodyTooLarge, ascii "HTTP response size overflows size_t"⟩)
    else do
      let messageSize ← add sizeMax headerSize s.parsedContentLength
      if input.length < messageSize then total (.ok none)
      else do
        let body ← substr input headerSize s.parsedContentLength
        total <| .ok <| some
          { consumed := messageSize
            response := s.response.setBody body
            contentLength := s.parsedContentLength
            chunked := false }
  else do
    let bodySize ← sub input.length headerSize
    if kMaxBodySize < bodySize then
      total (.error ⟨.bodyTooLarge,
        ascii "HTTP close-delimited body exceeds the configured limit"⟩)
    else if !eof then total (.ok none)
    else do
      let body ← rest input headerSize
      total (.ok (some ⟨input.length, (s.response.setClose true).setBody body, body.length, false⟩))

/-- `HttpResponseParser::parse`. -/
def parseResponse (method : HttpMethod) (input : Bytes) (eof : Bool) :
    Guarded ParseFailure (Option Parsed) := do
  match ← parseBlock kMaxHeaderSize blockErrors HttpResponseParser.headerMessages
      (fun line => parseStatusLine line >>= fun response =>
        total (.ok (Headers.mk false false false 0 [] [] response)))
      HttpResponseParser.onField input with
  | none => total (.ok none)
  | some (headerSize, s) => do
    let s ← total (finishHeaders s)
    parseResponseBody method input eof headerSize s

variable {position : ℕ} {body : Bytes} {response : HttpResponse}

theorem finalChunkedItem_eq {sawToken sawChunked : Bool} {item : Bytes} {items : List Bytes}
    {next : Bool → Guarded ParseFailure Bool}
    (h : ∀ finalChunked, next finalChunked =
      total (.ok (Http.finalChunkedLoop true finalChunked items))) :
    finalChunkedItem sawChunked item next =
      total (.ok (Http.finalChunkedLoop sawToken sawChunked (item :: items))) := by
  rw [finalChunkedItem, Http.finalChunkedLoop]
  simp only
  split_ifs
  · rfl
  · rfl
  · rfl
  · exact h _

theorem finalChunkedLoop_eq {value : Bytes} (hvalue : value.length < sizeMax) {sawToken sawChunked : Bool}
    (hposition : position ≤ value.length) :
    finalChunkedLoop value position sawToken sawChunked =
      total (.ok (Http.finalChunkedLoop sawToken sawChunked ((value.drop position).splitOn 44))) := by
  induction hd : value.length - position using Nat.strongRecOn
    generalizing position sawToken sawChunked with
  | ind d ih =>
    rw [finalChunkedLoop, if_pos hposition]
    split
    · next hnone =>
      have hcomma : (44 : UInt8) ∉ value.drop position := by
        refine notMem_of_find_eq_none ?_
        rwa [find_drop, Option.map_eq_none_iff] at hnone
      have hitem : Search.substr value position (value.length - position) = value.drop position := by
        rw [Search.substr, List.take_of_length_le (by rw [List.length_drop])]
      rw [sub_eq hposition, ok_bind, substr_eq _ hposition, ok_bind, hitem,
        List.splitOn_eq_singleton hcomma]
      exact finalChunkedItem_eq fun finalChunked => rfl
    · next comma hfind =>
      have hle := le_of_find (by simp) hfind
      have hlen := find_add_length_le (by simp) hfind
      rw [List.length_singleton] at hlen
      rw [find_drop, Option.map_eq_some_iff] at hfind
      obtain ⟨i, hi, rfl⟩ := hfind
      obtain ⟨item, items, hsplit, hcomma, rfl⟩ := find_single_iff.mp hi
      have hitem : Search.substr value position (item.length + position - position) = item := by
        rw [Search.substr, hsplit, Nat.add_sub_cancel, List.take_left]
      have hitems : value.drop (item.length + position + 1) = items := by
        rw [Nat.add_comm item.length, Nat.add_assoc, ← List.drop_drop, hsplit, ← List.drop_drop,
          List.drop_left]
        rfl
      rw [sub_eq hle, ok_bind, substr_eq _ hposition, ok_bind, hitem, hsplit,
        List.splitOn_append_cons_self_of_not_mem hcomma]
      refine finalChunkedItem_eq fun finalChunked => ?_
      rw [add_eq (by omega), ok_bind, ih _ (by omega) hlen rfl, hitems]

theorem trailerLoop_eq (hinput : input.length ≤ sizeMax) {trailersBegin : ℕ}
    (hbegin : trailersBegin ≤ position) (hposition : position ≤ input.length) :
    trailerLoop input trailersBegin body position response =
      total (HttpResponseParser.trailerLoop input trailersBegin body position response) := by
  induction hd : input.length - position using Nat.strongRecOn generalizing position response with
  | ind d ih =>
    rw [trailerLoop]
    split
    · next hnone =>
      rw [HttpResponseParser.trailerLoop_cut hnone, sub_eq (by omega), ok_bind]
    · next trailerEnd hfind =>
      obtain ⟨hle, hlen⟩ := line_bounds hfind
      rw [HttpResponseParser.trailerLoop_line hfind, sub_eq (by omega), ok_bind]
      split_ifs with hlarge hempty
      · rfl
      · rw [sub_eq hle, ok_bind, substr_eq _ hposition, ok_bind, add_eq (by omega), ok_bind,
          if_pos hempty]
      · rw [sub_eq hle, ok_bind, substr_eq _ hposition, ok_bind, add_eq (by omega), ok_bind,
          if_neg hempty, parseField_eq _ (by rw [length_substr]; omega)]
        exact total_bind _ fun field _ => ih _ (by omega) (by omega) hlen rfl

/-- The body never exceeds its limit, so that what is left of it is a size. -/
theorem chunkLoop_eq (hinput : input.length + 2 ≤ sizeMax) (hposition : position ≤ input.length)
    (hbody : body.length ≤ kMaxBodySize) :
    chunkLoop input position body response =
      total (HttpResponseParser.chunkLoop input position body response) := by
  induction hd : input.length - position using Nat.strongRecOn generalizing position body with
  | ind d ih =>
    rw [chunkLoop]
    split
    · next hnone => rw [HttpResponseParser.chunkLoop_cut hnone, sub_eq hposition, ok_bind]
    · next chunkLineEnd hfind =>
      obtain ⟨hle, hlen⟩ := line_bounds hfind
      rw [sub_eq hle, ok_bind, substr_eq _ hposition, ok_bind]
      rcases hsize : parseChunkSize (Search.substr input position (chunkLineEnd - position))
        with _ | chunkSize
      · rw [HttpResponseParser.chunkLoop_invalid hfind hsize]
      · rw [HttpResponseParser.chunkLoop_line ⟨hfind, hsize⟩]
        simp only
        rw [add_eq (by omega), ok_bind]
        by_cases hlast : chunkSize = 0
        · rw [if_pos hlast, if_pos hlast]
          exact trailerLoop_eq (by omega) (Nat.le_refl _) hlen
        · rw [if_neg hlast, if_neg hlast, sub_eq hbody, ok_bind]
          by_cases hlarge : kMaxBodySize - body.length < chunkSize
          · rw [if_pos hlarge, if_pos hlarge]
          · rw [if_neg hlarge, if_neg hlarge, sub_eq (by omega), ok_bind, sub_eq (by omega), ok_bind]
            by_cases hroom : sizeMax - (chunkLineEnd + 2) - 2 < chunkSize
            · rw [if_pos hroom, if_pos hroom]
            · rw [if_neg hroom, if_neg hroom, add_eq (by omega), ok_bind, add_eq (by omega), ok_bind]
              by_cases hcut : input.length < chunkLineEnd + 2 + chunkSize + 2
              · rw [if_pos hcut, if_pos hcut]
              · rw [if_neg hcut, if_neg hcut, substr_eq _ (by omega), ok_bind]
                split_ifs
                · rfl
                · rw [substr_eq _ hlen, ok_bind]
                  refine ih _ (by omega) (by omega) ?_ rfl
                  rw [List.length_append, length_substr]
                  omega

theorem parseStatusLine_eq (hline : line.length ≤ sizeMax) :
    parseStatusLine line = total (HttpResponseParser.parseStatusLine line) := by
  rw [parseStatusLine, HttpResponseParser.parseStatusLine]
  by_cases hshape : (decide (line.length < 12) || (line)[8]? != some 32) = true
  · rw [if_pos hshape, if_pos hshape]
  · have hlong : 12 ≤ line.length := by
      rw [Bool.or_eq_true, not_or, decide_eq_true_iff] at hshape
      omega
    rw [if_neg hshape, if_neg hshape, substr_eq _ (Nat.zero_le _), ok_bind]
    rcases encodedVersion (Search.substr line 0 8) with _ | version
    · rfl
    · rcases hreason : find [32] line 9 with _ | reasonBegin
      · simp only [Option.getD_none]
        rw [sub_eq (by omega), ok_bind, substr_eq _ (by omega), ok_bind]
        generalize Search.substr line 9 (line.length - 9) = statusText
        by_cases hthree : statusText.length ≠ 3
        · rw [if_pos hthree, if_pos hthree]
        · rw [if_neg hthree, if_neg hthree]
          rcases wholeNumber (2 ^ 16 - 1) 10 statusText with _ | status
          · rfl
          · simp only [ok_bind]
            split_ifs <;> rfl
      · have hle := le_of_find (by simp) hreason
        have hlen := find_add_length_le (by simp) hreason
        rw [List.length_singleton] at hlen
        simp only [Option.getD_some]
        rw [sub_eq hle, ok_bind, substr_eq _ (by omega), ok_bind]
        generalize Search.substr line 9 (reasonBegin - 9) = statusText
        by_cases hthree : statusText.length ≠ 3
        · rw [if_pos hthree, if_pos hthree]
        · rw [if_neg hthree, if_neg hthree]
          rcases wholeNumber (2 ^ 16 - 1) 10 statusText with _ | status
          · rfl
          · have hsum : reasonBegin + 1 ≤ sizeMax := by omega
            simp only [add_eq hsum, ok_bind, rest_eq hlen]
            split_ifs <;> rfl

theorem parseResponseBody_eq {method : HttpMethod} {eof : Bool} {headerSize : ℕ} {s : Headers}
    (hinput : input.length + 2 ≤ sizeMax) (hsize : headerSize ≤ input.length)
    (hcodings : s.transferEncoding.length < sizeMax) :
    parseResponseBody method input eof headerSize s =
      total (HttpResponseParser.parseBody method input eof headerSize s) := by
  rw [parseResponseBody, HttpResponseParser.parseBody]
  by_cases hbody : responseHasNoBody method s.response.status = true
  · rw [if_pos hbody, if_pos hbody]
  · rw [if_neg hbody, if_neg hbody]
    by_cases hchunked : s.transferEncodingSeen = true
    · have hfinal : finalChunkedLoop s.transferEncoding 0 false false =
          total (.ok (headerContainsFinalChunked s.transferEncoding)) :=
        finalChunkedLoop_eq hcodings (Nat.zero_le _)
      rw [if_pos hchunked, if_pos hchunked, hfinal, ok_bind]
      split_ifs
      · rfl
      · rw [chunkLoop_eq hinput hsize (Nat.zero_le _)]
        cases HttpResponseParser.chunkLoop input headerSize [] s.response <;> rfl
    · rw [if_neg hchunked, if_neg hchunked]
      by_cases hlength : s.contentLengthSeen = true
      · rw [if_pos hlength, if_pos hlength, sub_eq (by omega), ok_bind]
        by_cases hroom : sizeMax - headerSize < s.parsedContentLength
        · rw [if_pos hroom, if_pos hroom]
        · rw [if_neg hroom, if_neg hroom, add_eq (by omega), ok_bind]
          simp only
          split_ifs
          · rfl
          · rw [substr_eq _ hsize, ok_bind]
      · rw [if_neg hlength, if_neg hlength, sub_eq hsize, ok_bind]
        split_ifs
        · rfl
        · rfl
        · rw [rest_eq hsize, ok_bind]

theorem length_trim_le (value : Bytes) : (trimOptionalWhitespace value).length ≤ value.length :=
  ((List.rdropWhile_prefix _ _).length_le).trans (List.dropWhile_suffix _).length_le

/-- A joined list is not longer than the lines that it comes from. -/
theorem length_joinAll_le (seen : Bool) (text name : Bytes) (fields : List (Bytes × Bytes)) :
    (HttpResponseParser.joinAll seen text (valuesOf name fields)).length ≤
      text.length + (unlines 13 10 (fields.map fieldSource)).length := by
  induction fields generalizing seen text with
  | nil => exact Nat.le_add_right _ _
  | cons field fields ih =>
    have hline : (fieldSource field).length = field.1.length + (field.2.length + 1) := by
      rw [fieldSource, List.length_append, List.length_cons]
    rw [valuesOf_cons, List.map_cons, unlines_cons, List.length_append, hline, List.length_cons,
      List.length_cons]
    split_ifs
    · have hrest := ih true (HttpResponseParser.joinValues seen text (trimOptionalWhitespace field.2))
      have htrim := length_trim_le field.2
      have hjoin : (HttpResponseParser.joinValues seen text (trimOptionalWhitespace field.2)).length ≤
          text.length + 1 + (trimOptionalWhitespace field.2).length := by
        rw [HttpResponseParser.joinValues, List.length_append]
        refine Nat.add_le_add_right ?_ _
        split_ifs
        · rw [List.length_append]
          rfl
        · exact Nat.le_succ _
      rw [HttpResponseParser.joinAll]
      omega
    · have hrest := ih seen text
      omega

/-- **Responses**: no size leaves its range, whatever the input. -/
theorem parseResponse_eq {method : HttpMethod} {eof : Bool} (hinput : input.length + 2 ≤ sizeMax) :
    parseResponse method input eof = total (HttpResponseParser.parseMessage method input eof) := by
  have hheaders : parseBlock kMaxHeaderSize blockErrors HttpResponseParser.headerMessages
      (fun line => parseStatusLine line >>= fun response =>
        total (.ok (Headers.mk false false false 0 [] [] response)))
      HttpResponseParser.onField input = total (HttpResponseParser.parseHeaders input) := by
    refine parseBlock_eq _ _ (by omega) fun line hline => ?_
    rw [parseStatusLine_eq hline]
    cases HttpResponseParser.parseStatusLine line <;> rfl
  rw [parseResponse, hheaders, HttpResponseParser.parseMessage]
  rcases hblock : HttpResponseParser.parseHeaders input with failure | _ | ⟨headerSize, s₀⟩
  · rw [HttpResponseParser.parseHead, hblock]
    rfl
  · rw [HttpResponseParser.parseHead, hblock]
    rfl
  · rcases hfinish : finishHeaders s₀ with failure | s
    · rw [HttpResponseParser.parseHead, hblock, ok_bind]
      simp only [hfinish]
      simp only [bind, Except.bind, hfinish]
      rfl
    · have hhead : HttpResponseParser.parseHead input = .ok (some (headerSize, s)) := by
        rw [HttpResponseParser.parseHead, hblock]
        simp only [bind, Except.bind, hfinish]
        rfl
      have hcodings : s.transferEncoding.length < sizeMax := by
        obtain ⟨statusLine, fields, rest, hvalid, rfl⟩ := HttpResponseParser.exists_headText hhead
        obtain ⟨-, response, s₁, -, hfields, rfl⟩ :=
          HttpResponseParser.parseHead_headText hvalid hhead
        have hbound := length_joinAll_le false [] (ascii "transfer-encoding") fields
        rw [HttpResponseParser.headText_eq, unlines_cons, List.length_append, List.length_append,
          List.length_append, List.length_cons, List.length_cons] at hinput
        rw [hfields.transferEncoding]
        exact Nat.lt_of_le_of_lt hbound (by simp only [List.length_nil]; omega)
      rw [hhead, ok_bind]
      simp only [hfinish, ok_bind]
      exact parseResponseBody_eq hinput (parseBlock_size hblock).2.2 hcodings

end Responses

end Ranged

end Http

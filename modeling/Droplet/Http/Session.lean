/-
The server side of a connection: `HttpSession::recvRequest`.

`recvRequest` parses its buffer, reads more while the request is incomplete,
and leaves the bytes after a request in the buffer for the next call.  The
socket is the list of its reads: an empty read is the end of the stream.  What
repeated calls return is what the parser makes of the stream as a whole
(`recvRequests_eq`), because the loop is a call of a restarting receiver
(`recvLoop_call`) and the reports of the parser are final.

* `recvRequests_split_independent` — requests do not depend on how the stream
  is split into reads.
-/
import Droplet.Http.RequestParser
import Droplet.Lib.Restart

open Search Restart

namespace Http

structure HttpSession where
  inputBuffer : Bytes
  lastParseError : HttpParseError
  lastParseErrorMessage : Bytes
  connected : Bool
  deriving DecidableEq

namespace HttpSession

/-- A session on a connected socket. -/
def new : HttpSession := ⟨[], .none, [], true⟩

/-- `SocketStream::close`. -/
def close (s : HttpSession) : HttpSession := { s with connected := false }

/-- Where one pass over the buffer leads to. -/
inductive ParseStep
  | failed (session : HttpSession)
  | finished (request : HttpRequest) (session : HttpSession)
  | wantRead (session : HttpSession) (parser : HttpRequestParser)

/-- The first half of the loop body: parse what is buffered. -/
def parseBuffered (s : HttpSession) (parser : HttpRequestParser) : ParseStep :=
  if s.inputBuffer.isEmpty then .wantRead s parser
  else
    let buffered := s.inputBuffer.length
    let (parser, buffer, consumed) := parser.executeBuffer s.inputBuffer
    let s := { s with inputBuffer := buffer }
    if parser.hasError then
      .failed { s with
        lastParseError := parser.error
        lastParseErrorMessage := parser.errorMessage }.close
    else if parser.finished then
      .finished parser.data { s with inputBuffer := buffer.take (buffered - consumed) }
    else .wantRead s parser

/-- The loop of `recvRequest`; the reads of the socket that are left come last. -/
def recvLoop (s : HttpSession) (parser : HttpRequestParser) :
    List Bytes → Option HttpRequest × HttpSession × List Bytes
  | [] =>
    match parseBuffered s parser with
    | .failed s => (none, s, [])
    | .finished request s => (some request, s, [])
    | .wantRead s _ => (none, s.close, [])
  | read :: reads =>
    match parseBuffered s parser with
    | .failed s => (none, s, read :: reads)
    | .finished request s => (some request, s, read :: reads)
    | .wantRead s parser =>
      if !s.connected then (none, s.close, read :: reads)
      else if read.isEmpty then (none, s.close, reads)
      else recvLoop { s with inputBuffer := s.inputBuffer ++ read } parser reads

def recvRequest (s : HttpSession) (reads : List Bytes) :
    Option HttpRequest × HttpSession × List Bytes :=
  recvLoop { s with lastParseError := .none, lastParseErrorMessage := [] } .new reads

/-- What a caller learns from one call: the request, or the parse error that
ended the session (`.none` when the peer closed). -/
inductive RecvResult
  | request (request : HttpRequest)
  | closed (error : HttpParseError) (message : Bytes)
  deriving DecidableEq

/-- The results of up to `n` calls, the last one being the first that returns no
request. -/
def recvRequests : ℕ → HttpSession → List Bytes → List RecvResult
  | 0, _, _ => []
  | n + 1, s, reads =>
    match recvRequest s reads with
    | (some request, s, reads) => .request request :: recvRequests n s reads
    | (none, s, _) => [.closed s.lastParseError s.lastParseErrorMessage]

/-! ### What one call receives -/

/-- The request parser as a restarting parser. -/
def requestReport (input : Bytes) : Report ParseFailure HttpRequest :=
  match HttpRequestParser.parseMessage input with
  | .error failure => .failed failure
  | .ok none => .incomplete
  | .ok (some m) => .complete m.consumed m.request

theorem requestReport_agrees (s : Bytes) : Agrees requestReport s := by
  rintro p t rfl h
  have hne : HttpRequestParser.parseMessage p ≠ .ok none := by
    intro hp
    exact h (by rw [requestReport, hp])
  rw [requestReport, requestReport, HttpRequestParser.parseMessage_append hne]

/-- The result of a call as a caller sees it. -/
def RecvResult.ofReceived : Received ParseFailure HttpRequest → RecvResult
  | .message r | .last r => .request r
  | .failed failure => .closed failure.error failure.message
  | .ended => .closed .none []

/-- What a call that ended in the session `s` returned. -/
def RecvResult.ofCall (request : Option HttpRequest) (s : HttpSession) : RecvResult :=
  match request with
  | some request => .request request
  | none => .closed s.lastParseError s.lastParseErrorMessage

/-- A pass over the buffer with a parser that has reported nothing. -/
theorem parseBuffered_new (s : HttpSession) :
    parseBuffered s .new =
      match HttpRequestParser.parseMessage s.inputBuffer with
      | .error failure => .failed { s with
          lastParseError := failure.error, lastParseErrorMessage := failure.message }.close
      | .ok none => .wantRead s .new
      | .ok (some m) => .finished m.request
          { s with inputBuffer := s.inputBuffer.drop m.consumed } := by
  by_cases hempty : s.inputBuffer = []
  · rw [parseBuffered, hempty, HttpRequestParser.parseMessage_nil]
    rfl
  · have hisEmpty : s.inputBuffer.isEmpty = false := by simpa using hempty
    have hlen : ¬ s.inputBuffer.length = 0 := by simpa using hempty
    have hfresh : (HttpRequestParser.new.finished || HttpRequestParser.new.hasError) = false := by
      decide
    rw [parseBuffered, hisEmpty, if_neg (by simp), HttpRequestParser.executeBuffer]
    simp only [hlen, decide_false, Bool.false_or, hfresh, HttpRequestParser.parse]
    rcases hparse : HttpRequestParser.parseMessage s.inputBuffer with failure | _ | m
    · have hcode : (failure.error != .none) = true :=
        bne_iff_ne.2 (HttpRequestParser.parseMessage_coded _ failure hparse)
      simp [HttpRequestParser.setError, HttpRequestParser.hasError, hcode, afterExecute]
    · simp [HttpRequestParser.new, HttpRequestParser.hasError, afterExecute]
    · simp [HttpRequestParser.new, HttpRequestParser.hasError, take_afterExecute]

/-- The loop on an open session is one call of a restarting receiver. -/
theorem recvLoop_call {s s' : HttpSession} {reads reads' : List Bytes}
    {request : Option HttpRequest} (hopen : s.connected = true)
    (herror : s.lastParseError = .none) (hmessage : s.lastParseErrorMessage = [])
    (hreads : ∀ read ∈ reads, read ≠ [])
    (h : recvLoop s .new reads = (request, s', reads')) :
    ∃ received, Call requestReport (fun _ => .incomplete) (fun _ => true) s.inputBuffer reads
        received s'.inputBuffer reads' ∧
      RecvResult.ofCall request s' = RecvResult.ofReceived received ∧
      ∀ r, received = .message r → s'.connected = true ∧ ∀ read ∈ reads', read ≠ [] := by
  induction reads generalizing s with
  | nil =>
    rw [recvLoop, parseBuffered_new] at h
    rcases hparse : HttpRequestParser.parseMessage s.inputBuffer with failure | _ | m
    · simp only [hparse, Prod.mk.injEq] at h
      obtain ⟨rfl, rfl, rfl⟩ := h
      exact ⟨.failed failure, .failed (by rw [requestReport, hparse]), rfl, by simp⟩
    · simp only [hparse, Prod.mk.injEq] at h
      obtain ⟨rfl, rfl, rfl⟩ := h
      refine ⟨.ended, .ended (by rw [requestReport, hparse]) rfl, ?_, by simp⟩
      rw [RecvResult.ofCall, close, herror, hmessage]
      rfl
    · simp only [hparse, Prod.mk.injEq] at h
      obtain ⟨rfl, rfl, rfl⟩ := h
      exact ⟨.message m.request, .message (by rw [requestReport, hparse]) rfl, rfl,
        fun _ _ => ⟨hopen, hreads⟩⟩
  | cons read reads ih =>
    rw [recvLoop, parseBuffered_new] at h
    rcases hparse : HttpRequestParser.parseMessage s.inputBuffer with failure | _ | m
    · simp only [hparse, Prod.mk.injEq] at h
      obtain ⟨rfl, rfl, rfl⟩ := h
      exact ⟨.failed failure, .failed (by rw [requestReport, hparse]), rfl, by simp⟩
    · -- nothing yet: the call goes on with one more read in the buffer
      have hread : read.isEmpty = false := by simpa using hreads read (by simp)
      simp only [hparse] at h
      rw [if_neg (by simp [hopen]), if_neg (by simp [hread])] at h
      obtain ⟨received, hcall, hrest⟩ := @ih { s with inputBuffer := s.inputBuffer ++ read }
        hopen herror hmessage (fun x hx => hreads x (List.mem_cons_of_mem _ hx)) h
      exact ⟨received, .more (by rw [requestReport, hparse]) hcall, hrest⟩
    · simp only [hparse, Prod.mk.injEq] at h
      obtain ⟨rfl, rfl, rfl⟩ := h
      exact ⟨.message m.request, .message (by rw [requestReport, hparse]) rfl, rfl,
        fun _ _ => ⟨hopen, hreads⟩⟩

/-- What a call on an open session returns is what the stream starts with, the
buffer followed by what is still to be read. -/
theorem recvRequest_receives {s s' : HttpSession} {reads reads' : List Bytes}
    {request : Option HttpRequest} (hopen : s.connected = true)
    (hreads : ∀ read ∈ reads, read ≠ []) (h : recvRequest s reads = (request, s', reads')) :
    ∃ received, Receives requestReport (fun _ => .incomplete) (fun _ => true)
        (s.inputBuffer ++ reads.flatten) received (s'.inputBuffer ++ reads'.flatten) ∧
      RecvResult.ofCall request s' = RecvResult.ofReceived received ∧
      ∀ r, received = .message r → s'.connected = true ∧ ∀ read ∈ reads', read ≠ [] := by
  obtain ⟨received, hcall, hrest⟩ := @recvLoop_call
    { s with lastParseError := .none, lastParseErrorMessage := [] } _ _ _ _ hopen rfl rfl hreads h
  have hle : ∀ b n r, requestReport b = .complete n r → n ≤ b.length := by
    intro b n r hb
    rw [requestReport] at hb
    rcases hparse : HttpRequestParser.parseMessage b with failure | _ | m
    · simp [hparse] at hb
    · simp [hparse] at hb
    · simp only [hparse, Report.complete.injEq] at hb
      rw [← hb.1]
      exact (HttpRequestParser.consumed_le hparse).2
  have hreceives := Call.receives requestReport (fun _ => True) hle (fun _ _ _ h => h)
    (fun _ _ _ _ _ _ _ => trivial) hcall (fun s _ => (requestReport_agrees s).settled) trivial
    fun _ _ => trivial
  exact ⟨received, hreceives.1, hrest⟩

/-! ### The requests of a stream -/

/-- The results read off the whole stream: the parser runs on all of it, and
after a request on what follows the consumed bytes. -/
def streamRequests : ℕ → Bytes → List RecvResult
  | 0, _ => []
  | n + 1, stream =>
    let (parser, consumed) := HttpRequestParser.new.execute stream
    if parser.hasError then [.closed parser.error parser.errorMessage]
    else if parser.finished then
      .request parser.data :: streamRequests n (stream.drop consumed)
    else [.closed .none []]

/-- Repeated calls return the requests of the stream that is left. -/
theorem recvRequests_eq (n : ℕ) {s : HttpSession} {reads : List Bytes}
    (hopen : s.connected = true) (hreads : ∀ read ∈ reads, read ≠ []) :
    recvRequests n s reads = streamRequests n (s.inputBuffer ++ reads.flatten) := by
  induction n generalizing s reads with
  | zero => rfl
  | succ n ih =>
    rw [recvRequests, streamRequests, HttpRequestParser.execute_new]
    rcases hcall : recvRequest s reads with ⟨request, s', reads'⟩
    obtain ⟨received, hreceives, hresult, hnext⟩ := recvRequest_receives hopen hreads hcall
    rcases hparse : HttpRequestParser.parseMessage (s.inputBuffer ++ reads.flatten)
      with failure | _ | m
    · have hcode : (failure.error != .none) = true :=
        bne_iff_ne.2 (HttpRequestParser.parseMessage_coded _ failure hparse)
      obtain ⟨rfl, -⟩ := hreceives.unique (.failed (by rw [requestReport, hparse]))
      rcases request with _ | request
      · simp only [RecvResult.ofCall, RecvResult.ofReceived, RecvResult.closed.injEq] at hresult
        simp [HttpRequestParser.setError, HttpRequestParser.hasError, hcode, hresult]
      · exact absurd hresult (by simp [RecvResult.ofCall, RecvResult.ofReceived])
    · obtain ⟨rfl, -⟩ := hreceives.unique (.ended (by rw [requestReport, hparse]) rfl)
      rcases request with _ | request
      · simp only [RecvResult.ofCall, RecvResult.ofReceived, RecvResult.closed.injEq] at hresult
        simp [HttpRequestParser.new, HttpRequestParser.hasError, hresult]
      · exact absurd hresult (by simp [RecvResult.ofCall, RecvResult.ofReceived])
    · obtain ⟨rfl, hrest⟩ := hreceives.unique (.message (by rw [requestReport, hparse]) rfl)
      rcases request with _ | request
      · exact absurd hresult (by simp [RecvResult.ofCall, RecvResult.ofReceived])
      · simp only [RecvResult.ofCall, RecvResult.ofReceived, RecvResult.request.injEq] at hresult
        obtain ⟨hopen', hreads'⟩ := hnext _ rfl
        simp [HttpRequestParser.hasError, hresult, ih hopen' hreads', hrest]

/-- What a fresh parser reports on a part of a stream it reports on the whole. -/
theorem execute_of_part {p s : Bytes} (h : p <+: s)
    (hreport : (HttpRequestParser.new.execute p).1.finished = true ∨
      (HttpRequestParser.new.execute p).1.hasError = true) :
    HttpRequestParser.new.execute s = HttpRequestParser.new.execute p := by
  obtain ⟨t, rfl⟩ := h
  have hne : HttpRequestParser.parseMessage p ≠ .ok none := by
    intro hp
    rw [HttpRequestParser.execute_new, hp] at hreport
    simp [HttpRequestParser.new, HttpRequestParser.hasError] at hreport
  rw [HttpRequestParser.execute_new, HttpRequestParser.execute_new, HttpRequestParser.parseMessage_append hne]

/-- **Requests do not depend on how the stream is split.**  What the parser
reports on a prefix it reports on the whole, and the results of repeated calls
of `recvRequest` are those of the whole stream, whatever reads it arrives in. -/
theorem recvRequests_split_independent :
    (∀ p s : Bytes, p <+: s →
      let onPrefix := HttpRequestParser.new.execute p
      let onWhole := HttpRequestParser.new.execute s
      (onPrefix.1.finished = true →
        onWhole.1.finished = true ∧ onWhole.2 = onPrefix.2 ∧ onWhole.1.data = onPrefix.1.data) ∧
      (onPrefix.1.hasError = true →
        onWhole.1.hasError = true ∧ onWhole.1.error = onPrefix.1.error)) ∧
    (∀ reads : List Bytes, (∀ read ∈ reads, read ≠ []) → ∀ n,
      recvRequests n .new reads = streamRequests n reads.flatten) ∧
    (∀ reads reads' : List Bytes, (∀ read ∈ reads, read ≠ []) → (∀ read ∈ reads', read ≠ []) →
      reads.flatten = reads'.flatten → ∀ n,
        recvRequests n .new reads = recvRequests n .new reads') := by
  refine ⟨?_, ?_, ?_⟩
  · intro p s hp
    refine ⟨fun hfinished => ?_, fun herror => ?_⟩
    · rw [execute_of_part hp (.inl hfinished)]
      exact ⟨hfinished, rfl, rfl⟩
    · rw [execute_of_part hp (.inr herror)]
      exact ⟨herror, rfl⟩
  · intro reads hreads n
    exact recvRequests_eq n rfl hreads
  · intro reads reads' hreads hreads' hsame n
    rw [recvRequests_eq n rfl hreads, recvRequests_eq n rfl hreads', hsame]

/-- Two pipelined requests and a third that is malformed, in two divisions, the
first of them cut inside a line terminator. -/
theorem recvRequests_split_independent_pipeline :
    let first := ascii "POST /a?b=1 HTTP/1.1\r\nContent-Length: 2\r\n\r\nhi"
    let second := ascii "GET /c HTTP/1.0\r\n\r\n"
    let third := ascii "GET\r\n\r\n"
    (HttpRequestParser.new.execute (first ++ second)).2 = first.length ∧
    recvRequests 4 .new [first.take 21, first.drop 21 ++ second.take 3, second.drop 3 ++ third] =
      recvRequests 4 .new [first ++ second ++ third] ∧
    (recvRequests 4 .new [first ++ second ++ third]).length = 3 := by
  refine ⟨?_, ?_, by decide +kernel⟩
  · have hfinished : (HttpRequestParser.new.execute
        (ascii "POST /a?b=1 HTTP/1.1\r\nContent-Length: 2\r\n\r\nhi")).1.finished = true := by
      decide +kernel
    rw [((recvRequests_split_independent.1 _ _ (List.prefix_append _ _)).1 hfinished).2.1]
    decide +kernel
  · exact recvRequests_split_independent.2.2 _ _ (by decide +kernel) (by decide +kernel)
      (by decide +kernel) 4

end HttpSession

end Http

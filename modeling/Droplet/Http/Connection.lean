/-
The client side of a connection: `HttpConnection::recvResponse`.

Like `recvRequest`, with interim responses skipped and the end of the stream
completing a response that has no other end.  The socket is the list of its
reads, after which the stream ends.

* `recvResponse_call` — the loop is one call of a restarting receiver;
* `recvResponses_split_independent_iff` — the responses do not depend on how the
  stream is split exactly when no response is refused in part only.
-/
import Droplet.Http.ResponseParts

open Search Restart

namespace Http

/-- `HttpResult::Error`. -/
inductive HttpResultError
  | ok | invalidUrl | invalidHost | connectFail | sendCloseByPeer | sendSocketError | timeout
  | createSocketError | poolGetConnection | poolInvalidConnection | unsupportedScheme
  | receiveCloseByPeer | receiveSocketError | parseError
  deriving DecidableEq, Repr

/-- The connection; `connected` is the state of its socket. -/
structure HttpConnection where
  createdAtMs : ℕ
  requestCount : ℕ
  pendingMethod : HttpMethod
  reusable : Bool
  inputBuffer : Bytes
  lastError : HttpResultError
  lastErrorMessage : Bytes
  connected : Bool
  deriving DecidableEq

def isInterimResponse (response : HttpResponse) : Bool :=
  100 ≤ response.status && response.status < 200 && response.status != 101

namespace HttpConnection

/-- A connection on a connected socket. -/
def new (createdAtMs : ℕ) : HttpConnection := ⟨createdAtMs, 0, .get, true, [], .ok, [], true⟩

def setLastError (c : HttpConnection) (error : HttpResultError) (message : Bytes) :
    HttpConnection :=
  { c with lastError := error, lastErrorMessage := message }

/-- `SocketStream::close`. -/
def close (c : HttpConnection) : HttpConnection := { c with connected := false }

/-- Where the passes over the buffer lead to. -/
inductive Drained
  | returned (response : Option HttpResponse) (connection : HttpConnection)
  | wantRead (connection : HttpConnection)

/-- The first half of the loop body of `recvResponse`, repeated for interim
responses.  A parse that is incomplete changes nothing in the parser but its
close-delimited flag (`executeBuffer_incomplete`), which only a getter reads, so that
every pass starts from a new parser. -/
def drain (c : HttpConnection) : Drained :=
  if _hempty : c.inputBuffer = [] then .wantRead c
  else
    let executed := (HttpResponseParser.new c.pendingMethod).executeBuffer c.inputBuffer false
    let parser := executed.1
    if parser.hasError then
      .returned none (({ c with inputBuffer := executed.2.1 }.setLastError .parseError
        parser.errorMessage).close)
    else if _hfinished : parser.finished then
      let drained := { c with
        inputBuffer := executed.2.1.take (c.inputBuffer.length - executed.2.2) }
      if isInterimResponse parser.data then drain drained
      else .returned (some parser.data) { drained with
        requestCount := c.requestCount + 1
        reusable := !parser.data.close && parser.data.status != 101 }
    else .wantRead { c with inputBuffer := executed.2.1 }
termination_by c.inputBuffer.length
decreasing_by
  have hpos := HttpResponseParser.consumed_pos_of_finished _hfinished
  have hlen := List.length_pos_of_ne_nil _hempty
  simp only [List.length_take]
  omega

/-- `read` returned 0. -/
def endOfStream (c : HttpConnection) : Option HttpResponse × HttpConnection :=
  let closedByPeer := (c.setLastError .receiveCloseByPeer
    (ascii "peer closed before a complete HTTP response was received")).close
  if c.inputBuffer.isEmpty then (none, closedByPeer)
  else
    match (HttpResponseParser.new c.pendingMethod).executeBuffer c.inputBuffer true with
    | (parser, buffer, consumed) =>
      if parser.finished then
        (some parser.data, { c with
          inputBuffer := buffer.take (c.inputBuffer.length - consumed)
          requestCount := c.requestCount + 1
          reusable := false }.close)
      else if parser.hasError then
        (none, ({ c with inputBuffer := buffer }.setLastError .parseError
          parser.errorMessage).close)
      else (none, closedByPeer)

/-- `read` failed; `description` is the text of `errno`. -/
def readFailed (c : HttpConnection) (isTimeout : Bool) (description : Bytes) : HttpConnection :=
  (c.setLastError (if isTimeout then .timeout else .receiveSocketError)
    (ascii "receive HTTP response failed: " ++ description)).close

end HttpConnection

/-- What `recv` returns: the bytes that have arrived, none at the end of the
stream, or an error. -/
inductive SocketRead
  | received (bytes : Bytes)
  | failed (isTimeout : Bool) (description : Bytes)
  deriving DecidableEq

namespace HttpConnection

/-- The loop of `recvResponse`; the reads of the socket that are left come last,
and after them the stream ends. -/
def recvLoop (c : HttpConnection) :
    List SocketRead → Option HttpResponse × HttpConnection × List SocketRead
  | [] =>
    match drain c with
    | .returned response c => (response, c, [])
    | .wantRead c =>
      let (response, c) := c.endOfStream
      (response, c, [])
  | read :: reads =>
    match drain c with
    | .returned response c => (response, c, read :: reads)
    | .wantRead c =>
      match read with
      | .received bytes =>
        if bytes.isEmpty then
          let (response, c) := c.endOfStream
          (response, c, reads)
        else recvLoop { c with inputBuffer := c.inputBuffer ++ bytes } reads
      | .failed isTimeout description => (none, c.readFailed isTimeout description, reads)

/-- `recvResponse` on a connected socket. -/
def recvResponse (c : HttpConnection) (reads : List SocketRead) :
    Option HttpResponse × HttpConnection × List SocketRead :=
  recvLoop (c.setLastError .ok []) reads

/-- What a caller learns from one call. -/
inductive RecvResult
  | response (response : HttpResponse)
  | failed (error : HttpResultError)
  deriving DecidableEq

/-- The results of up to `n` calls, until the connection is closed. -/
def recvResponses : ℕ → HttpConnection → List SocketRead → List RecvResult
  | 0, _, _ => []
  | n + 1, c, reads =>
    match recvResponse c reads with
    | (some response, c, reads) =>
      .response response :: (if c.connected then recvResponses n c reads else [])
    | (none, c, _) => [.failed c.lastError]

/-! ### One call -/

/-- A pass over the buffer, in terms of the parse of the buffer. -/
theorem drain_eq (c : HttpConnection) :
    drain c =
      match HttpResponseParser.parseMessage c.pendingMethod c.inputBuffer false with
      | .error failure => .returned none ((c.setLastError .parseError failure.message).close)
      | .ok none => .wantRead c
      | .ok (some m) =>
        let drained := { c with inputBuffer := c.inputBuffer.drop m.consumed }
        if isInterimResponse m.response then drain drained
        else .returned (some m.response) { drained with
          requestCount := c.requestCount + 1
          reusable := !m.response.close && m.response.status != 101 } := by
  by_cases hempty : c.inputBuffer = []
  · rw [drain, dif_pos hempty, hempty, HttpResponseParser.parseMessage_nil]
  · rw [drain, dif_neg hempty]
    rw [HttpResponseParser.executeBuffer_new]
    rcases hparse : HttpResponseParser.parseMessage c.pendingMethod c.inputBuffer false
      with failure | _ | m
    · have hcode : (failure.error != .none) = true :=
        bne_iff_ne.2 (HttpResponseParser.parseMessage_coded _ _ _ failure hparse)
      simp [HttpResponseParser.setError, HttpResponseParser.hasError, hcode]
    · simp [HttpResponseParser.scanned, HttpResponseParser.new, HttpResponseParser.hasError]
    · simp [HttpResponseParser.scanned, HttpResponseParser.new, HttpResponseParser.hasError,
        take_afterExecute]

/-- The end of the stream, in terms of the parse of the buffer. -/
theorem endOfStream_eq (c : HttpConnection) :
    c.endOfStream =
      match HttpResponseParser.parseMessage c.pendingMethod c.inputBuffer true with
      | .error failure => (none, (c.setLastError .parseError failure.message).close)
      | .ok none => (none, (c.setLastError .receiveCloseByPeer
          (ascii "peer closed before a complete HTTP response was received")).close)
      | .ok (some m) => (some m.response, { c with
          inputBuffer := c.inputBuffer.drop m.consumed
          requestCount := c.requestCount + 1
          reusable := false }.close) := by
  by_cases hempty : c.inputBuffer = []
  · rw [endOfStream, hempty, HttpResponseParser.parseMessage_nil]
    rfl
  · have hisEmpty : c.inputBuffer.isEmpty = false := by simpa using hempty
    rw [endOfStream, hisEmpty, HttpResponseParser.executeBuffer_new]
    rcases hparse : HttpResponseParser.parseMessage c.pendingMethod c.inputBuffer true
      with failure | _ | m
    · have hcode : (failure.error != .none) = true :=
        bne_iff_ne.2 (HttpResponseParser.parseMessage_coded _ _ _ failure hparse)
      simp [HttpResponseParser.setError, HttpResponseParser.hasError, hcode]
    · simp [HttpResponseParser.scanned, HttpResponseParser.new, HttpResponseParser.hasError]
    · simp [take_afterExecute]

/-- The response parser at the end of the stream. -/
def finalReport (method : HttpMethod) (s : Bytes) : Report Unit HttpResponse :=
  HttpResponseParser.reportOf (HttpResponseParser.parseMessage method s true)

/-- The responses that `recvResponse` returns. -/
def keep (response : HttpResponse) : Bool := !isInterimResponse response

/-- One call on a stream of responses to `method`. -/
abbrev RecvCall (method : HttpMethod) :
    Bytes → List Bytes → Received Unit HttpResponse → Bytes → List Bytes → Prop :=
  Call (HttpResponseParser.responseReport method) (finalReport method) keep

/-- The passes over the buffer are the parts of a call that read nothing. -/
theorem drain_call (c : HttpConnection) :
    match drain c with
    | .returned none c' => c'.lastError = .parseError ∧
        ∀ reads, RecvCall c.pendingMethod c.inputBuffer reads (.failed ()) c'.inputBuffer reads
    | .returned (some response) c' =>
        c'.connected = c.connected ∧ c'.pendingMethod = c.pendingMethod ∧
        ∀ reads, RecvCall c.pendingMethod c.inputBuffer reads (.message response)
          c'.inputBuffer reads
    | .wantRead c' =>
        c' = { c with inputBuffer := c'.inputBuffer } ∧
        HttpResponseParser.parseMessage c.pendingMethod c'.inputBuffer false = .ok none ∧
        ∀ reads result b' reads', RecvCall c.pendingMethod c'.inputBuffer reads result b' reads' →
          RecvCall c.pendingMethod c.inputBuffer reads result b' reads' := by
  induction hlen : c.inputBuffer.length using Nat.strongRecOn generalizing c with
  | ind len ih =>
    rw [drain_eq]
    rcases hparse : HttpResponseParser.parseMessage c.pendingMethod c.inputBuffer false
      with failure | _ | m
    · refine ⟨rfl, fun reads => .failed ?_⟩
      rw [HttpResponseParser.responseReport, hparse]
      rfl
    · exact ⟨rfl, hparse, fun _ _ _ _ hcall => hcall⟩
    · have hreport : HttpResponseParser.responseReport c.pendingMethod c.inputBuffer =
          .complete m.consumed m.response := by
        rw [HttpResponseParser.responseReport, hparse]
        rfl
      have hbounds := HttpResponseParser.consumed_bounds hparse
      by_cases hinterim : isInterimResponse m.response = true
      · simp only [hinterim, if_true]
        have hkeep : keep m.response = false := by simp [keep, hinterim]
        have hnext := ih (c.inputBuffer.drop m.consumed).length
          (by rw [List.length_drop]; omega)
          { c with inputBuffer := c.inputBuffer.drop m.consumed } rfl
        rcases hdrain : drain { c with inputBuffer := c.inputBuffer.drop m.consumed }
          with ⟨_ | response, c'⟩ | c'
        · simp only [hdrain] at hnext ⊢
          exact ⟨hnext.1, fun reads => .skip hreport hkeep (hnext.2 reads)⟩
        · simp only [hdrain] at hnext ⊢
          exact ⟨hnext.1, hnext.2.1, fun reads => .skip hreport hkeep (hnext.2.2 reads)⟩
        · simp only [hdrain] at hnext ⊢
          exact ⟨hnext.1, hnext.2.1, fun reads result b' reads' hcall =>
            .skip hreport hkeep (hnext.2.2 reads result b' reads' hcall)⟩
      · simp only [hinterim]
        rw [Bool.not_eq_true] at hinterim
        exact ⟨rfl, rfl, fun reads => .message hreport (by simp [keep, hinterim])⟩

/-- A result as a caller sees it. -/
def RecvResult.ofReceived : Received Unit HttpResponse → RecvResult
  | .message r | .last r => .response r
  | .failed _ => .failed .parseError
  | .ended => .failed .receiveCloseByPeer

/-- What a call that ended in the connection `c` returned. -/
def RecvResult.ofCall (response : Option HttpResponse) (c : HttpConnection) : RecvResult :=
  match response with
  | some response => .response response
  | none => .failed c.lastError

/-- What the end of the stream adds to a call. -/
theorem endOfStream_call (c : HttpConnection)
    (h : HttpResponseParser.parseMessage c.pendingMethod c.inputBuffer false = .ok none) :
    ∃ received, RecvCall c.pendingMethod c.inputBuffer [] received c.endOfStream.2.inputBuffer [] ∧
      RecvResult.ofCall c.endOfStream.1 c.endOfStream.2 = RecvResult.ofReceived received ∧
      c.endOfStream.2.connected = false ∧ ∀ r, received ≠ .message r := by
  have hreport : HttpResponseParser.responseReport c.pendingMethod c.inputBuffer =
      .incomplete := by
    rw [HttpResponseParser.responseReport, h]
    rfl
  rw [endOfStream_eq]
  rcases hparse : HttpResponseParser.parseMessage c.pendingMethod c.inputBuffer true
    with failure | _ | m
  · exact ⟨.failed (), .lastFailed hreport (by rw [finalReport, hparse]; rfl), rfl, rfl, by simp⟩
  · exact ⟨.ended, .ended hreport (by rw [finalReport, hparse]; rfl), rfl, rfl, by simp⟩
  · exact ⟨.last m.response, .last hreport (by rw [finalReport, hparse]; rfl), rfl, rfl, by simp⟩

/-- The loop on an open connection is one call of a restarting receiver; the
connection stays open when it returns a message that is not the last. -/
theorem recvLoop_call {c c' : HttpConnection} {reads : List Bytes} {rest : List SocketRead}
    {response : Option HttpResponse} (hopen : c.connected = true)
    (hreads : ∀ read ∈ reads, read ≠ [])
    (h : recvLoop c (reads.map .received) = (response, c', rest)) :
    ∃ received reads', RecvCall c.pendingMethod c.inputBuffer reads received
        c'.inputBuffer reads' ∧
      rest = reads'.map .received ∧
      RecvResult.ofCall response c' = RecvResult.ofReceived received ∧
      (c'.connected = true → response.isSome = true → ∃ r, received = .message r) ∧
      ((∃ r, received = .message r) → c'.connected = true ∧
        c'.pendingMethod = c.pendingMethod ∧ ∀ read ∈ reads', read ≠ []) := by
  have hdrain := drain_call c
  induction reads generalizing c with
  | nil =>
    rw [List.map_nil, recvLoop] at h
    rcases hd : drain c with ⟨_ | r, c₁⟩ | c₁
    · simp only [hd, Prod.mk.injEq] at hdrain h
      obtain ⟨rfl, rfl, rfl⟩ := h
      exact ⟨.failed (), [], hdrain.2 [], rfl, by rw [RecvResult.ofCall, hdrain.1]; rfl,
        by simp, by simp⟩
    · simp only [hd, Prod.mk.injEq] at hdrain h
      obtain ⟨rfl, rfl, rfl⟩ := h
      exact ⟨.message r, [], hdrain.2.2 [], rfl, rfl, fun _ _ => ⟨r, rfl⟩,
        fun _ => ⟨hdrain.1.trans hopen, hdrain.2.1, by simp⟩⟩
    · simp only [hd, Prod.mk.injEq] at hdrain h
      obtain ⟨hsame, hparse, hcall⟩ := hdrain
      obtain ⟨rfl, rfl, rfl⟩ := h
      have hmethod : c₁.pendingMethod = c.pendingMethod := by rw [hsame]
      rw [← hmethod] at hparse hcall ⊢
      obtain ⟨received, hend, hresult, hclosed, hne⟩ := endOfStream_call c₁ hparse
      refine ⟨received, [], hcall _ _ _ _ hend, rfl, hresult, ?_, ?_⟩
      · intro hconnected
        rw [hclosed] at hconnected
        exact absurd hconnected (by simp)
      · rintro ⟨r, hr⟩
        exact absurd hr (hne r)
  | cons read reads ih =>
    rw [List.map_cons, recvLoop] at h
    rcases hd : drain c with ⟨_ | r, c₁⟩ | c₁
    · simp only [hd, Prod.mk.injEq] at hdrain h
      obtain ⟨rfl, rfl, rfl⟩ := h
      exact ⟨.failed (), read :: reads, hdrain.2 _, rfl, by rw [RecvResult.ofCall, hdrain.1]; rfl,
        by simp, by simp⟩
    · simp only [hd, Prod.mk.injEq] at hdrain h
      obtain ⟨rfl, rfl, rfl⟩ := h
      exact ⟨.message r, read :: reads, hdrain.2.2 _, rfl, rfl, fun _ _ => ⟨r, rfl⟩,
        fun _ => ⟨hdrain.1.trans hopen, hdrain.2.1, hreads⟩⟩
    · -- nothing yet: the call goes on with one more read in the buffer
      simp only [hd] at hdrain h
      obtain ⟨hsame, hparse, hcall⟩ := hdrain
      have hread : read.isEmpty = false := by simpa using hreads read (by simp)
      rw [hread, if_neg (by simp)] at h
      have hmethod : c₁.pendingMethod = c.pendingMethod := by rw [hsame]
      obtain ⟨received, reads', hrec, hrest⟩ := @ih
        { c₁ with inputBuffer := c₁.inputBuffer ++ read } (by rw [hsame]; exact hopen)
        (fun x hx => hreads x (List.mem_cons_of_mem _ hx)) h (drain_call _)
      have hmore : HttpResponseParser.responseReport c.pendingMethod c₁.inputBuffer =
          .incomplete := by
        rw [HttpResponseParser.responseReport, hparse]
        rfl
      rw [hmethod] at hrest
      refine ⟨received, reads', hcall _ _ _ _ (.more hmore ?_), hrest⟩
      rw [← hmethod]
      exact hrec

/-- The results of calls on an open connection, one call at a time. -/
theorem recvResponses_succ {c : HttpConnection} {reads : List Bytes} (hopen : c.connected = true)
    (hreads : ∀ read ∈ reads, read ≠ []) :
    ∃ received b' reads', RecvCall c.pendingMethod c.inputBuffer reads received b' reads' ∧
      ((∀ r, received ≠ .message r) →
        ∀ n, recvResponses (n + 1) c (reads.map .received) = [.ofReceived received]) ∧
      ∀ r, received = .message r → ∃ c', c'.inputBuffer = b' ∧ c'.connected = true ∧
        c'.pendingMethod = c.pendingMethod ∧ (∀ read ∈ reads', read ≠ []) ∧
        ∀ n, recvResponses (n + 1) c (reads.map .received) =
          .response r :: recvResponses n c' (reads'.map .received) := by
  rcases hcall : recvResponse c (reads.map .received) with ⟨response, c', rest⟩
  obtain ⟨received, reads', hrec, rfl, hresult, hlast, hmessage⟩ :=
    @recvLoop_call (c.setLastError .ok []) _ _ _ _ hopen hreads hcall
  refine ⟨received, c'.inputBuffer, reads', hrec, fun hne n => ?_, ?_⟩
  · rw [recvResponses, hcall, ← hresult]
    rcases response with _ | response
    · rfl
    · have hclosed : c'.connected = false := by
        by_contra hconnected
        rw [Bool.not_eq_false] at hconnected
        obtain ⟨r, hr⟩ := hlast hconnected rfl
        exact hne r hr
      simp [hclosed, RecvResult.ofCall]
  · rintro r rfl
    obtain ⟨hconnected, hmethod, hreads'⟩ := hmessage ⟨r, rfl⟩
    refine ⟨c', rfl, hconnected, hmethod, hreads', fun n => ?_⟩
    rw [recvResponses, hcall]
    rcases response with _ | response
    · exact absurd hresult (by simp [RecvResult.ofCall, RecvResult.ofReceived])
    · simp only [RecvResult.ofCall, RecvResult.ofReceived, RecvResult.response.injEq] at hresult
      simp [hconnected, hresult]

/-! ### Where responses start -/

open HttpResponseParser (ResponseFrame WithinLimits responseReport kMaxHeaderSize)

/-- `ResponseStart method s rest`: `s` is a sequence of responses whose lines are
below the limits, followed by `rest`. -/
inductive ResponseStart (method : HttpMethod) : Bytes → Bytes → Prop
  | here {s} : ResponseStart method s s
  | next {s n rest} (h : ResponseFrame method (kMaxHeaderSize - 1) (kMaxHeaderSize - 1) s (some n))
      (tail : ResponseStart method (s.drop n) rest) : ResponseStart method s rest

variable {method : HttpMethod} {s : Bytes}

theorem start_iff {rest : Bytes} :
    Start (settledReport (responseReport method)) s rest ↔ ResponseStart method s rest := by
  constructor
  · intro h
    induction h with
    | here => exact .here
    | @next s n r rest h tail ih =>
      obtain ⟨hagree, hreport⟩ := settledReport_eq_complete_iff.mp h
      obtain ⟨m, hparse, rfl, -⟩ := HttpResponseParser.responseReport_eq_complete_iff.mp hreport
      rcases HttpResponseParser.agrees_iff.mp hagree with hfailed | ⟨stop, hframe⟩
      · rw [hreport] at hfailed
        exact absurd hfailed (by simp)
      · obtain ⟨result, hresult, hstop⟩ := hframe.ok (by decide)
        rw [hparse, Except.ok.injEq] at hresult
        subst hresult hstop
        exact .next hframe ih
  · intro h
    induction h with
    | here => exact .here
    | @next s n rest h tail ih =>
      obtain ⟨result, hresult, hstop⟩ := h.ok (by decide)
      obtain ⟨m, rfl, rfl⟩ := Option.map_eq_some_iff.mp hstop
      refine .next (r := m.response) (settledReport_eq_complete_iff.mpr ⟨?_, ?_⟩) ih
      · exact HttpResponseParser.agrees_iff.mpr (.inr ⟨_, h⟩)
      · exact HttpResponseParser.responseReport_eq_complete_iff.mpr ⟨m, hresult, rfl, rfl⟩

/-- In every division into reads of at most 4096 bytes the parser meets a part
that it refuses, or none. -/
theorem agrees_or_blocked_iff :
    Agrees (responseReport method) s ∨ Blocked (responseReport method) 4096 s ↔
      ((∃ stop, ResponseFrame method (kMaxHeaderSize - 2 + 4096) kMaxHeaderSize s stop) →
        WithinLimits method s) := by
  by_cases hfailed : responseReport method s = .failed ()
  · refine iff_of_true (.inl (HttpResponseParser.agrees_iff.mpr (.inl hfailed))) ?_
    rintro ⟨stop, hframe⟩
    obtain ⟨result, hresult, -⟩ := hframe.ok (Nat.le_refl _)
    obtain ⟨failure, hfailure⟩ := HttpResponseParser.responseReport_eq_failed_iff.mp hfailed
    rw [hresult] at hfailure
    exact absurd hfailure (by simp)
  · rw [HttpResponseParser.agrees_iff, HttpResponseParser.blocked_iff (by decide) hfailed]
    constructor
    · rintro ((h | h) | h) hframe
      · exact absurd h hfailed
      · exact h
      · exact absurd hframe h
    · intro h
      by_cases hframe : ∃ stop,
          ResponseFrame method (kMaxHeaderSize - 2 + 4096) kMaxHeaderSize s stop
      · exact .inl (.inr (h hframe))
      · exact .inr hframe

/-! ### Two divisions of a stream -/

/-- All responses of a stream start the same in every division of it. -/
def AllSettled (method : HttpMethod) (s : Bytes) : Prop :=
  ∀ rest, Start (settledReport (responseReport method)) s rest →
    Settled (responseReport method) (· ≤ 4096) rest (settledReport (responseReport method) rest)

/-- A call returns what the stream starts with. -/
theorem recvCall_receives {b b' : Bytes} {reads reads' : List Bytes}
    {received : Received Unit HttpResponse}
    (h : RecvCall method b reads received b' reads')
    (hsettled : AllSettled method (b ++ reads.flatten)) (hb : b.length ≤ 4096)
    (hreads : ∀ read ∈ reads, read.length ≤ 4096) :
    Receives (settledReport (responseReport method)) (finalReport method) keep
        (b ++ reads.flatten) received (b' ++ reads'.flatten) ∧
      ∀ r, received = .message r → AllSettled method (b' ++ reads'.flatten) ∧
        b'.length ≤ 4096 ∧ ∀ read ∈ reads', read.length ≤ 4096 := by
  have hp := HttpResponseParser.responseReport_restartable method
  refine Call.receives _ (· ≤ 4096) hp.consumed_le (fun m n hmn hn => Nat.le_trans hmn hn) ?_ h
    hsettled hb hreads
  -- a message ends in the last read, so what it leaves is not longer than that
  intro b t n r hmore hcomplete ht
  have hlt : b.length < n := by
    by_contra hle
    rw [hp.of_append b t n r (by omega) hcomplete] at hmore
    exact absurd hmore (by simp)
  rw [List.length_append]
  omega

/-- Where all responses are settled, two divisions give the same results. -/
theorem recvResponses_congr (n : ℕ) {c₁ c₂ : HttpConnection} {reads₁ reads₂ : List Bytes}
    (hopen₁ : c₁.connected = true) (hopen₂ : c₂.connected = true)
    (hmethod₁ : c₁.pendingMethod = method) (hmethod₂ : c₂.pendingMethod = method)
    (hbuffer₁ : c₁.inputBuffer.length ≤ 4096) (hbuffer₂ : c₂.inputBuffer.length ≤ 4096)
    (hreads₁ : ∀ read ∈ reads₁, read ≠ [] ∧ read.length ≤ 4096)
    (hreads₂ : ∀ read ∈ reads₂, read ≠ [] ∧ read.length ≤ 4096)
    (hsame : c₁.inputBuffer ++ reads₁.flatten = c₂.inputBuffer ++ reads₂.flatten)
    (hsettled : AllSettled method (c₁.inputBuffer ++ reads₁.flatten)) :
    recvResponses n c₁ (reads₁.map .received) = recvResponses n c₂ (reads₂.map .received) := by
  induction n generalizing c₁ c₂ reads₁ reads₂ with
  | zero => rfl
  | succ n ih =>
    obtain ⟨received₁, b₁, rest₁, hcall₁, hlast₁, hmessage₁⟩ :=
      recvResponses_succ hopen₁ fun read hread => (hreads₁ read hread).1
    obtain ⟨received₂, b₂, rest₂, hcall₂, hlast₂, hmessage₂⟩ :=
      recvResponses_succ hopen₂ fun read hread => (hreads₂ read hread).1
    rw [hmethod₁] at hcall₁
    rw [hmethod₂] at hcall₂
    obtain ⟨hreceives₁, hnext₁⟩ := recvCall_receives hcall₁ hsettled hbuffer₁
      fun read hread => (hreads₁ read hread).2
    rw [hsame] at hsettled hreceives₁
    obtain ⟨hreceives₂, hnext₂⟩ := recvCall_receives hcall₂ hsettled hbuffer₂
      fun read hread => (hreads₂ read hread).2
    obtain ⟨rfl, hrest⟩ := hreceives₁.unique hreceives₂
    by_cases hmessage : ∃ r, received₁ = .message r
    · obtain ⟨r, rfl⟩ := hmessage
      obtain ⟨c₁', rfl, hopen₁', hmethod₁', hne₁, hresults₁⟩ := hmessage₁ r rfl
      obtain ⟨c₂', rfl, hopen₂', hmethod₂', hne₂, hresults₂⟩ := hmessage₂ r rfl
      obtain ⟨hsettled', hbuffer₁', hlen₁⟩ := hnext₁ r rfl
      obtain ⟨-, hbuffer₂', hlen₂⟩ := hnext₂ r rfl
      rw [hresults₁, hresults₂]
      rw [ih hopen₁' hopen₂' (hmethod₁'.trans hmethod₁) (hmethod₂'.trans hmethod₂) hbuffer₁'
        hbuffer₂' (fun read hread => ⟨hne₁ read hread, hlen₁ read hread⟩)
        (fun read hread => ⟨hne₂ read hread, hlen₂ read hread⟩) hrest hsettled']
    · have hne : ∀ r, received₁ ≠ .message r := fun r hr => hmessage ⟨r, hr⟩
      rw [hlast₁ hne, hlast₂ hne]

/-- What a sequence of calls returns. -/
theorem recvResponses_of_calls {c : HttpConnection} {reads : List Bytes}
    {results : List (Received Unit HttpResponse)}
    (h : Calls (responseReport c.pendingMethod) (finalReport c.pendingMethod) keep c.inputBuffer
      reads results)
    (hopen : c.connected = true) (hreads : ∀ read ∈ reads, read ≠ []) :
    recvResponses results.length c (reads.map .received) =
      results.map RecvResult.ofReceived := by
  generalize hmethod : c.pendingMethod = method at h
  generalize hbuffer : c.inputBuffer = b at h
  induction h generalizing c with
  | @one b reads received b' reads' h =>
    subst hmethod hbuffer
    obtain ⟨received, b', reads', hcall, hlast, hmessage⟩ := recvResponses_succ hopen hreads
    obtain ⟨rfl, rfl, rfl⟩ := h.unique hcall
    by_cases hm : ∃ r, received = .message r
    · obtain ⟨r, rfl⟩ := hm
      obtain ⟨c', -, -, -, -, hresults⟩ := hmessage r rfl
      exact hresults 0
    · exact hlast (fun r hr => hm ⟨r, hr⟩) 0
  | next h tail ih =>
    subst hmethod hbuffer
    obtain ⟨received, b', reads', hcall, hlast, hmessage⟩ := recvResponses_succ hopen hreads
    obtain ⟨rfl, rfl, rfl⟩ := h.unique hcall
    obtain ⟨c', hbuffer', hopen', hmethod', hreads', hresults⟩ := hmessage _ rfl
    rw [List.length_cons, hresults, List.map_cons, ih hopen' hreads' hmethod' hbuffer']
    rfl

/-! ### Independence of the split -/

/-- Every two divisions of `s` give the same results, and the parser does not
refuse a part of a response that it accepts. -/
def SplitIndependent (method : HttpMethod) (s : Bytes) : Prop :=
  (∀ reads reads', Division HttpResponseParser.kDefaultBufferSize s reads →
    Division HttpResponseParser.kDefaultBufferSize s reads' →
    ∀ c : HttpConnection, c.connected = true → c.inputBuffer = [] → c.pendingMethod = method →
      ∀ n, recvResponses n c (reads.map .received) = recvResponses n c (reads'.map .received)) ∧
  (((HttpResponseParser.new method).execute s false).1.finished = true → ∀ p, p <+: s →
    ((HttpResponseParser.new method).execute p false).1.hasError = false)

/-- Responses whose lines are below the limits are followed by one that the
parser accepts only when it has such lines as well, if all of its chunk-size
lines have at most 69630 bytes; and if `s` starts with a complete response, that
one has such lines in any case. -/
def LinesWithinLimits (method : HttpMethod) (s : Bytes) : Prop :=
  (∀ rest, ResponseStart method s rest →
    (∃ stop, ResponseFrame method 69630 kMaxHeaderSize rest stop) → WithinLimits method rest) ∧
  (∀ n, ResponseFrame method s.length kMaxHeaderSize s (some n) → WithinLimits method s)

/-- The parser refuses no part of a complete response exactly when the lines of
the response are below the limits. -/
theorem prefixes_accepted_iff :
    (((HttpResponseParser.new method).execute s false).1.finished = true → ∀ p, p <+: s →
      ((HttpResponseParser.new method).execute p false).1.hasError = false) ↔
    ∀ n, ResponseFrame method s.length kMaxHeaderSize s (some n) → WithinLimits method s := by
  simp only [HttpResponseParser.execute_finished_iff, HttpResponseParser.execute_hasError_iff]
  constructor
  · intro h n hframe
    obtain ⟨result, hresult, hstop⟩ := hframe.ok (Nat.le_refl _)
    obtain ⟨m, rfl, rfl⟩ := Option.map_eq_some_iff.mp hstop
    have hagree : Agrees (responseReport method) s := by
      intro p t hsplit hp
      rcases hreport : responseReport method p with _ | e | ⟨n, r⟩
      · exact absurd hreport hp
      · exact absurd hreport (h ⟨m, hresult⟩ p ⟨t, hsplit.symm⟩)
      · rw [hsplit]
        exact (HttpResponseParser.responseReport_restartable method).append p t n r hreport
    refine (HttpResponseParser.agrees_iff.mp hagree).resolve_left ?_
    rw [HttpResponseParser.responseReport_eq_failed_iff, hresult]
    simp
  · rintro h ⟨m, hresult⟩ p ⟨t, rfl⟩ hp
    have hagree : Agrees (responseReport method) (p ++ t) :=
      HttpResponseParser.agrees_iff.mpr (.inr (h _ (HttpResponseParser.frame_of_ok hresult)))
    have hsame := hagree p t rfl (by rw [hp]; simp)
    rw [hp, HttpResponseParser.responseReport_eq_failed_iff, hresult] at hsame
    simp at hsame

/-- A response that is refused in part only shows in two divisions. -/
theorem exists_differing_results {rest : Bytes} (hstart : ResponseStart method s rest)
    (h : ¬ (Agrees (responseReport method) rest ∨ Blocked (responseReport method) 4096 rest))
    {c : HttpConnection} (hopen : c.connected = true) (hbuffer : c.inputBuffer = [])
    (hmethod : c.pendingMethod = method) :
    ∃ reads reads' n, Division 4096 s reads ∧ Division 4096 s reads' ∧
      recvResponses n c (reads.map .received) ≠ recvResponses n c (reads'.map .received) := by
  rw [not_or] at h
  -- the end of the stream never makes a parse fail
  have hfinal : ∀ t, responseReport method t = .incomplete → finalReport method t ≠ .failed () := by
    intro t ht
    rw [finalReport]
    rcases HttpResponseParser.parseMessage_eof method t with heof | ⟨-, m, hm, -⟩
    · rw [heof]
      rw [responseReport] at ht
      rw [ht]
      simp
    · rw [hm]
      simp [HttpResponseParser.reportOf]
  -- an interim response has no body that could be refused in part
  have hkeep : ∀ n r, responseReport method rest = .complete n r → keep r = true := by
    intro n r hreport
    obtain ⟨m, hparse, -, rfl⟩ := HttpResponseParser.responseReport_eq_complete_iff.mp hreport
    obtain ⟨headerSize, hs, hhead⟩ := HttpResponseParser.exists_head_of_ok hparse
    by_contra hinterim
    refine h.1 (HttpResponseParser.agrees_iff.mpr (.inr ⟨_, .noBody hhead ?_⟩))
    rw [← HttpResponseParser.status_of_head hhead hparse]
    simp only [keep, isInterimResponse, Bool.not_eq_true', Bool.not_eq_false, Bool.and_eq_true,
      decide_eq_true_eq] at hinterim
    simp [HttpResponseParser.responseHasNoBody, hinterim.1.1, hinterim.1.2]
  obtain ⟨reads, reads', results, result, hdiv, hdiv', hcalls, hcalls', hne⟩ :=
    exists_differing_divisions (HttpResponseParser.responseReport_restartable method) hfinal
      (by decide) (start_iff.mpr hstart) hkeep h.1 h.2
  refine ⟨reads, reads', results.length + 1, hdiv, hdiv', ?_⟩
  rw [← hmethod, ← hbuffer] at hcalls hcalls'
  have hresults := recvResponses_of_calls hcalls hopen fun read hread => (hdiv.1 read hread).1
  have hresults' := recvResponses_of_calls hcalls' hopen fun read hread => (hdiv'.1 read hread).1
  simp only [List.length_append, List.length_cons, List.length_nil, Nat.zero_add,
    List.map_append, List.map_cons, List.map_nil] at hresults hresults'
  rw [hresults, hresults']
  intro hsame
  have hlast := List.append_cancel_left hsame
  rw [List.cons.injEq] at hlast
  rcases result with r | r | e | _
  · exact absurd hlast.1 (by simp [RecvResult.ofReceived])
  · exact absurd hlast.1 (by simp [RecvResult.ofReceived])
  · exact hne rfl
  · exact absurd hlast.1 (by simp [RecvResult.ofReceived])

/-- **Responses do not depend on how the stream is split, unless a line of a
chunked body reaches a limit.** -/
theorem recvResponses_split_independent_iff (method : HttpMethod) (s : Bytes) :
    SplitIndependent method s ↔ LinesWithinLimits method s := by
  rw [SplitIndependent, prefixes_accepted_iff, LinesWithinLimits]
  refine and_congr_left fun _ => ⟨fun h rest hstart => ?_, fun h => ?_⟩
  · by_contra hnot
    obtain ⟨reads, reads', n, hdiv, hdiv', hne⟩ := exists_differing_results hstart
      (fun hor => hnot (agrees_or_blocked_iff.mp hor)) (c := { new 0 with pendingMethod := method })
      rfl rfl rfl
    exact hne (h reads reads' hdiv hdiv' _ rfl rfl rfl n)
  · intro reads reads' hdiv hdiv' c hopen hbuffer hmethod n
    refine recvResponses_congr n hopen hopen hmethod hmethod (by simp [hbuffer])
      (by simp [hbuffer]) hdiv.1 hdiv'.1 (by rw [hdiv.2, hdiv'.2]) ?_
    rw [hbuffer, List.nil_append, hdiv.2]
    intro rest hstart
    exact settled_settledReport (HttpResponseParser.responseReport_restartable method) (by decide)
      (agrees_or_blocked_iff.mpr (h rest (start_iff.mp hstart)))

/-- The header section of a chunked response. -/
def chunkedHead : Bytes := ascii "HTTP/1.1 200 OK\r\nTransfer-Encoding: chunked\r\n\r\n"

/-- A complete response whose only chunk-size line has an extension of `n` bytes. -/
def extensionResponse (n : ℕ) : Bytes :=
  chunkedHead ++ ((48 :: 59 :: List.replicate n 97) ++ (crlf ++ crlf))

/-- The parser accepts a chunk-size line of any length, but not all of its parts. -/
theorem extensionResponse_frame {n : ℕ} (hn : kMaxHeaderSize ≤ n + 2) :
    (∃ stop, ResponseFrame .get (extensionResponse n).length kMaxHeaderSize
      (extensionResponse n) (some stop)) ∧ ¬ WithinLimits .get (extensionResponse n) := by
  obtain ⟨headerSize, hs, hpart, hbody, hseen, hfinal, rfl⟩ : ∃ headerSize hs,
      HttpResponseParser.parseHead chunkedHead = .ok (some (headerSize, hs)) ∧
      HttpResponseParser.responseHasNoBody .get hs.response.status = false ∧
      hs.transferEncodingSeen = true ∧
      headerContainsFinalChunked hs.transferEncoding = true ∧
      headerSize = chunkedHead.length := by
    have hparse : ((HttpResponseParser.parseHead chunkedHead).toOption.join.any fun head =>
        !HttpResponseParser.responseHasNoBody .get head.2.response.status &&
          head.2.transferEncodingSeen && headerContainsFinalChunked head.2.transferEncoding &&
          head.1 == chunkedHead.length) = true := by decide +kernel
    rcases hhead : HttpResponseParser.parseHead chunkedHead with failure | _ | ⟨headerSize, hs⟩
    · simp [hhead, Except.toOption] at hparse
    · simp [hhead, Except.toOption] at hparse
    · simp only [hhead, Except.toOption, Option.join_some, Option.any_some, Bool.and_eq_true,
        Bool.not_eq_true', beq_iff_eq] at hparse
      exact ⟨headerSize, hs, rfl, hparse.1.1.1, hparse.1.1.2, hparse.1.2, hparse.2⟩
  have hhead : HttpResponseParser.parseHead (extensionResponse n) =
      .ok (some (chunkedHead.length, hs)) := by
    rw [extensionResponse, HttpResponseParser.parseHead_append _ (by rw [hpart]; simp), hpart]
  -- the chunk-size line and the empty line after it
  have hextension : (13 : UInt8) ∉ 48 :: 59 :: List.replicate n (97 : UInt8) := by
    simp [List.mem_replicate]
  have hfound : find crlf (extensionResponse n) chunkedHead.length =
      some (chunkedHead.length + (n + 2)) := by
    have := Lines.find_line (c := 13) (d := 10) (by decide) (Lines.IsLine.of_notMem hextension)
      chunkedHead crlf
    simpa [extensionResponse] using this
  have hline : HttpResponseParser.ChunkLine (extensionResponse n) chunkedHead.length
      (chunkedHead.length + (n + 2)) 0 := by
    refine ⟨hfound, ?_⟩
    have htext : substr (extensionResponse n) chunkedHead.length
        (chunkedHead.length + (n + 2) - chunkedHead.length) =
        48 :: 59 :: List.replicate n 97 := by
      rw [Nat.add_sub_cancel_left]
      have hlength : n + 2 = (48 :: 59 :: List.replicate n (97 : UInt8)).length := by simp
      rw [extensionResponse, hlength, substr_mid]
    have hsize : beforeSemicolon (48 :: 59 :: List.replicate n 97) = [48] := by
      simp [beforeSemicolon]
    rw [htext, parseChunkSize, hsize]
    decide
  have hempty : find crlf (extensionResponse n) (chunkedHead.length + (n + 2) + 2) =
      some (chunkedHead.length + (n + 2) + 2) := by
    have := Lines.find_line (c := 13) (d := 10) (by decide) (Lines.IsLine.of_notMem (l := [])
      (by simp)) (chunkedHead ++ ((48 :: 59 :: List.replicate n (97 : UInt8)) ++ crlf)) []
    simpa [extensionResponse, Nat.add_assoc] using this
  constructor
  · refine ⟨_, .chunked hhead hbody hseen hfinal (.last hline ?_ (.last hempty ?_))⟩
    · have := (HttpResponseParser.line_bounds hfound).2
      omega
    · omega
  · rintro ⟨stop, hframe⟩
    have hle := (hframe.chunks hhead hbody hseen).line_le hfound
    omega

/-- A response of one empty chunk whose size line has 65536 bytes is accepted as a
whole and refused in part. -/
theorem not_splitIndependent_extension : ¬ SplitIndependent .get (extensionResponse 65534) := by
  rintro ⟨-, hfront⟩
  obtain ⟨⟨n, hframe⟩, hlimits⟩ := extensionResponse_frame (n := 65534) (by decide)
  exact hlimits (prefixes_accepted_iff.mp hfront n hframe)

end HttpConnection

end Http

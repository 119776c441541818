/-
The rounds of the server on a connection.

`HttpServer::handleClient` receives a request, has it answered, sends the response, and goes on
until the request, the response or the server ends the connection, a write falls short or no
further request comes.

* `handleClientLoop` — the loop, on the reads and the writes of a socket;
* `requestsOf`, `conversation` — the requests of a byte stream, and what is answered to them;
* `handleClientLoop_sent` — the bytes that are sent are those answers, one for each request, in
  order, up to the first that ends the connection.
-/
import Droplet.Http.Session
import Droplet.Http.WholeMessage
import Droplet.Stream.VectorLimit

open Restart
open Stream (SocketStream Kernel transferMax narrow)
open Stream.SocketStream (Sent Going Generous IntLength)

namespace Http

namespace HttpServer

/-- What a round of the loop finds.  Between rounds other threads may set the dispatcher, the
name and whether connections are kept; the servlets may do anything. -/
structure Round where
  dispatch : Option (HttpRequest → HttpResponse → Handled)
  name : Bytes
  keepAlive : Bool

namespace Round

/-- The response that the servlets leave behind. -/
def left (round : Round) (request : HttpRequest) : HttpResponse :=
  handled round.dispatch request (startResponse round.name round.keepAlive request)

/-- The response that is sent. -/
def response (round : Round) (request : HttpRequest) : HttpResponse :=
  handleClient round.dispatch round.name round.keepAlive request

def closes (round : Round) (request : HttpRequest) : Bool :=
  closeAfterResponse round.keepAlive request (round.left request)

end Round

/-- The session with a client: what is buffered, the reads to come and the socket. -/
structure Client where
  session : HttpSession
  reads : List Bytes
  stream : SocketStream UInt8

namespace Client

/-- A client that has just been accepted. -/
def new (reads : List Bytes) (stream : SocketStream UInt8) : Client := ⟨.new, reads, stream⟩

/-- `SocketStream::close`. -/
def close (c : Client) : Client :=
  { c with session := c.session.close, stream := { c.stream with connected := false } }

/-- The bytes that no parser has consumed. -/
def unparsed (c : Client) : Bytes := c.session.inputBuffer ++ c.reads.flatten

end Client

end HttpServer

/-! ### The loop -/

/-- A call that returns a request has consumed some of the stream. -/
theorem HttpSession.unparsed_lt {s s' : HttpSession} {reads reads' : List Bytes}
    {request : HttpRequest} (h : s.recvRequest reads = (some request, s', reads')) :
    (s'.inputBuffer ++ reads'.flatten).length < (s.inputBuffer ++ reads.flatten).length := by
  rw [recvRequest] at h
  generalize hstart : { s with lastParseError := .none, lastParseErrorMessage := [] } = start at h
  have hbuffer : start.inputBuffer = s.inputBuffer := by rw [← hstart]
  rw [← hbuffer]
  clear hbuffer hstart
  induction reads generalizing start with
  | nil =>
    rw [recvLoop, parseBuffered_new] at h
    rcases hparse : HttpRequestParser.parseMessage start.inputBuffer with failure | _ | m
    · simp [hparse] at h
    · simp [hparse] at h
    · simp only [hparse, Prod.mk.injEq] at h
      obtain ⟨-, rfl, rfl⟩ := h
      have hconsumed := HttpRequestParser.consumed_le hparse
      simp only [List.flatten_nil, List.append_nil, List.length_drop]
      omega
  | cons read reads ih =>
    rw [recvLoop, parseBuffered_new] at h
    rcases hparse : HttpRequestParser.parseMessage start.inputBuffer with failure | _ | m
    · simp [hparse] at h
    · -- nothing yet: the read goes into the buffer
      simp only [hparse] at h
      split_ifs at h
      · simp at h
      · simp at h
      · have hnext := ih _ h
        simpa [List.append_assoc] using hnext
    · simp only [hparse, Prod.mk.injEq] at h
      obtain ⟨-, rfl, rfl⟩ := h
      have hconsumed := HttpRequestParser.consumed_le hparse
      simp only [List.length_append, List.length_drop]
      omega

namespace HttpServer

/-- A round: whether the loop goes on, and the client after it. -/
def clientRound (kernel : Kernel) (round : Round) (c : Client) : Bool × Client :=
  match c.session.recvRequest c.reads with
  | (none, session, reads) => (false, { c with session, reads })
  | (some request, session, reads) =>
    let sent := sendAndContinue kernel round.keepAlive request (round.left request) c.stream
    (sent.1, ⟨session, reads, sent.2⟩)

/-- Only a round that has received a request goes on. -/
theorem clientRound_goesOn {kernel : Kernel} {round : Round} {c : Client}
    (h : (clientRound kernel round c).1 = true) : ∃ request session reads,
      c.session.recvRequest c.reads = (some request, session, reads) := by
  rw [clientRound] at h
  rcases hreceived : c.session.recvRequest c.reads with ⟨_ | request, session, reads⟩
  · simp [hreceived] at h
  · exact ⟨request, session, reads, rfl⟩

theorem clientRound_of_received (kernel : Kernel) (round : Round) {c : Client}
    {request : HttpRequest} {session : HttpSession} {reads : List Bytes}
    (h : c.session.recvRequest c.reads = (some request, session, reads)) :
    clientRound kernel round c =
      ((sendAndContinue kernel round.keepAlive request (round.left request) c.stream).1,
        ⟨session, reads,
          (sendAndContinue kernel round.keepAlive request (round.left request) c.stream).2⟩) := by
  rw [clientRound, h]

theorem unparsed_clientRound {kernel : Kernel} {round : Round} {c : Client}
    (h : (clientRound kernel round c).1 = true) :
    (clientRound kernel round c).2.unparsed.length < c.unparsed.length := by
  obtain ⟨request, session, reads, hreceived⟩ := clientRound_goesOn h
  rw [clientRound_of_received _ _ hreceived]
  exact HttpSession.unparsed_lt hreceived

/-- The loop of `handleClient`, from a round on. -/
def handleClientLoop (kernel : Kernel) (rounds : ℕ → Round) (k : ℕ) (c : Client) : Client :=
  if c.session.connected then
    if _hgoesOn : (clientRound kernel (rounds k) c).1 = true then
      handleClientLoop kernel rounds (k + 1) (clientRound kernel (rounds k) c).2
    else (clientRound kernel (rounds k) c).2.close
  else c.close
termination_by c.unparsed.length
decreasing_by exact unparsed_clientRound _hgoesOn

end HttpServer

/-! ### What is answered -/

/-- The requests of a stream, up to the first part that is not one. -/
def HttpSession.requestsOf (stream : Bytes) : List HttpRequest :=
  match _hparse : HttpRequestParser.parseMessage stream with
  | .ok (some m) => m.request :: HttpSession.requestsOf (stream.drop m.consumed)
  | _ => []
termination_by stream.length
decreasing_by
  have hconsumed := HttpRequestParser.consumed_le _hparse
  rw [List.length_drop]
  omega

namespace HttpServer

/-- The responses to requests, from a round on, up to the first that ends the connection. -/
def conversation (rounds : ℕ → Round) : ℕ → List HttpRequest → List HttpResponse
  | _, [] => []
  | k, request :: requests =>
    (rounds k).response request ::
      if (rounds k).closes request then [] else conversation rounds (k + 1) requests

/-- The bytes of responses. -/
def transcript (responses : List HttpResponse) : Bytes := responses.flatMap HttpResponse.dump

end HttpServer

/-! ### One round -/

/-- With a generous kernel everything goes through. -/
theorem writeFixSize_generous {kernel : Kernel} {stream : SocketStream UInt8} {data : Bytes}
    (hkernel : kernel.Valid) (hgenerous : Generous kernel) (hconnected : stream.connected = true)
    (hlength : data.length < 2 ^ 63) :
    ∃ stream', SocketStream.writeFixSize kernel data stream = .ok (narrow data.length) stream' ∧
      Sent stream data data.length stream' := by
  have hstep : ∀ n < data.length, ∀ s, Sent stream data n s ∧ Going stream s →
      ∃ r s', SocketStream.writeFrom kernel data n (data.length - n) s = .ok r s' ∧ 0 < r ∧
        n + r.toNat ≤ data.length ∧ Sent stream data (n + r.toNat) s' ∧ Going stream s' := by
    intro n hlt s ⟨hsent, hgoing⟩
    obtain ⟨r, s', hrun, hr, hend⟩ := SocketStream.writeFrom_step hkernel hlt hsent hgoing
    have hanswer := hgenerous s.results.length (data.length - n) (Nat.sub_pos_of_lt hlt)
    rw [SocketStream.answer, if_neg (by rw [hsent.connected, hconnected]; decide),
      if_neg (by omega), SocketStream.narrow_of_valid hkernel] at hr
    exact ⟨r, s', hrun, hend.resolve_left fun hstop => by omega⟩
  obtain ⟨stream', hrun, hsent, -⟩ :=
    Stream.fixSizeLoop_all _ hstep ⟨SocketStream.sent_zero stream data, Going.refl stream⟩
  exact ⟨stream', hrun, hsent⟩

/-- What a call finds in the stream: a request, or no more of them. -/
theorem HttpSession.recvRequest_cases {s : HttpSession} {reads : List Bytes}
    (hopen : s.connected = true) (hreads : ∀ read ∈ reads, read ≠ []) :
    (∃ m s' reads', HttpRequestParser.parseMessage (s.inputBuffer ++ reads.flatten) = .ok (some m) ∧
      s.recvRequest reads = (some m.request, s', reads') ∧ s'.connected = true ∧
      (∀ read ∈ reads', read ≠ []) ∧
      s'.inputBuffer ++ reads'.flatten = (s.inputBuffer ++ reads.flatten).drop m.consumed) ∨
    (∀ m, HttpRequestParser.parseMessage (s.inputBuffer ++ reads.flatten) ≠ .ok (some m)) ∧
      ∃ s' reads', s.recvRequest reads = (none, s', reads') := by
  rcases hcall : s.recvRequest reads with ⟨request, s', reads'⟩
  obtain ⟨received, hreceives, hresult, hnext⟩ := recvRequest_receives hopen hreads hcall
  have hnone : (∀ r, received ≠ .message r) → (∀ r, received ≠ .last r) → request = none := by
    intro hmessage hlast
    rcases request with _ | request
    · rfl
    · rcases received with r | r | failure | _
      · exact absurd rfl (hmessage r)
      · exact absurd rfl (hlast r)
      · exact absurd hresult (by simp [RecvResult.ofCall, RecvResult.ofReceived])
      · exact absurd hresult (by simp [RecvResult.ofCall, RecvResult.ofReceived])
  rcases hparse : HttpRequestParser.parseMessage (s.inputBuffer ++ reads.flatten)
    with failure | _ | m
  · obtain ⟨rfl, -⟩ := hreceives.unique (.failed (by rw [requestReport, hparse]))
    exact .inr ⟨by simp, s', reads', by rw [hnone (by simp) (by simp)]⟩
  · obtain ⟨rfl, -⟩ := hreceives.unique (.ended (by rw [requestReport, hparse]) rfl)
    exact .inr ⟨by simp, s', reads', by rw [hnone (by simp) (by simp)]⟩
  · obtain ⟨rfl, hrest⟩ := hreceives.unique (.message (by rw [requestReport, hparse]) rfl)
    obtain ⟨hopen', hreads'⟩ := hnext _ rfl
    rcases request with _ | request
    · exact absurd hresult (by simp [RecvResult.ofCall, RecvResult.ofReceived])
    · simp only [RecvResult.ofCall, RecvResult.ofReceived, RecvResult.request.injEq] at hresult
      exact .inl ⟨m, s', reads', rfl, by rw [hresult], hopen', hreads', hrest⟩

theorem HttpSession.requestsOf_some {stream : Bytes} {m : HttpRequestParser.Parsed}
    (h : HttpRequestParser.parseMessage stream = .ok (some m)) :
    requestsOf stream = m.request :: requestsOf (stream.drop m.consumed) := by
  rw [requestsOf]
  split
  · next m' hparse =>
    rw [h, Except.ok.injEq, Option.some_inj] at hparse
    rw [hparse]
  · next hparse => exact absurd h (hparse m)

theorem HttpSession.requestsOf_nil {stream : Bytes}
    (h : ∀ m, HttpRequestParser.parseMessage stream ≠ .ok (some m)) : requestsOf stream = [] := by
  rw [requestsOf]
  split
  · next m hparse => exact absurd hparse (h m)
  · rfl

namespace HttpServer

variable {kernel : Kernel} {rounds : ℕ → Round} {k : ℕ} {round : Round} {request : HttpRequest}
  {requests : List HttpRequest} {c : Client} {stream : SocketStream UInt8}

/-- The end of a round: so much of the response has been sent, all of it if the loop goes on. -/
theorem sendAndContinue_sent (hkernel : kernel.Valid) (round : Round) (request : HttpRequest)
    (stream : SocketStream UInt8) :
    ∃ n ≤ (round.response request).dump.length,
      Sent stream (round.response request).dump n
        (sendAndContinue kernel round.keepAlive request (round.left request) stream).2 ∧
      ((sendAndContinue kernel round.keepAlive request (round.left request) stream).1 = true →
        n = (round.response request).dump.length ∧ round.closes request = false) ∧
      (Generous kernel → stream.connected = true →
        (round.response request).dump.length < 2 ^ 31 →
        n = (round.response request).dump.length ∧
          ((sendAndContinue kernel round.keepAlive request (round.left request) stream).1 = false →
            round.closes request = true)) := by
  obtain ⟨r, stream', hrun, hend⟩ := SocketStream.writeFixSize_spec hkernel stream
    (round.response request).dump
  have hsend : sendAndContinue kernel round.keepAlive request (round.left request) stream =
      (!(decide (r ≤ 0) || round.closes request), stream') := sendAndContinue_eq hrun
  rw [hsend, continues_iff]
  obtain ⟨⟨hsent, -⟩, hr⟩ | ⟨n, hlt, hstop, hsent, -⟩ := hend
  · refine ⟨_, Nat.le_refl _, hsent, fun h => ⟨rfl, h.2⟩, fun _ _ hshort => ⟨rfl, fun hends => ?_⟩⟩
    -- a short length is positive as an `int`
    have hpositive : 0 < r := by
      rw [hr, SocketStream.narrow_pos_iff]
      have hpos := HttpResponse.length_dump_pos (round.response request)
      omega
    rw [Bool.not_eq_false', Bool.or_eq_true, decide_eq_true_iff] at hends
    exact hends.resolve_left (Int.not_le.mpr hpositive)
  · refine ⟨n, Nat.le_of_lt hlt, hsent, fun h => absurd h.1 (Int.not_lt.mpr hstop),
      fun hgenerous hconnected hshort => ?_⟩
    -- nothing stops the writes
    obtain ⟨stream'', hall, -⟩ := writeFixSize_generous hkernel hgenerous hconnected
      (show (round.response request).dump.length < 2 ^ 63 by omega)
    rw [hrun, EStateM.Result.ok.injEq] at hall
    have hpos := HttpResponse.length_dump_pos (round.response request)
    have hpositive : 0 < r := by
      rw [hall.1, SocketStream.narrow_pos_iff]
      omega
    exact absurd hstop (Int.not_le.mpr hpositive)

/-! ### All rounds -/

theorem transcript_conversation_cons :
    transcript (conversation rounds k (request :: requests)) =
      ((rounds k).response request).dump ++
        if (rounds k).closes request then []
        else transcript (conversation rounds (k + 1) requests) := by
  rw [conversation, transcript, List.flatMap_cons]
  split_ifs <;> rfl

/-- The rest of the rounds, from any of them on. -/
theorem handleClientLoop_spec (hkernel : kernel.Valid) (rounds : ℕ → Round) (k : ℕ) {c : Client}
    (hopen : c.session.connected = true) (hreads : ∀ read ∈ c.reads, read ≠ []) :
    (handleClientLoop kernel rounds k c).session.connected = false ∧
    (handleClientLoop kernel rounds k c).stream.connected = false ∧
    ∃ n ≤ (transcript (conversation rounds k (HttpSession.requestsOf c.unparsed))).length,
      (handleClientLoop kernel rounds k c).stream.sent = c.stream.sent ++
        (transcript (conversation rounds k (HttpSession.requestsOf c.unparsed))).take n ∧
      (Generous kernel → c.stream.connected = true →
        (∀ response ∈ conversation rounds k (HttpSession.requestsOf c.unparsed),
          response.dump.length < 2 ^ 31) →
        n = (transcript (conversation rounds k (HttpSession.requestsOf c.unparsed))).length) := by
  -- on the bytes that are left
  induction hleft : c.unparsed.length using Nat.strongRecOn generalizing k c with
  | ind left ih =>
    subst hleft
    rw [handleClientLoop, if_pos hopen]
    obtain ⟨m, session, reads, hparse, hreceived, hopen', hreads', hrest⟩ |
      ⟨hnone, session, reads, hreceived⟩ := HttpSession.recvRequest_cases hopen hreads
    · have hround := clientRound_of_received kernel (rounds k) hreceived
      have hunparsed : HttpSession.requestsOf c.unparsed =
          m.request :: HttpSession.requestsOf (session.inputBuffer ++ reads.flatten) := by
        rw [hrest]
        exact HttpSession.requestsOf_some hparse
      obtain ⟨n, hle, hsent, hall, hgenerous⟩ :=
        sendAndContinue_sent hkernel (rounds k) m.request c.stream
      rw [hunparsed, transcript_conversation_cons, hround]
      rcases hsend : sendAndContinue kernel (rounds k).keepAlive m.request
        ((rounds k).left m.request) c.stream with ⟨goesOn, stream⟩
      rw [hsend] at hsent hall hgenerous
      by_cases hgoesOn : goesOn = true
      · -- the response is sent, and the rest of the rounds follows
        rw [dif_pos hgoesOn]
        obtain ⟨rfl, hcloses⟩ := hall hgoesOn
        have hlt : (session.inputBuffer ++ reads.flatten).length < c.unparsed.length :=
          HttpSession.unparsed_lt hreceived
        obtain ⟨hsession, hstream, n', hle', hsent', hgenerous'⟩ :=
          @ih _ hlt (k + 1) ⟨session, reads, stream⟩ hopen' hreads' rfl
        rw [hcloses, if_neg Bool.false_ne_true]
        refine ⟨hsession, hstream, ((rounds k).response m.request).dump.length + n', ?_, ?_, ?_⟩
        · rw [List.length_append]
          exact Nat.add_le_add_left hle' _
        · rw [hsent', hsent.sent, List.take_length, List.take_length_add_append,
            List.append_assoc]
          rfl
        · intro hkernel' hconnected hshort
          rw [List.length_append]
          refine congrArg _ (hgenerous' hkernel' (hsent.connected.trans hconnected) ?_)
          intro response hresponse
          refine hshort response ?_
          rw [conversation, hcloses, if_neg Bool.false_ne_true]
          exact List.mem_cons_of_mem _ hresponse
      · -- the last round
        rw [dif_neg hgoesOn]
        refine ⟨rfl, rfl, n, ?_, ?_, ?_⟩
        · rw [List.length_append]
          omega
        · split_ifs
          · rw [List.append_nil]
            exact hsent.sent
          · rw [List.take_append_of_le_length hle]
            exact hsent.sent
        · intro hkernel' hconnected hshort
          obtain ⟨rfl, hends⟩ := hgenerous hkernel' hconnected
            (hshort _ (by rw [conversation]; exact List.mem_cons_self))
          rw [hends (Bool.eq_false_of_not_eq_true hgoesOn), if_pos rfl, List.append_nil]
    · have hround : clientRound kernel (rounds k) c = (false, { c with session, reads }) := by
        rw [clientRound, hreceived]
      have hempty : HttpSession.requestsOf c.unparsed = [] := HttpSession.requestsOf_nil hnone
      rw [hround, dif_neg Bool.false_ne_true, hempty]
      exact ⟨rfl, rfl, 0, Nat.zero_le _, (List.append_nil _).symm, fun _ _ _ => rfl⟩

/-- **One answer for each request.**  Whatever reads the bytes of a client arrive in, and
whatever the servlets and the system calls do: the loop ends and closes the socket, and what it
has sent is a part of the answers to the requests of these bytes, in order, up to the first that
ends the connection; all of it where every write moves some bytes and no response has two to the
power of 31 bytes or more. -/
theorem handleClientLoop_sent (kernel : Kernel) (hkernel : kernel.Valid) (rounds : ℕ → Round)
    (reads : List Bytes) (hreads : ∀ read ∈ reads, read ≠ []) (stream : SocketStream UInt8)
    (hconnected : stream.connected = true) :
    let answers := conversation rounds 0 (HttpSession.requestsOf reads.flatten)
    let final := handleClientLoop kernel rounds 0 (.new reads stream)
    final.session.connected = false ∧ final.stream.connected = false ∧
      (∃ bytes, final.stream.sent = stream.sent ++ bytes ∧ bytes <+: transcript answers) ∧
      (Generous kernel → (∀ response ∈ answers, response.dump.length < 2 ^ 31) →
        final.stream.sent = stream.sent ++ transcript answers) := by
  obtain ⟨hsession, hstream, n, hle, hsent, hall⟩ :=
    handleClientLoop_spec (c := .new reads stream) hkernel rounds 0 rfl hreads
  refine ⟨hsession, hstream, ⟨_, hsent, List.take_prefix _ _⟩, fun hgenerous hshort => ?_⟩
  rw [hsent, hall hgenerous hconnected hshort, List.take_length]
  rfl

/-- A request that arrives in two reads. -/
theorem handleClientLoop_sent_request :
    let round : Round := ⟨none, ascii "droplet", true⟩
    let reads := [ascii "GET / HTTP/1.1\r\n", ascii "\r\n"]
    let final := handleClientLoop SocketStream.fullKernel (fun _ => round) 0 (.new reads openStream)
    final.stream.connected = false ∧ ∃ bytes, final.stream.sent = bytes ∧
      bytes <+: transcript
        (conversation (fun _ => round) 0 (HttpSession.requestsOf reads.flatten)) := by
  obtain ⟨-, hclosed, hbytes, -⟩ := handleClientLoop_sent SocketStream.fullKernel
    SocketStream.fullKernel_valid (fun _ => ⟨none, ascii "droplet", true⟩)
    [ascii "GET / HTTP/1.1\r\n", ascii "\r\n"] (by simp [ascii]) openStream rfl
  exact ⟨hclosed, hbytes⟩

end HttpServer

end Http

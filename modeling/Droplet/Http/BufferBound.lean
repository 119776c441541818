/-
How large the receive buffer becomes.

The loops of `HttpSession::recvRequest` and `HttpConnection::recvResponse` step by
step: a pass of the parser over the buffer, and a read of at most
`kDefaultBufferSize` bytes when the parser wants more.  The parsers limit the header
section, the length of a body, a line of a chunked body that is incomplete and the
trailers, but not what complete size lines and the ends of chunks take up.

* `length_of_incomplete` — a request that is incomplete is within the limits of the
  parser;
* `ChunkBytes` — what has arrived of a chunked body, told apart into data and
  framing;
* `buffer_le_iff_framingFits` — the buffer of a session is bounded, and the buffer of
  a connection is for as long as the framing of chunks has the room that the limits
  leave.
-/
import Droplet.Http.ChunkGrammar
import Droplet.Http.Session
import Droplet.Http.Connection
import Droplet.Lib.Transition

open Search Lines Transition

namespace Http

/-- The header sections, the body and one read. -/
def receiveLimit : ℕ :=
  2 * HttpResponseParser.kMaxHeaderSize + HttpResponseParser.kMaxBodySize +
    HttpResponseParser.kDefaultBufferSize

/-- What an incomplete message may fill of the buffer before a read. -/
def waitingLimit : ℕ := 2 * HttpResponseParser.kMaxHeaderSize + HttpResponseParser.kMaxBodySize

/-- Where a call is: before a pass over the buffer, before a read, or done. -/
inductive ReceivePhase
  | parsing | reading | returned
  deriving DecidableEq

/-- A pass over the buffer, or a read with its result. -/
inductive ReceiveAction
  | parse
  | read (result : SocketRead)
  deriving DecidableEq

/-- What `read` puts into a buffer of `kDefaultBufferSize` bytes. -/
def SocketRead.InBuffer : SocketRead → Prop
  | .received bytes => bytes.length ≤ HttpResponseParser.kDefaultBufferSize
  | .failed _ _ => True

instance : DecidablePred SocketRead.InBuffer
  | .received bytes =>
    inferInstanceAs (Decidable (bytes.length ≤ HttpResponseParser.kDefaultBufferSize))
  | .failed _ _ => inferInstanceAs (Decidable True)

/-! ### The server side -/

namespace HttpSession

/-- A call of `recvRequest`. -/
structure Receiving where
  session : HttpSession
  parser : HttpRequestParser
  phase : ReceivePhase
  deriving DecidableEq

/-- What the call does with the result of `read`. -/
def Receiving.afterRead (r : Receiving) : SocketRead → Receiving
  | .received bytes =>
    if bytes.isEmpty then { r with session := r.session.close, phase := .returned }
    else { r with
      session := { r.session with inputBuffer := r.session.inputBuffer ++ bytes }
      phase := .parsing }
  | .failed _ _ => { r with session := r.session.close, phase := .returned }

def Receiving.step (r : Receiving) : ReceiveAction → Option Receiving
  | .parse =>
    if r.phase = .parsing then
      match r.session.parseBuffered r.parser with
      | .failed session => some { r with session, phase := .returned }
      | .finished _ session => some { r with session, phase := .returned }
      | .wantRead session parser => some ⟨session, parser, .reading⟩
    else none
  | .read result =>
    if r.phase = .reading ∧ result.InBuffer then
      if !r.session.connected then
        some { r with session := r.session.close, phase := .returned }
      else some (r.afterRead result)
    else none

/-- The calls of `recvRequest` on a buffer within the limit. -/
def receiving : System Receiving ReceiveAction where
  init r := r.phase = .parsing ∧ r.parser = .new ∧ r.session.inputBuffer.length ≤ receiveLimit
  step := Receiving.step

theorem receiving_step (r : Receiving) (action : ReceiveAction) :
    receiving.step r action = r.step action := rfl

end HttpSession

namespace HttpRequestParser

/-- A header section that is not there in full, or a body that is not. -/
theorem length_of_incomplete {input : Bytes} (h : parseMessage input = .ok none) :
    input.length ≤ kMaxHeaderSize + kMaxBodySize := by
  rw [parseMessage] at h
  rcases hhead : parseHead input with failure | _ | ⟨headerSize, s⟩
  · rw [hhead] at h
    exact absurd h (by simp [bind, Except.bind])
  · have hlen := (parseBlock_eq_none_iff.mp hhead).2
    omega
  · simp only [hhead, bind, Except.bind] at h
    have hsize := (parseBlock_size hhead).2.1
    rw [parseBody] at h
    dsimp only at h
    split_ifs at h with hbody hfits hlen
    · omega
    · exact absurd h (by simp)

end HttpRequestParser

namespace HttpSession

variable {r r' : Receiving}

/-- The parser of a call that goes on is a new one, and the buffer is within the limit,
with room for a read when the call waits for one. -/
structure Receiving.Bounded (r : Receiving) : Prop where
  parser : r.phase ≠ .returned → r.parser = .new
  buffer : r.session.inputBuffer.length ≤ receiveLimit
  waiting : r.phase = .reading → r.session.inputBuffer.length ≤ waitingLimit

/-- A pass over the buffer adds nothing to it, and ends in a read only when the request
is incomplete. -/
theorem Receiving.Bounded.parse (hr : r.Bounded) (hstep : r.step .parse = some r') :
    r'.Bounded := by
  rw [step] at hstep
  split_ifs at hstep with hphase
  have hparser := hr.parser (by rw [hphase]; simp)
  have hbuffer := hr.buffer
  rw [hparser, parseBuffered_new] at hstep
  rcases hparse : HttpRequestParser.parseMessage r.session.inputBuffer with failure | _ | m
  · rw [hparse, Option.some_inj] at hstep
    subst hstep
    exact ⟨by simp, hbuffer, by simp⟩
  · rw [hparse, Option.some_inj] at hstep
    subst hstep
    have hlen := HttpRequestParser.length_of_incomplete hparse
    refine ⟨fun _ => rfl, hbuffer, fun _ => hlen.trans ?_⟩
    decide
  · rw [hparse, Option.some_inj] at hstep
    subst hstep
    refine ⟨by simp, ?_, by simp⟩
    simp only [List.length_drop]
    omega

/-- A read adds at most its own size. -/
theorem Receiving.Bounded.read {result : SocketRead} (hr : r.Bounded)
    (hstep : r.step (.read result) = some r') : r'.Bounded := by
  rw [step] at hstep
  split_ifs at hstep with hread hconnected
  · obtain rfl := Option.some_inj.mp hstep
    exact ⟨by simp, hr.buffer, by simp⟩
  · obtain rfl := Option.some_inj.mp hstep
    obtain ⟨hphase, hsize⟩ := hread
    rcases result with bytes | ⟨isTimeout, description⟩
    · rw [afterRead]
      split_ifs with hempty
      · exact ⟨by simp, hr.buffer, by simp⟩
      · refine ⟨fun _ => hr.parser (by rw [hphase]; simp), ?_, by simp⟩
        have hwaiting := hr.waiting hphase
        rw [SocketRead.InBuffer] at hsize
        rw [List.length_append, receiveLimit, ← waitingLimit]
        omega
    · rw [afterRead]
      exact ⟨by simp, hr.buffer, by simp⟩

theorem Receiving.Bounded.of_reachable (h : receiving.Reachable r) : r.Bounded := by
  refine System.ReachableWhile.invariant ?_ ?_ h
  · rintro r ⟨hphase, hparser, hbuffer⟩
    exact ⟨fun _ => hparser, hbuffer, by simp [hphase]⟩
  · intro r action r' hr _ hstep
    cases action with
    | parse => exact hr.parse hstep
    | read result => exact hr.read hstep

/-- A pass over what is buffered, before the next read. -/
theorem parse_reachable {s : HttpSession} {parser : HttpRequestParser}
    (h : receiving.Reachable ⟨s, parser, .parsing⟩) :
    match s.parseBuffered parser with
    | .failed s => receiving.Reachable ⟨s, parser, .returned⟩
    | .finished _ s => receiving.Reachable ⟨s, parser, .returned⟩
    | .wantRead s parser => receiving.Reachable ⟨s, parser, .reading⟩ := by
  have hstep : receiving.step ⟨s, parser, .parsing⟩ .parse =
      match s.parseBuffered parser with
      | .failed s => some ⟨s, parser, .returned⟩
      | .finished _ s => some ⟨s, parser, .returned⟩
      | .wantRead s parser => some ⟨s, parser, .reading⟩ := by
    rw [receiving_step, Receiving.step, if_pos rfl]
  rcases hparse : s.parseBuffered parser with s' | ⟨request, s'⟩ | ⟨s', parser'⟩
  · rw [hparse] at hstep
    exact .step h trivial hstep
  · rw [hparse] at hstep
    exact .step h trivial hstep
  · rw [hparse] at hstep
    exact .step h trivial hstep

/-- The end of the stream is an empty read. -/
theorem closed_reachable {s : HttpSession} {parser : HttpRequestParser}
    (h : receiving.Reachable ⟨s, parser, .reading⟩) :
    receiving.Reachable ⟨s.close, parser, .returned⟩ := by
  refine .step (a := .read (.received [])) h trivial ?_
  rw [receiving_step, Receiving.step, if_pos ⟨rfl, Nat.zero_le _⟩]
  split_ifs <;> rfl

/-- `recvRequest` is a run of these steps, with reads that fit the buffer of `read`. -/
theorem recvLoop_reachable {s : HttpSession} {parser : HttpRequestParser} {reads : List Bytes}
    (h : receiving.Reachable ⟨s, parser, .parsing⟩)
    (hreads : ∀ bytes ∈ reads, bytes.length ≤ HttpResponseParser.kDefaultBufferSize) :
    ∃ parser', receiving.Reachable ⟨(recvLoop s parser reads).2.1, parser', .returned⟩ := by
  induction reads generalizing s parser with
  | nil =>
    have hpass := parse_reachable h
    rw [recvLoop]
    rcases hparse : s.parseBuffered parser with s' | ⟨request, s'⟩ | ⟨s', parser'⟩
    · rw [hparse] at hpass
      exact ⟨_, hpass⟩
    · rw [hparse] at hpass
      exact ⟨_, hpass⟩
    · rw [hparse] at hpass
      exact ⟨_, closed_reachable hpass⟩
  | cons bytes reads ih =>
    obtain ⟨hbytes, hreads⟩ := List.forall_mem_cons.mp hreads
    have hpass := parse_reachable h
    rw [recvLoop]
    rcases hparse : s.parseBuffered parser with s' | ⟨request, s'⟩ | ⟨s', parser'⟩
    · rw [hparse] at hpass
      exact ⟨_, hpass⟩
    · rw [hparse] at hpass
      exact ⟨_, hpass⟩
    · rw [hparse] at hpass
      dsimp only
      split_ifs with hconnected hempty
      · exact ⟨_, closed_reachable hpass⟩
      · exact ⟨_, closed_reachable hpass⟩
      · refine ih (.step (a := .read (.received bytes)) hpass trivial ?_) hreads
        rw [receiving_step, Receiving.step, if_pos ⟨rfl, hbytes⟩, if_neg hconnected,
          Receiving.afterRead, if_neg hempty]

end HttpSession

/-! ### The bytes of a chunked body -/

/-- How many bytes of the data of chunks there are, and how many of everything around it:
the size lines, the ends of chunks, the trailers. -/
structure ChunkBytes where
  data : ℕ
  framing : ℕ
  deriving DecidableEq

namespace HttpResponseParser

/-- The bytes of `input` from `position` on, as `chunkLoop` reads them. -/
def chunkBytes (input : Bytes) (position : ℕ) : ChunkBytes :=
  match _h : find crlf input position with
  | none => ⟨0, input.length - position⟩
  | some chunkLineEnd =>
    match parseChunkSize (substr input position (chunkLineEnd - position)) with
    | none => ⟨0, input.length - position⟩
    | some chunkSize =>
      let dataBegin := chunkLineEnd + 2
      if chunkSize = 0 then ⟨0, input.length - position⟩
      else if input.length < dataBegin + chunkSize + 2 then
        -- the end of the chunk is missing, and possibly a part of its data
        let data := min chunkSize (input.length - dataBegin)
        ⟨data, input.length - position - data⟩
      else
        let tail := chunkBytes input (dataBegin + chunkSize + 2)
        ⟨chunkSize + tail.data, dataBegin - position + 2 + tail.framing⟩
termination_by input.length - position
decreasing_by
  have hline := line_bounds _h
  omega

section ChunkBytes

variable {s : Bytes} {position lineEnd chunkSize bodyLength lineMax trailerMax : ℕ}
  {stop : Option ℕ}

theorem chunkBytes_cut (h : find crlf s position = none) :
    chunkBytes s position = ⟨0, s.length - position⟩ := by
  rw [chunkBytes]
  split
  · rfl
  · next h' => exact absurd (h.symm.trans h') (by simp)

theorem chunkBytes_line (h : ChunkLine s position lineEnd chunkSize) :
    chunkBytes s position =
      if chunkSize = 0 then ⟨0, s.length - position⟩
      else if s.length < lineEnd + 2 + chunkSize + 2 then
        ⟨min chunkSize (s.length - (lineEnd + 2)),
          s.length - position - min chunkSize (s.length - (lineEnd + 2))⟩
      else
        ⟨chunkSize + (chunkBytes s (lineEnd + 2 + chunkSize + 2)).data,
          lineEnd + 2 - position + 2 + (chunkBytes s (lineEnd + 2 + chunkSize + 2)).framing⟩ := by
  rw [chunkBytes]
  split
  · next h' => exact absurd (h.found.symm.trans h') (by simp)
  · next lineEnd' h' =>
    rw [h.found, Option.some_inj] at h'
    subst h'
    rw [h.size]

/-- Data and framing are all that has arrived. -/
theorem Chunks.data_add_framing (h : Chunks lineMax trailerMax s bodyLength position stop)
    (hposition : position ≤ s.length) :
    (chunkBytes s position).data + (chunkBytes s position).framing = s.length - position := by
  induction h with
  | cut h _ => rw [chunkBytes_cut h, Nat.zero_add]
  | last h _ _ => rw [chunkBytes_line h, if_pos rfl, Nat.zero_add]
  | cutData h _ hne _ hlen =>
    have hbounds := line_bounds h.found
    rw [chunkBytes_line h, if_neg hne, if_pos hlen]
    dsimp only
    omega
  | chunk h _ hne _ hdata _ ih =>
    have hbounds := line_bounds h.found
    have hend := le_of_substr_eq_crlf hdata
    have hrest := ih hend
    rw [chunkBytes_line h, if_neg hne, if_neg (by omega)]
    dsimp only
    omega

/-- The data is within the limit on the body. -/
theorem Chunks.data_le (h : Chunks lineMax trailerMax s bodyLength position stop)
    (hbody : bodyLength ≤ kMaxBodySize) :
    bodyLength + (chunkBytes s position).data ≤ kMaxBodySize := by
  induction h with
  | cut h _ => rw [chunkBytes_cut h]; exact hbody
  | last h _ _ => rw [chunkBytes_line h, if_pos rfl]; exact hbody
  | cutData h _ hne hfits hlen =>
    have hsize := hfits.1
    rw [chunkBytes_line h, if_neg hne, if_pos hlen]
    dsimp only
    omega
  | chunk h _ hne hfits hdata _ ih =>
    have hsize := hfits.1
    have hend := le_of_substr_eq_crlf hdata
    have hrest := ih (by omega)
    rw [chunkBytes_line h, if_neg hne, if_neg (by omega)]
    dsimp only
    omega

end ChunkBytes

/-- The framing of the chunks that have arrived takes up no more than the size of a header
section, and what the head and the data leave of their limits. -/
def FramingFits (method : HttpMethod) (input : Bytes) : Prop :=
  match parseHead input with
  | .ok (some (headerSize, s)) =>
    responseHasNoBody method s.response.status = false → s.transferEncodingSeen = true →
      (chunkBytes input headerSize).framing ≤
        kMaxHeaderSize + (kMaxHeaderSize - headerSize) +
          (kMaxBodySize - (chunkBytes input headerSize).data)
  | _ => True

instance (method : HttpMethod) (input : Bytes) : Decidable (FramingFits method input) := by
  unfold FramingFits
  split <;> infer_instance

theorem framingFits_of_head {method : HttpMethod} {input : Bytes} {headerSize : ℕ} {s : Headers}
    (h : parseHead input = .ok (some (headerSize, s))) :
    FramingFits method input ↔
      (responseHasNoBody method s.response.status = false → s.transferEncodingSeen = true →
        (chunkBytes input headerSize).framing ≤
          kMaxHeaderSize + (kMaxHeaderSize - headerSize) +
            (kMaxBodySize - (chunkBytes input headerSize).data)) := by
  rw [FramingFits, h]

/-- The length of a body is within its limit. -/
theorem parsedContentLength_le {input : Bytes} {headerSize : ℕ} {s : Headers}
    (h : parseHead input = .ok (some (headerSize, s))) : s.parsedContentLength ≤ kMaxBodySize := by
  obtain ⟨s₀, -, hfinish⟩ := parseHead_eq_some h
  have hsame : s.parsedContentLength = s₀.parsedContentLength := by
    rw [finishHeaders_eq hfinish]
  rw [finishHeaders] at hfinish
  by_contra hsize
  rw [hsame, Nat.not_le] at hsize
  by_cases hboth : (s₀.contentLengthSeen && s₀.transferEncodingSeen) = true
  · rw [if_pos hboth] at hfinish
    exact absurd hfinish (by simp)
  · rw [if_neg hboth] at hfinish
    dsimp only at hfinish
    rw [if_pos hsize] at hfinish
    exact absurd hfinish (by simp)

/-- A response that is incomplete fills no more than its part of the buffer exactly when
the framing of its chunks fits. -/
theorem waiting_iff_framingFits {method : HttpMethod} {input : Bytes}
    (h : parseMessage method input false = .ok none) :
    input.length ≤ waitingLimit ↔ FramingFits method input := by
  have hframe := frame_of_ok h
  rw [Option.map_none] at hframe
  have hlimits : kMaxHeaderSize + kMaxBodySize ≤ waitingLimit := by decide
  have hwaiting : waitingLimit = 2 * kMaxHeaderSize + kMaxBodySize := rfl
  generalize hstop : none = stop at hframe
  cases hframe with
  | cutHead hhead =>
    have hlen := (parseBlock_eq_none_iff.mp (parseHead_eq_none_iff.mp hhead)).2
    rw [FramingFits, hhead]
    exact ⟨fun _ => trivial, fun _ => by omega⟩
  | noBody hhead hbody => exact absurd hstop (by simp)
  | chunked hhead hbody hseen _ chunks =>
    have hsize := parseHead_size hhead
    have htotal := chunks.data_add_framing hsize.2.2
    have hdata := chunks.data_le (Nat.zero_le _)
    rw [framingFits_of_head hhead]
    constructor
    · intro hlen _ _
      omega
    · intro hfits
      have := hfits hbody hseen
      omega
  | length hhead hbody hchunked hseen hsize hlen => exact absurd hstop (by simp)
  | cutLength hhead hbody hchunked hseen hsize hlen =>
    have hhead' := parseHead_size hhead
    have hcontent := parsedContentLength_le hhead
    rw [framingFits_of_head hhead, hchunked]
    exact ⟨fun _ _ hfalse => absurd hfalse (by simp), fun _ => by omega⟩
  | untilClose hhead hbody hchunked hseen hlen =>
    have hhead' := parseHead_size hhead
    rw [framingFits_of_head hhead, hchunked]
    exact ⟨fun _ _ hfalse => absurd hfalse (by simp), fun _ => by omega⟩

end HttpResponseParser

/-! ### The client side -/

namespace HttpConnection

/-- A call of `recvResponse`; as in `drain`, every pass starts from a new parser. -/
structure Receiving where
  connection : HttpConnection
  phase : ReceivePhase
  deriving DecidableEq

/-- One pass over the buffer; an interim response leads to another. -/
def Receiving.pass (r : Receiving) : Receiving :=
  let c := r.connection
  if c.inputBuffer = [] then { r with phase := .reading }
  else
    let executed := (HttpResponseParser.new c.pendingMethod).executeBuffer c.inputBuffer false
    let parser := executed.1
    if parser.hasError then
      ⟨({ c with inputBuffer := executed.2.1 }.setLastError .parseError parser.errorMessage).close,
        .returned⟩
    else if parser.finished then
      let drained := { c with
        inputBuffer := executed.2.1.take (c.inputBuffer.length - executed.2.2) }
      if isInterimResponse parser.data then ⟨drained, .parsing⟩
      else
        ⟨{ drained with
            requestCount := c.requestCount + 1
            reusable := !parser.data.close && parser.data.status != 101 }, .returned⟩
    else ⟨{ c with inputBuffer := executed.2.1 }, .reading⟩

/-- What the call does with the result of `read`. -/
def Receiving.afterRead (r : Receiving) : SocketRead → Receiving
  | .received bytes =>
    if bytes.isEmpty then ⟨r.connection.endOfStream.2, .returned⟩
    else ⟨{ r.connection with inputBuffer := r.connection.inputBuffer ++ bytes }, .parsing⟩
  | .failed isTimeout description => ⟨r.connection.readFailed isTimeout description, .returned⟩

def Receiving.step (r : Receiving) : ReceiveAction → Option Receiving
  | .parse => if r.phase = .parsing then some r.pass else none
  | .read result =>
    if r.phase = .reading ∧ result.InBuffer then some (r.afterRead result) else none

/-- The calls of `recvResponse` on a buffer within the limit. -/
def receiving : System Receiving ReceiveAction where
  init r := r.phase = .parsing ∧ r.connection.inputBuffer.length ≤ receiveLimit
  step := Receiving.step

theorem receiving_step (r : Receiving) (action : ReceiveAction) :
    receiving.step r action = r.step action := rfl

/-- A read happens when the framing of what is in the buffer fits. -/
def Receiving.ReadFits (r : Receiving) (action : ReceiveAction) : Prop :=
  action ≠ .parse →
    HttpResponseParser.FramingFits r.connection.pendingMethod r.connection.inputBuffer

variable {r r' : Receiving}

/-- A pass in terms of the parse of the buffer. -/
theorem Receiving.pass_eq (r : Receiving) :
    r.pass =
      match HttpResponseParser.parseMessage r.connection.pendingMethod r.connection.inputBuffer
        false with
      | .error failure => ⟨(r.connection.setLastError .parseError failure.message).close, .returned⟩
      | .ok none => { r with phase := .reading }
      | .ok (some m) =>
        let drained := { r.connection with inputBuffer := r.connection.inputBuffer.drop m.consumed }
        if isInterimResponse m.response then ⟨drained, .parsing⟩
        else ⟨{ drained with
          requestCount := r.connection.requestCount + 1
          reusable := !m.response.close && m.response.status != 101 }, .returned⟩ := by
  obtain ⟨c, phase⟩ := r
  by_cases hempty : c.inputBuffer = []
  · rw [pass, if_pos hempty, hempty, HttpResponseParser.parseMessage_nil]
  · rw [pass, if_neg hempty]
    dsimp only
    rw [HttpResponseParser.executeBuffer_new]
    rcases hparse : HttpResponseParser.parseMessage c.pendingMethod c.inputBuffer false
      with failure | _ | m
    · have hcode : (failure.error != .none) = true :=
        bne_iff_ne.2 (HttpResponseParser.parseMessage_coded _ _ _ failure hparse)
      simp [HttpResponseParser.setError, HttpResponseParser.hasError, hcode]
    · simp [HttpResponseParser.scanned, HttpResponseParser.new, HttpResponseParser.hasError]
    · simp [HttpResponseParser.scanned, HttpResponseParser.new, HttpResponseParser.hasError,
        take_afterExecute]

/-- The call waits for a read only on a response that is incomplete. -/
def Receiving.Waits (r : Receiving) : Prop :=
  r.phase = .reading →
    HttpResponseParser.parseMessage r.connection.pendingMethod r.connection.inputBuffer false =
      .ok none

/-- A pass adds nothing to the buffer. -/
theorem Receiving.length_pass_le (r : Receiving) :
    r.pass.connection.inputBuffer.length ≤ r.connection.inputBuffer.length := by
  rw [pass_eq]
  rcases HttpResponseParser.parseMessage r.connection.pendingMethod r.connection.inputBuffer false
    with failure | _ | m
  · exact le_refl _
  · exact le_refl _
  · dsimp only
    split_ifs
    · rw [List.length_drop]
      exact Nat.sub_le _ _
    · rw [List.length_drop]
      exact Nat.sub_le _ _

/-- A pass ends in a read only when the response is incomplete. -/
theorem Receiving.waits_pass (r : Receiving) : r.pass.Waits := by
  intro h
  rw [pass_eq] at h ⊢
  rcases hparse : HttpResponseParser.parseMessage r.connection.pendingMethod
    r.connection.inputBuffer false with failure | _ | m
  · rw [hparse] at h
    exact absurd h (by simp)
  · exact hparse
  · rw [hparse] at h
    dsimp only at h
    split_ifs at h

theorem Receiving.afterRead_phase (r : Receiving) (result : SocketRead) :
    (r.afterRead result).phase ≠ .reading := by
  rcases result with bytes | ⟨isTimeout, description⟩
  · rw [afterRead]
    split_ifs <;> simp
  · simp [afterRead]

theorem Receiving.waits_of_step {action : ReceiveAction} (hstep : r.step action = some r') :
    r'.Waits := by
  cases action with
  | parse =>
    rw [step] at hstep
    split_ifs at hstep
    obtain rfl := Option.some_inj.mp hstep
    exact r.waits_pass
  | read result =>
    rw [step] at hstep
    split_ifs at hstep
    obtain rfl := Option.some_inj.mp hstep
    exact fun hphase => absurd hphase (r.afterRead_phase result)

/-- The end of the stream adds nothing to the buffer. -/
theorem length_endOfStream_le (c : HttpConnection) :
    c.endOfStream.2.inputBuffer.length ≤ c.inputBuffer.length := by
  rw [endOfStream_eq]
  rcases HttpResponseParser.parseMessage c.pendingMethod c.inputBuffer true with failure | _ | m
  · exact le_refl _
  · exact le_refl _
  · exact (List.length_drop ..).trans_le (Nat.sub_le _ _)

/-- A step that fits keeps the buffer within the limit. -/
theorem Receiving.length_le_of_step {action : ReceiveAction} (hwaits : r.Waits)
    (hlen : r.connection.inputBuffer.length ≤ receiveLimit) (hfits : r.ReadFits action)
    (hstep : r.step action = some r') : r'.connection.inputBuffer.length ≤ receiveLimit := by
  cases action with
  | parse =>
    rw [step] at hstep
    split_ifs at hstep
    obtain rfl := Option.some_inj.mp hstep
    exact r.length_pass_le.trans hlen
  | read result =>
    rw [step] at hstep
    split_ifs at hstep with hread
    obtain rfl := Option.some_inj.mp hstep
    obtain ⟨hphase, hsize⟩ := hread
    rcases result with bytes | ⟨isTimeout, description⟩
    · rw [afterRead]
      split_ifs with hempty
      · exact (length_endOfStream_le _).trans hlen
      · have hwaiting := (HttpResponseParser.waiting_iff_framingFits (hwaits hphase)).mpr
          (hfits (by simp))
        rw [SocketRead.InBuffer] at hsize
        rw [List.length_append, receiveLimit, ← waitingLimit]
        omega
    · exact hlen

/-- A read of a whole buffer on framing that does not fit. -/
theorem Receiving.exceeds (hphase : r.phase = .reading) (hwaits : r.Waits)
    (hfits : ¬ HttpResponseParser.FramingFits r.connection.pendingMethod r.connection.inputBuffer)
    {bytes : Bytes} (hbytes : bytes.length = HttpResponseParser.kDefaultBufferSize) :
    ∃ r', r.step (.read (.received bytes)) = some r' ∧
      receiveLimit < r'.connection.inputBuffer.length := by
  have hwaiting := mt (HttpResponseParser.waiting_iff_framingFits (hwaits hphase)).mp hfits
  have hempty : ¬ bytes.isEmpty = true := by
    intro h
    rw [List.isEmpty_iff.mp h] at hbytes
    exact absurd hbytes (by decide)
  refine ⟨r.afterRead (.received bytes), if_pos ⟨hphase, hbytes.le⟩, ?_⟩
  rw [afterRead, if_neg hempty, List.length_append, receiveLimit, ← waitingLimit]
  omega

variable {C : Receiving → ReceiveAction → Prop}

theorem Receiving.waits_of_reachable (h : receiving.ReachableWhile C r) : r.Waits := by
  refine System.ReachableWhile.invariant ?_ (fun _ _ _ _ _ hstep => waits_of_step hstep) h
  rintro r ⟨hphase, -⟩ hreading
  exact absurd (hphase.symm.trans hreading) (by simp)

theorem Receiving.length_le_of_reachable (h : receiving.ReachableWhile ReadFits r) :
    r.connection.inputBuffer.length ≤ receiveLimit := by
  induction h with
  | init h => exact h.2
  | step h hfits hstep ih => exact length_le_of_step (waits_of_reachable h) ih hfits hstep

/-- The passes over the buffer are steps. -/
theorem drain_reachable {c : HttpConnection} (hC : ∀ r, C r .parse)
    (h : receiving.ReachableWhile C ⟨c, .parsing⟩) :
    match drain c with
    | .returned _ c => receiving.ReachableWhile C ⟨c, .returned⟩
    | .wantRead c => receiving.ReachableWhile C ⟨c, .reading⟩ := by
  induction hlen : c.inputBuffer.length using Nat.strongRecOn generalizing c with
  | ind len ih =>
    have hnext : receiving.ReachableWhile C (Receiving.pass ⟨c, .parsing⟩) :=
      .step h (hC _) (by rw [receiving_step, Receiving.step, if_pos rfl])
    rw [Receiving.pass_eq] at hnext
    rw [drain_eq]
    rcases hparse : HttpResponseParser.parseMessage c.pendingMethod c.inputBuffer false
      with failure | _ | m
    · rw [hparse] at hnext
      exact hnext
    · rw [hparse] at hnext
      exact hnext
    · rw [hparse] at hnext
      have hbounds := HttpResponseParser.consumed_bounds hparse
      dsimp only at hnext ⊢
      by_cases hinterim : isInterimResponse m.response = true
      · rw [if_pos hinterim] at hnext ⊢
        exact ih (c.inputBuffer.drop m.consumed).length (by rw [List.length_drop]; omega) hnext rfl
      · rw [if_neg hinterim] at hnext ⊢
        exact hnext

/-- `recvResponse` is a run of these steps, with reads that fit the buffer of `read`. -/
theorem recvLoop_reachable {c : HttpConnection} {reads : List SocketRead}
    (h : receiving.Reachable ⟨c, .parsing⟩) (hreads : ∀ result ∈ reads, result.InBuffer) :
    receiving.Reachable ⟨(recvLoop c reads).2.1, .returned⟩ := by
  have hread : ∀ {c : HttpConnection} {result : SocketRead},
      receiving.Reachable ⟨c, .reading⟩ → result.InBuffer →
      receiving.Reachable (Receiving.afterRead ⟨c, .reading⟩ result) :=
    fun {c result} hreading hresult => .step (a := .read result) hreading trivial
      (by rw [receiving_step, Receiving.step, if_pos ⟨rfl, hresult⟩])
  induction reads generalizing c with
  | nil =>
    have hdrain := drain_reachable (fun _ => trivial) h
    rw [recvLoop]
    rcases hd : drain c with ⟨response, c'⟩ | c'
    · rw [hd] at hdrain
      exact hdrain
    · rw [hd] at hdrain
      have hclosed : (SocketRead.received []).InBuffer := Nat.zero_le _
      exact hread hdrain hclosed
  | cons result reads ih =>
    obtain ⟨hresult, hrest⟩ := List.forall_mem_cons.mp hreads
    have hdrain := drain_reachable (fun _ => trivial) h
    rw [recvLoop]
    rcases hd : drain c with ⟨response, c'⟩ | c'
    · rw [hd] at hdrain
      exact hdrain
    · rw [hd] at hdrain
      have hnext := hread hdrain hresult
      rcases result with bytes | ⟨isTimeout, description⟩
      · rw [Receiving.afterRead] at hnext
        dsimp only
        by_cases hempty : bytes.isEmpty = true
        · rw [if_pos hempty] at hnext ⊢
          exact hnext
        · rw [if_neg hempty] at hnext ⊢
          exact ih hnext hrest
      · exact hnext

end HttpConnection

/-! ### The bound -/

/-- **The framing of chunks is all that the receive buffer is not bounded for.**  The buffer of
a session never exceeds the limit; the buffer of a connection does not as long as every read
happens on framing that fits; and a read of a whole buffer on framing that does not fit exceeds
it. -/
theorem buffer_le_iff_framingFits (r₀ : HttpSession.Receiving) (r : HttpConnection.Receiving) :
    (HttpSession.receiving.Reachable r₀ → r₀.session.inputBuffer.length ≤ receiveLimit) ∧
    (HttpConnection.receiving.ReachableWhile HttpConnection.Receiving.ReadFits r →
      r.connection.inputBuffer.length ≤ receiveLimit) ∧
    (HttpConnection.receiving.Reachable r → r.phase = .reading →
      ¬ HttpResponseParser.FramingFits r.connection.pendingMethod r.connection.inputBuffer →
      ∀ bytes : Bytes, bytes.length = HttpResponseParser.kDefaultBufferSize →
        ∃ r', HttpConnection.receiving.step r (.read (.received bytes)) = some r' ∧
          receiveLimit < r'.connection.inputBuffer.length) := by
  refine ⟨?_, ?_, ?_⟩
  · intro h
    exact (HttpSession.Receiving.Bounded.of_reachable h).buffer
  · intro h
    exact HttpConnection.Receiving.length_le_of_reachable h
  · intro h hphase hfits bytes hbytes
    exact HttpConnection.Receiving.exceeds hphase (HttpConnection.Receiving.waits_of_reachable h)
      hfits hbytes

/-! ### A response that fills the buffer -/

section Flood

open HttpResponseParser HttpConnection

/-- The head of a chunked response. -/
def floodHead : Bytes :=
  headText (ascii "HTTP/1.1 200 OK") [(ascii "Transfer-Encoding", ascii " chunked")]

/-- A chunk of one byte behind an extension that fills a read. -/
def paddedChunk : Bytes × Bytes := (ascii "1;" ++ List.replicate 4089 97, ascii "a")

/-- The connection after the head and `n` chunks have been read. -/
def flooded (n : ℕ) : HttpConnection :=
  { HttpConnection.new 0 with
    inputBuffer := floodHead ++ (List.replicate n paddedChunk).flatMap chunkText }

/-- The reads of the head and of `n` chunks, each with the pass before it. -/
def floodActions (n : ℕ) : List ReceiveAction :=
  .parse :: .read (.received floodHead) ::
    (List.replicate n [.parse, .read (.received (chunkText paddedChunk))]).flatten

theorem sizeLine_paddedChunk : SizeLine paddedChunk.1 paddedChunk.2.length := by
  have hbefore : before 59 paddedChunk.1 = [49] := rfl
  constructor
  · refine IsLine.of_notMem fun hmem => ?_
    rcases List.mem_append.mp hmem with hmem | hmem
    · exact absurd hmem (by decide)
    · exact absurd (List.eq_of_mem_replicate hmem) (by decide)
  · rw [hbefore]
    decide
  · decide

theorem length_paddedChunk : (chunkText paddedChunk).length = kDefaultBufferSize := by
  simp only [chunkText, paddedChunk, List.length_append, List.length_replicate]
  rfl

theorem announces_flood : AnnouncesChunks .get (ascii "HTTP/1.1 200 OK")
    [(ascii "Transfer-Encoding", ascii " chunked")] := by
  have hvalid : ValidHead (ascii "HTTP/1.1 200 OK")
      [(ascii "Transfer-Encoding", ascii " chunked")] :=
    ⟨IsLine.of_notMem (by decide), by decide⟩
  constructor
  · exact hvalid
  · have hheaders := parseHeaders_headText hvalid []
    rw [List.append_nil] at hheaders
    rw [parseHead, hheaders]
    exact ⟨_, _, rfl, rfl⟩
  · decide
  · exact ⟨[], ascii "chunked", by decide, by decide, by decide⟩

theorem flatMap_data (n : ℕ) :
    ((List.replicate n paddedChunk).flatMap fun chunk => chunk.2).length = n := by
  induction n with
  | zero => rfl
  | succ n ih =>
    rw [List.replicate_succ, List.flatMap_cons, List.length_append, ih, Nat.add_comm]
    rfl

theorem length_flooded (n : ℕ) :
    (flooded n).inputBuffer.length = floodHead.length + n * kDefaultBufferSize := by
  induction n with
  | zero => rfl
  | succ n ih =>
    rw [flooded, List.length_append] at ih ⊢
    rw [List.replicate_succ, List.flatMap_cons, List.length_append, length_paddedChunk]
    rw [Nat.succ_mul]
    omega

theorem flooded_succ (n : ℕ) :
    flooded (n + 1) = { flooded n with
      inputBuffer := (flooded n).inputBuffer ++ chunkText paddedChunk } := by
  rw [flooded, flooded, List.replicate_succ', List.flatMap_append, List.flatMap_singleton,
    List.append_assoc]

/-- Whole chunks and no last one: the response is incomplete. -/
theorem parseMessage_flooded {n : ℕ} (hn : n ≤ 20000) :
    HttpResponseParser.parseMessage .get (flooded n).inputBuffer false = .ok none := by
  obtain ⟨response, hparse⟩ :=
    announces_flood.parseMessage ((List.replicate n paddedChunk).flatMap chunkText) false
  have hchunks : ∀ chunk ∈ List.replicate n paddedChunk,
      SizeLine chunk.1 chunk.2.length ∧ chunk.2.length ≠ 0 := by
    intro chunk hchunk
    obtain rfl := List.eq_of_mem_replicate hchunk
    exact ⟨sizeLine_paddedChunk, by decide⟩
  have hlen := length_flooded n
  have hhead : floodHead.length = 47 := by decide
  have hcut : find crlf (flooded n).inputBuffer (flooded n).inputBuffer.length = none := by
    rcases hfind : find crlf (flooded n).inputBuffer (flooded n).inputBuffer.length with _ | i
    · rfl
    · have hbounds := line_bounds hfind
      omega
  have hsize : (flooded n).inputBuffer.length ≤ sizeMax := by
    rw [hlen, hhead, kDefaultBufferSize, sizeMax]
    omega
  have hloop := @chunkLoop_chunks floodHead [] response (List.replicate n paddedChunk) [] hchunks
  rw [List.append_nil, List.nil_append, flatMap_data] at hloop
  rw [show (flooded n).inputBuffer =
    floodHead ++ (List.replicate n paddedChunk).flatMap chunkText from rfl] at hcut hsize ⊢
  have hbody : n ≤ kMaxBodySize := hn.trans (by decide)
  rw [floodHead] at hloop hcut hsize ⊢
  rw [hparse, hloop hbody hsize, chunkLoop_cut hcut, Nat.sub_self, if_neg (by decide)]
  rfl

theorem flooded_pass {n : ℕ} (hn : n ≤ 20000) :
    receiving.step ⟨flooded n, .parsing⟩ .parse = some ⟨flooded n, .reading⟩ := by
  rw [receiving_step, Receiving.step, if_pos rfl, Receiving.pass_eq]
  dsimp only
  rw [show (flooded n).pendingMethod = .get from rfl, parseMessage_flooded hn]

theorem flooded_read (n : ℕ) :
    receiving.step ⟨flooded n, .reading⟩ (.read (.received (chunkText paddedChunk))) =
      some ⟨flooded (n + 1), .parsing⟩ := by
  have hin : (SocketRead.received (chunkText paddedChunk)).InBuffer := length_paddedChunk.le
  rw [receiving_step, Receiving.step, if_pos ⟨rfl, hin⟩, flooded_succ]
  rfl

theorem flooded_zero :
    receiving.step ⟨.new 0, .reading⟩ (.read (.received floodHead)) =
      some ⟨flooded 0, .parsing⟩ := by
  have hin : (SocketRead.received floodHead).InBuffer := by decide
  rw [receiving_step, Receiving.step, if_pos ⟨rfl, hin⟩]
  rfl

/-- The connection waits for another chunk. -/
theorem exec_flood {n : ℕ} (hn : n ≤ 20000) :
    receiving.exec ⟨.new 0, .parsing⟩ (floodActions n) = some ⟨flooded n, .parsing⟩ := by
  -- the chunks, from any number of them on
  have hchunks : ∀ m k, k + m ≤ 20000 →
      receiving.exec ⟨flooded k, .parsing⟩ (List.replicate m
        [.parse, .read (.received (chunkText paddedChunk))]).flatten =
      some ⟨flooded (k + m), .parsing⟩ := by
    intro m
    induction m with
    | zero => intro k _; rfl
    | succ m ih =>
      intro k hk
      rw [List.replicate_succ, List.flatten_cons, List.cons_append, List.cons_append,
        List.nil_append, System.exec_cons (flooded_pass (by omega)), System.exec_cons (flooded_read k),
        ih (k + 1) (by omega), Nat.add_right_comm, Nat.add_assoc]
  have hempty : receiving.step ⟨.new 0, .parsing⟩ .parse = some ⟨.new 0, .reading⟩ := rfl
  rw [floodActions, System.exec_cons hempty, System.exec_cons flooded_zero,
    hchunks n 0 (by omega), Nat.zero_add]

/-- **The receive buffer is not bounded**: 16417 chunks of one byte with long extensions exceed
the limit. -/
theorem not_buffer_le :
    receiving.init ⟨.new 0, .parsing⟩ ∧
    ∃ r, receiving.exec ⟨.new 0, .parsing⟩ (floodActions 16417) = some r ∧
      receiveLimit < r.connection.inputBuffer.length := by
  refine ⟨⟨rfl, by decide⟩, _, exec_flood (by decide), ?_⟩
  rw [length_flooded]
  decide

/-- A session that waits for the rest of a request line, a connection that has read the first
chunk, and the read after which the buffer is too large. -/
theorem buffer_le_iff_framingFits_flooded :
    (∃ r, HttpSession.receiving.exec ⟨.new, .new, .parsing⟩
        [.parse, .read (.received (ascii "GET /"))] = some r ∧
      r.session.inputBuffer.length ≤ receiveLimit) ∧
    (flooded 1).inputBuffer.length ≤ receiveLimit ∧
    ∃ r, receiving.step ⟨flooded 16416, .reading⟩
        (.read (.received (chunkText paddedChunk))) = some r ∧
      receiveLimit < r.connection.inputBuffer.length := by
  have hnew : HttpSession.receiving.Reachable ⟨.new, .new, .parsing⟩ :=
    .init ⟨rfl, rfl, Nat.zero_le _⟩
  have hexec : HttpSession.receiving.exec ⟨.new, .new, .parsing⟩
      [.parse, .read (.received (ascii "GET /"))] =
        some ⟨{ HttpSession.new with inputBuffer := ascii "GET /" }, .new, .parsing⟩ := rfl
  have hinit : receiving.init ⟨.new 0, .parsing⟩ := ⟨rfl, Nat.zero_le _⟩
  obtain ⟨hsession, hconnection, -⟩ := buffer_le_iff_framingFits
    ⟨{ HttpSession.new with inputBuffer := ascii "GET /" }, .new, .parsing⟩ ⟨flooded 1, .parsing⟩
  obtain ⟨-, -, hexceeds⟩ := buffer_le_iff_framingFits ⟨.new, .new, .parsing⟩
    ⟨flooded 16416, .reading⟩
  refine ⟨⟨_, hexec, hsession ?_⟩, hconnection ?_, hexceeds ?_ rfl ?_ _ length_paddedChunk⟩
  · exact hnew.exec (System.meets_true _ _ _) hexec
  · have hstart : Receiving.ReadFits ⟨.new 0, .reading⟩ (.read (.received floodHead)) := by
      intro _
      exact (waiting_iff_framingFits (parseMessage_nil _ _)).mp (by decide)
    have hchunk : Receiving.ReadFits ⟨flooded 0, .reading⟩
        (.read (.received (chunkText paddedChunk))) := by
      intro _
      exact (waiting_iff_framingFits (parseMessage_flooded (Nat.zero_le _))).mp (by decide)
    have hread : receiving.ReachableWhile Receiving.ReadFits ⟨flooded 0, .parsing⟩ :=
      .step (.step (.init hinit) (fun h => absurd rfl h) rfl) hstart flooded_zero
    exact .step (.step hread (fun h => absurd rfl h) (flooded_pass (Nat.zero_le _))) hchunk
      (flooded_read 0)
  · have hreached : receiving.Reachable ⟨flooded 16416, .parsing⟩ :=
      System.ReachableWhile.exec (.init hinit) (System.meets_true _ _ _) (exec_flood (by decide))
    exact .step hreached trivial (flooded_pass (by decide))
  · intro hfits
    have hwaiting := (waiting_iff_framingFits (parseMessage_flooded (by decide))).mpr hfits
    rw [length_flooded] at hwaiting
    exact absurd hwaiting (by decide)

end Flood

end Http

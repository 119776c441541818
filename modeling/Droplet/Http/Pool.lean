/-
Pooled connections against an arbitrary server.

Leases, releases, requests, reads and whatever the servers send are steps of one
system, so that its runs are all interleavings of `HttpConnectionPool::doRequest`
calls, all byte streams and all read segmentations.  `stream` is what the server
of a connection has sent, `delivered` how much of it `read` has returned, and
`requestMark` where the stream was when the last request was sent.

* `Link.recvLoop_of_reads` — the steps of a call compute `recvResponse`;
* `drain_surplus` — what the passes over the buffer leave of an answer;
* `clean_of_answered` — as long as no server sends more than it was asked for, no
  connection is parked with unread bytes and every response is parsed from bytes
  sent after its request.
-/
import Droplet.Http.Client
import Droplet.Http.Connection
import Droplet.Lib.Transition

open Transition Transition.System

namespace Http

open HttpResponseParser (parseMessage consumed_bounds parseMessage_nil frame_of_ok)

namespace HttpConnection

/-- What `writeFixSize` returns. -/
inductive WriteOutcome
  | written
  | closedByPeer
  | failed (isTimeout : Bool) (description : Bytes)
  deriving DecidableEq

/-- `sendRequest` of a request with this method. -/
def sendRequest (c : HttpConnection) (method : HttpMethod) (outcome : WriteOutcome) :
    HttpConnection :=
  let c := { c with pendingMethod := method, reusable := false }
  match outcome with
  | .written => c
  | .closedByPeer =>
    (c.setLastError .sendCloseByPeer (ascii "peer closed while sending HTTP request")).close
  | .failed isTimeout description =>
    (c.setLastError (if isTimeout then .timeout else .sendSocketError)
      (ascii "send HTTP request failed: " ++ description)).close

end HttpConnection

/-! ### A connection and its server -/

/-- What the lease of a connection is doing; `start` is the position in the stream
at which a call of `recvResponse` began to parse. -/
inductive LeasePhase
  | idle
  | leased
  | sent
  | receiving (start : ℕ)
  | returned (start : ℕ) (response : Option HttpResponse)
  | deleted
  deriving DecidableEq

/-- A connection and what its server has done. -/
structure Link where
  connection : HttpConnection
  phase : LeasePhase
  stream : Bytes
  peerClosed : Bool
  delivered : ℕ
  requests : ℕ
  requestMark : ℕ
  deriving DecidableEq

/-- What one `read` returns. -/
inductive ReadOutcome
  | received (count : ℕ)
  | endOfStream
  | failed (isTimeout : Bool) (description : Bytes)
  deriving DecidableEq

/-- The steps of a lease and of the server. -/
inductive LinkAction
  | sendRequest (method : HttpMethod) (outcome : HttpConnection.WriteOutcome)
  | beginReceive
  | read (outcome : ReadOutcome)
  | serve (bytes : Bytes)
  | closePeer
  deriving DecidableEq

namespace Link

/-- A connection that was just made. -/
def new (createdAtMs : UInt64) : Link where
  connection := HttpConnection.new createdAtMs.toNat
  phase := .leased
  stream := []
  peerClosed := false
  delivered := 0
  requests := 0
  requestMark := 0

/-- The position in the stream up to which the parser has consumed it. -/
def parsed (l : Link) : ℕ := l.delivered - l.connection.inputBuffer.length

def sendRequest (l : Link) (method : HttpMethod) (outcome : HttpConnection.WriteOutcome) : Link :=
  let connection := l.connection.sendRequest method outcome
  { l with
    connection := connection
    phase := if connection.connected then .sent else .returned l.stream.length none
    requests := l.requests + 1
    requestMark := l.stream.length }

/-- The passes over the buffer in a call of `recvResponse`. -/
def pass (l : Link) (start : ℕ) : Link :=
  match l.connection.drain with
  | .returned response connection =>
    { l with connection := connection, phase := .returned start response }
  | .wantRead connection => { l with connection := connection, phase := .receiving start }

/-- The first passes of a call, before anything is read. -/
def beginReceive (l : Link) : Link :=
  { l with connection := l.connection.setLastError .ok [] }.pass l.parsed

/-- One `read` of a call, and the passes after it. -/
def read (l : Link) (start : ℕ) : ReadOutcome → Option Link
  | .received count =>
    if 0 < count ∧ count ≤ HttpResponseParser.kDefaultBufferSize ∧
        l.delivered + count ≤ l.stream.length then
      some <| { l with
        connection := { l.connection with
          inputBuffer := l.connection.inputBuffer ++ (l.stream.drop l.delivered).take count }
        delivered := l.delivered + count }.pass start
    else none
  | .endOfStream =>
    if l.peerClosed ∧ l.delivered = l.stream.length then
      some { l with
        connection := l.connection.endOfStream.2
        phase := .returned start l.connection.endOfStream.1 }
    else none
  | .failed isTimeout description =>
    some { l with
      connection := l.connection.readFailed isTimeout description
      phase := .returned start none }

def step (l : Link) : LinkAction → Option Link
  | .sendRequest method outcome =>
    if l.phase = .leased then some (l.sendRequest method outcome) else none
  | .beginReceive => if l.phase = .sent then some l.beginReceive else none
  | .read outcome =>
    match l.phase with
    | .receiving start => l.read start outcome
    | _ => none
  | .serve bytes => if l.peerClosed then none else some { l with stream := l.stream ++ bytes }
  | .closePeer => some { l with peerClosed := true }

end Link

/-! ### The steps of a call are `recvResponse` -/

namespace Link

/-- What the reads of a call return, from a position in the stream on. -/
def socketReads (stream : Bytes) : ℕ → List ReadOutcome → List SocketRead
  | _, [] => []
  | delivered, .received count :: outcomes =>
    .received ((stream.drop delivered).take count) ::
      socketReads stream (delivered + count) outcomes
  | delivered, .endOfStream :: outcomes => .received [] :: socketReads stream delivered outcomes
  | delivered, .failed isTimeout description :: outcomes =>
    .failed isTimeout description :: socketReads stream delivered outcomes

/-- The steps of a call that returned are one run of the loop of `recvResponse`. -/
theorem recvLoop_of_reads {l l' : Link} {start : ℕ} {outcomes : List ReadOutcome}
    {response : Option HttpResponse}
    (h : outcomes.foldlM (fun l outcome => l.step (.read outcome)) (l.pass start) = some l')
    (hphase : l'.phase = .returned start response) :
    l.connection.recvLoop (socketReads l.stream l.delivered outcomes) =
      (response, l'.connection, []) := by
  -- a call that has returned reads nothing
  have hended : ∀ {m : Link} {outcomes : List ReadOutcome} {response : Option HttpResponse},
      m.phase = .returned start response →
      outcomes.foldlM (fun l outcome => l.step (.read outcome)) m = some l' →
      outcomes = [] ∧ l' = m := by
    intro m outcomes response hm hfold
    cases outcomes with
    | nil => exact ⟨rfl, (Option.some_inj.mp hfold).symm⟩
    | cons outcome outcomes =>
      rw [List.foldlM_cons, step, hm] at hfold
      exact absurd hfold (by simp)
  -- on the outcomes that are left: the link takes a step where the loop reads once
  induction outcomes generalizing l with
  | nil =>
    rw [List.foldlM_nil] at h
    have h := Option.some_inj.mp h
    rw [socketReads, HttpConnection.recvLoop]
    rw [pass] at h
    rcases hd : l.connection.drain with ⟨returned, c⟩ | c
    · rw [hd] at h
      rw [← h] at hphase ⊢
      simp only [LeasePhase.returned.injEq, true_and] at hphase
      rw [hphase]
    · rw [hd] at h
      rw [← h] at hphase
      exact absurd hphase (by simp)
  | cons outcome outcomes ih =>
    rw [List.foldlM_cons] at h
    obtain ⟨l₁, hl₁, hrest⟩ := Option.bind_eq_some_iff.mp h
    rcases hd : l.connection.drain with ⟨returned, c⟩ | c
    · rw [pass, hd, step] at hl₁
      exact absurd hl₁ (by simp)
    · rw [pass, hd, step] at hl₁
      simp only at hl₁
      cases outcome with
      | received count =>
        rw [read] at hl₁
        split at hl₁
        · next hcount =>
          rw [← Option.some_inj.mp hl₁] at hrest
          have hnext := ih hrest
          -- a read of no bytes would have been the end of the stream
          have hchunk : ((l.stream.drop l.delivered).take count).isEmpty = false := by
            rw [List.isEmpty_eq_false_iff, Ne, ← List.length_eq_zero_iff, List.length_take,
              List.length_drop]
            have := hcount.2.2
            simp only at this
            omega
          rw [socketReads, HttpConnection.recvLoop, hd]
          simp only [hchunk, Bool.false_eq_true, if_false]
          exact hnext
        · exact absurd hl₁ (by simp)
      | endOfStream =>
        rw [read] at hl₁
        split at hl₁
        · rw [← Option.some_inj.mp hl₁] at hrest
          obtain ⟨rfl, rfl⟩ := hended rfl hrest
          simp only [LeasePhase.returned.injEq, true_and] at hphase
          rw [socketReads, HttpConnection.recvLoop, hd]
          simp only [List.isEmpty_nil, if_true, hphase]
          rfl
        · exact absurd hl₁ (by simp)
      | failed isTimeout description =>
        rw [read] at hl₁
        rw [← Option.some_inj.mp hl₁] at hrest
        obtain ⟨rfl, rfl⟩ := hended rfl hrest
        simp only [LeasePhase.returned.injEq, true_and] at hphase
        rw [socketReads, HttpConnection.recvLoop, hd, ← hphase]
        rfl

end Link

/-! ### The pool -/

/-- The pool, its connections numbered in the order in which they were made. -/
structure HttpConnectionPool where
  options : PoolOptions
  idleConnections : List ℕ
  total : UInt32
  created : ℕ
  links : ℕ → Option Link

namespace HttpConnectionPool

/-- A pool without connections. -/
def new (options : PoolOptions) : HttpConnectionPool := ⟨options, [], 0, 0, fun _ => none⟩

def isExpired (options : PoolOptions) (connection : HttpConnection) (now : UInt64) : Bool :=
  let lifetimeExpired := options.maxAliveTimeMs != 0 &&
    options.maxAliveTimeMs ≤ now - UInt64.ofNat connection.createdAtMs
  let requestLimitReached := options.maxRequests != 0 &&
    options.maxRequests.toNat ≤ connection.requestCount
  lifetimeExpired || requestLimitReached

/-- Not fit for another request. -/
def isUnfit (options : PoolOptions) (connection : HttpConnection) (now : UInt64) : Bool :=
  !connection.connected || !connection.reusable || isExpired options connection now

def setLink (pool : HttpConnectionPool) (id : ℕ) (l : Link) : HttpConnectionPool :=
  { pool with links := fun i => if i = id then some l else pool.links i }

/-- A step of the lease or the server of one connection. -/
def onLink (pool : HttpConnectionPool) (id : ℕ) (f : Link → Option Link) :
    Option HttpConnectionPool :=
  ((pool.links id).bind f).map (pool.setLink id)

def setPhase (pool : HttpConnectionPool) (id : ℕ) (phase : LeasePhase) : HttpConnectionPool :=
  match pool.links id with
  | none => pool
  | some l => pool.setLink id { l with phase := phase }

/-- The loop over the idle connections: the one to reuse, the unfit ones before it,
and the ones after it. -/
def popIdle (pool : HttpConnectionPool) (now : UInt64) : List ℕ → Option ℕ × List ℕ × List ℕ
  | [] => (none, [], [])
  | id :: ids =>
    if (pool.links id).all fun l => isUnfit pool.options l.connection now then
      let (found, invalid, rest) := pool.popIdle now ids
      (found, id :: invalid, rest)
    else (some id, [], ids)

/-- `getConnection`; `connects` says whether a new connection is established. -/
def getConnection (pool : HttpConnectionPool) (now : UInt64) (connects : Bool)
    (createdAtMs : UInt64) : HttpConnectionPool :=
  if pool.options.isHttps || pool.options.maxSize == 0 then pool
  else
    let (found, invalid, rest) := pool.popIdle now pool.idleConnections
    let afterInvalid := pool.total - UInt32.ofNat invalid.length
    let pool := invalid.foldl (fun pool id => pool.setPhase id .deleted)
      { pool with idleConnections := rest }
    match found with
    | some id => { pool with total := afterInvalid }.setPhase id .leased
    | none =>
      if afterInvalid < pool.options.maxSize ∧ connects = true then
        { pool with total := afterInvalid + 1, created := pool.created + 1 }.setLink pool.created
          (Link.new createdAtMs)
      else { pool with total := afterInvalid }

/-- `releaseConnection`. -/
def releaseConnection (pool : HttpConnectionPool) (id : ℕ) (now : UInt64) (l : Link) :
    HttpConnectionPool :=
  if isUnfit pool.options l.connection now then
    { pool with total := pool.total - 1 }.setLink id { l with phase := .deleted }
  else
    { pool with idleConnections := pool.idleConnections ++ [id] }.setLink id
      { l with phase := .idle }

/-- A lease ends when it has not been used, or when its request is done. -/
def isReleasable : LeasePhase → Bool
  | .leased | .returned _ _ => true
  | _ => false

end HttpConnectionPool

inductive PoolAction
  | getConnection (now : UInt64) (connects : Bool) (createdAtMs : UInt64)
  | releaseConnection (id : ℕ) (now : UInt64)
  | onLink (id : ℕ) (action : LinkAction)

namespace HttpConnectionPool

def step (pool : HttpConnectionPool) : PoolAction → Option HttpConnectionPool
  | .getConnection now connects createdAtMs => some (pool.getConnection now connects createdAtMs)
  | .releaseConnection id now =>
    match pool.links id with
    | some l => if isReleasable l.phase then some (pool.releaseConnection id now l) else none
    | none => none
  | .onLink id action => pool.onLink id fun l => l.step action

/-- The runs of a pool with some options. -/
def system (options : PoolOptions) : System HttpConnectionPool PoolAction where
  init := fun pool => pool = new options
  step := step

end HttpConnectionPool

/-! ### Answers -/

/-- What a server sent to `method` beyond the final response, when that response
keeps the connection reusable. -/
def surplus (method : HttpMethod) (answer : Bytes) : Bytes :=
  match _hparse : parseMessage method answer false with
  | .ok (some m) =>
    if isInterimResponse m.response then surplus method (answer.drop m.consumed)
    else if !m.response.close && m.response.status != 101 then answer.drop m.consumed
    else []
  | _ => []
termination_by answer.length
decreasing_by
  have := consumed_bounds _hparse
  rw [List.length_drop]
  omega

/-- A server may send these bytes next: nothing before the first request, and
nothing beyond its answer to the last one. -/
def Link.Accepts (l : Link) (bytes : Bytes) : Prop :=
  (l.requests = 0 → bytes = []) ∧
    surplus l.connection.pendingMethod (l.stream.drop l.requestMark ++ bytes) = []

/-- A complete response is final. -/
theorem parseMessage_append {method : HttpMethod} {s : Bytes} {m : HttpResponseParser.Parsed}
    (h : parseMessage method s false = .ok (some m)) (t : Bytes) :
    parseMessage method (s ++ t) false = .ok (some m) := by
  have hle := (consumed_bounds h).2
  rw [(frame_of_ok h).congr (List.take_append_of_le_length hle), h]

theorem surplus_nil (method : HttpMethod) : surplus method [] = [] := by
  rw [surplus]
  split
  · next m hparse =>
    rw [parseMessage_nil] at hparse
    exact absurd hparse (by simp)
  · rfl

/-- The surplus after a complete response. -/
theorem surplus_of_complete {method : HttpMethod} {s : Bytes} {m : HttpResponseParser.Parsed}
    (h : parseMessage method s false = .ok (some m)) (t : Bytes) :
    surplus method (s ++ t) =
      if isInterimResponse m.response then surplus method (s.drop m.consumed ++ t)
      else if !m.response.close && m.response.status != 101 then s.drop m.consumed ++ t
      else [] := by
  have happend := parseMessage_append h t
  have hdrop : (s ++ t).drop m.consumed = s.drop m.consumed ++ t :=
    List.drop_append_of_le_length (consumed_bounds h).2
  rw [surplus]
  split
  · next m' hparse =>
    rw [happend, Except.ok.injEq, Option.some_inj] at hparse
    rw [← hparse, hdrop]
  · next hparse =>
    exact absurd happend (hparse m)

/-- What the passes over the buffer consume, and what they leave of the answer. -/
theorem drain_surplus (c : HttpConnection) :
    match c.drain with
    | .returned none c' => c'.connected = false ∧
        ∃ n ≤ c.inputBuffer.length, c'.inputBuffer = c.inputBuffer.drop n
    | .returned (some _) c' => c'.pendingMethod = c.pendingMethod ∧
        (∃ n ≤ c.inputBuffer.length, c'.inputBuffer = c.inputBuffer.drop n) ∧
        (c'.reusable = true → ∀ t, surplus c.pendingMethod (c.inputBuffer ++ t) =
          c'.inputBuffer ++ t)
    | .wantRead c' => c'.pendingMethod = c.pendingMethod ∧
        (∃ n ≤ c.inputBuffer.length, c'.inputBuffer = c.inputBuffer.drop n) ∧
        ∀ t, surplus c.pendingMethod (c.inputBuffer ++ t) =
          surplus c.pendingMethod (c'.inputBuffer ++ t) := by
  induction hlen : c.inputBuffer.length using Nat.strongRecOn generalizing c with
  | ind len ih =>
    subst hlen
    rw [HttpConnection.drain_eq]
    rcases hparse : parseMessage c.pendingMethod c.inputBuffer false with failure | _ | m
    · exact ⟨rfl, 0, Nat.zero_le _, rfl⟩
    · exact ⟨rfl, ⟨0, Nat.zero_le _, rfl⟩, fun t => rfl⟩
    · have hbounds := consumed_bounds hparse
      by_cases hinterim : isInterimResponse m.response = true
      · -- the passes go on behind the interim response
        simp only [hinterim, if_true]
        have hnext := ih (c.inputBuffer.drop m.consumed).length
          (by rw [List.length_drop]; omega)
          { c with inputBuffer := c.inputBuffer.drop m.consumed } rfl
        have hdrop : ∀ n ≤ (c.inputBuffer.drop m.consumed).length, ∀ b,
            b = (c.inputBuffer.drop m.consumed).drop n →
            ∃ n ≤ c.inputBuffer.length, b = c.inputBuffer.drop n := by
          intro n hn b hb
          rw [List.length_drop] at hn
          exact ⟨m.consumed + n, by omega, by rw [hb, List.drop_drop]⟩
        rcases hdrain : { c with inputBuffer := c.inputBuffer.drop m.consumed }.drain
          with ⟨_ | response, c'⟩ | c'
        · simp only [hdrain] at hnext ⊢
          obtain ⟨hclosed, n, hn, hb⟩ := hnext
          exact ⟨hclosed, hdrop n hn _ hb⟩
        · simp only [hdrain] at hnext ⊢
          obtain ⟨hmethod, ⟨n, hn, hb⟩, hsurplus⟩ := hnext
          refine ⟨hmethod, hdrop n hn _ hb, fun hreusable t => ?_⟩
          rw [surplus_of_complete hparse, if_pos hinterim]
          exact hsurplus hreusable t
        · simp only [hdrain] at hnext ⊢
          obtain ⟨hmethod, ⟨n, hn, hb⟩, hsurplus⟩ := hnext
          refine ⟨hmethod, hdrop n hn _ hb, fun t => ?_⟩
          rw [surplus_of_complete hparse, if_pos hinterim]
          exact hsurplus t
      · simp only [hinterim]
        refine ⟨rfl, ⟨m.consumed, hbounds.2, rfl⟩, fun hreusable t => ?_⟩
        rw [surplus_of_complete hparse, if_neg hinterim]
        simp only at hreusable
        rw [hreusable, if_pos rfl]

/-! ### The invariant of a connection -/

namespace Link

/-- The buffer holds what has been delivered and not parsed. -/
structure WellFormed (l : Link) : Prop where
  buffered : l.connection.inputBuffer.length ≤ l.delivered
  delivered : l.delivered ≤ l.stream.length
  buffer : l.connection.inputBuffer = (l.stream.take l.delivered).drop l.parsed

/-- Everything that the server has sent is parsed, and it may send nothing more. -/
structure Quiet (l : Link) : Prop where
  buffer : l.connection.inputBuffer = []
  delivered : l.delivered = l.stream.length
  accepts : ∀ bytes, l.Accepts bytes → bytes = []

/-- The server answers the last request; the parser is at or behind its beginning,
with interim responses between them. -/
structure Answering (l : Link) : Prop where
  requests : 0 < l.requests
  mark : l.requestMark ≤ l.parsed
  surplus_eq : ∀ t, surplus l.connection.pendingMethod (l.stream.drop l.requestMark ++ t) =
    surplus l.connection.pendingMethod (l.stream.drop l.parsed ++ t)
  surplus_nil : surplus l.connection.pendingMethod (l.stream.drop l.requestMark) = []

/-- What holds of a connection in each phase of its leases. -/
def PhaseInv (l : Link) : Prop :=
  match l.phase with
  | .idle | .leased => l.Quiet
  | .sent => l.Answering
  | .receiving start => l.requestMark ≤ start ∧ l.Answering
  | .returned start response => (response.isSome = true → l.requestMark ≤ start) ∧
      (l.connection.connected = true → l.connection.reusable = true → l.Quiet)
  | .deleted => True

structure Inv (l : Link) : Prop where
  wellFormed : l.WellFormed
  phase : l.PhaseInv

/-- A response that was returned is parsed from bytes sent after its request. -/
def Attributed (l : Link) : Prop :=
  match l.phase with
  | .returned start (some _) => l.requestMark ≤ start
  | _ => True

instance (l : Link) : Decidable l.Attributed := by
  unfold Attributed
  split <;> infer_instance

variable {l l' : Link}

theorem inv_new (createdAtMs : UInt64) : (new createdAtMs).Inv :=
  ⟨⟨Nat.le_refl _, Nat.le_refl _, rfl⟩, ⟨rfl, rfl, fun _ h => h.1 rfl⟩⟩

/-- The unparsed part of the stream: the buffer and what has not been read. -/
theorem WellFormed.drop_parsed (h : l.WellFormed) :
    l.stream.drop l.parsed = l.connection.inputBuffer ++ l.stream.drop l.delivered := by
  have hle : l.parsed ≤ l.delivered := Nat.sub_le _ _
  have hlen := h.delivered
  calc l.stream.drop l.parsed
      = (l.stream.take l.delivered ++ l.stream.drop l.delivered).drop l.parsed := by
        rw [List.take_append_drop]
    _ = (l.stream.take l.delivered).drop l.parsed ++ l.stream.drop l.delivered :=
        List.drop_append_of_le_length (by rw [List.length_take]; omega)
    _ = l.connection.inputBuffer ++ l.stream.drop l.delivered := by rw [← h.buffer]

/-- Consuming a part of the buffer moves the parsed position. -/
theorem WellFormed.consume (h : l.WellFormed) {c : HttpConnection} {n : ℕ}
    (hn : n ≤ l.connection.inputBuffer.length) (hc : c.inputBuffer = l.connection.inputBuffer.drop n)
    (phase : LeasePhase) :
    { l with connection := c, phase := phase }.WellFormed ∧
      { l with connection := c, phase := phase }.parsed = l.parsed + n := by
  have hbuffered := h.buffered
  have hparsed : { l with connection := c, phase := phase }.parsed = l.parsed + n := by
    simp only [parsed, hc, List.length_drop]
    omega
  refine ⟨⟨?_, h.delivered, ?_⟩, hparsed⟩
  · simp only [hc, List.length_drop]
    omega
  · rw [hparsed]
    simp only [hc]
    rw [h.buffer, List.drop_drop]

/-- A connection that is given up. -/
theorem inv_returned_none (h : l.WellFormed) {c : HttpConnection}
    (hclosed : c.connected = false) {n : ℕ} (hn : n ≤ l.connection.inputBuffer.length)
    (hc : c.inputBuffer = l.connection.inputBuffer.drop n) (start : ℕ) :
    { l with connection := c, phase := .returned start none }.Inv := by
  refine ⟨(h.consume hn hc _).1, ?_, fun hconnected => ?_⟩
  · intro hsome
    exact absurd hsome (by simp)
  · exact absurd (hclosed.symm.trans hconnected) (by simp)

/-- The passes of a call keep the invariant. -/
theorem inv_pass (h : l.WellFormed) (hanswer : l.Answering) {start : ℕ}
    (hstart : l.requestMark ≤ start) : (l.pass start).Inv := by
  have hdrain := drain_surplus l.connection
  rw [pass]
  rcases hd : l.connection.drain with ⟨_ | response, c⟩ | c
  · simp only [hd] at hdrain ⊢
    obtain ⟨hclosed, n, hn, hc⟩ := hdrain
    exact inv_returned_none h hclosed hn hc start
  · simp only [hd] at hdrain ⊢
    obtain ⟨hmethod, ⟨n, hn, hc⟩, hsurplus⟩ := hdrain
    obtain ⟨hwf, hparsed⟩ := h.consume hn hc (.returned start (some response))
    refine ⟨hwf, fun _ => hstart, fun _ hreusable => ?_⟩
    -- nothing may come after the final response
    have hrest : ∀ t, surplus l.connection.pendingMethod (l.stream.drop l.requestMark ++ t) =
        c.inputBuffer ++ l.stream.drop l.delivered ++ t := by
      intro t
      rw [hanswer.surplus_eq, h.drop_parsed, List.append_assoc, hsurplus hreusable,
        List.append_assoc]
    have hnone := hrest []
    rw [List.append_nil, List.append_nil, hanswer.surplus_nil] at hnone
    obtain ⟨hbuffer, hwire⟩ := List.append_eq_nil_iff.mp hnone.symm
    refine ⟨hbuffer, ?_, fun bytes hbytes => ?_⟩
    · have hlen := List.drop_eq_nil_iff.mp hwire
      exact Nat.le_antisymm h.delivered hlen
    · have haccepts := hbytes.2
      simp only [hmethod] at haccepts
      rw [hrest, hbuffer, hwire] at haccepts
      exact haccepts
  · simp only [hd] at hdrain ⊢
    obtain ⟨hmethod, ⟨n, hn, hc⟩, hsurplus⟩ := hdrain
    obtain ⟨hwf, hparsed⟩ := h.consume hn hc (.receiving start)
    refine ⟨hwf, hstart, hanswer.requests, ?_, fun t => ?_, ?_⟩
    · rw [hparsed]
      exact Nat.le_trans hanswer.mark (Nat.le_add_right _ _)
    · have hdrop := hwf.drop_parsed
      simp only [hmethod]
      rw [hdrop, hanswer.surplus_eq, h.drop_parsed, List.append_assoc, hsurplus]
      simp only [List.append_assoc]
    · simp only [hmethod]
      exact hanswer.surplus_nil

theorem inv_sendRequest (h : l.WellFormed) (hquiet : l.Quiet) (method : HttpMethod)
    (outcome : HttpConnection.WriteOutcome) : (l.sendRequest method outcome).Inv := by
  have hbuffer : (l.connection.sendRequest method outcome).inputBuffer = [] := by
    cases outcome <;> exact hquiet.buffer
  have hparsed : (l.sendRequest method outcome).parsed = l.stream.length := by
    simp only [parsed, sendRequest, hbuffer, List.length_nil, Nat.sub_zero, hquiet.delivered]
  have hdrop : l.stream.drop l.stream.length = [] := List.drop_length
  refine ⟨⟨?_, h.delivered, ?_⟩, ?_⟩
  · simp only [sendRequest, hbuffer, List.length_nil]
    exact Nat.zero_le _
  · rw [hparsed]
    simp only [sendRequest, hbuffer, hquiet.delivered, List.take_length, hdrop]
  · rw [PhaseInv]
    by_cases hconnected : (l.connection.sendRequest method outcome).connected = true
    · -- the answer begins where the stream was, and is empty so far
      have hphase : (l.sendRequest method outcome).phase = .sent := if_pos hconnected
      rw [hphase]
      have hmark : (l.sendRequest method outcome).stream.drop
          (l.sendRequest method outcome).requestMark = [] := hdrop
      refine ⟨Nat.succ_pos _, hparsed ▸ Nat.le_refl _, fun t => ?_, ?_⟩
      · rw [hparsed]
        rfl
      · rw [hmark, Http.surplus_nil]
    · have hphase : (l.sendRequest method outcome).phase = .returned l.stream.length none :=
        if_neg hconnected
      rw [hphase]
      exact ⟨fun hsome => absurd hsome (by simp), fun h => absurd h hconnected⟩

theorem inv_beginReceive (h : l.WellFormed) (hanswer : l.Answering) : l.beginReceive.Inv :=
  inv_pass (l := { l with connection := l.connection.setLastError .ok [] })
    ⟨h.buffered, h.delivered, h.buffer⟩
    ⟨hanswer.requests, hanswer.mark, hanswer.surplus_eq, hanswer.surplus_nil⟩ hanswer.mark

/-- Bytes that are read go behind those in the buffer. -/
theorem WellFormed.received (h : l.WellFormed) {count : ℕ}
    (hcount : l.delivered + count ≤ l.stream.length) :
    { l with
      connection := { l.connection with
        inputBuffer := l.connection.inputBuffer ++ (l.stream.drop l.delivered).take count }
      delivered := l.delivered + count }.WellFormed ∧
    { l with
      connection := { l.connection with
        inputBuffer := l.connection.inputBuffer ++ (l.stream.drop l.delivered).take count }
      delivered := l.delivered + count }.parsed = l.parsed := by
  have hbuffered := h.buffered
  have hlen : ((l.stream.drop l.delivered).take count).length = count := by
    rw [List.length_take, List.length_drop]
    omega
  have hparsed : { l with
      connection := { l.connection with
        inputBuffer := l.connection.inputBuffer ++ (l.stream.drop l.delivered).take count }
      delivered := l.delivered + count }.parsed = l.parsed := by
    simp only [parsed, List.length_append, hlen]
    omega
  refine ⟨⟨?_, hcount, ?_⟩, hparsed⟩
  · simp only [List.length_append, hlen]
    omega
  · rw [hparsed]
    simp only
    rw [List.take_add, List.drop_append_of_le_length, ← h.buffer]
    have : l.parsed ≤ l.delivered := Nat.sub_le _ _
    rw [List.length_take]
    omega

theorem inv_endOfStream (h : l.WellFormed) {start : ℕ} (hstart : l.requestMark ≤ start) :
    { l with
      connection := l.connection.endOfStream.2
      phase := .returned start l.connection.endOfStream.1 }.Inv := by
  rw [HttpConnection.endOfStream_eq]
  rcases hparse : parseMessage l.connection.pendingMethod l.connection.inputBuffer true
    with failure | _ | m
  · exact inv_returned_none (c := (l.connection.setLastError .parseError failure.message).close)
      h rfl (Nat.zero_le _) rfl start
  · exact inv_returned_none (c := (l.connection.setLastError .receiveCloseByPeer
      (ascii "peer closed before a complete HTTP response was received")).close)
      h rfl (Nat.zero_le _) rfl start
  · have hle : m.consumed ≤ l.connection.inputBuffer.length := by
      rcases HttpResponseParser.parseMessage_eof l.connection.pendingMethod
        l.connection.inputBuffer with hsame | ⟨-, m', hm', hconsumed⟩
      · rw [hparse] at hsame
        exact (consumed_bounds hsame.symm).2
      · rw [hparse, Except.ok.injEq, Option.some_inj] at hm'
        rw [hm', hconsumed]
    refine ⟨(h.consume hle rfl _).1, fun _ => hstart, fun hconnected => ?_⟩
    exact absurd hconnected (by simp [HttpConnection.close])

/-- One read of a call keeps the invariant. -/
theorem inv_read (h : l.WellFormed) (hanswer : l.Answering) {start : ℕ}
    (hstart : l.requestMark ≤ start) {outcome : ReadOutcome}
    (hread : l.read start outcome = some l') : l'.Inv := by
  cases outcome with
  | received count =>
    rw [read] at hread
    split at hread
    · next hcount =>
      obtain ⟨hwf, hparsed⟩ := h.received hcount.2.2
      rw [← Option.some_inj.mp hread]
      refine inv_pass hwf ⟨hanswer.requests, ?_, fun t => ?_, hanswer.surplus_nil⟩ hstart
      · rw [hparsed]
        exact hanswer.mark
      · rw [hparsed]
        exact hanswer.surplus_eq t
    · exact absurd hread (by simp)
  | endOfStream =>
    rw [read] at hread
    split at hread
    · rw [← Option.some_inj.mp hread]
      exact inv_endOfStream h hstart
    · exact absurd hread (by simp)
  | failed isTimeout description =>
    rw [read, Option.some_inj] at hread
    rw [← hread]
    exact inv_returned_none (c := l.connection.readFailed isTimeout description)
      h rfl (Nat.zero_le _) rfl start

/-- A step of the server changes neither the connection nor its lease. -/
theorem PhaseInv.of_server (h : l.PhaseInv) (hphase : l'.phase = l.phase)
    (hmark : l'.requestMark = l.requestMark) (hconnection : l'.connection = l.connection)
    (hquiet : l.Quiet → l'.Quiet) (hanswering : l.Answering → l'.Answering) : l'.PhaseInv := by
  rw [PhaseInv] at h ⊢
  rw [hphase, hmark, hconnection]
  cases hp : l.phase with
  | idle =>
    rw [hp] at h
    exact hquiet h
  | leased =>
    rw [hp] at h
    exact hquiet h
  | sent =>
    rw [hp] at h
    exact hanswering h
  | receiving start =>
    rw [hp] at h
    exact ⟨h.1, hanswering h.2⟩
  | returned start response =>
    rw [hp] at h
    exact ⟨h.1, fun hconnected hreusable => hquiet (h.2 hconnected hreusable)⟩
  | deleted => exact trivial

/-- What the server sends goes behind what it has sent. -/
theorem inv_serve (h : l.Inv) {bytes : Bytes} (haccepts : l.Accepts bytes) :
    { l with stream := l.stream ++ bytes }.Inv := by
  obtain ⟨hwf, hphase⟩ := h
  have hdelivered := hwf.delivered
  have htake : (l.stream ++ bytes).take l.delivered = l.stream.take l.delivered :=
    List.take_append_of_le_length hdelivered
  refine ⟨⟨hwf.buffered, ?_, ?_⟩, ?_⟩
  · simp only [List.length_append]
    omega
  · simp only [htake]
    exact hwf.buffer
  · have hquiet : l.Quiet → { l with stream := l.stream ++ bytes }.Quiet := by
      intro hquiet
      rw [hquiet.accepts bytes haccepts, List.append_nil]
      exact hquiet
    have hanswering : l.Answering → { l with stream := l.stream ++ bytes }.Answering := by
      intro hanswer
      have hparsed : l.parsed ≤ l.stream.length := Nat.le_trans (Nat.sub_le _ _) hdelivered
      have hdropMark : (l.stream ++ bytes).drop l.requestMark =
          l.stream.drop l.requestMark ++ bytes :=
        List.drop_append_of_le_length (Nat.le_trans hanswer.mark hparsed)
      have hdropParsed : (l.stream ++ bytes).drop l.parsed = l.stream.drop l.parsed ++ bytes :=
        List.drop_append_of_le_length hparsed
      refine ⟨hanswer.requests, hanswer.mark, fun t => ?_, ?_⟩
      · change surplus _ ((l.stream ++ bytes).drop l.requestMark ++ t) =
          surplus _ ((l.stream ++ bytes).drop l.parsed ++ t)
        rw [hdropMark, hdropParsed, List.append_assoc, List.append_assoc]
        exact hanswer.surplus_eq _
      · change surplus _ ((l.stream ++ bytes).drop l.requestMark) = []
        rw [hdropMark]
        exact haccepts.2
    exact hphase.of_server rfl rfl rfl hquiet hanswering

/-- The invariant does not mention the end of the stream. -/
theorem inv_closePeer (h : l.Inv) : { l with peerClosed := true }.Inv := by
  obtain ⟨hwf, hphase⟩ := h
  have hquiet : l.Quiet → { l with peerClosed := true }.Quiet :=
    fun hquiet => ⟨hquiet.buffer, hquiet.delivered, hquiet.accepts⟩
  have hanswering : l.Answering → { l with peerClosed := true }.Answering :=
    fun hanswer => ⟨hanswer.requests, hanswer.mark, hanswer.surplus_eq, hanswer.surplus_nil⟩
  refine ⟨⟨hwf.buffered, hwf.delivered, hwf.buffer⟩, ?_⟩
  exact hphase.of_server rfl rfl rfl hquiet hanswering

/-- The invariant is kept by every step of the lease, and by the server while it
sends no more than it was asked for. -/
theorem step_inv (h : l.Inv) {action : LinkAction}
    (hcond : ∀ bytes, action = .serve bytes → l.Accepts bytes) (hstep : l.step action = some l') :
    l'.Inv := by
  have hphase := h.phase
  rw [PhaseInv] at hphase
  cases action with
  | sendRequest method outcome =>
    rw [step] at hstep
    split at hstep
    · next hleased =>
      rw [hleased] at hphase
      rw [← Option.some_inj.mp hstep]
      exact inv_sendRequest h.wellFormed hphase method outcome
    · exact absurd hstep (by simp)
  | beginReceive =>
    rw [step] at hstep
    split at hstep
    · next hsent =>
      rw [hsent] at hphase
      rw [← Option.some_inj.mp hstep]
      exact inv_beginReceive h.wellFormed hphase
    · exact absurd hstep (by simp)
  | read outcome =>
    rw [step] at hstep
    split at hstep
    · next start hreceiving =>
      rw [hreceiving] at hphase
      exact inv_read h.wellFormed hphase.2 hphase.1 hstep
    · exact absurd hstep (by simp)
  | serve bytes =>
    rw [step] at hstep
    split at hstep
    · exact absurd hstep (by simp)
    · rw [← Option.some_inj.mp hstep]
      exact inv_serve h (hcond bytes rfl)
  | closePeer =>
    rw [step, Option.some_inj] at hstep
    rw [← hstep]
    exact inv_closePeer h

/-- The lease of an idle connection has no steps. -/
theorem step_idle (hidle : l.phase = .idle) {action : LinkAction}
    (hstep : l.step action = some l') : l'.phase = .idle := by
  cases action with
  | sendRequest method outcome =>
    rw [step, if_neg (by simp [hidle])] at hstep
    exact absurd hstep (by simp)
  | beginReceive =>
    rw [step, if_neg (by simp [hidle])] at hstep
    exact absurd hstep (by simp)
  | read outcome => simp [step, hidle] at hstep
  | serve bytes =>
    rw [step] at hstep
    split at hstep
    · exact absurd hstep (by simp)
    · rw [← Option.some_inj.mp hstep]
      exact hidle
  | closePeer =>
    rw [← Option.some_inj.mp hstep]
    exact hidle

end Link

/-! ### The invariant of the pool -/

namespace HttpConnectionPool

structure Inv (pool : HttpConnectionPool) : Prop where
  nodup : pool.idleConnections.Nodup
  idle : ∀ id ∈ pool.idleConnections, ∃ l, pool.links id = some l ∧ l.phase = .idle
  links : ∀ id l, pool.links id = some l → l.Inv
  fresh : ∀ id, pool.created ≤ id → pool.links id = none

variable {pool pool' : HttpConnectionPool}

theorem inv_new (options : PoolOptions) : (new options).Inv :=
  ⟨List.nodup_nil, fun id h => absurd h List.not_mem_nil, fun id l h => absurd h (by simp [new]),
    fun _ _ => rfl⟩

@[simp] theorem setLink_links (id i : ℕ) (l : Link) :
    (pool.setLink id l).links i = if i = id then some l else pool.links i := rfl

/-- The invariant when one link changes. -/
theorem inv_setLink (h : pool.Inv) {id : ℕ} {l l' : Link} (hold : pool.links id = some l)
    (hinv : l'.Inv) (hidle : id ∈ pool.idleConnections → l'.phase = .idle) :
    (pool.setLink id l').Inv := by
  refine ⟨h.nodup, fun i hi => ?_, fun i m hm => ?_, fun i hi => ?_⟩
  · by_cases heq : i = id
    · subst heq
      exact ⟨l', by simp, hidle hi⟩
    · simpa [heq] using h.idle i hi
  · by_cases heq : i = id
    · rw [setLink_links, if_pos heq, Option.some_inj] at hm
      exact hm ▸ hinv
    · rw [setLink_links, if_neg heq] at hm
      exact h.links i m hm
  · have hne : i ≠ id := by
      rintro rfl
      rw [h.fresh i hi] at hold
      exact absurd hold (by simp)
    rw [setLink_links, if_neg hne]
    exact h.fresh i hi

/-- Fewer idle connections. -/
theorem inv_idle (h : pool.Inv) {ids : List ℕ} (hsub : ids.Sublist pool.idleConnections)
    (total : UInt32) : { pool with idleConnections := ids, total := total }.Inv :=
  ⟨h.nodup.sublist hsub, fun id hid => h.idle id (hsub.subset hid), h.links, h.fresh⟩

/-- A new connection has a new number. -/
theorem inv_setLink_new (h : pool.Inv) (total : UInt32) (createdAtMs : UInt64) :
    ({ pool with total := total, created := pool.created + 1 }.setLink pool.created
      (Link.new createdAtMs)).Inv := by
  refine ⟨h.nodup, fun i hi => ?_, fun i m hm => ?_, fun i hi => ?_⟩
  · obtain ⟨l, hlink, hidle⟩ := h.idle i hi
    have hne : i ≠ pool.created := by
      rintro rfl
      rw [h.fresh _ (Nat.le_refl _)] at hlink
      exact absurd hlink (by simp)
    exact ⟨l, by rw [setLink_links, if_neg hne]; exact hlink, hidle⟩
  · rw [setLink_links] at hm
    split at hm
    · rw [← Option.some_inj.mp hm]
      exact Link.inv_new createdAtMs
    · exact h.links i m hm
  · have hi : pool.created + 1 ≤ i := hi
    rw [setLink_links, if_neg (by omega)]
    exact h.fresh i (by omega)

theorem inv_phase {l : Link} (h : l.Inv) (hidle : l.phase = .idle) {phase : LeasePhase}
    (hphase : phase = .leased ∨ phase = .deleted) : { l with phase := phase }.Inv := by
  obtain ⟨hwf, hquiet⟩ := h
  refine ⟨⟨hwf.buffered, hwf.delivered, hwf.buffer⟩, ?_⟩
  rw [Link.PhaseInv, hidle] at hquiet
  rcases hphase with rfl | rfl
  · exact ⟨hquiet.buffer, hquiet.delivered, hquiet.accepts⟩
  · exact trivial

/-- An idle connection that is taken out of the deque changes its phase. -/
theorem inv_setPhase (h : pool.Inv) {id : ℕ} {l : Link} (hlink : pool.links id = some l)
    (hidle : l.phase = .idle) (hid : id ∉ pool.idleConnections) {phase : LeasePhase}
    (hphase : phase = .leased ∨ phase = .deleted) : (pool.setPhase id phase).Inv := by
  rw [setPhase, hlink]
  exact inv_setLink h hlink (inv_phase (h.links id l hlink) hidle hphase) fun hmem =>
    absurd hmem hid

theorem setPhase_links_of_ne {id i : ℕ} (hne : i ≠ id) (phase : LeasePhase) :
    (pool.setPhase id phase).links i = pool.links i := by
  rw [setPhase]
  split
  · rfl
  · rw [setLink_links, if_neg hne]

theorem setPhase_idleConnections (id : ℕ) (phase : LeasePhase) :
    (pool.setPhase id phase).idleConnections = pool.idleConnections := by
  rw [setPhase]
  split <;> rfl

/-- The deletion of connections that are not in the deque any more. -/
theorem inv_delete (h : pool.Inv) {ids : List ℕ} (hnodup : ids.Nodup)
    (hlinks : ∀ id ∈ ids, ∃ l, pool.links id = some l ∧ l.phase = .idle)
    (hout : ∀ id ∈ ids, id ∉ pool.idleConnections) :
    (ids.foldl (fun pool id => pool.setPhase id .deleted) pool).Inv ∧
    (ids.foldl (fun pool id => pool.setPhase id .deleted) pool).idleConnections =
      pool.idleConnections ∧
    ∀ i ∉ ids, (ids.foldl (fun pool id => pool.setPhase id .deleted) pool).links i =
      pool.links i := by
  induction ids generalizing pool with
  | nil => exact ⟨h, rfl, fun _ _ => rfl⟩
  | cons id ids ih =>
    obtain ⟨hid, hnodup⟩ := List.nodup_cons.mp hnodup
    obtain ⟨l, hlink, hidle⟩ := hlinks id (List.mem_cons_self ..)
    have hne : ∀ i ∈ ids, i ≠ id := fun i hi heq => hid (heq ▸ hi)
    obtain ⟨hinv, hdeque, hrest⟩ := ih
      (inv_setPhase h hlink hidle (hout id (List.mem_cons_self ..)) (.inr rfl)) hnodup
      (fun i hi => by
        rw [setPhase_links_of_ne (hne i hi)]
        exact hlinks i (List.mem_cons_of_mem _ hi))
      (fun i hi => by
        rw [setPhase_idleConnections]
        exact hout i (List.mem_cons_of_mem _ hi))
    refine ⟨hinv, hdeque.trans (setPhase_idleConnections ..), fun i hi => ?_⟩
    rw [List.mem_cons, not_or] at hi
    rw [List.foldl_cons, hrest i hi.2, setPhase_links_of_ne hi.1]

/-- The loop takes connections off the front of the deque. -/
theorem popIdle_append (pool : HttpConnectionPool) (now : UInt64) (ids : List ℕ) :
    ids = (pool.popIdle now ids).2.1 ++
      ((pool.popIdle now ids).1.toList ++ (pool.popIdle now ids).2.2) := by
  induction ids with
  | nil => rfl
  | cons id ids ih =>
    rw [popIdle]
    split
    · simp only [List.cons_append, List.cons.injEq, true_and]
      exact ih
    · rfl

theorem inv_getConnection (h : pool.Inv) (now : UInt64) (connects : Bool)
    (createdAtMs : UInt64) : (pool.getConnection now connects createdAtMs).Inv := by
  rw [getConnection]
  split
  · exact h
  · have hsplit := popIdle_append pool now pool.idleConnections
    rcases hpop : pool.popIdle now pool.idleConnections with ⟨found, invalid, rest⟩
    simp only [hpop] at hsplit ⊢
    have hnodup := h.nodup
    rw [hsplit, List.nodup_append] at hnodup
    obtain ⟨hinvalid, hothers, hdisjoint⟩ := hnodup
    have hrestSub : rest.Sublist pool.idleConnections := by
      rw [hsplit]
      exact (List.sublist_append_right ..).trans (List.sublist_append_right ..)
    have hidleLinks : ∀ id ∈ invalid, ∃ l, pool.links id = some l ∧ l.phase = .idle :=
      fun id hid => h.idle id (by rw [hsplit]; exact List.mem_append_left _ hid)
    -- after the unfit connections are gone
    obtain ⟨hinv, hdeque, hkept⟩ := inv_delete (inv_idle h hrestSub pool.total) hinvalid hidleLinks
      (fun id hid hrest => hdisjoint id hid id (List.mem_append_right _ hrest) rfl)
    cases found with
    | some id =>
      simp only [Option.toList_some, List.cons_append, List.nil_append] at hsplit hothers hdisjoint
      obtain ⟨l, hlink, hidle⟩ := h.idle id (by rw [hsplit]; simp)
      have hnotInvalid : id ∉ invalid := fun hmem => hdisjoint id hmem id (by simp) rfl
      have hnotRest : id ∉ rest := (List.nodup_cons.mp hothers).1
      have hlink' := (hkept id hnotInvalid).trans hlink
      have htotal := inv_idle hinv (List.Sublist.refl _) (pool.total - UInt32.ofNat invalid.length)
      exact inv_setPhase htotal hlink' hidle (by rw [hdeque]; exact hnotRest) (.inl rfl)
    | none =>
      simp only
      split
      · exact inv_setLink_new hinv _ createdAtMs
      · exact inv_idle hinv (List.Sublist.refl _) _

theorem inv_releaseConnection (h : pool.Inv) {id : ℕ} {l : Link} (now : UInt64)
    (hlink : pool.links id = some l) (hphase : isReleasable l.phase = true) :
    (pool.releaseConnection id now l).Inv := by
  obtain ⟨hwf, hinv⟩ := h.links id l hlink
  have hnotIdle : id ∉ pool.idleConnections := by
    intro hmem
    obtain ⟨l', hl', hidle⟩ := h.idle id hmem
    rw [hlink, Option.some_inj] at hl'
    rw [hl', hidle] at hphase
    exact absurd hphase (by simp [isReleasable])
  rw [releaseConnection]
  split
  · exact inv_setLink (inv_idle h (List.Sublist.refl _) _) hlink
      ⟨⟨hwf.buffered, hwf.delivered, hwf.buffer⟩, trivial⟩ fun hmem => absurd hmem hnotIdle
  · next hfit =>
    -- what is parked is connected and reusable, so its server is quiet
    have hquiet : l.Quiet := by
      simp only [isUnfit, Bool.not_eq_true, Bool.or_eq_false_iff, Bool.not_eq_false'] at hfit
      rw [Link.PhaseInv] at hinv
      cases hp : l.phase with
      | leased =>
        rw [hp] at hinv
        exact hinv
      | returned start response =>
        rw [hp] at hinv
        exact hinv.2 hfit.1.1 hfit.1.2
      | idle =>
        rw [hp] at hphase
        exact absurd hphase (by simp [isReleasable])
      | sent =>
        rw [hp] at hphase
        exact absurd hphase (by simp [isReleasable])
      | receiving start =>
        rw [hp] at hphase
        exact absurd hphase (by simp [isReleasable])
      | deleted =>
        rw [hp] at hphase
        exact absurd hphase (by simp [isReleasable])
    have hparked : { l with phase := .idle }.Inv :=
      ⟨⟨hwf.buffered, hwf.delivered, hwf.buffer⟩,
        ⟨hquiet.buffer, hquiet.delivered, hquiet.accepts⟩⟩
    refine ⟨?_, fun i hi => ?_, fun i m hm => ?_, fun i hi => ?_⟩
    · exact List.nodup_append.mpr ⟨h.nodup, List.nodup_singleton _, fun a ha b hb heq =>
        hnotIdle (by rw [← List.mem_singleton.mp hb, ← heq]; exact ha)⟩
    · by_cases heq : i = id
      · exact ⟨_, by rw [setLink_links, if_pos heq], rfl⟩
      · have hi : i ∈ pool.idleConnections := by
          rcases List.mem_append.mp hi with hi | hi
          · exact hi
          · exact absurd (List.mem_singleton.mp hi) heq
        obtain ⟨l', hl', hidle⟩ := h.idle i hi
        exact ⟨l', by rw [setLink_links, if_neg heq]; exact hl', hidle⟩
    · rw [setLink_links] at hm
      split at hm
      · exact Option.some_inj.mp hm ▸ hparked
      · exact h.links i m hm
    · have hne : i ≠ id := by
        rintro rfl
        rw [h.fresh i hi] at hlink
        exact absurd hlink (by simp)
      rw [setLink_links, if_neg hne]
      exact h.fresh i hi

/-- No server sends more than it was asked for. -/
def Answered (pool : HttpConnectionPool) : PoolAction → Prop
  | .onLink id (.serve bytes) => ∀ l, pool.links id = some l → l.Accepts bytes
  | _ => True

theorem step_inv (h : pool.Inv) {action : PoolAction} (hcond : pool.Answered action)
    (hstep : pool.step action = some pool') : pool'.Inv := by
  cases action with
  | getConnection now connects createdAtMs =>
    rw [← Option.some_inj.mp hstep]
    exact inv_getConnection h now connects createdAtMs
  | releaseConnection id now =>
    rw [step] at hstep
    split at hstep
    · next l hlink =>
      split at hstep
      · next hphase =>
        rw [← Option.some_inj.mp hstep]
        exact inv_releaseConnection h now hlink hphase
      · exact absurd hstep (by simp)
    · exact absurd hstep (by simp)
  | onLink id action =>
    rw [step, onLink] at hstep
    obtain ⟨l', hl', rfl⟩ := Option.map_eq_some_iff.mp hstep
    obtain ⟨l, hlink, hl'⟩ := Option.bind_eq_some_iff.mp hl'
    have haccepts : ∀ bytes, action = .serve bytes → l.Accepts bytes := by
      rintro bytes rfl
      exact hcond l hlink
    refine inv_setLink h hlink (Link.step_inv (h.links id l hlink) haccepts hl') fun hmem => ?_
    obtain ⟨m, hm, hidle⟩ := h.idle id hmem
    rw [hlink, Option.some_inj] at hm
    exact Link.step_idle (hm ▸ hidle) hl'

/-- Every response is parsed from bytes that its server sent after the request, and
no connection is parked with unread bytes. -/
structure Clean (pool : HttpConnectionPool) : Prop where
  buffer : ∀ id l, pool.links id = some l →
    l.connection.inputBuffer = (l.stream.take l.delivered).drop l.parsed
  attributed : ∀ id l, pool.links id = some l → l.Attributed
  parked : ∀ id ∈ pool.idleConnections, ∀ l, pool.links id = some l →
    l.connection.inputBuffer = []

theorem Inv.clean (h : pool.Inv) : pool.Clean := by
  refine ⟨fun id l hl => (h.links id l hl).wellFormed.buffer, fun id l hl => ?_,
    fun id hid l hl => ?_⟩
  · have hphase := (h.links id l hl).phase
    rw [Link.PhaseInv] at hphase
    rw [Link.Attributed]
    cases hp : l.phase with
    | returned start response =>
      rw [hp] at hphase
      cases response with
      | none => exact trivial
      | some response => exact hphase.1 rfl
    | _ => exact trivial
  · obtain ⟨l', hl', hidle⟩ := h.idle id hid
    rw [hl, Option.some_inj] at hl'
    have hphase := (h.links id l hl).phase
    rw [Link.PhaseInv, hl', hidle] at hphase
    exact hl' ▸ hphase.buffer

/-- In every run in which no server sends more than it was asked for, no request is
handed the bytes of another. -/
theorem clean_of_answered (options : PoolOptions)
    (h : (system options).ReachableWhile Answered pool) : pool.Clean := by
  refine Inv.clean (h.invariant ?_ ?_)
  · rintro pool rfl
    exact inv_new options
  · intro pool action pool' hinv hcond hstep
    exact step_inv hinv hcond hstep

/-- A pool for one connection. -/
def exampleOptions : PoolOptions := ⟨ascii "example.org", [], 80, false, 1, 0, 0⟩

/-- A response without a body. -/
def emptyResponse : Bytes := ascii "HTTP/1.1 200 OK\r\nContent-Length: 0\r\n\r\n"

/-- A lease, and a request on it. -/
def requestActions : List PoolAction :=
  [.getConnection 0 true 0, .onLink 0 (.sendRequest .get .written)]

/-- The answer in one segment, and the end of the lease. -/
def answerActions (segment : Bytes) : List PoolAction :=
  [.onLink 0 (.serve segment), .onLink 0 .beginReceive,
   .onLink 0 (.read (.received segment.length)), .releaseConnection 0 0]

/-- A request and its answer. -/
theorem clean_of_answered_exchange :
    ∃ pool, (system exampleOptions).exec (new exampleOptions)
        (requestActions ++ answerActions emptyResponse) = some pool ∧
      pool.idleConnections = [0] ∧ pool.Clean := by
  have hrun : ((system exampleOptions).exec (new exampleOptions)
      (requestActions ++ answerActions emptyResponse)).any
        (fun pool => pool.idleConnections == [0]) = true := by
    decide +kernel
  obtain ⟨pool, hexec, hidle⟩ := (Option.any_eq_true _ _).mp hrun
  refine ⟨pool, hexec, by simpa using hidle, clean_of_answered exampleOptions ?_⟩
  refine .exec (.init rfl) ?_ hexec
  -- the only step with a condition is that of the server
  refine ⟨trivial, fun p₁ h₁ => ⟨trivial, fun p₂ h₂ => ⟨fun l hl => ?_, fun _ _ => ⟨trivial,
    fun _ _ => ⟨trivial, fun _ _ => ⟨trivial, fun _ _ => trivial⟩⟩⟩⟩⟩⟩
  have hlink : ((system exampleOptions).exec (new exampleOptions) requestActions).bind
      (fun pool => pool.links 0) = some ((Link.new 0).sendRequest .get .written) := by
    decide +kernel
  have hsent : (system exampleOptions).exec (new exampleOptions) requestActions = some p₂ := by
    simp only [requestActions, System.exec, h₁, h₂, Option.bind_some]
  rw [hsent, Option.bind_some, hl, Option.some_inj] at hlink
  rw [hlink]
  exact ⟨by decide, by decide +kernel⟩

/-- An answer with more than was asked for: its second half is taken for the answer
to the next request. -/
theorem not_clean_surplus :
    ¬ ∀ pool, (system exampleOptions).Reachable pool → pool.Clean := by
  intro hclean
  have hrun : ((system exampleOptions).exec (new exampleOptions)
      (requestActions ++ answerActions (emptyResponse ++ emptyResponse) ++ requestActions ++
        [.onLink 0 .beginReceive])).any
        (fun pool => (pool.links 0).any fun l => !decide l.Attributed) = true := by
    decide +kernel
  obtain ⟨pool, hexec, hwrong⟩ := (Option.any_eq_true _ _).mp hrun
  obtain ⟨l, hlink, hl⟩ := (Option.any_eq_true _ _).mp hwrong
  have hreach := ReachableWhile.exec (.init rfl) (System.meets_true _ _ _) hexec
  have := (hclean pool hreach).attributed 0 l hlink
  simp [this] at hl

end HttpConnectionPool

end Http

/-
Messages that are sent as a whole.

`HttpConnection::sendRequest` and `HttpServer::handleClient` hand a message to
`writeFixSize` and take a result that is not positive for a failure.  As long as the
length of the message is positive as an `int`, that is right.

* `sendRequestOn`, `sendAndContinue` — the two calls on a socket;
* `SendsExactly`, `ServesExactly` — a message is taken as sent exactly when it is;
* `fixSize_exact_iff` — for which lengths that is so, and the results of `readFixSize`
  and `writeFixSize` are.
-/
import Droplet.Http.Pool
import Droplet.Http.Server
import Droplet.Stream.FixSize

open Stream (SocketStream Kernel)
open Stream.SocketStream (Sent IntLength ReadsExactly WritesExactly fullKernel)

namespace Http

/-! ### Requests -/

namespace HttpConnection

/-- What the result of `writeFixSize` is taken for; the last two say what `errno` is. -/
def writeOutcome (result : Int) (isTimeout : Bool) (description : Bytes) : WriteOutcome :=
  if result ≤ 0 then
    if result = 0 then .closedByPeer else .failed isTimeout description
  else .written

/-- `sendRequest` on the socket of the connection: its result, the connection and the
socket. -/
def sendRequestOn (c : HttpConnection) (kernel : Kernel) (stream : SocketStream UInt8)
    (request : HttpRequest) (isTimeout : Bool) (description : Bytes) :
    Int × HttpConnection × SocketStream UInt8 :=
  match SocketStream.writeFixSize kernel request.dump stream with
  | .ok result stream =>
    (result, c.sendRequest request.method (writeOutcome result isTimeout description), stream)
  | .error e _ => e.elim

/-- The request is taken as sent exactly when it is: else the connection is closed. -/
def SendsExactly (kernel : Kernel) (c : HttpConnection) (stream : SocketStream UInt8)
    (request : HttpRequest) (isTimeout : Bool) (description : Bytes) : Prop :=
  ∃ n ≤ request.dump.length,
    Sent stream request.dump n (c.sendRequestOn kernel stream request isTimeout description).2.2 ∧
    (0 < (c.sendRequestOn kernel stream request isTimeout description).1 ↔ n = request.dump.length) ∧
    ((c.sendRequestOn kernel stream request isTimeout description).2.1.connected = true ↔
      n = request.dump.length)

end HttpConnection

/-! ### Responses -/

namespace HttpServer

/-- `close_after_response`. -/
def closeAfterResponse (keepAlive : Bool) (request : HttpRequest) (response : HttpResponse) : Bool :=
  response.close || request.close || !keepAlive

/-- The end of a round of `handleClient`: the response that the servlets leave is sent, and
the loop goes on or not. -/
def sendAndContinue (kernel : Kernel) (keepAlive : Bool) (request : HttpRequest)
    (response : HttpResponse) (stream : SocketStream UInt8) : Bool × SocketStream UInt8 :=
  match SocketStream.writeFixSize kernel (finishResponse keepAlive request response).dump stream with
  | .ok result stream =>
    (!(decide (result ≤ 0) || closeAfterResponse keepAlive request response), stream)
  | .error e _ => e.elim

/-- Unless it is to end anyway, the loop goes on exactly when the response has been sent. -/
def ServesExactly (kernel : Kernel) (keepAlive : Bool) (request : HttpRequest)
    (response : HttpResponse) (stream : SocketStream UInt8) : Prop :=
  ∃ n ≤ (finishResponse keepAlive request response).dump.length,
    Sent stream (finishResponse keepAlive request response).dump n
      (sendAndContinue kernel keepAlive request response stream).2 ∧
    ((sendAndContinue kernel keepAlive request response stream).1 = true ↔
      n = (finishResponse keepAlive request response).dump.length ∧
        closeAfterResponse keepAlive request response = false)

end HttpServer

/-! ### The lengths of messages -/

theorem HttpRequest.length_dump_pos (request : HttpRequest) : 0 < request.dump.length := by
  have hcrlf : 0 < crlf.length := by decide
  simp only [HttpRequest.dump, List.length_append]
  omega

theorem HttpResponse.length_dump_pos (response : HttpResponse) : 0 < response.dump.length := by
  have hcrlf : 0 < crlf.length := by decide
  simp only [HttpResponse.dump, List.length_append]
  omega

namespace HttpConnection

variable {kernel : Kernel} {c : HttpConnection} {stream stream' : SocketStream UInt8}
  {request : HttpRequest} {result : Int} {isTimeout : Bool} {description : Bytes}

theorem sendRequestOn_eq (hrun : SocketStream.writeFixSize kernel request.dump stream =
      .ok result stream') :
    c.sendRequestOn kernel stream request isTimeout description =
      (result, c.sendRequest request.method (writeOutcome result isTimeout description), stream') := by
  rw [sendRequestOn, hrun]

/-- A connection stays open when the result is positive. -/
theorem connected_sendRequest (hconnected : c.connected = true) (method : HttpMethod) :
    (c.sendRequest method (writeOutcome result isTimeout description)).connected = true ↔
      0 < result := by
  rw [writeOutcome]
  by_cases hstop : result ≤ 0
  · rw [if_pos hstop]
    by_cases hzero : result = 0
    · rw [if_pos hzero]
      exact iff_of_false (by simp [sendRequest, close]) (Int.not_lt.mpr hstop)
    · rw [if_neg hzero]
      exact iff_of_false (by simp [sendRequest, close]) (Int.not_lt.mpr hstop)
  · rw [if_neg hstop]
    exact iff_of_true hconnected (Int.not_le.mp hstop)

theorem sendsExactly_of_intLength (hkernel : kernel.Valid) (hconnected : c.connected = true)
    (hlength : IntLength request.dump.length) :
    SendsExactly kernel c stream request isTimeout description := by
  obtain ⟨r, stream', n, hrun, hle, hsent, hpositive, -⟩ :=
    SocketStream.writesExactly_of_intLength hkernel stream hlength
  have hall : 0 < r ↔ n = request.dump.length := by
    rw [hpositive]
    exact and_iff_right request.length_dump_pos
  refine ⟨n, hle, ?_⟩
  rw [sendRequestOn_eq hrun]
  exact ⟨hsent, hall, (connected_sendRequest hconnected request.method).trans hall⟩

theorem not_sendsExactly (hstream : stream.connected = true) (hlt : request.dump.length < 2 ^ 63)
    (hint : ¬ IntLength request.dump.length) :
    ¬ SendsExactly fullKernel c stream request isTimeout description := by
  rintro ⟨n, hle, hsent, hpositive, -⟩
  obtain ⟨stream', hrun, hall⟩ := SocketStream.writeFixSize_full hstream hlt
  rw [sendRequestOn_eq hrun] at hsent hpositive
  dsimp only at hsent hpositive
  exact hint (.inr ((SocketStream.narrow_pos_iff _).mp
    (hpositive.mpr (hsent.unique hall hle (Nat.le_refl _)))))

end HttpConnection

namespace HttpServer

variable {kernel : Kernel} {stream stream' : SocketStream UInt8} {keepAlive : Bool}
  {request : HttpRequest} {response : HttpResponse} {result : Int}

theorem sendAndContinue_eq (hrun : SocketStream.writeFixSize kernel
      (finishResponse keepAlive request response).dump stream = .ok result stream') :
    sendAndContinue kernel keepAlive request response stream =
      (!(decide (result ≤ 0) || closeAfterResponse keepAlive request response), stream') := by
  rw [sendAndContinue, hrun]

theorem continues_iff (result : Int) (close : Bool) :
    (!(decide (result ≤ 0) || close)) = true ↔ 0 < result ∧ close = false := by
  rw [Bool.not_eq_true', Bool.or_eq_false_iff, decide_eq_false_iff_not, Int.not_le]

theorem servesExactly_of_intLength (hkernel : kernel.Valid)
    (hlength : IntLength (finishResponse keepAlive request response).dump.length ∨
      closeAfterResponse keepAlive request response = true) :
    ServesExactly kernel keepAlive request response stream := by
  obtain ⟨r, stream', hrun, hend⟩ := SocketStream.writeFixSize_spec hkernel stream
    (finishResponse keepAlive request response).dump
  rw [ServesExactly, sendAndContinue_eq hrun, continues_iff]
  obtain ⟨⟨hsent, -⟩, hr⟩ | ⟨n, hlt, hstop, hsent, -⟩ := hend
  · refine ⟨_, Nat.le_refl _, hsent, ?_⟩
    obtain hint | hclose := hlength
    · rw [hr, hint.narrow_pos_iff]
      exact and_congr_left' (iff_of_true ⟨HttpResponse.length_dump_pos _, rfl⟩ rfl)
    · rw [hclose]
      exact iff_of_false (fun h => absurd h.2 (by decide)) fun h => absurd h.2 (by decide)
  · refine ⟨n, Nat.le_of_lt hlt, hsent, ?_⟩
    exact iff_of_false (fun h => Int.not_lt.mpr hstop h.1) fun h => Nat.ne_of_lt hlt h.1

theorem not_servesExactly (hstream : stream.connected = true)
    (hlt : (finishResponse keepAlive request response).dump.length < 2 ^ 63)
    (hint : ¬ (IntLength (finishResponse keepAlive request response).dump.length ∨
      closeAfterResponse keepAlive request response = true)) :
    ¬ ServesExactly fullKernel keepAlive request response stream := by
  rintro ⟨n, hle, hsent, hpositive⟩
  obtain ⟨stream', hrun, hall⟩ := SocketStream.writeFixSize_full hstream hlt
  rw [sendAndContinue_eq hrun] at hsent hpositive
  dsimp only at hsent hpositive
  have hclose : closeAfterResponse keepAlive request response = false :=
    Bool.eq_false_of_not_eq_true fun htrue => hint (.inr htrue)
  have hgoes := hpositive.mpr ⟨hsent.unique hall hle (Nat.le_refl _), hclose⟩
  exact hint (.inl (.inr ((SocketStream.narrow_pos_iff _).mp ((continues_iff _ _).mp hgoes).1)))

end HttpServer

/-! ### Which lengths -/

/-- A connected socket. -/
def openStream : SocketStream UInt8 := ⟨true, fun _ => 0, 0, [], []⟩

/-- **Transfers of a fixed size**, for each length: whatever the system calls do,
`readFixSize` and `writeFixSize` return a positive value exactly when all bytes have gone
through, in order, and else the first value that is not positive, if and only if the
low 32 bits of the length are a positive `int`, or the length is zero.  The same holds for
what `sendRequest` and `handleClient` make of the results for a message of this length,
but for a response after which the connection is closed anyway. -/
theorem fixSize_exact_iff (length : ℕ) (hlength : length < 2 ^ 63) :
    ((∀ kernel, Kernel.Valid kernel → ∀ (stream : SocketStream UInt8) memory,
        memory.length = length → ReadsExactly kernel stream memory length) ↔ IntLength length) ∧
    ((∀ kernel, Kernel.Valid kernel → ∀ (stream : SocketStream UInt8) data,
        data.length = length → WritesExactly kernel stream data) ↔ IntLength length) ∧
    (∀ request : HttpRequest, request.dump.length = length →
      ((∀ kernel, Kernel.Valid kernel → ∀ c : HttpConnection, c.connected = true →
          ∀ stream isTimeout description,
            HttpConnection.SendsExactly kernel c stream request isTimeout description) ↔
        IntLength length)) ∧
    ∀ keepAlive request response,
      (HttpServer.finishResponse keepAlive request response).dump.length = length →
        ((∀ kernel, Kernel.Valid kernel → ∀ stream,
            HttpServer.ServesExactly kernel keepAlive request response stream) ↔
          IntLength length ∨ HttpServer.closeAfterResponse keepAlive request response = true) := by
  have hvalid := SocketStream.fullKernel_valid
  have hopen : openStream.connected = true := rfl
  refine ⟨⟨?_, ?_⟩, ⟨?_, ?_⟩, ?_, ?_⟩
  · intro hall
    by_contra hint
    exact SocketStream.not_readsExactly hopen _ hlength hint
      (hall fullKernel hvalid openStream (List.replicate length 0) List.length_replicate)
  · intro hint kernel hkernel stream memory _
    exact SocketStream.readsExactly_of_intLength hkernel stream memory hint
  · intro hall
    by_contra hint
    have hdata : (List.replicate length (0 : UInt8)).length = length := List.length_replicate
    exact SocketStream.not_writesExactly hopen (by rwa [hdata])
      (by rwa [hdata]) (hall fullKernel hvalid openStream _ hdata)
  · rintro hint kernel hkernel stream data rfl
    exact SocketStream.writesExactly_of_intLength hkernel stream hint
  · rintro request rfl
    constructor
    · intro hall
      by_contra hint
      exact HttpConnection.not_sendsExactly rfl hlength hint
        (hall fullKernel hvalid (HttpConnection.new 0) rfl openStream false [])
    · intro hint kernel hkernel c hconnected stream isTimeout description
      exact HttpConnection.sendsExactly_of_intLength hkernel hconnected hint
  · rintro keepAlive request response rfl
    constructor
    · intro hall
      by_contra hint
      exact HttpServer.not_servesExactly rfl hlength hint (hall fullKernel hvalid openStream)
    · intro hint kernel hkernel stream
      exact HttpServer.servesExactly_of_intLength hkernel hint

/-- Three bytes that are sent at once. -/
theorem fixSize_exact_iff_three : WritesExactly fullKernel openStream [1, 2, 3] := by
  have hint : IntLength 3 := by
    rw [IntLength]
    omega
  obtain ⟨-, hwrites, -⟩ := fixSize_exact_iff 3 (by omega)
  exact hwrites.mpr hint fullKernel SocketStream.fullKernel_valid openStream [1, 2, 3] rfl

/-- Two to the power of 31 bytes are all sent, and the result is negative. -/
theorem not_writesExactly_large : ¬ ∀ length < 2 ^ 63, ∀ kernel, Kernel.Valid kernel →
    ∀ (stream : SocketStream UInt8) data, data.length = length → WritesExactly kernel stream data := by
  intro hall
  have hdata : (List.replicate (2 ^ 31) (0 : UInt8)).length = 2 ^ 31 := List.length_replicate
  have hint : ¬ IntLength (2 ^ 31) := by
    rw [IntLength]
    omega
  have hwrites := hall (2 ^ 31) (by omega) fullKernel SocketStream.fullKernel_valid openStream
    (List.replicate (2 ^ 31) 0) hdata
  rw [← hdata] at hint
  exact SocketStream.not_writesExactly rfl (by omega) hint hwrites

end Http

/-
Messages that go through a connection as they are.

A request or a response of this kind is read back whole by the parser of the other side, which
waits as long as a part of it is missing and leaves alone what comes behind it.

* `HttpRequest.Plain.parsed`, `HttpResponse.Plain.parsed` — what the parser reports on the
  message, whatever follows;
* `HttpRequest.Plain.waits`, `HttpResponse.Plain.waits` — what it reports on a proper part, also
  where the connection ends there.
-/
import Droplet.Http.CloseFlag
import Droplet.Http.Connection
import Droplet.Http.Server
import Droplet.Http.RequestRoundTrip

open Search Lines

namespace Http

/-! ### Requests -/

namespace HttpRequest

variable {r : HttpRequest}

/-- A request that the server reads as it was put together. -/
structure Plain (r : HttpRequest) : Prop where
  sendable : r.Sendable
  block : r.headerBlock.length ≤ HttpRequestParser.kMaxHeaderSize
  visible : Visible r.path ∧ Visible r.query
  uncoded : r.Uncoded
  announced : r.announcedLength = some r.body.length

/-- A request as another one reads: what a servlet sees of it. -/
def Matches (r r' : HttpRequest) : Prop :=
  r'.method = r.method ∧ r'.path = r.path ∧ r'.query = r.query ∧ r'.body = r.body

theorem Plain.parsed (h : r.Plain) (rest : Bytes) :
    ∃ m, HttpRequestParser.parseMessage (r.dump ++ rest) = .ok (some m) ∧
      m.consumed = r.dump.length ∧ r.Matches m.request := by
  have hread := HttpRequestParser.readsBack_iff.mp
    ((HttpRequestParser.readsBack_dump_iff h.sendable h.block).mpr
      ⟨h.visible, h.uncoded, h.announced⟩)
  exact hread rest

/-- On a proper part of the request the parser waits. -/
theorem Plain.waits (h : r.Plain) {part : Bytes} (hpart : part <+: r.dump)
    (hlt : part.length < r.dump.length) : HttpRequestParser.parseMessage part = .ok none := by
  by_contra hreport
  obtain ⟨rest, hrest⟩ := hpart
  obtain ⟨m, hm, hconsumed, -⟩ := h.parsed []
  -- a report on the part would be one on the request
  have hsame := HttpRequestParser.parseMessage_append (t := rest) hreport
  rw [hrest, ← List.append_nil r.dump, hm] at hsame
  have hle := HttpRequestParser.consumed_le hsame.symm
  omega

theorem Plain.dump_ne_nil (h : r.Plain) : r.dump ≠ [] := by
  intro hnil
  obtain ⟨m, hm, -⟩ := h.parsed []
  rw [hnil, List.append_nil, HttpRequestParser.parseMessage_nil] at hm
  exact absurd hm (by simp)

end HttpRequest

/-! ### Responses -/

namespace HttpResponse

variable {r : HttpResponse} {method : HttpMethod}

/-- A response that a client with a request of this method reads as it was sent. -/
structure Plain (method : HttpMethod) (r : HttpResponse) : Prop where
  sendable : r.Sendable
  status : 200 ≤ r.status ∧ r.status ≤ 599
  block : r.headerBlock.length ≤ HttpResponseParser.kMaxHeaderSize
  version : r.version = 0x10 ∨ r.version = 0x11
  uncoded : responseAllowsBody r.status = true →
    r.headers.find? (ascii "Transfer-Encoding") = none
  bodiless : HttpResponseParser.responseHasNoBody method r.status = true → r.sentBody = []

/-- A response as a client with a request of this method reads it. -/
def Matches (method : HttpMethod) (r r' : HttpResponse) : Prop :=
  r'.status = r.status ∧ r'.close = r.close ∧
    r'.body = if HttpResponseParser.responseHasNoBody method r.status then [] else r.body

theorem Plain.range (h : Plain method r) : 100 ≤ r.status ∧ r.status ≤ 999 := by
  obtain ⟨hlow, hhigh⟩ := h.status
  simp only [UInt16.le_iff_toNat_le] at hlow hhigh ⊢
  exact ⟨Nat.le_trans (by decide) hlow, Nat.le_trans hhigh (by decide)⟩

/-- The fields of the serializer, as the source has them behind the colon. -/
theorem headerBlock_eq_headText (r : HttpResponse) : r.headerBlock =
    HttpResponseParser.headText r.statusLine
      (r.sentFields.map fun field => (field.1, 32 :: field.2)) := by
  rw [headerBlock, HttpResponseParser.headText, List.flatMap_map]
  refine congrArg (fun text => r.statusLine ++ crlf ++ text ++ crlf) ?_
  refine congrArg (fun f => r.sentFields.flatMap f) (funext fun field => ?_)
  rw [fieldLine_eq, fieldText_eq]

theorem valuesOf_sentFields (h : r.Sendable) :
    valuesOf (ascii "connection") (r.sentFields.map fun field => (field.1, 32 :: field.2)) =
      [connectionValue r.close] := by
  have hkept : ∀ field ∈ r.headers.entries.filter (fun e =>
      !(caseInsensitiveEqual e.1 (ascii "connection") ||
        caseInsensitiveEqual e.1 (ascii "content-length"))),
      caseInsensitiveEqual field.1 (ascii "connection") = false := by
    intro field hfield
    obtain ⟨-, hname⟩ := List.mem_filter.mp hfield
    rw [Bool.not_eq_true', Bool.or_eq_false_iff] at hname
    exact hname.1
  have hnames : r.sentFields.filter
      (fun field => caseInsensitiveEqual field.1 (ascii "connection")) =
      [(ascii "Connection", connectionValue r.close)] := by
    rw [h.sentFields, unframedFields, List.filter_append, List.filter_append, List.filter_append,
      List.filter_eq_nil_iff.mpr fun field hfield => by rw [hkept field hfield]; simp]
    have hcookies : (r.cookies.map fun cookie => (ascii "Set-Cookie", cookie)).filter
        (fun field => caseInsensitiveEqual field.1 (ascii "connection")) = [] := by
      refine List.filter_eq_nil_iff.mpr fun field hfield => ?_
      obtain ⟨cookie, -, rfl⟩ := List.mem_map.mp hfield
      show ¬ caseInsensitiveEqual (ascii "Set-Cookie") (ascii "connection") = true
      decide
    have hlength : (if responseAllowsBody r.status then
        [(ascii "Content-Length", decimal r.body.length)] else []).filter
        (fun field => caseInsensitiveEqual field.1 (ascii "connection")) = [] := by
      refine List.filter_eq_nil_iff.mpr fun field hfield => ?_
      split at hfield
      · rw [List.mem_singleton.mp hfield]
        show ¬ caseInsensitiveEqual (ascii "Content-Length") (ascii "connection") = true
        decide
      · exact absurd hfield List.not_mem_nil
    rw [hcookies, hlength]
    rfl
  rw [valuesOf, List.filter_map]
  show List.map _ (List.map _ (r.sentFields.filter
    fun field => caseInsensitiveEqual field.1 (ascii "connection"))) = _
  rw [hnames]
  rcases r.close with _ | _
  · decide
  · decide

/-- The header section as the client has read it. -/
theorem Plain.head (h : Plain method r) (rest : Bytes) :
    ∃ hs, HttpResponseParser.parseHead (r.headerBlock ++ rest) =
        .ok (some (r.headerBlock.length, hs)) ∧
      hs.framing = r.sentFraming ∧ hs.response.close = r.close := by
  have honce : (responseAllowsBody r.status &&
      (r.headers.find? (ascii "Transfer-Encoding")).isSome) = false := by
    by_cases hallowed : responseAllowsBody r.status = true
    · simp [h.uncoded hallowed]
    · simp [hallowed]
  obtain ⟨hs, hhead, hframing⟩ :=
    HttpResponseParser.parseHead_dump h.sendable h.version h.range h.block honce rest
  refine ⟨hs, hhead, hframing, ?_⟩
  -- the one `Connection` field
  have hvalid : HttpResponseParser.ValidHead r.statusLine
      (r.sentFields.map fun field => (field.1, 32 :: field.2)) := by
    refine ⟨h.sendable.statusLine, fun field hfield => ?_⟩
    obtain ⟨sent, hsent, rfl⟩ := List.mem_map.mp hfield
    have hvalidField := h.sendable.validField sent hsent
    refine ⟨hvalidField.1, ?_⟩
    rw [trim_space_cons]
    exact isValidHeaderValue_trim hvalidField.2
  rw [headerBlock_eq_headText] at hhead
  obtain ⟨-, response, s, -, hcollects, hfinished⟩ :=
    HttpResponseParser.parseHead_headText hvalid hhead
  have hseen : s.connectionSeen = true := by
    rw [hcollects.connectionSeen, valuesOf_sentFields h.sendable]
    rfl
  have hheader : s.connectionHeader = connectionValue r.close := by
    rw [hcollects.connectionHeader, valuesOf_sentFields h.sendable]
    rfl
  rw [hfinished]
  show (HttpResponseParser.finishedResponse s).close = r.close
  rw [HttpResponseParser.finishedResponse, hseen, if_pos rfl, hheader]
  show closeFrom _ (getHeader _ (ascii "connection")) = r.close
  rw [getHeader, setHeader, HttpMap.find?_insertOrAssign,
    if_pos (show caseInsensitiveEqual (ascii "Connection") (ascii "connection") = true by decide),
    Option.getD_some]
  exact HttpRequest.closeFrom_connectionValue _ _

/-- Where the body is framed by its length. -/
theorem Plain.body (h : Plain method r)
    (hbody : HttpResponseParser.responseHasNoBody method r.status = false) :
    r.sentBody = r.body ∧ r.sentFraming = ⟨true, r.body.length, false, r.status, []⟩ := by
  have hallowed : responseAllowsBody r.status = true := by
    simp only [HttpResponseParser.responseHasNoBody, Bool.or_eq_false_iff] at hbody
    simp [responseAllowsBody, hbody, bne]
  refine ⟨by rw [sentBody, if_pos hallowed], ?_⟩
  rw [sentFraming, hallowed, if_pos rfl, h.uncoded hallowed]
  rfl

/-- What the parser makes of the header section and what follows it. -/
theorem Plain.parseMessage_head (h : Plain method r) (rest : Bytes) (eof : Bool) :
    ∃ response : HttpResponse, response.status = r.status ∧ response.close = r.close ∧
      response.body = [] ∧
      HttpResponseParser.parseMessage method (r.headerBlock ++ rest) eof =
        if HttpResponseParser.responseHasNoBody method r.status = true then
          .ok (some ⟨r.headerBlock.length, response, 0, false⟩)
        else if rest.length < r.body.length then .ok none
        else .ok (some ⟨r.headerBlock.length + r.body.length,
          response.setBody (rest.take r.body.length), r.body.length, false⟩) := by
  obtain ⟨hs, hhead, hframing, hclose⟩ := h.head rest
  have hstatus : hs.response.status = r.status :=
    congrArg HttpResponseParser.Framing.status hframing
  refine ⟨hs.response, hstatus, hclose, congrArg HttpResponseParser.Framing.body hframing, ?_⟩
  rw [HttpResponseParser.parseMessage_of_head hhead]
  by_cases hbody : HttpResponseParser.responseHasNoBody method r.status = true
  · rw [if_pos hbody, HttpResponseParser.parseBody_noBody (by rw [hstatus, hbody])]
  · rw [Bool.not_eq_true] at hbody
    rw [hbody, if_neg Bool.false_ne_true]
    obtain ⟨-, hlength⟩ := h.body hbody
    rw [hlength] at hframing
    have hparsed : hs.parsedContentLength = r.body.length :=
      congrArg HttpResponseParser.Framing.parsedContentLength hframing
    have hsize : hs.parsedContentLength ≤ sizeMax - r.headerBlock.length := by
      have hblock := h.block
      have hlimit := h.sendable.body
      have hroom : HttpResponseParser.kMaxHeaderSize + HttpRequestParser.kMaxBodySize ≤ sizeMax := by
        decide
      omega
    rw [HttpResponseParser.parseBody_length (by rw [hstatus, hbody])
      (congrArg HttpResponseParser.Framing.transferEncodingSeen hframing)
      (congrArg HttpResponseParser.Framing.contentLengthSeen hframing) hsize, hparsed,
      List.length_append]
    by_cases hshort : rest.length < r.body.length
    · rw [if_pos hshort, if_pos (by omega)]
    · rw [if_neg hshort, if_neg (by omega), substr, List.drop_left]

theorem Plain.parsed (h : Plain method r) (rest : Bytes) (eof : Bool) :
    ∃ m, HttpResponseParser.parseMessage method (r.dump ++ rest) eof = .ok (some m) ∧
      m.consumed = r.dump.length ∧ Matches method r m.response := by
  obtain ⟨response, hstatus, hclose, hempty, hparse⟩ :=
    h.parseMessage_head (r.sentBody ++ rest) eof
  rw [dump_eq, List.append_assoc, hparse]
  by_cases hbody : HttpResponseParser.responseHasNoBody method r.status = true
  · rw [if_pos hbody, h.bodiless hbody, List.append_nil]
    exact ⟨_, rfl, rfl, hstatus, hclose, by rw [if_pos hbody]; exact hempty⟩
  · obtain ⟨hsent, -⟩ := h.body (Bool.eq_false_of_not_eq_true hbody)
    rw [if_neg hbody, hsent, if_neg (by rw [List.length_append]; omega)]
    refine ⟨_, rfl, by rw [List.length_append], hstatus, hclose, ?_⟩
    rw [if_neg hbody]
    exact List.take_left

/-- On a proper part of the response the parser waits, and it does not take the end of the
connection for the end of the response. -/
theorem Plain.waits (h : Plain method r) {part : Bytes} (hpart : part <+: r.dump)
    (hlt : part.length < r.dump.length) (eof : Bool) :
    HttpResponseParser.parseMessage method part eof = .ok none := by
  rw [dump_eq] at hpart hlt
  rcases Nat.lt_or_ge part.length r.headerBlock.length with hshort | hlong
  · -- a part of the header section
    obtain ⟨hs, hhead, -⟩ := h.head r.sentBody
    have hnone := HttpResponseParser.parseHead_take hhead part.length
    rw [← List.prefix_iff_eq_take.mp hpart, if_neg (Nat.not_le.mpr hshort)] at hnone
    rw [HttpResponseParser.parseMessage, hnone]
    rfl
  · obtain ⟨rest, rfl⟩ :=
      List.prefix_of_prefix_length_le (List.prefix_append r.headerBlock r.sentBody) hpart hlong
    rw [List.length_append, List.length_append] at hlt
    obtain ⟨response, -, -, -, hparse⟩ := h.parseMessage_head rest eof
    by_cases hbody : HttpResponseParser.responseHasNoBody method r.status = true
    · rw [h.bodiless hbody, List.length_nil] at hlt
      omega
    · obtain ⟨hsent, -⟩ := h.body (Bool.eq_false_of_not_eq_true hbody)
      rw [hsent] at hlt
      rw [hparse, if_neg hbody, if_pos (by omega)]

theorem Plain.not_interim (h : Plain method r) {r' : HttpResponse} (hmatches : Matches method r r') :
    isInterimResponse r' = false := by
  rw [isInterimResponse, hmatches.1]
  have hhigh : ¬ r.status < 200 := UInt16.not_lt.mpr h.status.1
  simp [hhigh]

theorem Plain.dump_ne_nil (h : Plain method r) : r.dump ≠ [] := by
  intro hnil
  obtain ⟨m, hm, -⟩ := h.parsed [] false
  rw [hnil, List.append_nil, HttpResponseParser.parseMessage_nil] at hm
  exact absurd hm (by simp)

end HttpResponse

end Http

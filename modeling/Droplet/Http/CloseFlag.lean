/-
Messages that ask to close the connection.

The close flag of a message is read off its `Connection` header.  The header loop of the
response parser joins the values of repeated fields, so that any of them can ask to close.
That of the request parser stores each field over the one before, and so do the trailers of a
chunked response, after which the flag is read off again: there the last value decides.

* `closeFrom_joinAll` — the flag of joined values;
* `find?_withTrailers` — the header that trailers leave behind;
* `asksClose_closed_iff` — when a message that asks to close is closed.
-/
import Droplet.Http.ChunkGrammar

open Search Lines

namespace Http

/-- Some field of the list asks to close the connection. -/
def AsksClose (fields : List (Bytes × Bytes)) : Prop :=
  ∃ value ∈ valuesOf (ascii "connection") fields, headerContainsToken value (ascii "close") = true

/-- The last field of the list that says something of the connection, if there is one, asks to
close it, or leaves it to a version that closes it. -/
def LastCloses (oldVersion : Prop) (fields : List (Bytes × Bytes)) : Prop :=
  ∀ last, (valuesOf (ascii "connection") fields).getLast? = some last →
    headerContainsToken last (ascii "close") = true ∨
      (oldVersion ∧ headerContainsToken last (ascii "keep-alive") = false)

theorem closeFrom_iff {version : UInt8} {connection : Bytes} :
    closeFrom version connection = true ↔ headerContainsToken connection (ascii "close") = true ∨
      (version ≤ 0x10 ∧ headerContainsToken connection (ascii "keep-alive") = false) := by
  rw [closeFrom]
  by_cases hclose : headerContainsToken connection (ascii "close") = true
  · simp [hclose]
  · by_cases hkeep : headerContainsToken connection (ascii "keep-alive") = true
    · simp [hclose, hkeep]
    · simp [hclose, hkeep]

/-! ### Requests -/

namespace RequestText

variable {g : RequestText}

theorem WellFormed.close (h : g.WellFormed) :
    (HttpRequestParser.new.execute g.text).1.data.close =
      closeFrom (if g.version = ascii "HTTP/1.0" then 0x10 else 0x11)
        ((valuesOf (ascii "connection") g.fields).getLast?.getD []) := by
  have hreports := h.reports
  have hclose : (HttpRequestParser.new.execute g.text).1.data.close =
      closeFrom (HttpRequestParser.new.execute g.text).1.data.version
        (((HttpRequestParser.new.execute g.text).1.data.headers.find?
          (ascii "connection")).getD []) := by
    rw [HttpRequestParser.execute_new, h.parseMessage]
    rfl
  rw [hclose, hreports.version, hreports.headers]

theorem WellFormed.close_eq_true_iff (h : g.WellFormed) :
    (AsksClose g.fields → (HttpRequestParser.new.execute g.text).1.data.close = true) ↔
      (AsksClose g.fields → LastCloses (g.version = ascii "HTTP/1.0") g.fields) := by
  refine forall_congr' fun hasks => ?_
  obtain ⟨value, hvalue, -⟩ := hasks
  have hversion : (if g.version = ascii "HTTP/1.0" then (0x10 : UInt8) else 0x11) ≤ 0x10 ↔
      g.version = ascii "HTTP/1.0" := by
    by_cases hold : g.version = ascii "HTTP/1.0"
    · simp [hold]
    · rw [if_neg hold]
      simp [hold]
  obtain ⟨last, hlast⟩ := Option.ne_none_iff_exists'.mp
    (mt List.getLast?_eq_none_iff.mp (List.ne_nil_of_mem hvalue))
  rw [h.close, hlast, Option.getD_some, closeFrom_iff, hversion, LastCloses, hlast]
  constructor
  · rintro hclose _ hsame
    obtain rfl := Option.some_inj.mp hsame
    exact hclose
  · intro hclose
    exact hclose last rfl

end RequestText

/-! ### Responses -/

namespace HttpResponseParser

variable {values : List Bytes} {fields trailers : List (Bytes × Bytes)} {s : Headers}
  {response : HttpResponse}

theorem containsToken_joinAll {token : Bytes} (h : values ≠ []) :
    headerContainsToken (joinAll false [] values) token = true ↔
      ∃ value ∈ values, headerContainsToken value token = true := by
  have hsplit := splitOn_joinAll h
  simp only [headerContainsToken, List.any_eq_true]
  rw [hsplit]
  simp only [List.mem_flatMap]
  constructor
  · rintro ⟨item, ⟨value, hvalue, hitem⟩, htoken⟩
    exact ⟨value, hvalue, item, hitem, htoken⟩
  · rintro ⟨value, hvalue, item, hitem, htoken⟩
    exact ⟨item, ⟨value, hvalue, hitem⟩, htoken⟩

/-- The values of the header section are joined, and any of them can ask to close. -/
theorem close_of_asksClose (hfields : Collects fields (Headers.new response) s)
    (hasks : AsksClose fields) :
    (finishedResponse s).close = true ∧ ∃ connection,
      (finishedResponse s).headers.find? (ascii "connection") = some connection ∧
        headerContainsToken connection (ascii "close") = true := by
  obtain ⟨value, hvalue, hclose⟩ := hasks
  have hvalues := List.ne_nil_of_mem hvalue
  have hseen : s.connectionSeen = true := by
    rw [hfields.connectionSeen]
    simpa [Headers.new] using hvalues
  have hconnection : headerContainsToken s.connectionHeader (ascii "close") = true := by
    rw [hfields.connectionHeader]
    exact (containsToken_joinAll hvalues).mpr ⟨value, hvalue, hclose⟩
  have hfind : (finishedResponse s).headers.find? (ascii "connection") =
      some s.connectionHeader := by
    have hname : caseInsensitiveEqual (ascii "Connection") (ascii "connection") = true := by decide
    have hset : ∀ r : HttpResponse, (r.setHeader (ascii "Connection")
        s.connectionHeader).initConnection.headers.find? (ascii "connection") =
        some s.connectionHeader := by
      intro r
      refine (HttpMap.find?_insertOrAssign ..).trans ?_
      rw [if_pos hname]
    rw [finishedResponse, hseen, if_pos rfl]
    exact hset _
  refine ⟨?_, s.connectionHeader, hfind, hconnection⟩
  have hflag : (finishedResponse s).close = closeFrom (finishedResponse s).version
      (((finishedResponse s).headers.find? (ascii "connection")).getD []) := rfl
  rw [hflag, hfind, Option.getD_some, closeFrom_iff]
  exact .inl hconnection

/-- Version and status are those of the status line. -/
theorem finishedResponse_line (hfields : Collects fields (Headers.new response) s) :
    (finishedResponse s).version = response.version ∧
      (finishedResponse s).status = response.status := by
  have hstored : ∀ (fields : List (Bytes × Bytes)) (r : HttpResponse),
      (fields.foldl (fun r field => storedResponse field.1 (trimOptionalWhitespace field.2) r)
        r).version = r.version ∧
      (fields.foldl (fun r field => storedResponse field.1 (trimOptionalWhitespace field.2) r)
        r).status = r.status := by
    intro fields
    induction fields with
    | nil => exact fun r => ⟨rfl, rfl⟩
    | cons field fields ih =>
      intro r
      have hone : (storedResponse field.1 (trimOptionalWhitespace field.2) r).version = r.version ∧
          (storedResponse field.1 (trimOptionalWhitespace field.2) r).status = r.status := by
        rw [storedResponse]
        split_ifs <;> exact ⟨rfl, rfl⟩
      rw [List.foldl_cons, (ih _).1, (ih _).2]
      exact hone
  have hsame : (finishedResponse s).version = s.response.version ∧
      (finishedResponse s).status = s.response.status := by
    rw [finishedResponse]
    split_ifs <;> exact ⟨rfl, rfl⟩
  rw [hsame.1, hsame.2, hfields.response]
  exact hstored fields response

/-- The header that trailers leave behind. -/
theorem find?_withTrailers :
    (withTrailers response trailers).headers.find? (ascii "connection") =
      (valuesOf (ascii "connection") trailers).getLast?.or
        (response.headers.find? (ascii "connection")) := by
  induction trailers generalizing response with
  | nil => rfl
  | cons field trailers ih =>
    have hone : (onTrailer response field.1 (trimOptionalWhitespace field.2)).headers.find?
        (ascii "connection") =
        if caseInsensitiveEqual field.1 (ascii "connection") = true then
          some (trimOptionalWhitespace field.2)
        else response.headers.find? (ascii "connection") := by
      rw [onTrailer]
      by_cases hname : caseInsensitiveEqual field.1 (ascii "connection") = true
      · have hlength : caseInsensitiveEqual field.1 (ascii "content-length") = false := by
          rw [caseInsensitiveEqual_congr hname]
          decide
        have hcoding : caseInsensitiveEqual field.1 (ascii "transfer-encoding") = false := by
          rw [caseInsensitiveEqual_congr hname]
          decide
        rw [hlength, hcoding, if_pos (by simp)]
        exact HttpMap.find?_insertOrAssign ..
      · rw [if_neg hname]
        split
        · refine (HttpMap.find?_insertOrAssign ..).trans ?_
          rw [if_neg hname]
        · rfl
    have hcons : withTrailers response (field :: trailers) =
        withTrailers (onTrailer response field.1 (trimOptionalWhitespace field.2)) trailers := rfl
    rw [hcons, ih, hone, valuesOf_cons]
    split_ifs with hname
    · rw [List.getLast?_cons]
      cases (valuesOf (ascii "connection") trailers).getLast? <;> rfl
    · rfl

theorem withTrailers_version : (withTrailers response trailers).version = response.version := by
  induction trailers generalizing response with
  | nil => rfl
  | cons field trailers ih =>
    have hone : (onTrailer response field.1 (trimOptionalWhitespace field.2)).version =
        response.version := by
      rw [onTrailer]
      split_ifs <;> rfl
    exact ih.trans hone

/-- The trailers of a chunked response undo a request to close, unless their last field closes
as well. -/
theorem close_withTrailers {connection body : Bytes}
    (hfind : response.headers.find? (ascii "connection") = some connection)
    (hclose : headerContainsToken connection (ascii "close") = true) :
    ((withTrailers response trailers).setBody body).initConnection.close = true ↔
      LastCloses (response.version ≤ 0x10) trailers := by
  have hflag : ((withTrailers response trailers).setBody body).initConnection.close =
      closeFrom (withTrailers response trailers).version
        (((withTrailers response trailers).headers.find? (ascii "connection")).getD []) := rfl
  rw [hflag, find?_withTrailers, withTrailers_version, hfind, LastCloses, closeFrom_iff]
  rcases (valuesOf (ascii "connection") trailers).getLast? with _ | last
  · simp [hclose]
  · simp

variable {method : HttpMethod} {statusLine d : Bytes} {eof : Bool}

/-- The response of a parser that has finished. -/
theorem exists_parsed (hvalid : ValidHead statusLine fields)
    (h : ((new method).execute (headText statusLine fields ++ d) eof).1.finished = true) :
    ∃ m response s, ((new method).execute (headText statusLine fields ++ d) eof).1.data = m.response ∧
      parseStatusLine statusLine = .ok response ∧ Collects fields (Headers.new response) s ∧
      parseBody method (headText statusLine fields ++ d) eof (headText statusLine fields).length
        { s with response := finishedResponse s } = .ok (some m) := by
  obtain ⟨m, hm⟩ := execute_finished_iff.mp h
  obtain ⟨size, s, hhead⟩ := exists_head_of_ok hm
  obtain ⟨rfl, response, s₀, hstatus, hfields, rfl⟩ := parseHead_headText hvalid hhead
  refine ⟨m, response, s₀, ?_, hstatus, hfields, ?_⟩
  · rw [execute_new, executeBuffer_new, hm]
  · rw [← parseMessage_of_head hhead]
    exact hm

/-- The trailers of a response, if it has any, close what its header section asks to close. -/
def TrailersClose (method : HttpMethod) (statusLine : Bytes) (fields : List (Bytes × Bytes))
    (d : Bytes) : Prop :=
  ∀ response, parseStatusLine statusLine = .ok response →
    responseHasNoBody method response.status = false →
    valuesOf (ascii "transfer-encoding") fields ≠ [] →
    ∃ c : ChunkedText, c.WellFormed ∧ d = c.text ∧
      LastCloses (response.version ≤ 0x10) c.trailers

theorem close_eq_true_iff (hvalid : ValidHead statusLine fields)
    (hinput : (headText statusLine fields ++ d).length ≤ sizeMax)
    (h : ((new method).execute (headText statusLine fields ++ d) eof).1.finished = true) :
    (AsksClose fields →
        ((new method).execute (headText statusLine fields ++ d) eof).1.data.close = true) ↔
      (AsksClose fields → TrailersClose method statusLine fields d) := by
  refine forall_congr' fun hasks => ?_
  obtain ⟨m, response, s, hdata, hstatus, hfields, hm⟩ := exists_parsed hvalid h
  obtain ⟨hclose, connection, hfind, hconnection⟩ := close_of_asksClose hfields hasks
  obtain ⟨hversion, hsame⟩ := finishedResponse_line hfields
  rw [hdata]
  -- without chunks there are no trailers
  have hplain : (responseHasNoBody method response.status = true ∨ s.transferEncodingSeen = false) →
      m.response.close = true → (m.response.close = true ↔ TrailersClose method statusLine fields d) := by
    intro hnone hflag
    constructor
    · intro _ response' hstatus' hbody hcodings
      obtain rfl := Except.ok.inj (hstatus.symm.trans hstatus')
      rcases hnone with hnone | hnone
      · exact absurd (hbody.symm.trans hnone) (by decide)
      · rw [hfields.transferEncodingSeen] at hnone
        exact absurd hnone (by simpa [Headers.new] using hcodings)
    · intro _
      exact hflag
  rw [parseBody] at hm
  simp only [hsame] at hm
  by_cases hbody : responseHasNoBody method response.status = true
  · rw [if_pos hbody] at hm
    obtain rfl := Option.some_inj.mp (Except.ok.inj hm)
    exact hplain (.inl hbody) hclose
  · rw [if_neg hbody] at hm
    rw [Bool.not_eq_true] at hbody
    by_cases hchunked : s.transferEncodingSeen = true
    · rw [if_pos hchunked] at hm
      split_ifs at hm
      rcases hloop : chunkLoop (headText statusLine fields ++ d) (headText statusLine fields).length []
        (finishedResponse s) with failure | _ | ⟨n, response'⟩
      · rw [hloop] at hm
        exact absurd hm (by simp [Except.map])
      · rw [hloop] at hm
        exact absurd hm (by simp [Except.map])
      · rw [hloop] at hm
        obtain rfl := Option.some_inj.mp (Except.ok.inj hm)
        -- however the input is written as chunks, the loop has read these trailers
        have hread : ∀ c : ChunkedText, c.WellFormed → d = c.text →
            (response'.close = true ↔ LastCloses (response.version ≤ 0x10) c.trailers) := by
          rintro c hc rfl
          rw [chunkLoop_of_wellFormed hc _ hinput] at hloop
          obtain ⟨-, rfl⟩ := Prod.mk.inj (Option.some_inj.mp (Except.ok.inj hloop))
          rw [← hversion]
          exact close_withTrailers hfind hconnection
        obtain ⟨c, hdrop, hchunks, hlast, hvalid', hsize, htrailers⟩ :=
          Chunks.exists_text (Nat.zero_le _) (chunks_of_ok hloop)
        rw [List.drop_left] at hdrop
        have hc : c.WellFormed :=
          ⟨hchunks, hlast, hvalid', by rw [Nat.zero_add] at hsize; exact hsize, htrailers⟩
        constructor
        · intro hflag response'' hstatus'' _ _
          obtain rfl := Except.ok.inj (hstatus.symm.trans hstatus'')
          exact ⟨c, hc, hdrop, (hread c hc hdrop).mp hflag⟩
        · intro htrailersClose
          have hcodings : valuesOf (ascii "transfer-encoding") fields ≠ [] := by
            rw [hfields.transferEncodingSeen] at hchunked
            simpa [Headers.new] using hchunked
          obtain ⟨c', hc', hd, hcloses⟩ := htrailersClose response hstatus hbody hcodings
          exact (hread c' hc' hd).mpr hcloses
    · rw [if_neg hchunked] at hm
      rw [Bool.not_eq_true] at hchunked
      split_ifs at hm
      · exact absurd hm (by simp)
      · obtain rfl := Option.some_inj.mp (Except.ok.inj hm)
        exact hplain (.inr hchunked) hclose
      · exact absurd hm (by simp)
      · obtain rfl := Option.some_inj.mp (Except.ok.inj hm)
        exact hplain (.inr hchunked) rfl

end HttpResponseParser

/-! ### Messages -/

/-- **Requests to close.**  A request that asks to close the connection is closed exactly when
its last `Connection` field closes as well, and such a response exactly when the last
`Connection` field of its trailers does, if there is one. -/
theorem asksClose_closed_iff (method : HttpMethod) (input : Bytes) (eof : Bool) :
    ((HttpRequestParser.new.execute input).1.finished = true →
      ∃ g : RequestText, g.WellFormed ∧ input = g.text) ∧
    (∀ g : RequestText, g.WellFormed →
      ((AsksClose g.fields → (HttpRequestParser.new.execute g.text).1.data.close = true) ↔
        (AsksClose g.fields → LastCloses (g.version = ascii "HTTP/1.0") g.fields))) ∧
    (((HttpResponseParser.new method).execute input eof).1.finished = true →
      ∃ statusLine fields d, HttpResponseParser.ValidHead statusLine fields ∧
        input = HttpResponseParser.headText statusLine fields ++ d) ∧
    (∀ statusLine fields d, HttpResponseParser.ValidHead statusLine fields →
      (HttpResponseParser.headText statusLine fields ++ d).length ≤ sizeMax →
      ((HttpResponseParser.new method).execute (HttpResponseParser.headText statusLine fields ++ d)
        eof).1.finished = true →
      ((AsksClose fields → ((HttpResponseParser.new method).execute
            (HttpResponseParser.headText statusLine fields ++ d) eof).1.data.close = true) ↔
        (AsksClose fields → HttpResponseParser.TrailersClose method statusLine fields d))) := by
  refine ⟨?_, ?_, ?_, ?_⟩
  · intro h
    rw [HttpRequestParser.execute_new] at h
    rcases hparse : HttpRequestParser.parseMessage input with failure | _ | m
    · rw [hparse] at h
      exact absurd h (by simp [HttpRequestParser.setError, HttpRequestParser.new])
    · rw [hparse] at h
      exact absurd h (by simp [HttpRequestParser.new])
    · exact RequestText.exists_of_parseMessage hparse
  · intro g hg
    exact hg.close_eq_true_iff
  · intro h
    obtain ⟨m, hm⟩ := HttpResponseParser.execute_finished_iff.mp h
    obtain ⟨size, s, hhead⟩ := HttpResponseParser.exists_head_of_ok hm
    exact HttpResponseParser.exists_headText hhead
  · intro statusLine fields d hvalid hinput h
    exact HttpResponseParser.close_eq_true_iff hvalid hinput h

/-- A request that asks to close the connection, and then to keep it. -/
def closeThenKeep : RequestText :=
  ⟨ascii "GET", ascii "/", ascii "HTTP/1.1",
    [(ascii "Connection", ascii " close"), (ascii "Connection", ascii " keep-alive")], [], []⟩

private theorem slash_isTarget : ascii "/" ≠ [] ∧ ∀ b ∈ ascii "/", 0x20 < b ∧ b ≠ 0x7F := by
  refine ⟨by decide, ?_⟩
  intro b hb
  have hslash : b = 47 := List.mem_singleton.mp hb
  subst hslash
  decide

theorem closeThenKeep_wellFormed : closeThenKeep.WellFormed := by
  constructor
  · decide +kernel
  · exact slash_isTarget
  · decide
  · exact .inr rfl
  · decide
  · exact .inl ⟨by decide, rfl⟩
  · decide
  · decide

/-- The fields in the other order, and a chunked response whose trailers repeat the request. -/
theorem asksClose_closed_examples :
    (HttpRequestParser.new.execute { closeThenKeep with
        fields := closeThenKeep.fields.reverse }.text).1.data.close = true ∧
    ((HttpResponseParser.new .get).execute (HttpResponseParser.headText (ascii "HTTP/1.1 200 OK")
      [(ascii "Transfer-Encoding", ascii "chunked"), (ascii "Connection", ascii "x, Close")] ++
      ascii "0\r\nConnection: close\r\n\r\n") false).1.data.close = true := by
  have hvalid : HttpResponseParser.ValidHead (ascii "HTTP/1.1 200 OK")
      [(ascii "Transfer-Encoding", ascii "chunked"), (ascii "Connection", ascii "x, Close")] :=
    ⟨IsLine.of_notMem (by decide), by decide⟩
  have hhead : HttpResponseParser.AnnouncesChunks .get (ascii "HTTP/1.1 200 OK")
      [(ascii "Transfer-Encoding", ascii "chunked"), (ascii "Connection", ascii "x, Close")] := by
    constructor
    · exact hvalid
    · have hheaders := HttpResponseParser.parseHeaders_headText hvalid []
      rw [List.append_nil] at hheaders
      rw [HttpResponseParser.parseHead, hheaders]
      exact ⟨_, _, rfl, rfl⟩
    · decide
    · exact ⟨[], ascii "chunked", by decide, by simp, by decide⟩
  have hc : ChunkedText.WellFormed ⟨[], ascii "0", [(ascii "Connection", ascii " close")], []⟩ := by
    constructor
    · simp
    · exact ⟨IsLine.of_notMem (by decide), by decide, by decide⟩
    · decide
    · decide
    · decide
  obtain ⟨-, hrequest, -, hresponse⟩ := asksClose_closed_iff .get [] false
  constructor
  · refine (hrequest _ ?_).mpr ?_ ⟨ascii "close", by decide, by decide⟩
    · constructor
      · decide +kernel
      · exact slash_isTarget
      · decide
      · exact .inr rfl
      · decide
      · exact .inl ⟨by decide, rfl⟩
      · decide
      · decide
    · intro _ last hlast
      obtain rfl : ascii "close" = last := Option.some_inj.mp hlast
      exact .inl (by decide)
  · refine (hresponse _ _ _ hvalid (by decide) ?_).mpr ?_ ⟨ascii "x, Close", by decide, by decide⟩
    · obtain ⟨response, hparse⟩ := hhead.parseMessage (ChunkedText.text _) false
      rw [HttpResponseParser.chunkLoop_of_wellFormed hc _ (by decide) response] at hparse
      exact HttpResponseParser.execute_finished_iff.mpr ⟨_, hparse⟩
    · intro _ response _ _ _
      refine ⟨_, hc, by decide, ?_⟩
      intro last hlast
      obtain rfl : ascii "close" = last := Option.some_inj.mp hlast
      exact .inl (by decide)

theorem not_asksClose_closes :
    ¬ ((∀ g : RequestText, g.WellFormed → AsksClose g.fields →
        (HttpRequestParser.new.execute g.text).1.data.close = true) ∧
      (∀ method statusLine fields d eof, HttpResponseParser.ValidHead statusLine fields →
        ((HttpResponseParser.new method).execute
          (HttpResponseParser.headText statusLine fields ++ d) eof).1.finished = true →
        AsksClose fields → ((HttpResponseParser.new method).execute
          (HttpResponseParser.headText statusLine fields ++ d) eof).1.data.close = true)) := by
  rintro ⟨h, -⟩
  have hclosed := h closeThenKeep closeThenKeep_wellFormed ⟨ascii "close", by decide, by decide⟩
  rw [closeThenKeep_wellFormed.close] at hclosed
  exact absurd hclosed (by decide)

end Http

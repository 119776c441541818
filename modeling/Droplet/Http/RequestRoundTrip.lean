/-
Requests that are sent on.

A request that the parser accepted is printed by `dump` and parsed again.  Parsing
trims values and folds fields of one name, printing leaves out an empty query and
writes `Connection` and `Content-Length` anew.

* `Received` — what the parser establishes of a request;
* `accepts_dump` — the printed request is accepted as a whole, it differs in its
  `Connection` and `Content-Length` entries only, and it is printed as the same text.
-/
import Droplet.Http.Client

open Search

namespace Http

namespace HttpRequestParser

variable {input name value : Bytes} {s s' : Headers} {r r' : HttpRequest}

/-! ### What is known of an accepted request -/

/-- The parser finishes with this request, and consumes that many bytes. -/
def Accepts (input : Bytes) (r : HttpRequest) (consumed : ℕ) : Prop :=
  (new.execute input).1.finished = true ∧ (new.execute input).1.hasError = false ∧
    (new.execute input).1.data = r ∧ (new.execute input).2 = consumed

theorem accepts_iff {consumed : ℕ} : Accepts input r consumed ↔
    ∃ m, parseMessage input = .ok (some m) ∧ m.request = r ∧ m.consumed = consumed := by
  rw [Accepts, execute_new]
  rcases hparse : parseMessage input with failure | _ | m
  · simp [setError, new]
  · simp [new]
  · simp [hasError]

/-- The length that the fields announce. -/
def LengthRead (s : Headers) : Prop :=
  s.contentLengthSeen = false ∧ s.parsedContentLength = 0 ∧
      s.request.headers.find? (ascii "content-length") = none ∨
    s.contentLengthSeen = true ∧ ∃ value,
      s.request.headers.find? (ascii "content-length") = some value ∧
      parseContentLength value = some s.parsedContentLength

/-- The invariant of the header loop. -/
structure ReadSoFar (s : Headers) : Prop where
  line : AcceptedLine s.request.line
  headers : ∀ entry ∈ s.request.headers.entries, ParsedField entry
  websocket : s.request.websocket = false
  uncoded : s.request.Uncoded
  length : LengthRead s

theorem parsedField_insertOrAssign {m : HttpMap} (hm : ∀ entry ∈ m.entries, ParsedField entry)
    (h : ParsedField (name, value)) :
    ∀ entry ∈ (m.insertOrAssign name value).entries, ParsedField entry := by
  intro entry hentry
  rcases HttpMap.mem_insertOrAssign hentry with hold | ⟨hvalue, -, hname⟩
  · exact hm entry hold
  · refine ⟨⟨?_, ?_⟩, ?_⟩
    · rcases hname with hname | ⟨entry', hentry', hname⟩
      · rw [hname]
        exact h.1.1
      · rw [← hname]
        exact (hm entry' hentry').1.1
    · rw [hvalue]
      exact h.1.2
    · rw [hvalue]
      exact h.2

theorem ReadSoFar.onField (hs : ReadSoFar s) (hfield : ParsedField (name, value))
    (h : HttpRequestParser.onField s name value = .ok s') : ReadSoFar s' := by
  obtain ⟨hrequest, hempty, hframe⟩ := onField_iff.mp h
  have hheaders : s'.request.headers = s.request.headers.insertOrAssign name value := by
    rw [hrequest, HttpRequest.setHeader_headers]
  have hwebsocket : s'.request.websocket = s.request.websocket := by
    rw [hrequest, HttpRequest.setHeader_websocket]
  have hfind : ∀ key, s'.request.headers.find? key =
      if caseInsensitiveEqual name key = true then some value
      else s.request.headers.find? key := by
    intro key
    rw [hheaders, HttpMap.find?_insertOrAssign]
  refine ⟨?_, ?_, hwebsocket.trans hs.websocket, ?_, ?_⟩
  · rw [onField_line h]
    exact hs.line
  · rw [hheaders]
    exact parsedField_insertOrAssign hs.headers hfield
  · intro coding hcoding
    rw [hfind] at hcoding
    by_cases hte : caseInsensitiveEqual name (ascii "transfer-encoding") = true
    · rw [if_pos hte, hempty hte] at hcoding
      rw [← Option.some_inj.mp hcoding]
      rfl
    · rw [if_neg hte] at hcoding
      exact hs.uncoded coding hcoding
  · rcases hframe with ⟨hname, -, hlength, hseen⟩ | ⟨hname, hseen, hlength⟩
    · refine .inr ⟨hseen, value, ?_, hlength⟩
      rw [hfind, if_pos hname]
    · have hsame : s'.request.headers.find? (ascii "content-length") =
          s.request.headers.find? (ascii "content-length") := by
        rw [hfind, if_neg hname]
      rw [LengthRead, hsame, hseen, hlength]
      exact hs.length

theorem readSoFar_parseHead {size : ℕ} (h : parseHead input = .ok (some (size, s))) :
    ReadSoFar s := by
  refine parseBlock_invariant (P := ReadSoFar) (fun line s hline => ?_)
    (fun s name value s' hs hfield hstep => hs.onField hfield hstep) h
  rcases hrequest : parseRequestLine line with failure | request
  · rw [hrequest] at hline
    exact absurd hline (by simp [Except.map])
  · rw [hrequest, Except.map, Except.ok.injEq] at hline
    rw [← hline]
    obtain ⟨haccepted, hheaders, hwebsocket⟩ := parseRequestLine_spec hrequest
    refine ⟨haccepted, ?_, hwebsocket, ?_, .inl ⟨rfl, rfl, ?_⟩⟩
    · intro entry hentry
      rw [show (⟨false, 0, request⟩ : Headers).request.headers = .empty from hheaders] at hentry
      exact absurd hentry List.not_mem_nil
    · intro coding hcoding
      rw [show (⟨false, 0, request⟩ : Headers).request.headers = .empty from hheaders] at hcoding
      exact absurd hcoding (by simp)
    · rw [show (⟨false, 0, request⟩ : Headers).request.headers = .empty from hheaders]
      exact HttpMap.find?_empty _

/-- What the parser establishes of a request. -/
structure Received (r : HttpRequest) : Prop where
  line : AcceptedLine r.line
  headers : ∀ entry ∈ r.headers.entries, ParsedField entry
  body : r.body.length ≤ kMaxBodySize
  websocket : r.websocket = false
  uncoded : r.Uncoded
  announced : r.announcedLength = some r.body.length

theorem received_parseBody {size : ℕ} {m : Parsed} (hs : ReadSoFar s)
    (h : parseBody input size s = .ok (some m)) : Received m.request := by
  rw [parseBody] at h
  split_ifs at h with hlarge hoverflow
  simp only at h
  split at h
  · exact absurd h (by simp)
  · next hcomplete =>
    rw [Except.ok.injEq, Option.some_inj] at h
    have hbody : m.request.body.length = s.parsedContentLength := by
      rw [← h]
      show (substr input size s.parsedContentLength).length = _
      rw [length_substr]
      omega
    have hheaders : m.request.headers = s.request.headers := by rw [← h]; rfl
    have hline : m.request.line = s.request.line := by rw [← h]; rfl
    have hwebsocket : m.request.websocket = s.request.websocket := by rw [← h]; rfl
    refine ⟨hline ▸ hs.line, hheaders ▸ hs.headers, by omega, hwebsocket.trans hs.websocket, ?_, ?_⟩
    · rw [HttpRequest.Uncoded, hheaders]
      exact hs.uncoded
    · by_cases hempty : m.request.body = []
      · -- the header fields announce no byte
        have hzero : s.parsedContentLength = 0 := by
          rw [← hbody, hempty]
          rfl
        rw [hbody]
        rcases hs.length with ⟨-, -, hnone⟩ | ⟨-, value, hsome, hvalue⟩
        · rw [HttpRequest.announcedLength_of_none hempty (hheaders ▸ hnone), hzero]
        · rw [HttpRequest.announcedLength_of_some hempty (hheaders ▸ hsome), hvalue]
      · exact HttpRequest.announcedLength_of_body hempty

/-- **What is accepted.** -/
theorem received_of_accepts {consumed : ℕ} (h : Accepts input r consumed) : Received r := by
  obtain ⟨m, hm, rfl, -⟩ := accepts_iff.mp h
  rw [parseMessage] at hm
  rcases hhead : parseHead input with failure | _ | ⟨size, s⟩
  · rw [hhead] at hm
    exact absurd hm (by simp [bind, Except.bind])
  · rw [hhead] at hm
    exact absurd hm (by simp [bind, Except.bind, pure, Except.pure])
  · rw [hhead] at hm
    exact received_parseBody (readSoFar_parseHead hhead) hm

/-! ### The header map of the printed request -/

/-- The loop enters the fields into the header map, one after the other. -/
theorem headers_foldlM {fields : List (Bytes × Bytes)}
    (htrim : ∀ field ∈ fields, trimOptionalWhitespace field.2 = field.2)
    (h : fields.foldlM readField s = .ok s') :
    s'.request.headers = s.request.headers.insertAll fields ∧
      s'.request.websocket = s.request.websocket := by
  induction fields generalizing s with
  | nil =>
    rw [List.foldlM_nil] at h
    rw [← Except.ok.inj h]
    exact ⟨rfl, rfl⟩
  | cons field fields ih =>
    rw [List.foldlM_cons] at h
    rcases hstep : readField s field with failure | s₁
    · rw [hstep] at h
      exact absurd h (by simp [bind, Except.bind])
    · rw [hstep] at h
      obtain ⟨hheaders, hwebsocket⟩ := ih (fun x hx => htrim x (List.mem_cons_of_mem _ hx)) h
      rw [readField, htrim field List.mem_cons_self] at hstep
      rw [hheaders, hwebsocket, (onField_iff.mp hstep).1, HttpRequest.setHeader_headers,
        HttpRequest.setHeader_websocket]
      exact ⟨rfl, rfl⟩

end HttpRequestParser

namespace HttpRequest

variable {r : HttpRequest}

/-- The names of the header fields that `dump` takes over. -/
def kept (r : HttpRequest) (name : Bytes) : Bool :=
  !shouldSkipHeader name r.websocket !r.body.isEmpty

/-- The header entries apart from `Connection` and `Content-Length`. -/
def otherHeaders (r : HttpRequest) : List (Bytes × Bytes) :=
  r.headers.entries.filter fun e => !caseInsensitiveEqual e.1 (ascii "connection") &&
    !caseInsensitiveEqual e.1 (ascii "content-length")

/-- The length that `dump` writes. -/
def lengthField (r : HttpRequest) : List (Bytes × Bytes) :=
  if r.body.isEmpty then [] else [(ascii "Content-Length", decimal r.body.length)]

theorem sentFields_eq_kept (h : r.websocket = false) : r.sentFields =
    r.headers.entries.filter (fun e => r.kept e.1) ++
      [(ascii "Connection", connectionValue r.close)] ++ r.lengthField := by
  have hkept : (fun e : Bytes × Bytes => r.kept e.1) =
      fun e => !shouldSkipHeader e.1 r.websocket !r.body.isEmpty := rfl
  rw [sentFields, lengthField, hkept, h]
  rfl

theorem kept_connection (h : r.websocket = false) {name : Bytes}
    (hname : caseInsensitiveEqual name (ascii "Connection") = true) : r.kept name = false := by
  have hlower : caseInsensitiveEqual name (ascii "connection") = true := by
    rw [caseInsensitiveEqual_congr hname]
    decide
  rw [kept, shouldSkipHeader, h, hlower]
  rfl

theorem kept_contentLength (h : r.body ≠ []) {name : Bytes}
    (hname : caseInsensitiveEqual name (ascii "Content-Length") = true) : r.kept name = false := by
  have hlower : caseInsensitiveEqual name (ascii "content-length") = true := by
    rw [caseInsensitiveEqual_congr hname]
    decide
  have hbody : r.body.isEmpty = false := List.isEmpty_eq_false_iff.mpr h
  rw [kept, shouldSkipHeader, hlower, hbody]
  simp

/-- The header map that the printed fields lead to. -/
def resentHeaders (r : HttpRequest) : HttpMap := HttpMap.empty.insertAll r.sentFields

theorem resentHeaders_eq (h : r.websocket = false) : ∃ m : HttpMap,
    m.entries = r.headers.entries.filter (fun e => r.kept e.1) ∧
      r.resentHeaders = (m.insertOrAssign (ascii "Connection") (connectionValue r.close)).insertAll
        r.lengthField := by
  refine ⟨HttpMap.empty.insertAll (r.headers.entries.filter fun e => r.kept e.1), ?_, ?_⟩
  · rw [HttpMap.entries_insertAll]
    · rfl
    · exact List.Pairwise.filter _ r.headers.sorted
  · rw [resentHeaders, sentFields_eq_kept h, HttpMap.insertAll, List.foldl_append, List.foldl_append]
    rfl

/-- The fields that were taken over are the ones that would be taken over again. -/
theorem filter_resentHeaders (h : r.websocket = false) {p : Bytes → Bool}
    (hp : ∀ name, p name = true → r.kept name = true) :
    r.resentHeaders.entries.filter (fun e => p e.1) =
      r.headers.entries.filter (fun e => p e.1) := by
  have hskipped : ∀ name, r.kept name = false → p name = false := by
    intro name hname
    by_contra htrue
    rw [Bool.not_eq_false] at htrue
    exact absurd (hname.symm.trans (hp name htrue)) (by simp)
  obtain ⟨m, hm, hresent⟩ := resentHeaders_eq h
  have hkept : m.entries.filter (fun e => p e.1) = r.headers.entries.filter (fun e => p e.1) := by
    rw [hm, List.filter_filter]
    refine List.filter_congr fun e _ => ?_
    cases hpe : p e.1 with
    | true => rw [hp e.1 hpe, Bool.and_true]
    | false => rfl
  have hconnection : (m.insertOrAssign (ascii "Connection")
      (connectionValue r.close)).entries.filter (fun e => p e.1) =
      r.headers.entries.filter (fun e => p e.1) := by
    rw [HttpMap.filter_insertOrAssign m fun name hname => hskipped name (kept_connection h hname)]
    exact hkept
  rw [hresent, lengthField]
  by_cases hbody : r.body = []
  · rw [if_pos (List.isEmpty_iff.mpr hbody)]
    exact hconnection
  · rw [if_neg (by rwa [List.isEmpty_iff])]
    show List.filter (fun e => p e.1) (HttpMap.insertOrAssign _ (ascii "Content-Length")
      (decimal r.body.length)).entries = _
    rw [HttpMap.filter_insertOrAssign _ fun name hname =>
      hskipped name (kept_contentLength hbody hname)]
    exact hconnection

theorem find?_resentHeaders (h : r.websocket = false) :
    r.resentHeaders.find? (ascii "connection") = some (connectionValue r.close) := by
  obtain ⟨m, -, hresent⟩ := resentHeaders_eq h
  have hconnection : (m.insertOrAssign (ascii "Connection")
      (connectionValue r.close)).find? (ascii "connection") = some (connectionValue r.close) := by
    rw [HttpMap.find?_insertOrAssign, if_pos (by decide)]
  rw [hresent, lengthField]
  split
  · exact hconnection
  · show (HttpMap.insertOrAssign _ (ascii "Content-Length")
      (decimal r.body.length)).find? (ascii "connection") = _
    rw [HttpMap.find?_insertOrAssign, if_neg (by decide)]
    exact hconnection

/-- The `Connection` value that is written asks for the flag it was written for. -/
theorem closeFrom_connectionValue (version : UInt8) (close : Bool) :
    closeFrom version (connectionValue close) = close := by
  have hclose : headerContainsToken (ascii "close") (ascii "close") = true := by decide +kernel
  have hnot : headerContainsToken (ascii "keep-alive") (ascii "close") = false := by decide +kernel
  have halive : headerContainsToken (ascii "keep-alive") (ascii "keep-alive") = true := by
    decide +kernel
  cases close with
  | true =>
    show closeFrom version (ascii "close") = true
    rw [closeFrom, hclose, if_pos rfl]
  | false =>
    show closeFrom version (ascii "keep-alive") = false
    rw [closeFrom, hnot, if_neg (by simp), halive, if_pos rfl]

/-- What printing sees of a request. -/
theorem dump_congr {r' : HttpRequest} (hline : r'.line = r.line) (hclose : r'.close = r.close)
    (hwebsocket : r'.websocket = r.websocket) (hbody : r'.body = r.body)
    (hheaders : r'.headers.entries.filter (fun e => r.kept e.1) =
      r.headers.entries.filter (fun e => r.kept e.1)) : r'.dump = r.dump := by
  obtain ⟨hmethod, hversion, hpath, hquery, hfragment⟩ := Line.mk.inj hline
  have hfields : r'.sentFields = r.sentFields := by
    show (r'.headers.entries.filter fun e => !shouldSkipHeader e.1 r'.websocket !r'.body.isEmpty) ++
      _ ++ _ = (r.headers.entries.filter fun e => r.kept e.1) ++ _ ++ _
    rw [hwebsocket, hbody, hclose, ← hheaders]
    rfl
  have htarget : r'.requestLine = r.requestLine := by
    rw [requestLine, requestLine, sentTarget, sentTarget, hmethod, hversion, hpath, hquery, hfragment]
  rw [dump, dump, htarget, hfields, hbody]

end HttpRequest

namespace HttpRequestParser

variable {input : Bytes} {r r' : HttpRequest}

/-! ### Printing and parsing again -/

/-- All of a request but its `Connection` and `Content-Length` entries. -/
def SameRequest (r r' : HttpRequest) : Prop :=
  r'.method = r.method ∧ r'.version = r.version ∧ r'.path = r.path ∧ r'.query = r.query ∧
    r'.fragment = r.fragment ∧ r'.body = r.body ∧ r'.close = r.close ∧
    r'.otherHeaders = r.otherHeaders

instance (r r' : HttpRequest) : Decidable (SameRequest r r') := inferInstanceAs (Decidable (_ ∧ _))

theorem Received.parsedField (h : Received r) : ∀ field ∈ r.sentFields,
    ValidField field ∧ trimOptionalWhitespace field.2 = field.2 := by
  intro field hfield
  refine ⟨HttpRequest.validField_sentFields h.websocket (fun e he => (h.headers e he).1) field hfield,
    ?_⟩
  rw [HttpRequest.sentFields_eq_kept h.websocket, List.mem_append, List.mem_append,
    List.mem_singleton] at hfield
  rcases hfield with (hentry | rfl) | hlength
  · exact (h.headers field (List.mem_of_mem_filter hentry)).2
  · show trimOptionalWhitespace (connectionValue r.close) = connectionValue r.close
    cases r.close with
    | true => decide
    | false => decide
  · rw [HttpRequest.lengthField] at hlength
    split at hlength
    · exact absurd hlength List.not_mem_nil
    · rw [List.mem_singleton.mp hlength]
      exact trim_decimal _

/-- The printed request is parsed as a whole. -/
theorem Received.parseMessage_dump (h : Received r)
    (hblock : r.headerBlock.length ≤ kMaxHeaderSize) :
    ∃ m, parseMessage r.dump = .ok (some m) ∧ m.consumed = r.dump.length ∧
      m.request.line = r.line ∧ m.request.body = r.body ∧ m.request.websocket = false ∧
      m.request.headers = r.resentHeaders ∧
      m.request.close = closeFrom r.version (m.request.getHeader (ascii "connection")) := by
  have hrequestLine := HttpRequest.isLine_requestLine h.line.method
    (visible_sentTarget h.line.path h.line.visible)
  obtain ⟨request, hrequest, hline⟩ := parseRequestLine_requestLine h.line
  obtain ⟨-, hempty, hwebsocket⟩ := parseRequestLine_spec hrequest
  have hfold := HttpRequest.foldlM_sentFields h.websocket h.uncoded h.announced
    (h.body.trans (by decide)) ⟨false, 0, request⟩ rfl rfl
  obtain ⟨s, hs, hlength, hsline⟩ := hfold
  obtain ⟨hheaders, hsame⟩ := headers_foldlM (fun field hfield => (h.parsedField field hfield).2) hs
  have hhead : parseHead (r.headerBlock ++ r.body) = .ok (some (r.headerBlock.length, s)) := by
    rw [parseHead, HttpRequest.headerBlock, parseBlock_serialized r.body hrequestLine
      (fun field hfield => (h.parsedField field hfield).1) hblock, hrequest]
    show (r.sentFields.foldlM readField ⟨false, 0, request⟩).map _ = _
    rw [hs]
    rfl
  have hparsed : s.parsedContentLength = r.body.length := hlength
  have hrline : s.request.line = r.line := hsline.trans hline
  have hbody : substr (r.headerBlock ++ r.body) r.headerBlock.length r.body.length = r.body := by
    have hmid := @substr_mid _ r.headerBlock r.body []
    rwa [List.append_nil] at hmid
  have hmax := h.body
  have hlimit : kMaxHeaderSize + kMaxBodySize ≤ sizeMax := by decide
  refine ⟨⟨r.headerBlock.length + r.body.length,
    (s.request.setBody r.body).initConnection, r.body.length⟩, ?_, ?_, ?_, rfl, ?_, ?_, ?_⟩
  · rw [r.dump_eq, parseMessage, hhead]
    show parseBody (r.headerBlock ++ r.body) r.headerBlock.length s = _
    rw [parseBody, hparsed, hbody, if_neg (by omega), if_neg (by omega)]
    exact if_neg (by rw [List.length_append]; omega)
  · rw [r.dump_eq, List.length_append]
  · exact hrline
  · exact hsame.trans hwebsocket
  · show s.request.headers = HttpMap.empty.insertAll r.sentFields
    rw [hheaders]
    exact congrArg (HttpMap.insertAll · r.sentFields) hempty
  · show closeFrom s.request.version _ = closeFrom r.version _
    rw [show s.request.version = r.version from congrArg HttpRequest.Line.version hrline]
    rfl

/-- **Sending a request on.**  What is accepted is accepted again when it is printed, as far as
its header section is not too large, with the same content and the same text. -/
theorem accepts_dump (input : Bytes) (r : HttpRequest) (consumed : ℕ)
    (h : Accepts input r consumed) (hblock : r.headerBlock.length ≤ 65536) :
    ∃ r', Accepts r.dump r' r.dump.length ∧ SameRequest r r' ∧ r'.dump = r.dump := by
  have hreceived := received_of_accepts h
  obtain ⟨m, hm, hconsumed, hline, hbody, hwebsocket, hheaders, hclose⟩ :=
    hreceived.parseMessage_dump hblock
  have hsame : m.request.close = r.close := by
    rw [hclose, HttpRequest.getHeader, hheaders,
      HttpRequest.find?_resentHeaders hreceived.websocket, Option.getD_some,
      HttpRequest.closeFrom_connectionValue]
  obtain ⟨hmethod, hversion, hpath, hquery, hfragment⟩ := HttpRequest.Line.mk.inj hline
  refine ⟨m.request, accepts_iff.mpr ⟨m, hm, rfl, hconsumed⟩,
    ⟨hmethod, hversion, hpath, hquery, hfragment, hbody, hsame, ?_⟩, ?_⟩
  · rw [HttpRequest.otherHeaders, HttpRequest.otherHeaders, hheaders]
    refine HttpRequest.filter_resentHeaders (p := fun name =>
      !caseInsensitiveEqual name (ascii "connection") &&
        !caseInsensitiveEqual name (ascii "content-length")) hreceived.websocket fun name hname => ?_
    -- other names are never skipped
    rw [Bool.and_eq_true, Bool.not_eq_true', Bool.not_eq_true'] at hname
    rw [HttpRequest.kept, HttpRequest.shouldSkipHeader, hname.1, hname.2]
    simp
  · refine HttpRequest.dump_congr hline hsame (hwebsocket.trans hreceived.websocket.symm) hbody ?_
    rw [hheaders]
    exact HttpRequest.filter_resentHeaders hreceived.websocket fun _ => id

/-- A request with a folded field, an empty query and a length. -/
def resentInput : Bytes :=
  ascii "POST /a?#b HTTP/1.0\r\nX:  1 \r\nx: 2\r\ncontent-length: 02\r\n\r\nhirest"

theorem accepts_dump_example : ∃ r, Accepts resentInput r 59 ∧
    ∃ r', Accepts r.dump r' r.dump.length ∧ SameRequest r r' ∧ r'.dump = r.dump := by
  have haccepts : Accepts resentInput (new.execute resentInput).1.data 59 :=
    ⟨by decide +kernel, by decide +kernel, rfl, by decide +kernel⟩
  exact ⟨_, haccepts, accepts_dump _ _ _ haccepts (by decide +kernel)⟩

end HttpRequestParser

end Http

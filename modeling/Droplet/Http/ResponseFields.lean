/-
The header fields of a response.

The header loop accepts one `Content-Length`, joins the values of the fields that name
`Transfer-Encoding` and those that name `Connection`, and stores every other field in the
response.

* `onField_eq` — the variables of the loop after a field;
* `collects` — the variables after all of them;
* `splitOn_joinAll` — the elements of a joined list are those of its parts.
-/
import Droplet.Http.ResponseParser

open Search Lines

namespace Http

namespace HttpResponseParser

variable {name value text : Bytes} {values : List Bytes} {field : Bytes × Bytes}
  {fields : List (Bytes × Bytes)} {s s' : Headers}

/-! ### Joined values -/

/-- What the values of repeated fields are joined to. -/
def joinAll (seen : Bool) (text : Bytes) : List Bytes → Bytes
  | [] => text
  | value :: values => joinAll true (joinValues seen text value) values

theorem splitOn_joinAll_seen : (joinAll true text values).splitOn 44 =
    text.splitOn 44 ++ values.flatMap fun value => value.splitOn 44 := by
  induction values generalizing text with
  | nil => rw [joinAll, List.flatMap_nil, List.append_nil]
  | cons value values ih =>
    have hcomma : joinValues true text value = text ++ 44 :: value := by
      rw [joinValues, if_pos rfl, List.append_assoc]
      rfl
    rw [joinAll, ih, hcomma, List.splitOn_append_cons_self, List.flatMap_cons, List.append_assoc]

/-- The elements of a joined list are those of its parts. -/
theorem splitOn_joinAll (h : values ≠ []) :
    (joinAll false [] values).splitOn 44 = values.flatMap fun value => value.splitOn 44 := by
  obtain ⟨value, values, rfl⟩ := List.exists_cons_of_ne_nil h
  rw [joinAll, splitOn_joinAll_seen, List.flatMap_cons]
  rfl

/-! ### The fields -/

/-- The response with the cookie or header of a field. -/
def storedResponse (name value : Bytes) (response : HttpResponse) : HttpResponse :=
  if caseInsensitiveEqual name (ascii "set-cookie") then response.addCookie value
  else if !caseInsensitiveEqual name (ascii "transfer-encoding") &&
      !caseInsensitiveEqual name (ascii "connection") then
    response.setHeader name value
  else response

/-- The variables of the loop after a field, and with this length. -/
def afterField (s : Headers) (name value : Bytes) (length : ℕ) : Headers where
  contentLengthSeen := s.contentLengthSeen || caseInsensitiveEqual name (ascii "content-length")
  transferEncodingSeen :=
    s.transferEncodingSeen || caseInsensitiveEqual name (ascii "transfer-encoding")
  connectionSeen := s.connectionSeen || caseInsensitiveEqual name (ascii "connection")
  parsedContentLength := length
  transferEncoding :=
    if caseInsensitiveEqual name (ascii "transfer-encoding") then
      joinValues s.transferEncodingSeen s.transferEncoding value
    else s.transferEncoding
  connectionHeader :=
    if caseInsensitiveEqual name (ascii "connection") then
      joinValues s.connectionSeen s.connectionHeader value
    else s.connectionHeader
  response := storedResponse name value s.response

theorem storeField_eq : storeField name value s =
    { s with response := storedResponse name value s.response } := by
  rw [storeField, storedResponse]
  split_ifs <;> rfl

/-- What a field does. -/
theorem onField_eq (h : onField s name value = .ok s') :
    ∃ length, s' = afterField s name value length := by
  rw [onField] at h
  rcases hframe : frameField s name value with failure | s₁
  · rw [hframe] at h
    exact absurd h (by simp [Except.map])
  · rw [hframe] at h
    obtain rfl := Except.ok.inj h
    rw [storeField_eq]
    rw [frameField] at hframe
    by_cases hlength : caseInsensitiveEqual name (ascii "content-length") = true
    · have hcoding : caseInsensitiveEqual name (ascii "transfer-encoding") = false := by
        rw [caseInsensitiveEqual_congr hlength]
        decide
      have hconnection : caseInsensitiveEqual name (ascii "connection") = false := by
        rw [caseInsensitiveEqual_congr hlength]
        decide
      rw [if_pos hlength] at hframe
      rcases hvalue : parseContentLength value with _ | n
      · rw [hvalue] at hframe
        exact absurd hframe (by simp)
      · rw [hvalue] at hframe
        simp only at hframe
        split_ifs at hframe
        obtain rfl := Except.ok.inj hframe
        exact ⟨n, by simp [afterField, hlength, hcoding, hconnection]⟩
    · rw [if_neg hlength] at hframe
      rw [Bool.not_eq_true] at hlength
      by_cases hcoding : caseInsensitiveEqual name (ascii "transfer-encoding") = true
      · have hconnection : caseInsensitiveEqual name (ascii "connection") = false := by
          rw [caseInsensitiveEqual_congr hcoding]
          decide
        rw [if_pos hcoding] at hframe
        obtain rfl := Except.ok.inj hframe
        exact ⟨s.parsedContentLength, by simp [afterField, hlength, hcoding, hconnection]⟩
      · rw [if_neg hcoding] at hframe
        rw [Bool.not_eq_true] at hcoding
        split_ifs at hframe with hconnection
        · obtain rfl := Except.ok.inj hframe
          exact ⟨s.parsedContentLength, by simp [afterField, hlength, hcoding, hconnection]⟩
        · obtain rfl := Except.ok.inj hframe
          exact ⟨s.parsedContentLength, by simp [afterField, hlength, hcoding, hconnection]⟩

/-- What the fields of a header section come to. -/
structure Collects (fields : List (Bytes × Bytes)) (s s' : Headers) : Prop where
  contentLengthSeen : s'.contentLengthSeen =
    (s.contentLengthSeen || !(valuesOf (ascii "content-length") fields).isEmpty)
  transferEncodingSeen : s'.transferEncodingSeen =
    (s.transferEncodingSeen || !(valuesOf (ascii "transfer-encoding") fields).isEmpty)
  connectionSeen : s'.connectionSeen =
    (s.connectionSeen || !(valuesOf (ascii "connection") fields).isEmpty)
  transferEncoding : s'.transferEncoding = joinAll s.transferEncodingSeen s.transferEncoding
    (valuesOf (ascii "transfer-encoding") fields)
  connectionHeader : s'.connectionHeader = joinAll s.connectionSeen s.connectionHeader
    (valuesOf (ascii "connection") fields)
  response : s'.response = fields.foldl
    (fun r field => storedResponse field.1 (trimOptionalWhitespace field.2) r) s.response

theorem collects
    (h : fields.foldlM (fun s field => onField s field.1 (trimOptionalWhitespace field.2)) s =
      .ok s') : Collects fields s s' := by
  induction fields generalizing s with
  | nil =>
    obtain rfl := Except.ok.inj h
    constructor <;> simp [valuesOf, joinAll]
  | cons field fields ih =>
    rw [List.foldlM_cons] at h
    rcases hstep : onField s field.1 (trimOptionalWhitespace field.2) with failure | s₁
    · rw [hstep] at h
      exact absurd h (by simp [bind, Except.bind])
    · rw [hstep] at h
      have hrest := ih h
      obtain ⟨length, rfl⟩ := onField_eq hstep
      constructor
      · rw [hrest.contentLengthSeen, valuesOf_cons]
        by_cases hname : caseInsensitiveEqual field.1 (ascii "content-length") = true
        · simp [afterField, hname]
        · simp [afterField, hname]
      · rw [hrest.transferEncodingSeen, valuesOf_cons]
        by_cases hname : caseInsensitiveEqual field.1 (ascii "transfer-encoding") = true
        · simp [afterField, hname]
        · simp [afterField, hname]
      · rw [hrest.connectionSeen, valuesOf_cons]
        by_cases hname : caseInsensitiveEqual field.1 (ascii "connection") = true
        · simp [afterField, hname]
        · simp [afterField, hname]
      · rw [hrest.transferEncoding, valuesOf_cons]
        by_cases hname : caseInsensitiveEqual field.1 (ascii "transfer-encoding") = true
        · simp [afterField, hname, joinAll]
        · simp [afterField, hname]
      · rw [hrest.connectionHeader, valuesOf_cons]
        by_cases hname : caseInsensitiveEqual field.1 (ascii "connection") = true
        · simp [afterField, hname, joinAll]
        · simp [afterField, hname]
      · exact hrest.response

/-! ### Header sections -/

/-- The response with the joined values. -/
def finishedResponse (s : Headers) : HttpResponse :=
  let response := if s.transferEncodingSeen then
      s.response.setHeader (ascii "Transfer-Encoding") s.transferEncoding
    else s.response
  let response := if s.connectionSeen then
      response.setHeader (ascii "Connection") s.connectionHeader
    else response
  response.initConnection

theorem finishHeaders_eq (h : finishHeaders s = .ok s') :
    s' = { s with response := finishedResponse s } := by
  rw [finishHeaders] at h
  by_cases hboth : (s.contentLengthSeen && s.transferEncodingSeen) = true
  · rw [if_pos hboth] at h
    exact absurd h (by simp)
  · rw [if_neg hboth] at h
    simp only at h
    by_cases hlarge : kMaxBodySize < s.parsedContentLength
    · rw [if_pos hlarge] at h
      exact absurd h (by simp)
    · rw [if_neg hlarge] at h
      exact (Except.ok.inj h).symm

/-- The header section with this status line and these fields. -/
def headText (statusLine : Bytes) (fields : List (Bytes × Bytes)) : Bytes :=
  statusLine ++ crlf ++ (fields.flatMap fun field => fieldSource field ++ crlf) ++ crlf

theorem headText_eq (statusLine : Bytes) (fields : List (Bytes × Bytes)) :
    headText statusLine fields =
      unlines 13 10 (statusLine :: fields.map fieldSource) ++ crlf := by
  rw [headText, flatMap_fieldSource, unlines_cons, List.append_assoc, List.append_assoc,
    List.append_assoc]
  rfl

/-- A status line and fields as the parser accepts them. -/
structure ValidHead (statusLine : Bytes) (fields : List (Bytes × Bytes)) : Prop where
  statusLine : IsLine 13 10 statusLine
  fields : ∀ field ∈ fields, isValidHeaderName field.1 = true ∧
    isValidHeaderValue (trimOptionalWhitespace field.2) = true

/-- The variables before the first field. -/
def Headers.new (response : HttpResponse) : Headers := ⟨false, false, false, 0, [], [], response⟩

variable {statusLine rest input : Bytes} {size : ℕ}

theorem parseHeaders_headText (hvalid : ValidHead statusLine fields) (rest : Bytes) :
    parseHeaders (headText statusLine fields ++ rest) =
      interpretBlock kMaxHeaderSize blockErrors headerMessages
        (fun line => (parseStatusLine line).map Headers.new) onField statusLine
        (fields.map fieldSource) := by
  have hblock : IsBlock 13 10 statusLine (fields.map fieldSource) := by
    refine ⟨hvalid.statusLine, ?_⟩
    intro line hline
    obtain ⟨field, hfield, rfl⟩ := List.mem_map.mp hline
    exact isLine_fieldSource (hvalid.fields field hfield).1 (hvalid.fields field hfield).2
  rw [parseHeaders, headText_eq]
  exact parseBlock_block rest hblock

/-- The variables after a header section that is accepted. -/
theorem parseHead_headText (hvalid : ValidHead statusLine fields)
    (h : parseHead (headText statusLine fields ++ rest) = .ok (some (size, s))) :
    size = (headText statusLine fields).length ∧ ∃ response s₀,
      parseStatusLine statusLine = .ok response ∧ Collects fields (Headers.new response) s₀ ∧
      s = { s₀ with response := finishedResponse s₀ } := by
  obtain ⟨s₀, hheaders, hfinish⟩ := parseHead_eq_some h
  rw [parseHeaders_headText hvalid, interpretBlock_eq_some_iff] at hheaders
  obtain ⟨hsize, -, s₁, hfirst, hlines⟩ := hheaders
  rcases hstatus : parseStatusLine statusLine with failure | response
  · rw [hstatus] at hfirst
    exact absurd hfirst (by simp [Except.map])
  · rw [hstatus] at hfirst
    obtain rfl := Except.ok.inj hfirst
    rw [foldlM_fieldSource hvalid.fields] at hlines
    rw [headText_eq]
    exact ⟨hsize, response, s₀, rfl, collects hlines, finishHeaders_eq hfinish⟩

/-- Every header section that is accepted has a status line and fields. -/
theorem exists_headText (h : parseHead input = .ok (some (size, s))) :
    ∃ statusLine fields rest, ValidHead statusLine fields ∧
      input = headText statusLine fields ++ rest := by
  obtain ⟨s₀, hheaders, -⟩ := parseHead_eq_some h
  obtain ⟨statusLine, lines, rest, hblock, rfl, -, -, s₁, -, hlines⟩ :=
    parseBlock_eq_some_iff.mp hheaders
  obtain ⟨fields, rfl, hvalid, -⟩ := foldlM_headerStep_iff.mp hlines
  refine ⟨statusLine, fields, rest, ⟨hblock.1, hvalid⟩, ?_⟩
  rw [headText_eq]

end HttpResponseParser

end Http

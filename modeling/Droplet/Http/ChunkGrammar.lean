/-
The grammar of chunked bodies.

A chunked body is a list of chunks, a last chunk without data, and trailers; behind a header
section that announces it the parser accepts the texts of this grammar and no others.

* `ChunkedText` — the parts of a chunked body and what follows it, `ChunkedText.WellFormed`
  what the parser asks of them;
* `AnnouncesChunks` — a header section that announces a chunked body;
* `chunkLoop_text`, `Chunks.exists_text` — what the loop over the chunks accepts;
* `chunked_iff_grammar` — the parser finishes on the texts of the grammar, takes up all but
  what follows the body, and reports the data of the chunks.
-/
import Droplet.Http.RequestGrammar
import Droplet.Http.ResponseParts

open Search Lines

namespace Http

/-! ### The grammar -/

def hexadecimalDigit (b : UInt8) : Option ℕ :=
  if 48 ≤ b ∧ b ≤ 57 then some (b.toNat - 48)
  else if 97 ≤ b ∧ b ≤ 102 then some (b.toNat - 87)
  else if 65 ≤ b ∧ b ≤ 70 then some (b.toNat - 55)
  else none

/-- The number that a text of hexadecimal digits stands for. -/
def hexadecimalValue (text : Bytes) : Option ℕ :=
  if text ≠ [] ∧ text.all fun b => (hexadecimalDigit b).isSome then
    some (text.foldl (fun value b => value * 16 + (hexadecimalDigit b).getD 0) 0)
  else none

/-- A size line: a number between spaces and tabs, and behind it possibly a semicolon and
anything but the end of a line. -/
structure SizeLine (line : Bytes) (size : ℕ) : Prop where
  isLine : IsLine 13 10 line
  value : hexadecimalValue (trimOptionalWhitespace (before 59 line)) = some size
  bound : size ≤ sizeMax

/-- The parts of a chunked body, and the bytes that follow it.  A chunk is a size line and its
data, a trailer a name and what stands between the colon and the end of the line. -/
structure ChunkedText where
  chunks : List (Bytes × Bytes)
  lastLine : Bytes
  trailers : List (Bytes × Bytes)
  rest : Bytes

def chunkText (chunk : Bytes × Bytes) : Bytes := chunk.1 ++ crlf ++ (chunk.2 ++ crlf)

def trailersText (trailers : List (Bytes × Bytes)) : Bytes :=
  trailers.flatMap fun field => fieldSource field ++ crlf

namespace ChunkedText

def text (c : ChunkedText) : Bytes :=
  c.chunks.flatMap chunkText ++ (c.lastLine ++ crlf ++ (trailersText c.trailers ++ crlf ++ c.rest))

def body (c : ChunkedText) : Bytes := c.chunks.flatMap fun chunk => chunk.2

/-- What is asked of the parts. -/
structure WellFormed (c : ChunkedText) : Prop where
  chunks : ∀ chunk ∈ c.chunks, SizeLine chunk.1 chunk.2.length ∧ chunk.2.length ≠ 0
  lastLine : SizeLine c.lastLine 0
  trailers : ∀ field ∈ c.trailers, isValidHeaderName field.1 = true ∧
    isValidHeaderValue (trimOptionalWhitespace field.2) = true
  bodySize : c.body.length ≤ 64 * 1024 * 1024
  trailersSize : (trailersText c.trailers).length ≤ 65536

/-- What a parser that has finished reports, behind this header section. -/
structure Reports (head : Bytes) (c : ChunkedText) (result : HttpResponseParser × ℕ) : Prop where
  finished : result.1.finished = true
  error : result.1.hasError = false
  chunked : result.1.chunked = true
  consumed : result.2 + c.rest.length = (head ++ c.text).length
  body : result.1.data.body = c.body
  contentLength : result.1.contentLength = c.body.length

end ChunkedText

namespace HttpResponseParser

/-- The elements of the lists of the `Transfer-Encoding` fields. -/
def codings (fields : List (Bytes × Bytes)) : List Bytes :=
  (valuesOf (ascii "transfer-encoding") fields).flatMap fun value => value.splitOn 44

/-- The coding that an element names, without its parameters; it is empty when the element is. -/
def codingOf (element : Bytes) : Bytes :=
  trimOptionalWhitespace (before 59 (trimOptionalWhitespace element))

/-- A header section that is accepted and announces a chunked body. -/
structure AnnouncesChunks (method : HttpMethod) (statusLine : Bytes)
    (fields : List (Bytes × Bytes)) : Prop where
  valid : ValidHead statusLine fields
  accepted : ∃ size s, parseHead (headText statusLine fields) = .ok (some (size, s)) ∧
    responseHasNoBody method s.response.status = false
  length : valuesOf (ascii "content-length") fields = []
  coding : ∃ front last, codings fields = front ++ [last] ∧
    (∀ element ∈ front, codingOf element ≠ [] ∧
      caseInsensitiveEqual (codingOf element) (ascii "chunked") = false) ∧
    caseInsensitiveEqual (codingOf last) (ascii "chunked") = true

/-! ### Numbers and codings -/

theorem hexadecimalDigit_eq_some_iff {b : UInt8} {d : ℕ} :
    hexadecimalDigit b = some d ↔ digitValue b = some d ∧ d < 16 := by
  rw [hexadecimalDigit, digitValue]
  simp only [UInt8.le_iff_toNat_le]
  have hzero : (48 : UInt8).toNat = 48 := rfl
  have hnine : (57 : UInt8).toNat = 57 := rfl
  have hupperA : (65 : UInt8).toNat = 65 := rfl
  have hupperF : (70 : UInt8).toNat = 70 := rfl
  have hupperZ : (90 : UInt8).toNat = 90 := rfl
  have hlowerA : (97 : UInt8).toNat = 97 := rfl
  have hlowerF : (102 : UInt8).toNat = 102 := rfl
  have hlowerZ : (122 : UInt8).toNat = 122 := rfl
  split_ifs <;> simp only [Option.some_inj, false_and, false_iff] <;> omega

theorem isDigitOf_sixteen {b : UInt8} :
    isDigitOf 16 b = true ↔ (hexadecimalDigit b).isSome = true := by
  rw [isDigitOf, Option.isSome_iff_exists, Option.any_eq_true]
  constructor
  · rintro ⟨d, hd, hlt⟩
    exact ⟨d, hexadecimalDigit_eq_some_iff.mpr ⟨hd, of_decide_eq_true hlt⟩⟩
  · rintro ⟨d, hd⟩
    obtain ⟨hd, hlt⟩ := hexadecimalDigit_eq_some_iff.mp hd
    exact ⟨d, hd, decide_eq_true hlt⟩

theorem wholeNumber_sixteen_iff {max n : ℕ} {text : Bytes} :
    wholeNumber max 16 text = some n ↔ hexadecimalValue text = some n ∧ n ≤ max := by
  refine wholeNumber_iff_digits (fun b => ?_) fun b hb => ?_
  · rw [Bool.eq_iff_iff]
    exact isDigitOf_sixteen
  · obtain ⟨d, hd⟩ := Option.isSome_iff_exists.mp hb
    rw [hd, (hexadecimalDigit_eq_some_iff.mp hd).1]

/-- The lines that announce chunks. -/
theorem parseChunkSize_iff {line : Bytes} {size : ℕ} :
    parseChunkSize line = some size ↔
      hexadecimalValue (trimOptionalWhitespace (before 59 line)) = some size ∧ size ≤ sizeMax := by
  rw [← wholeNumber_sixteen_iff, parseChunkSize]
  have hsame : beforeSemicolon line = before 59 line := rfl
  rw [hsame]
  rcases trimOptionalWhitespace (before 59 line) with _ | ⟨b, text⟩
  · constructor
    · intro h
      exact absurd h (by simp)
    · intro h
      exact absurd rfl (wholeNumber_iff.mp h).1
  · exact Iff.rfl

/-- A list of codings that ends with `chunked`. -/
theorem finalChunkedLoop_of_last {sawToken : Bool} {front : List Bytes} {last : Bytes}
    (hfront : ∀ element ∈ front, codingOf element ≠ [] ∧
      caseInsensitiveEqual (codingOf element) (ascii "chunked") = false)
    (hlast : caseInsensitiveEqual (codingOf last) (ascii "chunked") = true) :
    finalChunkedLoop sawToken false (front ++ [last]) = true := by
  have hstep : ∀ {sawToken : Bool} {element : Bytes} {elements : List Bytes},
      codingOf element ≠ [] → finalChunkedLoop sawToken false (element :: elements) =
        finalChunkedLoop true (caseInsensitiveEqual (codingOf element) (ascii "chunked")) elements := by
    intro sawToken element elements hne
    have htoken : trimOptionalWhitespace element ≠ [] := by
      intro hempty
      refine hne ?_
      rw [codingOf, hempty]
      rfl
    have hsame : trimOptionalWhitespace (beforeSemicolon (trimOptionalWhitespace element)) =
        codingOf element := rfl
    rw [finalChunkedLoop]
    simp only [List.isEmpty_iff, hsame]
    rw [if_neg htoken, if_neg hne, if_neg (by simp)]
  induction front generalizing sawToken with
  | nil =>
    have hne : codingOf last ≠ [] := by
      intro hempty
      rw [hempty] at hlast
      exact absurd hlast (by decide)
    rw [List.nil_append, hstep hne, hlast]
    rfl
  | cons element front ih =>
    obtain ⟨⟨hne, hother⟩, hfront⟩ := List.forall_mem_cons.mp hfront
    rw [List.cons_append, hstep hne, hother]
    exact ih hfront

variable {method : HttpMethod} {statusLine : Bytes} {fields : List (Bytes × Bytes)}

/-- Behind such a header section the parser reads chunks. -/
theorem AnnouncesChunks.parseMessage (h : AnnouncesChunks method statusLine fields) (d : Bytes)
    (eof : Bool) :
    ∃ response, HttpResponseParser.parseMessage method (headText statusLine fields ++ d) eof =
      (chunkLoop (headText statusLine fields ++ d) (headText statusLine fields).length [] response).map
        (Option.map Parsed.ofChunked) := by
  obtain ⟨size, s, hhead, hbody⟩ := h.accepted
  have hwhole := parseHead_append d (by rw [hhead]; simp)
  rw [hhead] at hwhole
  obtain ⟨rfl, response, s₀, -, hfields, rfl⟩ := parseHead_headText h.valid hwhole
  obtain ⟨front, last, hcodings, hfront, hlast⟩ := h.coding
  have hvalues : valuesOf (ascii "transfer-encoding") fields ≠ [] := by
    intro hnone
    rw [codings, hnone] at hcodings
    exact absurd hcodings (by simp)
  have hseen : s₀.transferEncodingSeen = true := by
    rw [hfields.transferEncodingSeen]
    simpa using Or.inr hvalues
  have hfinal : headerContainsFinalChunked s₀.transferEncoding = true := by
    rw [hfields.transferEncoding, headerContainsFinalChunked]
    refine (congrArg _ (splitOn_joinAll hvalues)).trans ?_
    rw [← codings, hcodings]
    exact finalChunkedLoop_of_last hfront hlast
  refine ⟨finishedResponse s₀, ?_⟩
  rw [parseMessage_of_head hwhole]
  exact parseBody_chunked hbody hseen hfinal

/-! ### Lines -/

section Loops

variable {pre line t rest s body : Bytes} {trailers : List (Bytes × Bytes)} {response : HttpResponse}
  {trailersBegin position lineEnd n : ℕ}

/-- The line behind a part of an input. -/
theorem line_at (h : IsLine 13 10 line) (pre t : Bytes) :
    find crlf (pre ++ (line ++ crlf ++ t)) pre.length = some (pre.length + line.length) ∧
      substr (pre ++ (line ++ crlf ++ t)) pre.length (pre.length + line.length - pre.length) = line := by
  rw [List.append_assoc line]
  refine ⟨find_line (by decide) h pre t, ?_⟩
  rw [Nat.add_sub_cancel_left]
  exact substr_mid

/-- A line that is found cuts what follows a position. -/
theorem exists_line_at (h : find crlf s position = some lineEnd) :
    ∃ line t, s.drop position = line ++ crlf ++ t ∧ IsLine 13 10 line ∧
      lineEnd = position + line.length ∧ substr s position (lineEnd - position) = line ∧
      s.drop (lineEnd + 2) = t := by
  rw [find_drop, Option.map_eq_some_iff] at h
  obtain ⟨i, hi, rfl⟩ := h
  obtain ⟨line, t, hdrop, hline, rfl⟩ := exists_line hi
  have hcut : s.drop position = line ++ crlf ++ t := by
    rw [hdrop, List.append_assoc]
    rfl
  refine ⟨line, t, hcut, hline, Nat.add_comm _ _, ?_, ?_⟩
  · rw [substr, Nat.add_sub_cancel, hdrop, List.take_left]
  · have hskip : line.length + position + 2 = position + (line ++ crlf).length := by
      rw [List.length_append, List.length_cons, List.length_singleton]
      omega
    rw [hskip, ← List.drop_drop, hcut, List.drop_left]

/-! ### Trailers -/

/-- The response with these trailers. -/
def withTrailers (response : HttpResponse) (trailers : List (Bytes × Bytes)) : HttpResponse :=
  trailers.foldl (fun r field => onTrailer r field.1 (trimOptionalWhitespace field.2)) response

theorem trailersText_cons (field : Bytes × Bytes) (trailers : List (Bytes × Bytes)) :
    trailersText (field :: trailers) = fieldSource field ++ crlf ++ trailersText trailers :=
  List.flatMap_cons

/-- Trailers are read to the empty line. -/
theorem trailerLoop_text (rest : Bytes)
    (hvalid : ∀ field ∈ trailers, isValidHeaderName field.1 = true ∧
      isValidHeaderValue (trimOptionalWhitespace field.2) = true)
    (hsize : pre.length + (trailersText trailers).length ≤ trailersBegin + kMaxHeaderSize) :
    trailerLoop (pre ++ (trailersText trailers ++ crlf ++ rest)) trailersBegin body pre.length
        response =
      .ok (some ((pre ++ (trailersText trailers ++ crlf)).length,
        ((withTrailers response trailers).setBody body).initConnection)) := by
  induction trailers generalizing pre response with
  | nil =>
    obtain ⟨hfind, hline⟩ := line_at (IsLine.of_notMem List.not_mem_nil) pre rest
    have hempty : (trailersText []).length = 0 := rfl
    rw [hempty] at hsize
    refine (trailerLoop_line hfind).trans ?_
    rw [hline, if_neg (by rw [List.length_nil]; omega), if_pos (by simp), List.length_append]
    rfl
  | cons field trailers ih =>
    obtain ⟨⟨hname, hvalue⟩, hvalid⟩ := List.forall_mem_cons.mp hvalid
    obtain ⟨hisLine, hne⟩ : IsLine 13 10 (fieldSource field) ∧ fieldSource field ≠ [] :=
      isLine_fieldSource hname hvalue
    obtain ⟨hfind, hline⟩ := line_at hisLine pre (trailersText trailers ++ crlf ++ rest)
    have hfield : parseField trailerMessages (fieldSource field) =
        .ok (field.1, trimOptionalWhitespace field.2) :=
      parseField_iff.mpr ⟨field.2, rfl, hname, rfl, hvalue⟩
    have hinput : pre ++ (trailersText (field :: trailers) ++ crlf ++ rest) =
        pre ++ (fieldSource field ++ crlf ++ (trailersText trailers ++ crlf ++ rest)) := by
      rw [trailersText_cons]
      simp only [List.append_assoc]
    have hnext : pre ++ (fieldSource field ++ crlf ++ (trailersText trailers ++ crlf ++ rest)) =
        (pre ++ (fieldSource field ++ crlf)) ++ (trailersText trailers ++ crlf ++ rest) := by
      simp only [List.append_assoc]
    have hlength : pre.length + (fieldSource field).length + 2 =
        (pre ++ (fieldSource field ++ crlf)).length := by
      rw [List.length_append, List.length_append, Nat.add_assoc]
      rfl
    rw [trailersText_cons, List.length_append, List.length_append, List.length_cons,
      List.length_singleton] at hsize
    rw [hinput, trailerLoop_line hfind, hline, if_neg (by omega),
      if_neg (by rwa [List.isEmpty_iff]), hfield]
    simp only [bind, Except.bind]
    rw [hnext, hlength]
    refine (ih hvalid (by rw [← hlength]; omega)).trans ?_
    have hwhole : pre ++ (fieldSource field ++ crlf) ++ (trailersText trailers ++ crlf) =
        pre ++ (trailersText (field :: trailers) ++ crlf) := by
      rw [trailersText_cons]
      simp only [List.append_assoc]
    rw [hwhole]
    rfl

/-- What ends with the empty line is the text of trailers. -/
theorem Trailers.exists_text (h : Trailers kMaxHeaderSize s trailersBegin position (some n)) :
    ∃ trailers rest, s.drop position = trailersText trailers ++ crlf ++ rest ∧
      (∀ field ∈ trailers, isValidHeaderName field.1 = true ∧
        isValidHeaderValue (trimOptionalWhitespace field.2) = true) ∧
      position + (trailersText trailers).length ≤ trailersBegin + kMaxHeaderSize := by
  generalize hstop : some n = stop at h
  induction h with
  | cut => exact absurd hstop (by simp)
  | @last position h hmax =>
    obtain ⟨line, t, hdrop, -, hend, -, -⟩ := exists_line_at h
    have hempty : line = [] := List.eq_nil_of_length_eq_zero (by omega)
    refine ⟨[], t, ?_, by simp, ?_⟩
    · rw [hdrop, hempty]
      rfl
    · have hnone : (trailersText []).length = 0 := rfl
      rw [hnone]
      omega
  | @field position lineEnd stop h tail ih =>
    obtain ⟨trailers, rest, htail, hvalid, hsize⟩ := ih hstop
    obtain ⟨line, t, hdrop, -, hend, hline, hnext⟩ := exists_line_at h.found
    obtain ⟨⟨name, value⟩, hfield⟩ := h.field
    rw [hline] at hfield
    obtain ⟨source, rfl, hname, rfl, hvalue⟩ := parseField_iff.mp hfield
    refine ⟨(name, source) :: trailers, rest, ?_,
      List.forall_mem_cons.mpr ⟨⟨hname, hvalue⟩, hvalid⟩, ?_⟩
    · rw [hdrop, ← hnext, htail, trailersText_cons]
      simp only [List.append_assoc]
    · rw [trailersText_cons, List.length_append, List.length_append, List.length_cons,
        List.length_singleton]
      omega

/-! ### Chunks -/

theorem chunkLine_at {size : ℕ} (h : SizeLine line size) (pre t : Bytes) :
    ChunkLine (pre ++ (line ++ crlf ++ t)) pre.length (pre.length + line.length) size := by
  obtain ⟨hfind, hline⟩ := line_at h.isLine pre t
  refine ⟨hfind, ?_⟩
  rw [hline]
  exact parseChunkSize_iff.mpr ⟨h.value, h.bound⟩

/-- Chunks are read one after the other. -/
theorem chunkLoop_chunks {chunks : List (Bytes × Bytes)} (t : Bytes)
    (hchunks : ∀ chunk ∈ chunks, SizeLine chunk.1 chunk.2.length ∧ chunk.2.length ≠ 0)
    (hbody : (body ++ chunks.flatMap fun chunk => chunk.2).length ≤ kMaxBodySize)
    (hinput : (pre ++ (chunks.flatMap chunkText ++ t)).length ≤ sizeMax) :
    chunkLoop (pre ++ (chunks.flatMap chunkText ++ t)) pre.length body response =
      chunkLoop (pre ++ (chunks.flatMap chunkText ++ t)) (pre ++ chunks.flatMap chunkText).length
        (body ++ chunks.flatMap fun chunk => chunk.2) response := by
  induction chunks generalizing pre body with
  | nil => rw [List.flatMap_nil, List.flatMap_nil, List.append_nil, List.append_nil]
  | cons chunk chunks ih =>
    obtain ⟨sizeLine, data⟩ := chunk
    obtain ⟨⟨hsizeLine, hne⟩, hchunks⟩ := List.forall_mem_cons.mp hchunks
    have hrest : (sizeLine, data).2.length = data.length := rfl
    rw [hrest] at hsizeLine hne
    rw [List.flatMap_cons, ← List.append_assoc] at hbody
    have htext : pre ++ (((sizeLine, data) :: chunks).flatMap chunkText ++ t) =
        pre ++ (sizeLine ++ crlf ++ (data ++ crlf ++ (chunks.flatMap chunkText ++ t))) := by
      rw [List.flatMap_cons, chunkText]
      simp only [List.append_assoc]
    have hend : pre ++ ((sizeLine, data) :: chunks).flatMap chunkText =
        pre ++ (sizeLine ++ crlf) ++ (data ++ crlf) ++ chunks.flatMap chunkText := by
      rw [List.flatMap_cons, chunkText]
      simp only [List.append_assoc]
    rw [htext] at hinput ⊢
    rw [hend, List.flatMap_cons, ← List.append_assoc body]
    generalize chunks.flatMap chunkText ++ t = tail at hinput ih ⊢
    have hline := chunkLine_at hsizeLine pre (data ++ crlf ++ tail)
    -- the data and its terminator, behind the size line
    have hdata : pre ++ (sizeLine ++ crlf ++ (data ++ crlf ++ tail)) =
        (pre ++ (sizeLine ++ crlf)) ++ (data ++ (crlf ++ tail)) := by
      simp only [List.append_assoc]
    have hnext : pre ++ (sizeLine ++ crlf ++ (data ++ crlf ++ tail)) =
        (pre ++ (sizeLine ++ crlf) ++ (data ++ crlf)) ++ tail := by
      simp only [List.append_assoc]
    have hbegin : pre.length + sizeLine.length + 2 = (pre ++ (sizeLine ++ crlf)).length := by
      rw [List.length_append, List.length_append, Nat.add_assoc]
      rfl
    have hlength : (pre ++ (sizeLine ++ crlf)).length + data.length + 2 =
        (pre ++ (sizeLine ++ crlf) ++ (data ++ crlf)).length := by
      simp only [List.length_append, List.length_cons, List.length_nil]
      omega
    have hdataText : substr (pre ++ (sizeLine ++ crlf ++ (data ++ crlf ++ tail)))
        (pre.length + sizeLine.length + 2) data.length = data := by
      rw [hdata, hbegin]
      exact substr_mid
    have hterminator : substr (pre ++ (sizeLine ++ crlf ++ (data ++ crlf ++ tail)))
        (pre.length + sizeLine.length + 2 + data.length) 2 = crlf := by
      have hdataEnd : pre.length + sizeLine.length + 2 + data.length =
          (pre ++ (sizeLine ++ crlf) ++ data).length := by
        simp only [List.length_append, List.length_cons, List.length_nil]
        omega
      have hlen : 2 = crlf.length := rfl
      rw [hdata, ← List.append_assoc, hdataEnd, hlen]
      exact substr_mid
    have hfits : ChunkFits body.length (pre.length + sizeLine.length + 2) data.length := by
      rw [List.length_append, List.length_append] at hbody
      have hle := le_of_substr_eq_crlf hterminator
      constructor
      · omega
      · omega
    rw [chunkLoop_chunk hline hne hfits hterminator, hdataText, hbegin, hlength, hnext]
    rw [hnext] at hinput
    exact ih hchunks hbody hinput

/-- Chunks are read to the end of the trailers. -/
theorem chunkLoop_text {lastLine : Bytes} {chunks : List (Bytes × Bytes)} (rest : Bytes)
    (hchunks : ∀ chunk ∈ chunks, SizeLine chunk.1 chunk.2.length ∧ chunk.2.length ≠ 0)
    (hlast : SizeLine lastLine 0)
    (hvalid : ∀ field ∈ trailers, isValidHeaderName field.1 = true ∧
      isValidHeaderValue (trimOptionalWhitespace field.2) = true)
    (hbody : (body ++ chunks.flatMap fun chunk => chunk.2).length ≤ kMaxBodySize)
    (hsize : (trailersText trailers).length ≤ kMaxHeaderSize)
    (hinput : (pre ++ (chunks.flatMap chunkText ++
      (lastLine ++ crlf ++ (trailersText trailers ++ crlf ++ rest)))).length ≤ sizeMax) :
    chunkLoop (pre ++ (chunks.flatMap chunkText ++
        (lastLine ++ crlf ++ (trailersText trailers ++ crlf ++ rest)))) pre.length body response =
      .ok (some ((pre ++ (chunks.flatMap chunkText ++
          (lastLine ++ crlf ++ (trailersText trailers ++ crlf)))).length,
        ((withTrailers response trailers).setBody
          (body ++ chunks.flatMap fun chunk => chunk.2)).initConnection)) := by
  have hlastLine : pre ++ (chunks.flatMap chunkText ++
      (lastLine ++ crlf ++ (trailersText trailers ++ crlf ++ rest))) =
      (pre ++ chunks.flatMap chunkText) ++
        (lastLine ++ crlf ++ (trailersText trailers ++ crlf ++ rest)) := by
    simp only [List.append_assoc]
  rw [chunkLoop_chunks _ hchunks hbody hinput, hlastLine]
  generalize hpre : pre ++ chunks.flatMap chunkText = pre'
  have hline := chunkLine_at hlast pre' (trailersText trailers ++ crlf ++ rest)
  have hnext : pre' ++ (lastLine ++ crlf ++ (trailersText trailers ++ crlf ++ rest)) =
      (pre' ++ (lastLine ++ crlf)) ++ (trailersText trailers ++ crlf ++ rest) := by
    simp only [List.append_assoc]
  have hlength : pre'.length + lastLine.length + 2 = (pre' ++ (lastLine ++ crlf)).length := by
    rw [List.length_append, List.length_append, Nat.add_assoc]
    rfl
  have hwhole : pre' ++ (lastLine ++ crlf) ++ (trailersText trailers ++ crlf) =
      pre ++ (chunks.flatMap chunkText ++
        (lastLine ++ crlf ++ (trailersText trailers ++ crlf))) := by
    rw [← hpre]
    simp only [List.append_assoc]
  rw [chunkLoop_line hline, if_pos rfl, hnext, hlength,
    trailerLoop_text rest hvalid (Nat.add_le_add_left hsize _), hwhole]

/-- What ends with trailers is the text of chunks, a last chunk and trailers. -/
theorem Chunks.exists_text {lineMax bodyLength : ℕ} (hbody : bodyLength ≤ kMaxBodySize)
    (h : Chunks lineMax kMaxHeaderSize s bodyLength position (some n)) :
    ∃ c : ChunkedText, s.drop position = c.text ∧
      (∀ chunk ∈ c.chunks, SizeLine chunk.1 chunk.2.length ∧ chunk.2.length ≠ 0) ∧
      SizeLine c.lastLine 0 ∧
      (∀ field ∈ c.trailers, isValidHeaderName field.1 = true ∧
        isValidHeaderValue (trimOptionalWhitespace field.2) = true) ∧
      bodyLength + c.body.length ≤ kMaxBodySize ∧
      (trailersText c.trailers).length ≤ kMaxHeaderSize := by
  have hsizeLine : ∀ {position lineEnd size}, ChunkLine s position lineEnd size →
      ∃ line t, s.drop position = line ++ crlf ++ t ∧ SizeLine line size ∧
        lineEnd = position + line.length ∧ s.drop (lineEnd + 2) = t := by
    intro position lineEnd size h
    obtain ⟨line, t, hdrop, hisLine, hend, hline, hnext⟩ := exists_line_at h.found
    have hsize := h.size
    rw [hline] at hsize
    obtain ⟨hvalue, hbound⟩ := parseChunkSize_iff.mp hsize
    exact ⟨line, t, hdrop, ⟨hisLine, hvalue, hbound⟩, hend, hnext⟩
  generalize hstop : some n = stop at h
  induction h with
  | cut => exact absurd hstop (by simp)
  | last h _ tail =>
    subst hstop
    obtain ⟨line, t, hdrop, hline, -, hnext⟩ := hsizeLine h
    obtain ⟨trailers, rest, htail, hvalid, hsize⟩ := tail.exists_text
    have hsize' : (trailersText trailers).length ≤ kMaxHeaderSize := by omega
    refine ⟨⟨[], line, trailers, rest⟩, ?_, by simp, hline, hvalid, hbody, hsize'⟩
    rw [hdrop, ← hnext, htail]
    rfl
  | cutData => exact absurd hstop (by simp)
  | @chunk bodyLength position lineEnd chunkSize stop h _ hne hfits hdata tail ih =>
    obtain ⟨line, t, hdrop, hline, -, hnext⟩ := hsizeLine h
    obtain ⟨c, htail, hchunks, hlast, hvalid, hsize, htrailers⟩ :=
      ih (by have := hfits.1; omega) hstop
    -- the data of this chunk, cut out of what follows its size line
    have hlen := le_of_substr_eq_crlf hdata
    have hlength : (t.take chunkSize).length = chunkSize := by
      rw [← hnext, List.length_take, List.length_drop]
      omega
    have hsplit : t = t.take chunkSize ++ crlf ++ c.text := by
      have hterminator : (t.drop chunkSize).take 2 = crlf := by
        rw [← hnext, List.drop_drop]
        exact hdata
      have hafter : (t.drop chunkSize).drop 2 = c.text := by
        rw [← hnext, List.drop_drop, List.drop_drop]
        exact htail
      rw [List.append_assoc, ← hafter, ← hterminator, List.take_append_drop, List.take_append_drop]
    refine ⟨{ c with chunks := (line, t.take chunkSize) :: c.chunks }, ?_,
      List.forall_mem_cons.mpr ⟨?_, hchunks⟩, hlast, hvalid, ?_, htrailers⟩
    · rw [hdrop, ChunkedText.text, List.flatMap_cons, chunkText]
      conv_lhs => rw [hsplit, ChunkedText.text]
      simp only [List.append_assoc]
    · exact ⟨hlength.symm ▸ hline, hlength.symm ▸ hne⟩
    · rw [ChunkedText.body, List.flatMap_cons, List.length_append, hlength]
      rw [ChunkedText.body] at hsize
      omega

end Loops

/-- A text of the grammar is read as a whole. -/
theorem chunkLoop_of_wellFormed {c : ChunkedText} (h : c.WellFormed) (pre : Bytes)
    (hinput : (pre ++ c.text).length ≤ sizeMax) (response : HttpResponse) :
    chunkLoop (pre ++ c.text) pre.length [] response =
      .ok (some ((pre ++ (c.chunks.flatMap chunkText ++
          (c.lastLine ++ crlf ++ (trailersText c.trailers ++ crlf)))).length,
        ((withTrailers response c.trailers).setBody c.body).initConnection)) := by
  rw [ChunkedText.text] at hinput ⊢
  exact chunkLoop_text c.rest h.chunks h.lastLine h.trailers h.bodySize h.trailersSize hinput

/-! ### Responses -/

/-- **Chunked decoding.**  Behind a header section that announces a chunked body the parser
finishes on the texts of the grammar only, takes up all but what follows the body and reports
the data of the chunks in their order; and no size leaves its range.  (The size of a
`string_view` is at most its `max_size`, which is far from the largest `size_t`.) -/
theorem chunked_iff_grammar {method : HttpMethod} {statusLine : Bytes}
    {fields : List (Bytes × Bytes)} (hhead : AnnouncesChunks method statusLine fields) (d : Bytes)
    (eof : Bool) (hinput : (headText statusLine fields ++ d).length + 2 ≤ sizeMax) :
    (((new method).execute (headText statusLine fields ++ d) eof).1.finished = true ↔
      ∃ c : ChunkedText, c.WellFormed ∧ d = c.text) ∧
    (∀ c : ChunkedText, c.WellFormed → d = c.text →
      c.Reports (headText statusLine fields)
        ((new method).execute (headText statusLine fields ++ d) eof)) ∧
    Ranged.parseResponse method (headText statusLine fields ++ d) eof =
      Sizes.total (parseMessage method (headText statusLine fields ++ d) eof) := by
  obtain ⟨response, hparse⟩ := hhead.parseMessage d eof
  have hreports : ∀ c : ChunkedText, c.WellFormed → d = c.text →
      c.Reports (headText statusLine fields)
        ((new method).execute (headText statusLine fields ++ d) eof) := by
    rintro c hc rfl
    have hloop := chunkLoop_of_wellFormed hc (headText statusLine fields) (by omega) response
    have hconsumed : (headText statusLine fields ++ (c.chunks.flatMap chunkText ++
          (c.lastLine ++ crlf ++ (trailersText c.trailers ++ crlf)))).length + c.rest.length =
        (headText statusLine fields ++ c.text).length := by
      simp only [ChunkedText.text, List.length_append]
      omega
    rw [hloop] at hparse
    rw [execute_new, executeBuffer_new, hparse]
    constructor
    · rfl
    · rfl
    · rfl
    · exact hconsumed
    · rfl
    · rfl
  refine ⟨?_, hreports, Ranged.parseResponse_eq hinput⟩
  constructor
  · intro h
    obtain ⟨m, hm⟩ := execute_finished_iff.mp h
    rw [hparse] at hm
    rcases hloop : chunkLoop (headText statusLine fields ++ d) (headText statusLine fields).length []
      response with failure | _ | ⟨n, response'⟩
    · rw [hloop] at hm
      exact absurd hm (by simp [Except.map])
    · rw [hloop] at hm
      exact absurd hm (by simp [Except.map])
    · obtain ⟨c, hdrop, hchunks, hlast, hvalid, hbody, htrailers⟩ :=
        Chunks.exists_text (Nat.zero_le _) (chunks_of_ok hloop)
      rw [List.drop_left] at hdrop
      exact ⟨c, ⟨hchunks, hlast, hvalid, by rw [Nat.zero_add] at hbody; exact hbody, htrailers⟩, hdrop⟩
  · rintro ⟨c, hc, rfl⟩
    exact (hreports c hc rfl).finished

/-- A chunk with an extension, a last chunk and a trailer, and the beginning of another
response. -/
def chunkedHello : ChunkedText :=
  ⟨[(ascii "\t5 ;name=value", ascii "hello")], ascii "0", [(ascii "Digest", ascii " x")], ascii "HTTP/"⟩

theorem chunked_hello :
    ((new .get).execute (headText (ascii "HTTP/1.1 200 OK")
      [(ascii "Transfer-Encoding", ascii " gzip, Chunked")] ++ chunkedHello.text) false).1.finished =
        true ∧
    chunkedHello.Reports (headText (ascii "HTTP/1.1 200 OK")
      [(ascii "Transfer-Encoding", ascii " gzip, Chunked")])
      ((new .get).execute (headText (ascii "HTTP/1.1 200 OK")
        [(ascii "Transfer-Encoding", ascii " gzip, Chunked")] ++ chunkedHello.text) false) := by
  have hhead : AnnouncesChunks .get (ascii "HTTP/1.1 200 OK")
      [(ascii "Transfer-Encoding", ascii " gzip, Chunked")] := by
    have hvalid : ValidHead (ascii "HTTP/1.1 200 OK")
        [(ascii "Transfer-Encoding", ascii " gzip, Chunked")] :=
      ⟨IsLine.of_notMem (by decide), by decide⟩
    constructor
    · exact hvalid
    · have hheaders := parseHeaders_headText hvalid []
      rw [List.append_nil] at hheaders
      rw [parseHead, hheaders]
      exact ⟨_, _, rfl, rfl⟩
    · decide
    · exact ⟨[ascii "gzip"], ascii " Chunked", by decide, by decide, by decide⟩
  have hc : chunkedHello.WellFormed := by
    constructor
    · intro chunk hchunk
      obtain rfl := List.mem_singleton.mp hchunk
      exact ⟨⟨IsLine.of_notMem (by decide), by decide, by decide⟩, by decide⟩
    · exact ⟨IsLine.of_notMem (by decide), by decide, by decide⟩
    · decide
    · decide
    · decide
  obtain ⟨hiff, hreports, -⟩ := chunked_iff_grammar hhead chunkedHello.text false (by decide)
  exact ⟨hiff.mpr ⟨_, hc, rfl⟩, hreports _ hc rfl⟩

end HttpResponseParser

end Http

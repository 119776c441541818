/-
Chunked bodies.

`chunkLoop` and `trailerLoop` are the loops of the response parser over chunks
and trailers, with the offsets of the source.  Every step reads one line, and
the limits of the source apply to the part of a line that has arrived
(`kMaxHeaderSize` for the part of a chunk-size line) or to the distance from
the start of the trailers.

* `Chunks` — the grammar of a chunked body, with bounds on the lengths of its
  lines; `chunks_of_ok` and `Chunks.ok` say that it is what the loops accept;
* `Chunks.congr` — a complete body is final and is found as soon as its last
  byte is there.
-/
import Droplet.Http.HeaderLoop

open Search

namespace Http

namespace HttpResponseParser

def kMaxHeaderSize : ℕ := 64 * 1024

def kMaxBodySize : ℕ := 64 * 1024 * 1024

def trailerMessages : FieldMessages where
  missingColon := ascii "HTTP trailer line is missing ':'"
  invalid := ascii "HTTP trailer contains an invalid name or value"

def trailersTooLarge : ParseFailure :=
  ⟨.headerTooLarge, ascii "HTTP trailers exceed the configured limit"⟩

/-- What a trailer field does to the response. -/
def onTrailer (response : HttpResponse) (name value : Bytes) : HttpResponse :=
  if !caseInsensitiveEqual name (ascii "content-length") &&
      !caseInsensitiveEqual name (ascii "transfer-encoding") then
    response.setHeader name value
  else response

private theorem next_lt {input : Bytes} {position lineEnd : ℕ}
    (h : find crlf input position = some lineEnd) :
    input.length - (lineEnd + 2) < input.length - position := by
  have hle := le_of_find (by simp) h
  have hlen := find_add_length_le (by simp) h
  simp only [List.length_cons, List.length_nil] at hlen
  omega

/-- The loop over the trailers; at the empty line the response is complete and
`position` is where it ends. -/
def trailerLoop (input : Bytes) (trailersBegin : ℕ) (body : Bytes) (position : ℕ)
    (response : HttpResponse) : Except ParseFailure (Option (ℕ × HttpResponse)) :=
  match h : find crlf input position with
  | none =>
    if kMaxHeaderSize < input.length - trailersBegin then .error trailersTooLarge
    else .ok none
  | some trailerEnd =>
    if kMaxHeaderSize < trailerEnd - trailersBegin then .error trailersTooLarge
    else
      let trailer := substr input position (trailerEnd - position)
      if trailer.isEmpty then
        .ok (some (trailerEnd + 2, (response.setBody body).initConnection))
      else do
        let field ← parseField trailerMessages trailer
        trailerLoop input trailersBegin body (trailerEnd + 2)
          (onTrailer response field.1 field.2)
termination_by input.length - position
decreasing_by exact next_lt h

/-- The loop over the chunks. -/
def chunkLoop (input : Bytes) (position : ℕ) (body : Bytes) (response : HttpResponse) :
    Except ParseFailure (Option (ℕ × HttpResponse)) :=
  match _h : find crlf input position with
  | none =>
    if kMaxHeaderSize < input.length - position then
      .error ⟨.headerTooLarge, ascii "HTTP chunk metadata exceeds the configured limit"⟩
    else .ok none
  | some chunkLineEnd =>
    match parseChunkSize (substr input position (chunkLineEnd - position)) with
    | none => .error ⟨.invalidChunkSize, ascii "invalid HTTP chunk size"⟩
    | some chunkSize =>
      let position := chunkLineEnd + 2
      if chunkSize = 0 then trailerLoop input position body position response
      else if kMaxBodySize - body.length < chunkSize then
        .error ⟨.bodyTooLarge, ascii "HTTP chunked body exceeds the configured limit"⟩
      else if sizeMax - position - 2 < chunkSize then
        .error ⟨.bodyTooLarge, ascii "HTTP chunk size overflows size_t"⟩
      else
        let dataEnd := position + chunkSize
        if input.length < dataEnd + 2 then .ok none
        else if substr input dataEnd 2 ≠ crlf then
          .error ⟨.invalidChunkSize, ascii "HTTP chunk data is not followed by CRLF"⟩
        else
          chunkLoop input (dataEnd + 2) (body ++ substr input position chunkSize) response
termination_by input.length - position
decreasing_by exact Nat.lt_of_le_of_lt (by omega) (next_lt _h)

/-! ### Lines of a chunked body -/

/-- The line of `s` that starts at `position` ends at `lineEnd` and announces a
chunk of this size. -/
structure ChunkLine (s : Bytes) (position lineEnd chunkSize : ℕ) : Prop where
  found : find crlf s position = some lineEnd
  size : parseChunkSize (substr s position (lineEnd - position)) = some chunkSize

/-- The limits on a chunk of `chunkSize` bytes from `dataBegin` on. -/
def ChunkFits (bodyLength dataBegin chunkSize : ℕ) : Prop :=
  chunkSize ≤ kMaxBodySize - bodyLength ∧ chunkSize ≤ sizeMax - dataBegin - 2

/-- The line of `s` that starts at `position` is a trailer field that ends at
`lineEnd`. -/
structure TrailerLine (s : Bytes) (position lineEnd : ℕ) : Prop where
  found : find crlf s position = some lineEnd
  ne_nil : lineEnd ≠ position
  field : ∃ field, parseField trailerMessages (substr s position (lineEnd - position)) = .ok field

theorem line_bounds {s : Bytes} {position lineEnd : ℕ} (h : find crlf s position = some lineEnd) :
    position ≤ lineEnd ∧ lineEnd + 2 ≤ s.length := by
  have hlen := find_add_length_le (by simp) h
  simp only [List.length_cons, List.length_nil] at hlen
  exact ⟨le_of_find (by simp) h, by omega⟩

theorem line_take {s : Bytes} {position lineEnd : ℕ} (h : find crlf s position = some lineEnd)
    {k : ℕ} (hk : lineEnd + 2 ≤ k) : find crlf (s.take k) position = some lineEnd := by
  rw [find_take (by simp) h, if_pos (by simpa using hk)]

theorem line_of_take {s : Bytes} {position lineEnd k : ℕ}
    (h : find crlf (s.take k) position = some lineEnd) :
    find crlf s position = some lineEnd ∧ lineEnd + 2 ≤ k := by
  have hlen := (line_bounds h).2
  rw [List.length_take] at hlen
  have : find crlf (s.take k ++ s.drop k) position = some lineEnd := find_append (by simp) h
  rw [List.take_append_drop] at this
  exact ⟨this, by omega⟩

theorem ChunkLine.take {s : Bytes} {position lineEnd chunkSize : ℕ}
    (h : ChunkLine s position lineEnd chunkSize) {k : ℕ} (hk : lineEnd + 2 ≤ k) :
    ChunkLine (s.take k) position lineEnd chunkSize := by
  have := (line_bounds h.found).1
  exact ⟨line_take h.found hk, by rw [substr_take (by omega)]; exact h.size⟩

theorem ChunkLine.of_take {s : Bytes} {position lineEnd chunkSize k : ℕ}
    (h : ChunkLine (s.take k) position lineEnd chunkSize) :
    ChunkLine s position lineEnd chunkSize := by
  obtain ⟨hfound, hk⟩ := line_of_take h.found
  have := (line_bounds h.found).1
  refine ⟨hfound, ?_⟩
  rw [← substr_take (k := k) (by omega)]
  exact h.size

theorem TrailerLine.take {s : Bytes} {position lineEnd : ℕ} (h : TrailerLine s position lineEnd)
    {k : ℕ} (hk : lineEnd + 2 ≤ k) : TrailerLine (s.take k) position lineEnd := by
  have := (line_bounds h.found).1
  exact ⟨line_take h.found hk, h.ne_nil, by rw [substr_take (by omega)]; exact h.field⟩

theorem TrailerLine.of_take {s : Bytes} {position lineEnd k : ℕ}
    (h : TrailerLine (s.take k) position lineEnd) : TrailerLine s position lineEnd := by
  obtain ⟨hfound, hk⟩ := line_of_take h.found
  have := (line_bounds h.found).1
  refine ⟨hfound, h.ne_nil, ?_⟩
  rw [← substr_take (k := k) (by omega)]
  exact h.field

/-! ### One step of the loops -/

section Steps

variable {s : Bytes} {position lineEnd chunkSize trailersBegin : ℕ} {body : Bytes}
  {response : HttpResponse}

theorem trailerLoop_cut (h : find crlf s position = none) :
    trailerLoop s trailersBegin body position response =
      if kMaxHeaderSize < s.length - trailersBegin then .error trailersTooLarge else .ok none := by
  rw [trailerLoop]
  split
  · rfl
  · next h' => exact absurd (h.symm.trans h') (by simp)

theorem trailerLoop_line (h : find crlf s position = some lineEnd) :
    trailerLoop s trailersBegin body position response =
      if kMaxHeaderSize < lineEnd - trailersBegin then .error trailersTooLarge
      else if (substr s position (lineEnd - position)).isEmpty then
        .ok (some (lineEnd + 2, (response.setBody body).initConnection))
      else parseField trailerMessages (substr s position (lineEnd - position)) >>= fun field =>
        trailerLoop s trailersBegin body (lineEnd + 2)
          (onTrailer response field.1 field.2) := by
  rw [trailerLoop]
  split
  · next h' => exact absurd (h.symm.trans h') (by simp)
  · next lineEnd' h' =>
    rw [h, Option.some_inj] at h'
    subst h'
    rfl

/-- The text between the ends of a line is empty only when the line is. -/
theorem isEmpty_line (h : find crlf s position = some lineEnd) :
    (substr s position (lineEnd - position)).isEmpty = decide (lineEnd = position) := by
  obtain ⟨hle, hlen⟩ := line_bounds h
  rw [Bool.eq_iff_iff, List.isEmpty_iff, ← List.length_eq_zero_iff, length_substr,
    decide_eq_true_iff]
  omega

theorem chunkLoop_cut (h : find crlf s position = none) :
    chunkLoop s position body response =
      if kMaxHeaderSize < s.length - position then
        .error ⟨.headerTooLarge, ascii "HTTP chunk metadata exceeds the configured limit"⟩
      else .ok none := by
  rw [chunkLoop]
  split
  · rfl
  · next h' => exact absurd (h.symm.trans h') (by simp)

theorem chunkLoop_line (h : ChunkLine s position lineEnd chunkSize) :
    chunkLoop s position body response =
      if chunkSize = 0 then trailerLoop s (lineEnd + 2) body (lineEnd + 2) response
      else if kMaxBodySize - body.length < chunkSize then
        .error ⟨.bodyTooLarge, ascii "HTTP chunked body exceeds the configured limit"⟩
      else if sizeMax - (lineEnd + 2) - 2 < chunkSize then
        .error ⟨.bodyTooLarge, ascii "HTTP chunk size overflows size_t"⟩
      else if s.length < lineEnd + 2 + chunkSize + 2 then .ok none
      else if substr s (lineEnd + 2 + chunkSize) 2 ≠ crlf then
        .error ⟨.invalidChunkSize, ascii "HTTP chunk data is not followed by CRLF"⟩
      else
        chunkLoop s (lineEnd + 2 + chunkSize + 2)
          (body ++ substr s (lineEnd + 2) chunkSize) response := by
  rw [chunkLoop]
  split
  · next h' => exact absurd (h.found.symm.trans h') (by simp)
  · next lineEnd' h' =>
    rw [h.found, Option.some_inj] at h'
    subst h'
    rw [h.size]

theorem chunkLoop_invalid (h : find crlf s position = some lineEnd)
    (hsize : parseChunkSize (substr s position (lineEnd - position)) = none) :
    chunkLoop s position body response =
      .error ⟨.invalidChunkSize, ascii "invalid HTTP chunk size"⟩ := by
  rw [chunkLoop]
  split
  · next h' => exact absurd (h.symm.trans h') (by simp)
  · next lineEnd' h' =>
    rw [h, Option.some_inj] at h'
    subst h'
    rw [hsize]

end Steps

/-! ### The grammar of a chunked body -/

/-- `Trailers trailerMax s trailersBegin position stop`: from `position` on `s`
holds trailer fields and the empty line after them, which starts at most
`trailerMax` bytes after `trailersBegin` and ends at `stop`; or `s` ends before
that (`none`). -/
inductive Trailers (trailerMax : ℕ) (s : Bytes) (trailersBegin : ℕ) : ℕ → Option ℕ → Prop
  | cut {position} (h : find crlf s position = none)
      (hlen : s.length - trailersBegin ≤ kMaxHeaderSize) :
      Trailers trailerMax s trailersBegin position none
  | last {position} (h : find crlf s position = some position)
      (hmax : position - trailersBegin ≤ trailerMax) :
      Trailers trailerMax s trailersBegin position (some (position + 2))
  | field {position lineEnd stop} (h : TrailerLine s position lineEnd)
      (tail : Trailers trailerMax s trailersBegin (lineEnd + 2) stop) :
      Trailers trailerMax s trailersBegin position stop

/-- `Chunks lineMax trailerMax s bodyLength position stop`: from `position` on `s`
holds chunks, after `bodyLength` bytes of body, the last chunk and the trailers,
which end at `stop`; or `s` ends before that (`none`).  No chunk-size line that is
complete has more than `lineMax` bytes. -/
inductive Chunks (lineMax trailerMax : ℕ) (s : Bytes) : ℕ → ℕ → Option ℕ → Prop
  | cut {bodyLength position} (h : find crlf s position = none)
      (hlen : s.length - position ≤ kMaxHeaderSize) :
      Chunks lineMax trailerMax s bodyLength position none
  | last {bodyLength position lineEnd stop} (h : ChunkLine s position lineEnd 0)
      (hmax : lineEnd - position ≤ lineMax)
      (tail : Trailers trailerMax s (lineEnd + 2) (lineEnd + 2) stop) :
      Chunks lineMax trailerMax s bodyLength position stop
  | cutData {bodyLength position lineEnd chunkSize} (h : ChunkLine s position lineEnd chunkSize)
      (hmax : lineEnd - position ≤ lineMax) (hne : chunkSize ≠ 0)
      (hfits : ChunkFits bodyLength (lineEnd + 2) chunkSize)
      (hlen : s.length < lineEnd + 2 + chunkSize + 2) :
      Chunks lineMax trailerMax s bodyLength position none
  | chunk {bodyLength position lineEnd chunkSize stop} (h : ChunkLine s position lineEnd chunkSize)
      (hmax : lineEnd - position ≤ lineMax) (hne : chunkSize ≠ 0)
      (hfits : ChunkFits bodyLength (lineEnd + 2) chunkSize)
      (hdata : substr s (lineEnd + 2 + chunkSize) 2 = crlf)
      (tail : Chunks lineMax trailerMax s (bodyLength + chunkSize)
        (lineEnd + 2 + chunkSize + 2) stop) :
      Chunks lineMax trailerMax s bodyLength position stop

section Grammar

variable {s : Bytes} {lineMax trailerMax bodyLength position trailersBegin : ℕ} {stop : Option ℕ}

theorem le_of_substr_eq_crlf {i : ℕ} (h : substr s i 2 = crlf) : i + 2 ≤ s.length := by
  have := congrArg List.length h
  rw [length_substr] at this
  simp only [List.length_cons, List.length_nil] at this
  omega

/-- Trailers that have begun are within the limit. -/
theorem Trailers.begin_le (h : Trailers trailerMax s trailersBegin position stop)
    (hmax : trailerMax ≤ kMaxHeaderSize) (hpos : position ≤ s.length) :
    position - trailersBegin ≤ kMaxHeaderSize := by
  induction h with
  | cut h hlen => omega
  | last h hle => omega
  | field h _ ih =>
    obtain ⟨hle, hlen⟩ := line_bounds h.found
    have := ih hlen
    omega

theorem Trailers.stop_bounds {n : ℕ} (h : Trailers trailerMax s trailersBegin position (some n)) :
    position ≤ n ∧ n ≤ s.length := by
  generalize hstop : some n = stop at h
  induction h with
  | cut => exact absurd hstop (by simp)
  | last h =>
    rw [Option.some_inj] at hstop
    have := line_bounds h
    omega
  | field h _ ih =>
    have hn := ih hstop
    have := line_bounds h.found
    omega

theorem Chunks.stop_bounds {n : ℕ} (h : Chunks lineMax trailerMax s bodyLength position (some n)) :
    position ≤ n ∧ n ≤ s.length := by
  generalize hstop : some n = stop at h
  induction h with
  | cut => exact absurd hstop (by simp)
  | last h _ tail =>
    subst hstop
    have hn := tail.stop_bounds
    have := line_bounds h.found
    omega
  | cutData => exact absurd hstop (by simp)
  | chunk h _ _ _ _ _ ih =>
    have hn := ih hstop
    have := line_bounds h.found
    omega

/-- A chunk-size line that is complete keeps to the bound. -/
theorem Chunks.line_le {lineEnd : ℕ} (h : Chunks lineMax trailerMax s bodyLength position stop)
    (hfound : find crlf s position = some lineEnd) : lineEnd - position ≤ lineMax := by
  cases h with
  | cut h => exact absurd (h.symm.trans hfound) (by simp)
  | last h hmax =>
    rw [Option.some_inj.mp (hfound.symm.trans h.found)]
    exact hmax
  | cutData h hmax =>
    rw [Option.some_inj.mp (hfound.symm.trans h.found)]
    exact hmax
  | chunk h hmax =>
    rw [Option.some_inj.mp (hfound.symm.trans h.found)]
    exact hmax

/-- What the trailer loop accepts are trailers. -/
theorem trailers_of_ok {body : Bytes} {response : HttpResponse}
    {result : Option (ℕ × HttpResponse)}
    (h : trailerLoop s trailersBegin body position response = .ok result) :
    Trailers kMaxHeaderSize s trailersBegin position (result.map Prod.fst) := by
  induction hd : s.length - position using Nat.strongRecOn generalizing position response with
  | ind d ih =>
    rcases hfind : find crlf s position with _ | lineEnd
    · rw [trailerLoop_cut hfind] at h
      by_cases hlen : kMaxHeaderSize < s.length - trailersBegin
      · simp [hlen] at h
      · rw [if_neg hlen, Except.ok.injEq] at h
        subst h
        exact .cut hfind (by omega)
    · obtain ⟨hle, hlen⟩ := line_bounds hfind
      rw [trailerLoop_line hfind, isEmpty_line hfind] at h
      by_cases hmax : kMaxHeaderSize < lineEnd - trailersBegin
      · simp [hmax] at h
      · rw [if_neg hmax] at h
        by_cases hempty : lineEnd = position
        · subst hempty
          rw [if_pos (by simp), Except.ok.injEq] at h
          subst h
          exact .last hfind (by omega)
        · rw [if_neg (by simpa using hempty)] at h
          rcases hfield : parseField trailerMessages (substr s position (lineEnd - position))
            with failure | field
          · rw [hfield] at h
            exact absurd h (by simp [bind, Except.bind])
          · rw [hfield] at h
            exact .field ⟨hfind, hempty, field, hfield⟩ (ih _ (by omega) h rfl)

/-- Trailers are accepted by the trailer loop. -/
theorem Trailers.ok (h : Trailers trailerMax s trailersBegin position stop)
    (hmax : trailerMax ≤ kMaxHeaderSize) (hpos : position ≤ s.length) (body : Bytes)
    (response : HttpResponse) :
    ∃ result, trailerLoop s trailersBegin body position response = .ok result ∧
      result.map Prod.fst = stop := by
  induction h generalizing response with
  | cut h hlen => exact ⟨none, by rw [trailerLoop_cut h, if_neg (by omega)], rfl⟩
  | @last position h hle =>
    refine ⟨some (position + 2, (response.setBody body).initConnection), ?_, rfl⟩
    rw [trailerLoop_line h, if_neg (by omega), isEmpty_line h, if_pos (by simp)]
  | field h tail ih =>
    obtain ⟨hle, hlen⟩ := line_bounds h.found
    have hbegin := tail.begin_le hmax hlen
    obtain ⟨field, hfield⟩ := h.field
    obtain ⟨result, hresult, hstop⟩ := ih hlen (onTrailer response field.1 field.2)
    refine ⟨result, ?_, hstop⟩
    rw [trailerLoop_line h.found, if_neg (by omega), isEmpty_line h.found,
      if_neg (by simpa using h.ne_nil), hfield]
    exact hresult

/-- What the chunk loop accepts are chunks. -/
theorem chunks_of_ok {body : Bytes} {response : HttpResponse}
    {result : Option (ℕ × HttpResponse)}
    (h : chunkLoop s position body response = .ok result) :
    Chunks s.length kMaxHeaderSize s body.length position (result.map Prod.fst) := by
  induction hd : s.length - position using Nat.strongRecOn generalizing position body with
  | ind d ih =>
    rcases hfind : find crlf s position with _ | lineEnd
    · rw [chunkLoop_cut hfind] at h
      by_cases hlen : kMaxHeaderSize < s.length - position
      · simp [hlen] at h
      · rw [if_neg hlen, Except.ok.injEq] at h
        subst h
        exact .cut hfind (by omega)
    · obtain ⟨hle, hlen⟩ := line_bounds hfind
      rcases hsize : parseChunkSize (substr s position (lineEnd - position)) with _ | chunkSize
      · rw [chunkLoop_invalid hfind hsize] at h
        exact absurd h (by simp)
      · have hline : ChunkLine s position lineEnd chunkSize := ⟨hfind, hsize⟩
        rw [chunkLoop_line hline] at h
        by_cases hzero : chunkSize = 0
        · subst hzero
          rw [if_pos rfl] at h
          exact .last hline (by omega) (trailers_of_ok h)
        · rw [if_neg hzero] at h
          by_cases hbody : kMaxBodySize - body.length < chunkSize
          · simp [hbody] at h
          · rw [if_neg hbody] at h
            by_cases hoverflow : sizeMax - (lineEnd + 2) - 2 < chunkSize
            · simp [hoverflow] at h
            · rw [if_neg hoverflow] at h
              have hfits : ChunkFits body.length (lineEnd + 2) chunkSize :=
                ⟨Nat.le_of_not_lt hbody, Nat.le_of_not_lt hoverflow⟩
              by_cases hdata : s.length < lineEnd + 2 + chunkSize + 2
              · rw [if_pos hdata, Except.ok.injEq] at h
                subst h
                exact .cutData hline (by omega) hzero hfits hdata
              · rw [if_neg hdata] at h
                by_cases hend : substr s (lineEnd + 2 + chunkSize) 2 = crlf
                · rw [if_neg (by simpa using hend)] at h
                  have htail := ih _ (by omega) h rfl
                  have hlength : (body ++ substr s (lineEnd + 2) chunkSize).length =
                      body.length + chunkSize := by
                    rw [List.length_append, length_substr]
                    omega
                  rw [hlength] at htail
                  exact .chunk hline (by omega) hzero hfits hend htail
                · rw [if_pos hend] at h
                  exact absurd h (by simp)

/-- One chunk of a body that is all there. -/
theorem chunkLoop_chunk {lineEnd chunkSize : ℕ} {body : Bytes} {response : HttpResponse}
    (h : ChunkLine s position lineEnd chunkSize) (hne : chunkSize ≠ 0)
    (hfits : ChunkFits body.length (lineEnd + 2) chunkSize)
    (hdata : substr s (lineEnd + 2 + chunkSize) 2 = crlf) :
    chunkLoop s position body response =
      chunkLoop s (lineEnd + 2 + chunkSize + 2)
        (body ++ substr s (lineEnd + 2) chunkSize) response := by
  have hlen := le_of_substr_eq_crlf hdata
  rw [chunkLoop_line h, if_neg hne, if_neg (Nat.not_lt.mpr hfits.1),
    if_neg (Nat.not_lt.mpr hfits.2), if_neg (by omega), if_neg (by simpa using hdata)]

theorem chunkLoop_cutData {lineEnd chunkSize : ℕ} {body : Bytes} {response : HttpResponse}
    (h : ChunkLine s position lineEnd chunkSize) (hne : chunkSize ≠ 0)
    (hfits : ChunkFits body.length (lineEnd + 2) chunkSize)
    (hlen : s.length < lineEnd + 2 + chunkSize + 2) :
    chunkLoop s position body response = .ok none := by
  rw [chunkLoop_line h, if_neg hne, if_neg (Nat.not_lt.mpr hfits.1),
    if_neg (Nat.not_lt.mpr hfits.2), if_pos hlen]

theorem length_append_chunk {lineEnd chunkSize : ℕ} (body : Bytes)
    (hdata : substr s (lineEnd + 2 + chunkSize) 2 = crlf) :
    (body ++ substr s (lineEnd + 2) chunkSize).length = body.length + chunkSize := by
  have := le_of_substr_eq_crlf hdata
  rw [List.length_append, length_substr]
  omega

/-- Chunks are accepted by the chunk loop. -/
theorem Chunks.ok (h : Chunks lineMax trailerMax s bodyLength position stop)
    (hmax : trailerMax ≤ kMaxHeaderSize) {body : Bytes} (hbody : body.length = bodyLength)
    (response : HttpResponse) :
    ∃ result, chunkLoop s position body response = .ok result ∧
      result.map Prod.fst = stop := by
  induction h generalizing body with
  | cut h hlen => exact ⟨none, by rw [chunkLoop_cut h, if_neg (by omega)], rfl⟩
  | last h _ tail =>
    obtain ⟨result, hresult, hstop⟩ := tail.ok hmax (line_bounds h.found).2 body response
    exact ⟨result, by rw [chunkLoop_line h, if_pos rfl, hresult], hstop⟩
  | cutData h _ hne hfits hlen =>
    subst hbody
    exact ⟨none, chunkLoop_cutData h hne hfits hlen, rfl⟩
  | chunk h _ hne hfits hdata _ ih =>
    subst hbody
    rw [chunkLoop_chunk h hne hfits hdata]
    exact ih (length_append_chunk body hdata)

/-! ### Complete bodies are final -/

/-- Of an input only the part up to the end of the trailers matters. -/
theorem Trailers.congr {n : ℕ} {t : Bytes}
    (h : Trailers trailerMax s trailersBegin position (some n)) (ht : t.take n = s.take n)
    (body : Bytes) (response : HttpResponse) :
    trailerLoop t trailersBegin body position response =
      trailerLoop s trailersBegin body position response := by
  generalize hstop : some n = stop at h
  induction h generalizing response with
  | cut => exact absurd hstop (by simp)
  | last h =>
    rw [Option.some_inj] at hstop
    have hfound := (line_of_take (ht ▸ line_take h (Nat.le_of_eq hstop.symm))).1
    rw [trailerLoop_line h, trailerLoop_line hfound, isEmpty_line h, isEmpty_line hfound]
    simp
  | @field position lineEnd stop h tail ih =>
    subst hstop
    have hn := tail.stop_bounds.1
    have hline : TrailerLine t position lineEnd := (ht ▸ h.take hn).of_take
    have hle := (line_bounds h.found).1
    have htext : substr t position (lineEnd - position) =
        substr s position (lineEnd - position) := by
      rw [← substr_take (k := n) (by omega), ht, substr_take (by omega)]
    rw [trailerLoop_line h.found, trailerLoop_line hline.found, isEmpty_line h.found,
      isEmpty_line hline.found, htext]
    simp only [fun response => ih response rfl]

/-- Of an input only the part up to the end of a complete body matters. -/
theorem Chunks.congr {n : ℕ} {t : Bytes}
    (h : Chunks lineMax trailerMax s bodyLength position (some n)) (ht : t.take n = s.take n)
    {body : Bytes} (hbody : body.length = bodyLength) (response : HttpResponse) :
    chunkLoop t position body response = chunkLoop s position body response := by
  generalize hstop : some n = stop at h
  induction h generalizing body with
  | cut => exact absurd hstop (by simp)
  | @last _ position lineEnd stop h _ tail =>
    subst hstop
    have hn := tail.stop_bounds.1
    have hline : ChunkLine t position lineEnd 0 := (ht ▸ h.take hn).of_take
    rw [chunkLoop_line h, chunkLoop_line hline, if_pos rfl, if_pos rfl, tail.congr ht]
  | cutData => exact absurd hstop (by simp)
  | @chunk _ position lineEnd chunkSize stop h _ hne hfits hdata tail ih =>
    subst hstop hbody
    have hn := tail.stop_bounds.1
    have hline : ChunkLine t position lineEnd chunkSize :=
      (ht ▸ h.take (k := n) (by omega)).of_take
    have htext : ∀ i m, i + m ≤ n → substr t i m = substr s i m := by
      intro i m him
      rw [← substr_take (k := n) him, ht, substr_take him]
    rw [chunkLoop_chunk h hne hfits hdata,
      chunkLoop_chunk hline hne hfits (by rw [htext _ _ (by omega)]; exact hdata),
      htext _ _ (by omega)]
    exact ih (length_append_chunk body hdata) rfl

/-! ### The response that a complete body leads to -/

theorem onTrailer_status (response : HttpResponse) (name value : Bytes) :
    (onTrailer response name value).status = response.status := by
  rw [onTrailer]
  split <;> rfl

theorem trailerLoop_status {body : Bytes} {response response' : HttpResponse} {n : ℕ}
    (h : trailerLoop s trailersBegin body position response = .ok (some (n, response'))) :
    response'.status = response.status := by
  induction hd : s.length - position using Nat.strongRecOn generalizing position response with
  | ind d ih =>
    rcases hfind : find crlf s position with _ | lineEnd
    · rw [trailerLoop_cut hfind] at h
      split_ifs at h
      simp at h
    · obtain ⟨hle, hlen⟩ := line_bounds hfind
      rw [trailerLoop_line hfind] at h
      split_ifs at h
      · rw [Except.ok.injEq, Option.some_inj, Prod.mk.injEq] at h
        rw [← h.2]
        rfl
      · rcases hfield : parseField trailerMessages (substr s position (lineEnd - position))
          with failure | field
        · rw [hfield] at h
          exact absurd h (by simp [bind, Except.bind])
        · rw [hfield] at h
          exact (ih _ (by omega) h rfl).trans (onTrailer_status _ _ _)

theorem chunkLoop_status {body : Bytes} {response response' : HttpResponse} {n : ℕ}
    (h : chunkLoop s position body response = .ok (some (n, response'))) :
    response'.status = response.status := by
  induction hd : s.length - position using Nat.strongRecOn generalizing position body with
  | ind d ih =>
    rcases hfind : find crlf s position with _ | lineEnd
    · rw [chunkLoop_cut hfind] at h
      split_ifs at h
      simp at h
    · obtain ⟨hle, hlen⟩ := line_bounds hfind
      rcases hsize : parseChunkSize (substr s position (lineEnd - position)) with _ | chunkSize
      · rw [chunkLoop_invalid hfind hsize] at h
        exact absurd h (by simp)
      · rw [chunkLoop_line ⟨hfind, hsize⟩] at h
        split_ifs at h
        · exact trailerLoop_status h
        · simp at h
        · exact ih _ (by omega) h rfl

/-! ### Errors -/

theorem trailerLoop_coded (s : Bytes) (trailersBegin : ℕ) (body : Bytes) (position : ℕ)
    (response : HttpResponse) : Coded (trailerLoop s trailersBegin body position response) := by
  induction hd : s.length - position using Nat.strongRecOn generalizing position response with
  | ind d ih =>
    rcases hfind : find crlf s position with _ | lineEnd
    · rw [trailerLoop_cut hfind]
      split
      · exact Coded.error (by decide)
      · exact Coded.ok _
    · obtain ⟨hle, hlen⟩ := line_bounds hfind
      rw [trailerLoop_line hfind]
      split
      · exact Coded.error (by decide)
      · split
        · exact Coded.ok _
        · exact (parseField_coded _ _).bind fun field => ih _ (by omega) _ _ rfl

theorem chunkLoop_coded (s : Bytes) (position : ℕ) (body : Bytes) (response : HttpResponse) :
    Coded (chunkLoop s position body response) := by
  induction hd : s.length - position using Nat.strongRecOn generalizing position body with
  | ind d ih =>
    rcases hfind : find crlf s position with _ | lineEnd
    · rw [chunkLoop_cut hfind]
      split
      · exact Coded.error (by simp)
      · exact Coded.ok _
    · obtain ⟨hle, hlen⟩ := line_bounds hfind
      rcases hsize : parseChunkSize (substr s position (lineEnd - position)) with _ | chunkSize
      · rw [chunkLoop_invalid hfind hsize]
        exact Coded.error (by simp)
      · rw [chunkLoop_line ⟨hfind, hsize⟩]
        split
        · exact trailerLoop_coded _ _ _ _ _
        · split
          · exact Coded.error (by simp)
          · split
            · exact Coded.error (by simp)
            · split
              · exact Coded.ok _
              · split
                · exact Coded.error (by simp)
                · exact ih _ (by omega) _ _ rfl

end Grammar

end HttpResponseParser

end Http

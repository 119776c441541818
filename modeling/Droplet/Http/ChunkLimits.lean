/-
Parts of chunked bodies.

The loops over chunks and trailers apply their limits to the part of a line that
has arrived, but a complete chunk-size line is not limited at all, and the line
that ends the trailers may start one byte later when it is complete.  So a body
may be accepted as a whole and refused in part:

* `Chunks.take` — with lines below the limits, every part of a body is accepted;
* `Chunks.tighten_or_refused` — any other body has a run of parts that are
  refused, whose length is that by which a line exceeds the limit;
* `Chunks.exists_accepted` — between such runs there are parts that are accepted.
-/
import Droplet.Http.ChunkedBody

open Search

namespace Http

namespace HttpResponseParser

variable {s : Bytes} {lineMax trailerMax bodyLength position trailersBegin : ℕ} {stop : Option ℕ}

/-- The part of a line that has arrived. -/
theorem line_cut {lineEnd k : ℕ} (h : find crlf s position = some lineEnd)
    (hk : k < lineEnd + 2) : find crlf (s.take k) position = none := by
  rw [find_take (by simp) h, if_neg (by simpa using hk)]

/-- A chunk that has not arrived as a whole. -/
theorem Chunks.of_cut_chunk {lineEnd chunkSize k : ℕ} (h : ChunkLine s position lineEnd chunkSize)
    (hmax : lineEnd - position ≤ lineMax) (hne : chunkSize ≠ 0)
    (hfits : ChunkFits bodyLength (lineEnd + 2) chunkSize) (hline : lineEnd + 2 ≤ k)
    (hk : k < lineEnd + 2 + chunkSize + 2) :
    Chunks lineMax trailerMax (s.take k) bodyLength position none := by
  refine .cutData (h.take hline) hmax hne hfits ?_
  rw [List.length_take]
  omega

/-! ### Lines below the limits -/

theorem Trailers.take (h : Trailers trailerMax s trailersBegin position stop)
    (htrailer : trailerMax < kMaxHeaderSize) (hpos : position ≤ s.length) (k : ℕ) :
    ∃ stop', Trailers trailerMax (s.take k) trailersBegin position stop' := by
  induction h with
  | cut h hlen =>
    refine ⟨none, .cut (find_take_eq_none (by simp) h k) ?_⟩
    rw [List.length_take]
    omega
  | @last position h hmax =>
    by_cases hk : position + 2 ≤ k
    · exact ⟨_, .last (line_take h hk) hmax⟩
    · refine ⟨none, .cut (line_cut h (by omega)) ?_⟩
      rw [List.length_take]
      omega
  | @field position lineEnd stop h tail ih =>
    obtain ⟨hle, hlen⟩ := line_bounds h.found
    by_cases hk : lineEnd + 2 ≤ k
    · obtain ⟨stop', hstop'⟩ := ih hlen
      exact ⟨stop', .field (h.take hk) hstop'⟩
    · have hbegin := tail.begin_le (by omega) hlen
      refine ⟨none, .cut (line_cut h.found (by omega)) ?_⟩
      rw [List.length_take]
      omega

/-- Every part of a body whose lines are below the limits is accepted. -/
theorem Chunks.take (h : Chunks lineMax trailerMax s bodyLength position stop)
    (hline : lineMax < kMaxHeaderSize) (htrailer : trailerMax < kMaxHeaderSize) (k : ℕ) :
    ∃ stop', Chunks lineMax trailerMax (s.take k) bodyLength position stop' := by
  -- the part of a chunk-size line that has arrived
  have hpart : ∀ {bodyLength position lineEnd}, find crlf s position = some lineEnd →
      lineEnd - position ≤ lineMax → k < lineEnd + 2 →
      Chunks lineMax trailerMax (s.take k) bodyLength position none := by
    intro bodyLength position lineEnd hfound hmax hk
    refine .cut (line_cut hfound hk) ?_
    rw [List.length_take]
    omega
  induction h with
  | cut h hlen =>
    refine ⟨none, .cut (find_take_eq_none (by simp) h k) ?_⟩
    rw [List.length_take]
    omega
  | @last _ position lineEnd stop h hmax tail =>
    by_cases hk : lineEnd + 2 ≤ k
    · obtain ⟨stop', hstop'⟩ := tail.take htrailer (line_bounds h.found).2 k
      exact ⟨stop', .last (h.take hk) hmax hstop'⟩
    · exact ⟨none, hpart h.found hmax (by omega)⟩
  | @cutData _ position lineEnd chunkSize h hmax hne hfits hlen =>
    by_cases hk : lineEnd + 2 ≤ k
    · refine ⟨none, .cutData (h.take hk) hmax hne hfits ?_⟩
      rw [List.length_take]
      omega
    · exact ⟨none, hpart h.found hmax (by omega)⟩
  | @chunk _ position lineEnd chunkSize stop h hmax hne hfits hdata tail ih =>
    by_cases hk : lineEnd + 2 ≤ k
    · by_cases hk' : lineEnd + 2 + chunkSize + 2 ≤ k
      · obtain ⟨stop', hstop'⟩ := ih
        exact ⟨stop', .chunk (h.take hk) hmax hne hfits (by rw [substr_take (by omega)]; exact hdata)
          hstop'⟩
      · exact ⟨none, .of_cut_chunk h hmax hne hfits hk (by omega)⟩
    · exact ⟨none, hpart h.found hmax (by omega)⟩

/-! ### Parts that are refused -/

/-- Trailers end below the limit, or they are refused without the last byte. -/
theorem Trailers.tighten_or_refused (h : Trailers kMaxHeaderSize s trailersBegin position stop)
    (hpos : position ≤ s.length) :
    Trailers (kMaxHeaderSize - 1) s trailersBegin position stop ∨
      ∃ x, position ≤ x ∧ x + 1 ≤ s.length ∧ ∀ body response, ∃ failure,
        trailerLoop (s.take (x + 1)) trailersBegin body position response = .error failure := by
  induction h with
  | cut h hlen => exact .inl (.cut h hlen)
  | @last position h hmax =>
    have hlen := (line_bounds h).2
    by_cases htight : position - trailersBegin ≤ kMaxHeaderSize - 1
    · exact .inl (.last h htight)
    · refine .inr ⟨position, Nat.le_refl _, by omega, fun body response => ⟨trailersTooLarge, ?_⟩⟩
      rw [trailerLoop_cut (line_cut h (by omega)), if_pos]
      rw [List.length_take]
      omega
  | @field position lineEnd stop h tail ih =>
    obtain ⟨hle, hlen⟩ := line_bounds h.found
    have hbegin := tail.begin_le (Nat.le_refl _) hlen
    rcases ih hlen with htight | ⟨x, hx, hxs, hrefused⟩
    · exact .inl (.field h htight)
    · refine .inr ⟨x, by omega, hxs, fun body response => ?_⟩
      have hline : TrailerLine (s.take (x + 1)) position lineEnd := h.take (by omega)
      obtain ⟨field, hfield⟩ := hline.field
      obtain ⟨failure, hfailure⟩ := hrefused body (onTrailer response field.1 field.2)
      refine ⟨failure, ?_⟩
      rw [trailerLoop_line hline.found, if_neg (by omega), isEmpty_line hline.found,
        if_neg (by simpa using h.ne_nil), hfield]
      exact hfailure

/-- A body keeps to tighter limits, or some of its parts are refused: a
chunk-size line of more than `lineMax` bytes is refused on `lineMax + 2 -
kMaxHeaderSize` lengths in a row. -/
theorem Chunks.tighten_or_refused {lineMax' : ℕ}
    (h : Chunks lineMax' kMaxHeaderSize s bodyLength position stop)
    (hline : kMaxHeaderSize - 1 ≤ lineMax)
    (htrailer : trailerMax = kMaxHeaderSize ∨
      trailerMax = kMaxHeaderSize - 1 ∧ lineMax = kMaxHeaderSize - 1) :
    Chunks lineMax trailerMax s bodyLength position stop ∨
      ∃ x, position ≤ x ∧ x + (lineMax + 2 - kMaxHeaderSize) ≤ s.length ∧
        ∀ k, x < k → k ≤ x + (lineMax + 2 - kMaxHeaderSize) → ∀ body response,
          body.length = bodyLength →
          ∃ failure, chunkLoop (s.take k) position body response = .error failure := by
  -- a chunk-size line above the bound
  have hlong : ∀ {bodyLength position lineEnd}, find crlf s position = some lineEnd →
      ¬ lineEnd - position ≤ lineMax →
      ∃ x, position ≤ x ∧ x + (lineMax + 2 - kMaxHeaderSize) ≤ s.length ∧
        ∀ k, x < k → k ≤ x + (lineMax + 2 - kMaxHeaderSize) → ∀ (body : Bytes) response,
          body.length = bodyLength →
          ∃ failure, chunkLoop (s.take k) position body response = .error failure := by
    intro bodyLength position lineEnd hfound hmax
    have hlen := (line_bounds hfound).2
    refine ⟨position + kMaxHeaderSize, by omega, by omega, fun k hk hkm body response _ => ?_⟩
    rw [chunkLoop_cut (line_cut hfound (by omega)), if_pos]
    · exact ⟨_, rfl⟩
    · rw [List.length_take]
      omega
  induction h with
  | cut h hlen => exact .inl (.cut h hlen)
  | @last bodyLength position lineEnd stop h _ tail =>
    obtain ⟨hle, hlen⟩ := line_bounds h.found
    by_cases hmax : lineEnd - position ≤ lineMax
    · rcases htrailer with rfl | ⟨rfl, rfl⟩
      · exact .inl (.last h hmax tail)
      · rcases tail.tighten_or_refused hlen with htight | ⟨x, hx, hxs, hrefused⟩
        · exact .inl (.last h hmax htight)
        · have hone : kMaxHeaderSize - 1 + 2 - kMaxHeaderSize = 1 := by decide
          rw [hone]
          refine .inr ⟨x, by omega, hxs, fun k hk hkm body response _ => ?_⟩
          obtain rfl : k = x + 1 := by omega
          obtain ⟨failure, hfailure⟩ := hrefused body response
          refine ⟨failure, ?_⟩
          rw [chunkLoop_line (h.take (by omega)), if_pos rfl, hfailure]
    · exact .inr (hlong h.found hmax)
  | @cutData bodyLength position lineEnd chunkSize h _ hne hfits hlen =>
    by_cases hmax : lineEnd - position ≤ lineMax
    · exact .inl (.cutData h hmax hne hfits hlen)
    · exact .inr (hlong h.found hmax)
  | @chunk bodyLength position lineEnd chunkSize stop h _ hne hfits hdata tail ih =>
    obtain ⟨hle, hlen⟩ := line_bounds h.found
    by_cases hmax : lineEnd - position ≤ lineMax
    · rcases ih with htight | ⟨x, hx, hxs, hrefused⟩
      · exact .inl (.chunk h hmax hne hfits hdata htight)
      · refine .inr ⟨x, by omega, hxs, fun k hk hkm body response hbody => ?_⟩
        subst hbody
        have hdata' : substr (s.take k) (lineEnd + 2 + chunkSize) 2 = crlf := by
          rw [substr_take (by omega)]
          exact hdata
        rw [chunkLoop_chunk (h.take (by omega)) hne hfits hdata']
        exact hrefused k hk hkm _ response (length_append_chunk body hdata')
    · exact .inr (hlong h.found hmax)

/-! ### Parts that are accepted -/

theorem Trailers.exists_accepted (h : Trailers trailerMax s trailersBegin position stop)
    (htrailer : trailerMax ≤ kMaxHeaderSize) (hpos : position ≤ s.length) {x : ℕ}
    (hx : position ≤ x) (hxs : x < s.length) :
    ∃ y, x < y ∧ y ≤ x + 2 ∧ y ≤ s.length ∧
      ∃ stop', Trailers trailerMax (s.take y) trailersBegin position stop' := by
  induction h with
  | cut h hlen =>
    refine ⟨x + 1, by omega, by omega, hxs, none, .cut (find_take_eq_none (by simp) h _) ?_⟩
    rw [List.length_take]
    omega
  | @last position h hmax =>
    have hlen := (line_bounds h).2
    by_cases hcut : x = position
    · exact ⟨x + 2, by omega, by omega, by omega, _, .last (line_take h (by omega)) hmax⟩
    · exact ⟨x + 1, by omega, by omega, hxs, _, .last (line_take h (by omega)) hmax⟩
  | @field position lineEnd stop h tail ih =>
    obtain ⟨hle, hlen⟩ := line_bounds h.found
    have hbegin := tail.begin_le htrailer hlen
    by_cases hafter : lineEnd + 2 ≤ x
    · obtain ⟨y, hxy, hyx, hys, stop', hstop'⟩ := ih hlen hafter
      exact ⟨y, hxy, hyx, hys, stop', .field (h.take (by omega)) hstop'⟩
    · by_cases hcut : x = lineEnd + 1
      · -- the line has arrived, and nothing after it
        refine ⟨x + 1, by omega, by omega, hxs, none, .field (h.take (by omega)) (.cut ?_ ?_)⟩
        · rcases hnone : find crlf (s.take (x + 1)) (lineEnd + 2) with _ | i
          · rfl
          · have := line_bounds hnone
            rw [List.length_take] at this
            omega
        · rw [List.length_take]
          omega
      · refine ⟨x + 1, by omega, by omega, hxs, none, .cut (line_cut h.found (by omega)) ?_⟩
        rw [List.length_take]
        omega

/-- Between the parts that are refused there are parts that are accepted: at most
`m` lengths on, when no chunk-size line is longer than `kMaxHeaderSize - 2 + m`. -/
theorem Chunks.exists_accepted {m : ℕ} (h : Chunks lineMax trailerMax s bodyLength position stop)
    (hm : 2 ≤ m) (hline : lineMax ≤ kMaxHeaderSize - 2 + m) (htrailer : trailerMax ≤ kMaxHeaderSize)
    {x : ℕ} (hx : position ≤ x) (hxs : x < s.length) :
    ∃ y, x < y ∧ y ≤ x + m ∧ y ≤ s.length ∧
      ∃ stop', Chunks lineMax trailerMax (s.take y) bodyLength position stop' := by
  have hlimit : kMaxHeaderSize = 65536 := rfl
  -- from within a chunk-size line: the next byte, or the end of the line
  have hwithin : ∀ {bodyLength position lineEnd}, find crlf s position = some lineEnd →
      lineEnd - position ≤ lineMax → position ≤ x → x ≤ lineEnd + 1 →
      (∃ stop', Chunks lineMax trailerMax (s.take (lineEnd + 2)) bodyLength position stop') →
      ∃ y, x < y ∧ y ≤ x + m ∧ y ≤ s.length ∧
        ∃ stop', Chunks lineMax trailerMax (s.take y) bodyLength position stop' := by
    intro bodyLength position lineEnd hfound hmax hx hend hwhole
    have hlen := (line_bounds hfound).2
    by_cases hpart : x + 1 - position ≤ kMaxHeaderSize ∧ x + 1 < lineEnd + 2
    · refine ⟨x + 1, by omega, by omega, hxs, none, .cut (line_cut hfound hpart.2) ?_⟩
      rw [List.length_take]
      omega
    · exact ⟨lineEnd + 2, by omega, by omega, hlen, hwhole⟩
  -- nothing after the last byte
  have hnothing : ∀ {i}, find crlf (s.take i) i = none := by
    intro i
    rcases hnone : find crlf (s.take i) i with _ | j
    · rfl
    · have := line_bounds hnone
      rw [List.length_take] at this
      omega
  induction h with
  | cut h hlen =>
    refine ⟨x + 1, by omega, by omega, hxs, none, .cut (find_take_eq_none (by simp) h _) ?_⟩
    rw [List.length_take]
    omega
  | @last bodyLength position lineEnd stop h hmax tail =>
    obtain ⟨hle, hlen⟩ := line_bounds h.found
    by_cases hafter : lineEnd + 2 ≤ x
    · obtain ⟨y, hxy, hyx, hys, stop', hstop'⟩ := tail.exists_accepted htrailer hlen hafter hxs
      exact ⟨y, hxy, by omega, hys, stop', .last (h.take (by omega)) hmax hstop'⟩
    · refine hwithin h.found hmax hx (by omega) ⟨none, ?_⟩
      refine .last (h.take (Nat.le_refl _)) hmax (.cut hnothing ?_)
      rw [List.length_take]
      omega
  | @cutData bodyLength position lineEnd chunkSize h hmax hne hfits hdata =>
    by_cases hafter : lineEnd + 2 ≤ x
    · exact ⟨x + 1, by omega, by omega, hxs, none,
        .of_cut_chunk h hmax hne hfits (by omega) (by omega)⟩
    · exact hwithin h.found hmax hx (by omega)
        ⟨none, .of_cut_chunk h hmax hne hfits (Nat.le_refl _) (by omega)⟩
  | @chunk bodyLength position lineEnd chunkSize stop h hmax hne hfits hdata tail ih =>
    have hlen := le_of_substr_eq_crlf hdata
    by_cases hafter : lineEnd + 2 ≤ x
    · have hwhole : ∀ {y stop'}, lineEnd + 2 + chunkSize + 2 ≤ y →
          Chunks lineMax trailerMax (s.take y) (bodyLength + chunkSize)
            (lineEnd + 2 + chunkSize + 2) stop' →
          Chunks lineMax trailerMax (s.take y) bodyLength position stop' := by
        intro y stop' hy htail
        exact .chunk (h.take (by omega)) hmax hne hfits
          (by rw [substr_take (by omega)]; exact hdata) htail
      by_cases hnext : lineEnd + 2 + chunkSize + 2 ≤ x
      · obtain ⟨y, hxy, hyx, hys, stop', hstop'⟩ := ih hnext
        exact ⟨y, hxy, hyx, hys, stop', hwhole (by omega) hstop'⟩
      · by_cases hcut : x + 1 = lineEnd + 2 + chunkSize + 2
        · refine ⟨x + 1, by omega, by omega, hxs, none, hwhole (by omega) ?_⟩
          rw [hcut]
          refine .cut hnothing ?_
          rw [List.length_take]
          omega
        · exact ⟨x + 1, by omega, by omega, hxs, none,
            .of_cut_chunk h hmax hne hfits (by omega) (by omega)⟩
    · exact hwithin h.found hmax hx (by omega)
        ⟨none, .of_cut_chunk h hmax hne hfits (Nat.le_refl _) (by omega)⟩

end HttpResponseParser

end Http

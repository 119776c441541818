/-
Parts of responses.

A response may be accepted as a whole and refused in part, when a chunk-size
line has 65536 bytes or more, or when the line that ends the trailers starts
exactly 65536 bytes after they begin.  In terms of restarting parsers, whose
error is here only the fact that there is one:

* `responseReport_restartable` — complete responses are final;
* `agrees_iff` — a stream agrees with all of its parts unless it starts with a
  response with such a line that the parser does not refuse;
* `blocked_iff` — the parts refused are `m` lengths in a row when a chunk-size
  line has more than `65534 + m` bytes.
-/
import Droplet.Http.ResponseParser
import Droplet.Lib.Restart

open Search Restart

namespace Http

namespace HttpResponseParser

variable {method : HttpMethod} {s : Bytes} {lineMax trailerMax : ℕ} {stop : Option ℕ}

theorem ResponseFrame.of_short {headerSize k : ℕ} {hs : Headers}
    (h : parseHead s = .ok (some (headerSize, hs))) (hk : ¬ headerSize ≤ k) :
    ResponseFrame method lineMax trailerMax (s.take k) none :=
  .cutHead (by rw [parseHead_take h, if_neg hk])

/-- Every part of a response whose lines are below the limits is accepted. -/
theorem ResponseFrame.take (h : ResponseFrame method lineMax trailerMax s stop)
    (hline : lineMax < kMaxHeaderSize) (htrailer : trailerMax < kMaxHeaderSize) (k : ℕ) :
    ∃ stop', ResponseFrame method lineMax trailerMax (s.take k) stop' := by
  have hpart : ∀ {headerSize hs}, parseHead s = .ok (some (headerSize, hs)) → headerSize ≤ k →
      parseHead (s.take k) = .ok (some (headerSize, hs)) :=
    fun h hk => by rw [parseHead_take h, if_pos hk]
  cases h with
  | cutHead h => exact ⟨none, .cutHead (parseHead_take_none h k)⟩
  | @noBody headerSize hs h hbody =>
    by_cases hk : headerSize ≤ k
    · exact ⟨_, .noBody (hpart h hk) hbody⟩
    · exact ⟨none, .of_short h hk⟩
  | @chunked headerSize hs stop h hbody hseen hfinal chunks =>
    by_cases hk : headerSize ≤ k
    · obtain ⟨stop', hstop'⟩ := chunks.take hline htrailer k
      exact ⟨stop', .chunked (hpart h hk) hbody hseen hfinal hstop'⟩
    · exact ⟨none, .of_short h hk⟩
  | @length headerSize hs h hbody hchunked hseen hsize hlen =>
    by_cases hk : headerSize ≤ k
    · by_cases hk' : headerSize + hs.parsedContentLength ≤ k
      · refine ⟨_, .length (hpart h hk) hbody hchunked hseen hsize ?_⟩
        rw [List.length_take]
        omega
      · refine ⟨none, .cutLength (hpart h hk) hbody hchunked hseen hsize ?_⟩
        rw [List.length_take]
        omega
    · exact ⟨none, .of_short h hk⟩
  | @cutLength headerSize hs h hbody hchunked hseen hsize hlen =>
    by_cases hk : headerSize ≤ k
    · refine ⟨none, .cutLength (hpart h hk) hbody hchunked hseen hsize ?_⟩
      rw [List.length_take]
      omega
    · exact ⟨none, .of_short h hk⟩
  | @untilClose headerSize hs h hbody hchunked hseen hlen =>
    by_cases hk : headerSize ≤ k
    · refine ⟨none, .untilClose (hpart h hk) hbody hchunked hseen ?_⟩
      rw [List.length_take]
      omega
    · exact ⟨none, .of_short h hk⟩

/-- A response keeps to tighter limits, or some of its parts are refused. -/
theorem ResponseFrame.tighten_or_refused {lineMax' : ℕ}
    (h : ResponseFrame method lineMax' kMaxHeaderSize s stop)
    (hline : kMaxHeaderSize - 1 ≤ lineMax)
    (htrailer : trailerMax = kMaxHeaderSize ∨
      trailerMax = kMaxHeaderSize - 1 ∧ lineMax = kMaxHeaderSize - 1) :
    ResponseFrame method lineMax trailerMax s stop ∨
      ∃ x, x + (lineMax + 2 - kMaxHeaderSize) ≤ s.length ∧
        ∀ k, x < k → k ≤ x + (lineMax + 2 - kMaxHeaderSize) →
          ∃ failure, parseMessage method (s.take k) false = .error failure := by
  cases h with
  | cutHead h => exact .inl (.cutHead h)
  | noBody h hbody => exact .inl (.noBody h hbody)
  | @chunked headerSize hs stop h hbody hseen hfinal chunks =>
    rcases chunks.tighten_or_refused hline htrailer with htight | ⟨x, hx, hxs, hrefused⟩
    · exact .inl (.chunked h hbody hseen hfinal htight)
    · refine .inr ⟨x, hxs, fun k hk hkm => ?_⟩
      obtain ⟨failure, hfailure⟩ := hrefused k hk hkm [] hs.response rfl
      have hhead : parseHead (s.take k) = .ok (some (headerSize, hs)) := by
        rw [parseHead_take h, if_pos (by omega)]
      refine ⟨failure, ?_⟩
      rw [parseMessage_of_head hhead, parseBody_chunked hbody hseen hfinal, hfailure]
      rfl
  | length h hbody hchunked hseen hsize hlen =>
    exact .inl (.length h hbody hchunked hseen hsize hlen)
  | cutLength h hbody hchunked hseen hsize hlen =>
    exact .inl (.cutLength h hbody hchunked hseen hsize hlen)
  | untilClose h hbody hchunked hseen hlen =>
    exact .inl (.untilClose h hbody hchunked hseen hlen)

/-- Between the parts that are refused there are parts that are accepted. -/
theorem ResponseFrame.exists_accepted {m : ℕ}
    (h : ResponseFrame method lineMax trailerMax s stop) (hm : 2 ≤ m)
    (hline : lineMax ≤ kMaxHeaderSize - 2 + m) (htrailer : trailerMax ≤ kMaxHeaderSize) {x : ℕ}
    (hx : x < s.length) :
    ∃ y, x < y ∧ y ≤ x + m ∧ y ≤ s.length ∧
      ∃ stop', ResponseFrame method lineMax trailerMax (s.take y) stop' := by
  -- without a chunked body the next length will do
  have hnext : (∃ stop', ResponseFrame method lineMax trailerMax (s.take (x + 1)) stop') →
      ∃ y, x < y ∧ y ≤ x + m ∧ y ≤ s.length ∧
        ∃ stop', ResponseFrame method lineMax trailerMax (s.take y) stop' :=
    fun hstop => ⟨x + 1, by omega, by omega, hx, hstop⟩
  have hpart : ∀ {headerSize hs k}, parseHead s = .ok (some (headerSize, hs)) → headerSize ≤ k →
      parseHead (s.take k) = .ok (some (headerSize, hs)) :=
    fun h hk => by rw [parseHead_take h, if_pos hk]
  cases h with
  | cutHead h => exact hnext ⟨none, .cutHead (parseHead_take_none h _)⟩
  | @noBody headerSize hs h hbody =>
    by_cases hk : headerSize ≤ x + 1
    · exact hnext ⟨_, .noBody (hpart h hk) hbody⟩
    · exact hnext ⟨none, .of_short h hk⟩
  | @chunked headerSize hs stop h hbody hseen hfinal chunks =>
    by_cases hk : headerSize ≤ x
    · obtain ⟨y, hxy, hyx, hys, stop', hstop'⟩ := chunks.exists_accepted hm hline htrailer hk hx
      exact ⟨y, hxy, hyx, hys, stop', .chunked (hpart h (by omega)) hbody hseen hfinal hstop'⟩
    · by_cases hk' : headerSize ≤ x + 1
      · refine hnext ⟨none, .chunked (hpart h hk') hbody hseen hfinal (.cut ?_ ?_)⟩
        · rcases hfind : find crlf (s.take (x + 1)) headerSize with _ | i
          · rfl
          · have := line_bounds hfind
            rw [List.length_take] at this
            omega
        · rw [List.length_take]
          omega
      · exact hnext ⟨none, .of_short h hk'⟩
  | @length headerSize hs h hbody hchunked hseen hsize hlen =>
    by_cases hk : headerSize ≤ x + 1
    · by_cases hk' : headerSize + hs.parsedContentLength ≤ x + 1
      · refine hnext ⟨_, .length (hpart h hk) hbody hchunked hseen hsize ?_⟩
        rw [List.length_take]
        omega
      · refine hnext ⟨none, .cutLength (hpart h hk) hbody hchunked hseen hsize ?_⟩
        rw [List.length_take]
        omega
    · exact hnext ⟨none, .of_short h hk⟩
  | @cutLength headerSize hs h hbody hchunked hseen hsize hlen =>
    by_cases hk : headerSize ≤ x + 1
    · refine hnext ⟨none, .cutLength (hpart h hk) hbody hchunked hseen hsize ?_⟩
      rw [List.length_take]
      omega
    · exact hnext ⟨none, .of_short h hk⟩
  | @untilClose headerSize hs h hbody hchunked hseen hlen =>
    by_cases hk : headerSize ≤ x + 1
    · refine hnext ⟨none, .untilClose (hpart h hk) hbody hchunked hseen ?_⟩
      rw [List.length_take]
      omega
    · exact hnext ⟨none, .of_short h hk⟩

/-! ### Reports -/

/-- The report on a parse: that it failed, that it goes on, or the response. -/
def reportOf : Except ParseFailure (Option Parsed) → Report Unit HttpResponse
  | .error _ => .failed ()
  | .ok none => .incomplete
  | .ok (some m) => .complete m.consumed m.response

/-- The response parser as a restarting parser. -/
def responseReport (method : HttpMethod) (s : Bytes) : Report Unit HttpResponse :=
  reportOf (parseMessage method s false)

theorem responseReport_eq_failed_iff :
    responseReport method s = .failed () ↔
      ∃ failure, parseMessage method s false = .error failure := by
  rw [responseReport]
  rcases parseMessage method s false with failure | _ | m
  · simp [reportOf]
  · simp [reportOf]
  · simp [reportOf]

theorem responseReport_eq_complete_iff {n : ℕ} {r : HttpResponse} :
    responseReport method s = .complete n r ↔
      ∃ m, parseMessage method s false = .ok (some m) ∧ m.consumed = n ∧ m.response = r := by
  rw [responseReport]
  rcases parseMessage method s false with failure | _ | m
  · simp [reportOf]
  · simp [reportOf]
  · simp [reportOf]

theorem responseReport_congr {t : Bytes} {n : ℕ} {r : HttpResponse}
    (h : responseReport method s = .complete n r) (ht : t.take n = s.take n) :
    responseReport method t = .complete n r := by
  obtain ⟨m, hparse, rfl, rfl⟩ := responseReport_eq_complete_iff.mp h
  rw [responseReport, (frame_of_ok hparse).congr ht, hparse]
  rfl

theorem responseReport_restartable (method : HttpMethod) : Restartable (responseReport method) where
  nil := by rw [responseReport, parseMessage_nil]; rfl
  consumed_le := by
    intro b n r h
    obtain ⟨m, hparse, rfl, -⟩ := responseReport_eq_complete_iff.mp h
    exact (consumed_bounds hparse).2
  append := by
    intro b t n r h
    refine responseReport_congr h (List.take_append_of_le_length ?_)
    obtain ⟨m, hparse, rfl, -⟩ := responseReport_eq_complete_iff.mp h
    exact (consumed_bounds hparse).2
  of_append := by
    intro b t n r hn h
    exact responseReport_congr h (List.take_append_of_le_length hn).symm

/-! ### The parser object -/

theorem execute_new (method : HttpMethod) (data : Bytes) (eof : Bool) :
    (new method).execute data eof =
      (((new method).executeBuffer data eof).1, ((new method).executeBuffer data eof).2.2) := by
  rw [execute, executeBuffer]
  rfl

theorem execute_finished_iff {eof : Bool} :
    ((new method).execute s eof).1.finished = true ↔
      ∃ m, parseMessage method s eof = .ok (some m) := by
  rw [execute_new, executeBuffer_new]
  rcases parseMessage method s eof with failure | _ | m
  · simp [setError]
  · simp [scanned]
  · simp

theorem execute_hasError_iff :
    ((new method).execute s false).1.hasError = false ↔
      responseReport method s ≠ .failed () := by
  rw [execute_new, executeBuffer_new, responseReport]
  rcases hparse : parseMessage method s false with failure | _ | m
  · have hcode := parseMessage_coded _ _ _ failure hparse
    simp [setError, hasError, reportOf, hcode]
  · simp [scanned, hasError, new, reportOf]
  · simp [scanned, hasError, new, reportOf]

/-! ### Agreement with parts -/

/-- A stream starts with a response whose lines are below the limits, or with a
part of one. -/
def WithinLimits (method : HttpMethod) (s : Bytes) : Prop :=
  ∃ stop, ResponseFrame method (kMaxHeaderSize - 1) (kMaxHeaderSize - 1) s stop

/-- A stream agrees with its parts when its first response is refused as a whole
or keeps its lines below the limits. -/
theorem agrees_iff :
    Agrees (responseReport method) s ↔
      responseReport method s = .failed () ∨ WithinLimits method s := by
  constructor
  · intro h
    by_contra hnot
    rw [not_or] at hnot
    rcases hparse : parseMessage method s false with failure | result
    · exact hnot.1 (responseReport_eq_failed_iff.mpr ⟨failure, hparse⟩)
    · rcases (frame_of_ok hparse).tighten_or_refused (Nat.le_refl _) (.inr ⟨rfl, rfl⟩)
        with htight | ⟨x, hx, hrefused⟩
      · exact hnot.2 ⟨_, htight⟩
      · -- a part that is refused, although the stream is not
        have hone : kMaxHeaderSize - 1 + 2 - kMaxHeaderSize = 1 := by decide
        rw [hone] at hx hrefused
        have hpart := responseReport_eq_failed_iff.mpr (hrefused (x + 1) (by omega) (by omega))
        have hsame := h (s.take (x + 1)) (s.drop (x + 1)) (List.take_append_drop _ _).symm
          (by rw [hpart]; simp)
        exact hnot.1 (hsame.trans hpart)
  · rintro h p t rfl hp
    rcases hreport : responseReport method p with _ | e | ⟨n, r⟩
    · exact absurd hreport hp
    · rcases h with hfailed | ⟨stop, hframe⟩
      · exact hfailed
      · obtain ⟨stop', hstop'⟩ := hframe.take (by decide) (by decide) p.length
        rw [List.take_left] at hstop'
        obtain ⟨result, hresult, -⟩ := hstop'.ok (by decide)
        obtain ⟨failure, hfailure⟩ := responseReport_eq_failed_iff.mp hreport
        rw [hresult] at hfailure
        exact absurd hfailure (by simp)
    · exact (responseReport_restartable method).append p t n r hreport

/-- On a stream whose first response is not refused as a whole, reads of at most
`m` bytes meet a part that is refused when a chunk-size line has more than
`65534 + m` bytes. -/
theorem blocked_iff {m : ℕ} (hm : 2 ≤ m) (h : responseReport method s ≠ .failed ()) :
    Blocked (responseReport method) m s ↔
      ¬ ∃ stop, ResponseFrame method (kMaxHeaderSize - 2 + m) kMaxHeaderSize s stop := by
  have hlimit : kMaxHeaderSize = 65536 := rfl
  constructor
  · rintro ⟨x, hx, hrefused⟩ ⟨stop, hframe⟩
    obtain ⟨y, hxy, hyx, -, stop', hstop'⟩ :=
      hframe.exists_accepted hm (Nat.le_refl _) (Nat.le_refl _) (show x < s.length by omega)
    obtain ⟨result, hresult, -⟩ := hstop'.ok (Nat.le_refl _)
    obtain ⟨failure, hfailure⟩ := responseReport_eq_failed_iff.mp (hrefused y hxy hyx)
    rw [hresult] at hfailure
    exact absurd hfailure (by simp)
  · intro hnot
    rcases hparse : parseMessage method s false with failure | result
    · exact absurd (responseReport_eq_failed_iff.mpr ⟨failure, hparse⟩) h
    · rcases (frame_of_ok hparse).tighten_or_refused
        (show kMaxHeaderSize - 1 ≤ kMaxHeaderSize - 2 + m by omega) (.inl rfl)
        with htight | ⟨x, hx, hrefused⟩
      · exact absurd ⟨_, htight⟩ hnot
      · have hrun : kMaxHeaderSize - 2 + m + 2 - kMaxHeaderSize = m := by omega
        rw [hrun] at hx hrefused
        exact ⟨x, hx, fun k hk hkm => responseReport_eq_failed_iff.mpr (hrefused k hk hkm)⟩

end HttpResponseParser

end Http

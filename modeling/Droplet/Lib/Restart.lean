/-
Receivers that restart their parser on a growing buffer.

A receiver keeps the elements it has read and runs its parser on all of them
after every read, until the parser reports something.  `Call` is one call of
such a receiver on a division of a stream into reads; `Receives` is what the
stream as a whole says.  The two agree on every division when the parser's
first report is the same in every division (`Settled`).

* `Agrees.settled` — reports that are final are settled;
* `Blocked.settled` — so is a failure on `m` lengths in a row, when no read is
  longer than `m`;
* `Call.receives` — on settled streams a call returns what the stream says;
* `exists_differing_divisions` — where a stream is neither, two divisions of it
  give different results.
-/
import Mathlib.Data.List.TakeDrop
import Mathlib.Data.List.Flatten

namespace Restart

/-- What a parser reports on the elements received so far. -/
inductive Report (ε ρ : Type*)
  | incomplete
  | failed (error : ε)
  | complete (consumed : ℕ) (message : ρ)

/-- What a receiver returns: a message, the message that the end of the stream
completes, the error of the parser, or the end of the stream within a message. -/
inductive Received (ε ρ : Type*)
  | message (message : ρ)
  | last (message : ρ)
  | failed (error : ε)
  | ended
  deriving DecidableEq

variable {α ε ρ : Type*}

section Receiver

variable (parse final : List α → Report ε ρ) (keep : ρ → Bool)

/-- `Call parse final keep b rs result b' rs'`: with the buffer `b` and the reads
`rs` to come, a call returns `result` and leaves `b'` and `rs'`.  Messages that
are not kept are skipped; at the end of the stream `final` has the last word. -/
inductive Call : List α → List (List α) → Received ε ρ → List α → List (List α) → Prop
  | message {b rs n r} (h : parse b = .complete n r) (hk : keep r = true) :
      Call b rs (.message r) (b.drop n) rs
  | skip {b rs n r result b' rs'} (h : parse b = .complete n r) (hk : keep r = false)
      (tail : Call (b.drop n) rs result b' rs') : Call b rs result b' rs'
  | failed {b rs e} (h : parse b = .failed e) : Call b rs (.failed e) b rs
  | more {b read rs result b' rs'} (h : parse b = .incomplete)
      (tail : Call (b ++ read) rs result b' rs') : Call b (read :: rs) result b' rs'
  | last {b n r} (h : parse b = .incomplete) (hf : final b = .complete n r) :
      Call b [] (.last r) (b.drop n) []
  | lastFailed {b e} (h : parse b = .incomplete) (hf : final b = .failed e) :
      Call b [] (.failed e) b []
  | ended {b} (h : parse b = .incomplete) (hf : final b = .incomplete) : Call b [] .ended b []

/-- The results of the first calls; all but the last one return messages. -/
inductive Calls : List α → List (List α) → List (Received ε ρ) → Prop
  | one {b rs result b' rs'} (h : Call parse final keep b rs result b' rs') : Calls b rs [result]
  | next {b rs r b' rs' results} (h : Call parse final keep b rs (.message r) b' rs')
      (tail : Calls b' rs' results) : Calls b rs (.message r :: results)

/-- `Receives opening final keep s result rest`: the stream `s` starts with
`result` and `rest` is left, where `opening` tells how a stream starts. -/
inductive Receives (opening final : List α → Report ε ρ) (keep : ρ → Bool) :
    List α → Received ε ρ → List α → Prop
  | message {s n r} (h : opening s = .complete n r) (hk : keep r = true) :
      Receives opening final keep s (.message r) (s.drop n)
  | skip {s n r result rest} (h : opening s = .complete n r) (hk : keep r = false)
      (tail : Receives opening final keep (s.drop n) result rest) :
      Receives opening final keep s result rest
  | failed {s e} (h : opening s = .failed e) : Receives opening final keep s (.failed e) s
  | last {s n r} (h : opening s = .incomplete) (hf : final s = .complete n r) :
      Receives opening final keep s (.last r) (s.drop n)
  | lastFailed {s e} (h : opening s = .incomplete) (hf : final s = .failed e) :
      Receives opening final keep s (.failed e) s
  | ended {s} (h : opening s = .incomplete) (hf : final s = .incomplete) :
      Receives opening final keep s .ended s

/-- Where messages start in a stream. -/
inductive Start (opening : List α → Report ε ρ) : List α → List α → Prop
  | here {s} : Start opening s s
  | next {s n r rest} (h : opening s = .complete n r) (tail : Start opening (s.drop n) rest) :
      Start opening s rest

/-- The first report of the parser on a division. -/
def firstReport : List α → List (List α) → Report ε ρ
  | b, [] => parse b
  | b, read :: rs =>
    match parse b with
    | .incomplete => firstReport (b ++ read) rs
    | report => report

/-- In every division of `s` into pieces of lengths that fit, the first report is
the given one. -/
def Settled (fits : ℕ → Prop) (s : List α) (report : Report ε ρ) : Prop :=
  ∀ b rs, fits b.length → (∀ read ∈ rs, fits read.length) → b ++ rs.flatten = s →
    firstReport parse b rs = report

/-- The reports of `parse` on the parts of `s` are its report on `s`. -/
def Agrees (s : List α) : Prop := ∀ p t, s = p ++ t → parse p ≠ .incomplete → parse s = parse p

end Receiver

variable {parse final opening : List α → Report ε ρ} {keep : ρ → Bool} {fits : ℕ → Prop}

/-- A buffer and the reads to come determine what a call returns and leaves. -/
theorem Call.unique {b b₁ b₂ : List α} {rs rs₁ rs₂ : List (List α)} {result₁ result₂ : Received ε ρ}
    (h₁ : Call parse final keep b rs result₁ b₁ rs₁)
    (h₂ : Call parse final keep b rs result₂ b₂ rs₂) :
    result₁ = result₂ ∧ b₁ = b₂ ∧ rs₁ = rs₂ := by
  induction h₁ with
  | message h hk => cases h₂ <;> simp_all
  | skip h hk _ ih =>
    cases h₂ with
    | skip h' _ tail' =>
      rw [h, Report.complete.injEq] at h'
      obtain ⟨rfl, rfl⟩ := h'
      exact ih tail'
    | _ => simp_all
  | failed h => cases h₂ <;> simp_all
  | more h _ ih =>
    cases h₂ with
    | more _ tail' => exact ih tail'
    | _ => simp_all
  | last h hf => cases h₂ <;> simp_all
  | lastFailed h hf => cases h₂ <;> simp_all
  | ended h hf => cases h₂ <;> simp_all

/-- A stream determines what is received from it and what is left. -/
theorem Receives.unique {s rest rest' : List α} {result result' : Received ε ρ}
    (h : Receives opening final keep s result rest)
    (h' : Receives opening final keep s result' rest') : result = result' ∧ rest = rest' := by
  induction h with
  | message h hk => cases h' <;> simp_all
  | skip h hk _ ih =>
    cases h' with
    | skip h' _ tail' =>
      rw [h, Report.complete.injEq] at h'
      obtain ⟨rfl, rfl⟩ := h'
      exact ih tail'
    | _ => simp_all
  | failed h => cases h' <;> simp_all
  | last h hf => cases h' <;> simp_all
  | lastFailed h hf => cases h' <;> simp_all
  | ended h hf => cases h' <;> simp_all

/-! ### Settled streams -/

theorem firstReport_of_ne {b : List α} (h : parse b ≠ .incomplete) (rs : List (List α)) :
    firstReport parse b rs = parse b := by
  rcases rs with _ | ⟨read, rs⟩
  · rfl
  · rw [firstReport]
    rcases hb : parse b with _ | e | ⟨n, r⟩
    · exact absurd hb h
    · rfl
    · rfl

theorem firstReport_more {b : List α} (h : parse b = .incomplete) (read : List α)
    (rs : List (List α)) : firstReport parse b (read :: rs) = firstReport parse (b ++ read) rs := by
  rw [firstReport, h]

/-- Final reports are settled. -/
theorem Agrees.settled {s : List α} (h : Agrees parse s) : Settled parse fits s (parse s) := by
  rintro b rs - - rfl
  induction rs generalizing b with
  | nil => simp [firstReport]
  | cons read rs ih =>
    by_cases hb : parse b = .incomplete
    · rw [firstReport_more hb]
      have := ih (b ++ read) (by simpa [List.append_assoc] using h)
      simpa [List.append_assoc] using this
    · rw [firstReport_of_ne hb]
      exact (h b _ rfl hb).symm

variable (opening fits) in
/-- On a stream that is settled wherever a message starts, a call returns what
the stream says, and the same holds of the calls after it. -/
theorem Call.receives (hle : ∀ b n r, parse b = .complete n r → n ≤ b.length)
    (hmono : ∀ m n, m ≤ n → fits n → fits m)
    (hleft : ∀ b t n r, parse b = .incomplete → parse (b ++ t) = .complete n r → fits t.length →
      fits ((b ++ t).length - n))
    {b b' : List α} {rs rs' : List (List α)} {result : Received ε ρ}
    (h : Call parse final keep b rs result b' rs')
    (hsettled : ∀ s, Start opening (b ++ rs.flatten) s → Settled parse fits s (opening s))
    (hb : fits b.length) (hrs : ∀ read ∈ rs, fits read.length) :
    Receives opening final keep (b ++ rs.flatten) result (b' ++ rs'.flatten) ∧
      ∀ r, result = .message r →
        (∀ s, Start opening (b' ++ rs'.flatten) s → Settled parse fits s (opening s)) ∧
        fits b'.length ∧ ∀ read ∈ rs', fits read.length := by
  -- what is carried through the reads of a call: the first report to come, and
  -- that what a message leaves of the buffer fits
  have hfirst : firstReport parse b rs = opening (b ++ rs.flatten) :=
    hsettled _ .here b rs hb hrs rfl
  have hkept : ∀ n r, parse b = .complete n r → fits (b.length - n) :=
    fun n r _ => hmono _ _ (Nat.sub_le _ _) hb
  clear hb
  induction h with
  | @message b rs n r h hk =>
    rw [firstReport_of_ne (by rw [h]; simp), h] at hfirst
    have hdrop : b.drop n ++ rs.flatten = (b ++ rs.flatten).drop n :=
      (List.drop_append_of_le_length (hle _ _ _ h)).symm
    rw [hdrop]
    refine ⟨.message hfirst.symm hk, fun _ _ => ⟨?_, ?_, hrs⟩⟩
    · intro s hs
      exact hsettled s (.next hfirst.symm hs)
    · rw [List.length_drop]
      exact hkept n r h
  | @skip b rs n r result b' rs' h hk tail ih =>
    rw [firstReport_of_ne (by rw [h]; simp), h] at hfirst
    have hdrop : b.drop n ++ rs.flatten = (b ++ rs.flatten).drop n :=
      (List.drop_append_of_le_length (hle _ _ _ h)).symm
    have hfits : fits (b.drop n).length := by
      rw [List.length_drop]
      exact hkept n r h
    have hsettled' : ∀ s, Start opening (b.drop n ++ rs.flatten) s →
        Settled parse fits s (opening s) := by
      intro s hs
      rw [hdrop] at hs
      exact hsettled s (.next hfirst.symm hs)
    obtain ⟨hreceives, hnext⟩ := ih hsettled' hrs (hsettled' _ .here _ rs hfits hrs rfl)
      fun _ _ _ => hmono _ _ (Nat.sub_le _ _) hfits
    rw [hdrop] at hreceives
    exact ⟨.skip hfirst.symm hk hreceives, hnext⟩
  | @failed b rs e h =>
    rw [firstReport_of_ne (by rw [h]; simp), h] at hfirst
    exact ⟨.failed hfirst.symm, by simp⟩
  | @more b read rs result b' rs' h tail ih =>
    have hstream : b ++ (read :: rs).flatten = (b ++ read) ++ rs.flatten := by simp
    rw [hstream] at hfirst hsettled ⊢
    rw [firstReport_more h] at hfirst
    refine ih hsettled (fun x hx => hrs x (List.mem_cons_of_mem _ hx)) hfirst ?_
    exact fun n r hn => hleft b read n r h hn (hrs read (List.mem_cons_self ..))
  | @last b n r h hf =>
    rw [firstReport, h, List.flatten_nil, List.append_nil] at hfirst
    simp only [List.flatten_nil, List.append_nil]
    exact ⟨.last hfirst.symm hf, by simp⟩
  | @lastFailed b e h hf =>
    rw [firstReport, h, List.flatten_nil, List.append_nil] at hfirst
    simp only [List.flatten_nil, List.append_nil]
    exact ⟨.lastFailed hfirst.symm hf, by simp⟩
  | @ended b h hf =>
    rw [firstReport, h, List.flatten_nil, List.append_nil] at hfirst
    simp only [List.flatten_nil, List.append_nil]
    exact ⟨.ended hfirst.symm hf, by simp⟩

/-! ### Parsers with a single error -/

/-- A parser whose complete messages are final, and found as soon as all of their
elements are there. -/
structure Restartable (parse : List α → Report ε ρ) : Prop where
  nil : parse [] = .incomplete
  consumed_le : ∀ b n r, parse b = .complete n r → n ≤ b.length
  append : ∀ b t n r, parse b = .complete n r → parse (b ++ t) = .complete n r
  of_append : ∀ b t n r, n ≤ b.length → parse (b ++ t) = .complete n r → parse b = .complete n r

section SingleError

variable {parse final : List α → Report Unit ρ}

/-- The parser fails on `m` lengths of `s` in a row. -/
def Blocked (parse : List α → Report Unit ρ) (m : ℕ) (s : List α) : Prop :=
  ∃ x, x + m ≤ s.length ∧ ∀ k, x < k → k ≤ x + m → parse (s.take k) = .failed ()

/-- What every division of a stream that agrees or is blocked starts with. -/
noncomputable def settledReport (parse : List α → Report Unit ρ) (s : List α) : Report Unit ρ :=
  open Classical in if Agrees parse s then parse s else .failed ()

/-- A failure on some part of a stream is what the first report is, when all
reads up to it are there. -/
theorem Restartable.firstReport_failed (hp : Restartable parse) {b : List α}
    {rs rs' : List (List α)} (h : parse (b ++ rs.flatten) = .failed ()) :
    firstReport parse b (rs ++ rs') = .failed () := by
  induction rs generalizing b with
  | nil =>
    simp only [List.flatten_nil, List.append_nil] at h
    rw [List.nil_append, firstReport_of_ne (by rw [h]; simp), h]
  | cons read rs ih =>
    have hstream : b ++ (read :: rs).flatten = (b ++ read) ++ rs.flatten := by simp
    rw [hstream] at h
    rcases hb : parse b with _ | e | ⟨n, r⟩
    · rw [List.cons_append, firstReport_more hb, ih h]
    · rw [firstReport_of_ne (by rw [hb]; simp), hb]
    · -- a message found here would be found on the longer part as well
      have := hp.append b (read ++ rs.flatten) n r hb
      rw [← List.append_assoc, h] at this
      exact absurd this (by simp)

/-- Reads that are not longer than a run of failures do not jump over it. -/
theorem Blocked.settled (hp : Restartable parse) {m : ℕ} (hm : 0 < m) {s : List α}
    (h : Blocked parse m s) : Settled parse (· ≤ m) s (.failed ()) := by
  obtain ⟨x, hx, hfail⟩ := h
  intro b rs hb hrs hs
  -- the buffer ends before the run or inside it
  have hreach : b.length ≤ x + m := Nat.le_trans hb (Nat.le_add_left _ _)
  clear hb
  induction rs generalizing b with
  | nil =>
    simp only [List.flatten_nil, List.append_nil] at hs
    subst hs
    have := hfail b.length (by omega) hreach
    rwa [List.take_length] at this
  | cons read rs ih =>
    have hfront : s.take b.length = b := by rw [← hs, List.take_left]
    by_cases hlt : x < b.length
    · have := hfail b.length hlt hreach
      rw [hfront] at this
      rw [firstReport_of_ne (by rw [this]; simp), this]
    · rcases hparse : parse b with _ | e | ⟨n, r⟩
      · rw [firstReport_more hparse]
        refine ih (b ++ read) (fun y hy => hrs y (List.mem_cons_of_mem _ hy)) (by simpa using hs) ?_
        have := hrs read (List.mem_cons_self ..)
        rw [List.length_append]
        omega
      · rw [firstReport_of_ne (by rw [hparse]; simp), hparse]
      · -- a message found before the run would be found inside it as well
        have hlonger := hp.append b ((s.drop b.length).take (x + 1 - b.length)) n r hparse
        have htake : s.take (x + 1) = b ++ (s.drop b.length).take (x + 1 - b.length) := by
          conv_lhs => rw [show x + 1 = b.length + (x + 1 - b.length) by omega, List.take_add,
            hfront]
        rw [← htake, hfail (x + 1) (by omega) (by omega)] at hlonger
        exact absurd hlonger (by simp)

/-- A stream that agrees with its parts or is blocked is settled. -/
theorem settled_settledReport (hp : Restartable parse) {m : ℕ} (hm : 0 < m) {s : List α}
    (h : Agrees parse s ∨ Blocked parse m s) :
    Settled parse (· ≤ m) s (settledReport parse s) := by
  by_cases hagree : Agrees parse s
  · rw [settledReport, if_pos hagree]
    exact hagree.settled
  · rw [settledReport, if_neg hagree]
    exact (h.resolve_left hagree).settled hp hm

theorem settledReport_eq_complete_iff {s : List α} {n : ℕ} {r : ρ} :
    settledReport parse s = .complete n r ↔ Agrees parse s ∧ parse s = .complete n r := by
  rw [settledReport]
  by_cases hagree : Agrees parse s
  · simp [hagree]
  · simp [hagree]

/-! ### Streams that are not settled -/

/-- A division of `s` into reads of at most `m` elements, none of them empty. -/
def Division (m : ℕ) (s : List α) (rs : List (List α)) : Prop :=
  (∀ read ∈ rs, read ≠ [] ∧ read.length ≤ m) ∧ rs.flatten = s

/-- One element a read. -/
def singles (s : List α) : List (List α) := s.map fun a => [a]

theorem flatten_singles (s : List α) : (singles s).flatten = s := by
  induction s with
  | nil => rfl
  | cons a s ih => simp [singles] at ih ⊢; exact ih

theorem division_singles {m : ℕ} (hm : 0 < m) (s : List α) : Division m s (singles s) := by
  refine ⟨?_, flatten_singles s⟩
  intro read hread
  obtain ⟨a, -, rfl⟩ := List.mem_map.mp hread
  exact ⟨by simp, hm⟩

theorem Division.append {m : ℕ} {s t : List α} {rs rs' : List (List α)} (h : Division m s rs)
    (h' : Division m t rs') : Division m (s ++ t) (rs ++ rs') := by
  refine ⟨?_, by rw [List.flatten_append, h.2, h'.2]⟩
  intro read hread
  rcases List.mem_append.mp hread with hin | hin
  · exact h.1 read hin
  · exact h'.1 read hin

/-- When every length has one that is `good` among the next `m`, some division
ends all of its reads at good lengths. -/
theorem exists_division {m : ℕ} {s : List α} {good : ℕ → Prop}
    (h : ∀ x < s.length, ∃ y, x < y ∧ y ≤ x + m ∧ y ≤ s.length ∧ good y) (x : ℕ)
    (hx : x ≤ s.length) :
    ∃ rs, Division m (s.drop x) rs ∧
      ∀ rs₁ rs₂, rs = rs₁ ++ rs₂ → rs₁ ≠ [] → good (x + rs₁.flatten.length) := by
  induction hd : s.length - x using Nat.strongRecOn generalizing x with
  | ind d ih =>
    by_cases hend : x = s.length
    · refine ⟨[], ⟨by simp, by simp [hend]⟩, ?_⟩
      intro rs₁ rs₂ hsplit hne
      exact absurd (List.append_eq_nil_iff.mp hsplit.symm).1 hne
    · obtain ⟨y, hlt, hle, hys, hgood⟩ := h x (by omega)
      obtain ⟨rs, hdiv, hcuts⟩ := ih (s.length - y) (by omega) y hys rfl
      have hread : ((s.drop x).take (y - x)).length = y - x := by
        rw [List.length_take, List.length_drop]
        omega
      have hsplit : s.drop x = (s.drop x).take (y - x) ++ s.drop y := by
        conv_lhs => rw [← List.take_append_drop (y - x) (s.drop x), List.drop_drop]
        rw [Nat.add_sub_cancel' (by omega)]
      refine ⟨(s.drop x).take (y - x) :: rs, ?_, ?_⟩
      · have hfirst : Division m ((s.drop x).take (y - x)) [(s.drop x).take (y - x)] := by
          refine ⟨?_, by simp⟩
          intro read hin
          rw [List.mem_singleton] at hin
          subst hin
          exact ⟨List.ne_nil_of_length_pos (by omega), by omega⟩
        have hwhole := hfirst.append hdiv
        rwa [← hsplit] at hwhole
      · intro rs₁ rs₂ hrs hne
        obtain ⟨read, rs₁, rfl⟩ := List.exists_cons_of_ne_nil hne
        rw [List.cons_append, List.cons.injEq] at hrs
        obtain ⟨rfl, rfl⟩ := hrs
        by_cases hrs₁ : rs₁ = []
        · subst hrs₁
          simp only [List.flatten_cons, List.flatten_nil, List.append_nil, hread]
          rwa [Nat.add_sub_cancel' (by omega)]
        · have := hcuts rs₁ rs₂ rfl hrs₁
          rw [List.flatten_cons, List.length_append, hread, ← Nat.add_assoc,
            Nat.add_sub_cancel' (by omega)]
          exact this

/-- Without a failure at the end of a read the first report is the one on all of
the stream. -/
theorem Restartable.firstReport_eq (hp : Restartable parse) {b : List α} {rs : List (List α)}
    (h : ∀ rs₁ rs₂, rs = rs₁ ++ rs₂ → parse (b ++ rs₁.flatten) ≠ .failed ()) :
    firstReport parse b rs = parse (b ++ rs.flatten) := by
  induction rs generalizing b with
  | nil => simp [firstReport]
  | cons read rs ih =>
    rcases hb : parse b with _ | e | ⟨n, r⟩
    · rw [firstReport_more hb]
      have := ih (b := b ++ read) fun rs₁ rs₂ hrs => by
        have := h (read :: rs₁) rs₂ (by rw [hrs, List.cons_append])
        simpa using this
      simpa using this
    · exact absurd (by simpa using hb) (h [] (read :: rs) rfl)
    · rw [firstReport_of_ne (by rw [hb]; simp), hb, hp.append b _ n r hb]

/-- The call that a first report leads to. -/
theorem exists_call_of_failed {b : List α} {rs : List (List α)}
    (h : firstReport parse b rs = .failed ()) :
    ∃ b' rs', Call parse final keep b rs (.failed ()) b' rs' := by
  induction rs generalizing b with
  | nil => exact ⟨_, _, .failed h⟩
  | cons read rs ih =>
    by_cases hb : parse b = .incomplete
    · rw [firstReport_more hb] at h
      obtain ⟨b', rs', hcall⟩ := ih h
      exact ⟨b', rs', .more hb hcall⟩
    · rw [firstReport_of_ne hb] at h
      exact ⟨_, _, .failed h⟩

theorem exists_call_of_complete {b : List α} {rs : List (List α)} {n : ℕ} {r : ρ}
    (h : firstReport parse b rs = .complete n r) (hk : keep r = true) :
    ∃ b' rs', Call parse final keep b rs (.message r) b' rs' := by
  induction rs generalizing b with
  | nil => exact ⟨_, _, .message h hk⟩
  | cons read rs ih =>
    by_cases hb : parse b = .incomplete
    · rw [firstReport_more hb] at h
      obtain ⟨b', rs', hcall⟩ := ih h
      exact ⟨b', rs', .more hb hcall⟩
    · rw [firstReport_of_ne hb] at h
      exact ⟨_, _, .message h hk⟩

theorem exists_call_of_incomplete (hfinal : ∀ s, parse s = .incomplete → final s ≠ .failed ()) {b : List α}
    {rs : List (List α)} (h : firstReport parse b rs = .incomplete) :
    ∃ result b' rs', Call parse final keep b rs result b' rs' ∧ result ≠ .failed () := by
  induction rs generalizing b with
  | nil =>
    rcases hf : final b with _ | e | ⟨n, r⟩
    · exact ⟨_, _, _, .ended h hf, by simp⟩
    · exact absurd hf (hfinal b h)
    · exact ⟨_, _, _, .last h hf, by simp⟩
  | cons read rs ih =>
    by_cases hb : parse b = .incomplete
    · rw [firstReport_more hb] at h
      obtain ⟨result, b', rs', hcall, hne⟩ := ih h
      exact ⟨result, b', rs', .more hb hcall, hne⟩
    · rw [firstReport_of_ne hb] at h
      exact absurd h hb

/-- Reads of one element lead to where the parser first reports. -/
theorem Call.after_singles {b u b' : List α} {rs rs' : List (List α)} {result : Received Unit ρ}
    (h : ∀ k < u.length, parse (b ++ u.take k) = .incomplete)
    (tail : Call parse final keep (b ++ u) rs result b' rs') :
    Call parse final keep b (singles u ++ rs) result b' rs' := by
  induction u generalizing b with
  | nil => simpa [singles] using tail
  | cons a u ih =>
    refine .more (by simpa using h 0 (by simp)) ?_
    refine ih ?_ (by simpa using tail)
    intro k hk
    simpa using h (k + 1) (by simpa using hk)

/-- A stream that neither agrees with its parts nor is blocked has two divisions
whose first calls differ. -/
theorem exists_differing_calls (hp : Restartable parse) (hfinal : ∀ s, parse s = .incomplete → final s ≠ .failed ())
    {m : ℕ} (hm : 0 < m) {s : List α} (hkeep : ∀ n r, parse s = .complete n r → keep r = true)
    (hagree : ¬ Agrees parse s) (hblocked : ¬ Blocked parse m s) :
    ∃ rs rs' result b₁ rs₁ b₂ rs₂, Division m s rs ∧ Division m s rs' ∧
      Call parse final keep [] rs (.failed ()) b₁ rs₁ ∧
      Call parse final keep [] rs' result b₂ rs₂ ∧ result ≠ .failed () := by
  -- a part on which the parser fails, although it does not fail on the whole
  obtain ⟨p, t, rfl, hp_ne, hdiffer⟩ : ∃ p t, s = p ++ t ∧ parse p ≠ .incomplete ∧
      parse s ≠ parse p := by
    simpa only [Agrees, not_forall, exists_prop] using hagree
  have hfail : parse p = .failed () := by
    rcases hparse : parse p with _ | e | ⟨n, r⟩
    · exact absurd hparse hp_ne
    · rfl
    · exact absurd (by rw [hp.append p t n r hparse, hparse]) hdiffer
  have hwhole : parse (p ++ t) ≠ .failed () := by
    rw [← hfail]
    exact hdiffer
  have hreport₁ : firstReport parse [] (singles p ++ singles t) = .failed () :=
    hp.firstReport_failed (by rwa [flatten_singles])
  obtain ⟨b₁, rs₁, hcall₁⟩ : ∃ b' rs',
      Call parse final keep [] (singles p ++ singles t) (.failed ()) b' rs' :=
    exists_call_of_failed hreport₁
  -- a division that avoids all failures
  have hgood : ∀ x < (p ++ t).length, ∃ y, x < y ∧ y ≤ x + m ∧ y ≤ (p ++ t).length ∧
      parse ((p ++ t).take y) ≠ .failed () := by
    intro x hx
    by_cases hend : x + m ≤ (p ++ t).length
    · by_contra hnone
      refine hblocked ⟨x, hend, fun k hk hkm => ?_⟩
      by_contra hne
      exact hnone ⟨k, hk, hkm, by omega, hne⟩
    · exact ⟨(p ++ t).length, hx, by omega, Nat.le_refl _, by rwa [List.take_length]⟩
  obtain ⟨rs', hdiv, hcuts⟩ := exists_division hgood 0 (Nat.zero_le _)
  rw [List.drop_zero] at hdiv
  have hreport : firstReport parse [] rs' = parse (p ++ t) := by
    rw [hp.firstReport_eq, List.nil_append, hdiv.2]
    intro u v huv
    by_cases hu : u = []
    · simp [hu, hp.nil]
    · have := hcuts u v huv hu
      have hflat : u.flatten = (p ++ t).take (0 + u.flatten.length) := by
        rw [← hdiv.2, huv, List.flatten_append, Nat.zero_add, List.take_left]
      rwa [List.nil_append, hflat]
  have hsingles : Division m (p ++ t) (singles p ++ singles t) :=
    (division_singles hm p).append (division_singles hm t)
  rcases hparse : parse (p ++ t) with _ | e | ⟨n, r⟩
  · obtain ⟨result, b₂, rs₂, hcall₂, hne⟩ : ∃ result b₂ rs₂,
        Call parse final keep [] rs' result b₂ rs₂ ∧ result ≠ .failed () :=
      exists_call_of_incomplete hfinal (hreport.trans hparse)
    exact ⟨_, rs', result, b₁, rs₁, b₂, rs₂, hsingles, hdiv, hcall₁, hcall₂, hne⟩
  · exact absurd hparse hwhole
  · obtain ⟨b₂, rs₂, hcall₂⟩ : ∃ b₂ rs₂, Call parse final keep [] rs' (.message r) b₂ rs₂ :=
      exists_call_of_complete (hreport.trans hparse) (hkeep n r hparse)
    exact ⟨_, rs', _, b₁, rs₁, b₂, rs₂, hsingles, hdiv, hcall₁, hcall₂, by simp⟩

/-- A stream in which a message starts that neither agrees with its parts nor is
blocked has two divisions whose results differ. -/
theorem exists_differing_divisions (hp : Restartable parse) (hfinal : ∀ s, parse s = .incomplete → final s ≠ .failed ())
    {m : ℕ} (hm : 0 < m) {s rest : List α} (hstart : Start (settledReport parse) s rest)
    (hkeep : ∀ n r, parse rest = .complete n r → keep r = true)
    (hagree : ¬ Agrees parse rest) (hblocked : ¬ Blocked parse m rest) :
    ∃ rs rs' results result, Division m s rs ∧ Division m s rs' ∧
      Calls parse final keep [] rs (results ++ [.failed ()]) ∧
      Calls parse final keep [] rs' (results ++ [result]) ∧ result ≠ .failed () := by
  induction hstart with
  | here =>
    obtain ⟨rs, rs', result, b₁, rs₁, b₂, rs₂, hdiv, hdiv', hcall, hcall', hne⟩ :=
      exists_differing_calls hp hfinal hm hkeep hagree hblocked
    exact ⟨rs, rs', [], result, hdiv, hdiv', .one hcall, .one hcall', hne⟩
  | @next s n r rest h tail ih =>
    obtain ⟨rs, rs', results, result, hdiv, hdiv', hcalls, hcalls', hne⟩ :=
      ih hkeep hagree hblocked
    obtain ⟨hs, hparse⟩ := settledReport_eq_complete_iff.mp h
    have hn := hp.consumed_le _ _ _ hparse
    have hlen : (s.take n).length = n := by
      rw [List.length_take]
      omega
    have hsplit : s = s.take n ++ s.drop n := (List.take_append_drop n s).symm
    -- reads of one element find the message exactly at its end
    have hmessage : parse (s.take n) = .complete n r := by
      refine hp.of_append _ (s.drop n) n r (by omega) ?_
      rw [← hsplit]
      exact hparse
    have hbefore : ∀ k < (s.take n).length, parse ([] ++ (s.take n).take k) = .incomplete := by
      intro k hk
      by_contra hne'
      rw [hlen] at hk
      rw [List.nil_append, List.take_take, Nat.min_eq_left (by omega)] at hne'
      have heq := hs (s.take k) (s.drop k) (List.take_append_drop k s).symm hne'
      rw [hparse] at heq
      have := hp.consumed_le _ _ _ heq.symm
      rw [List.length_take] at this
      omega
    have hdone : (s.take n).drop n = [] := List.drop_eq_nil_of_le (by omega)
    have hcalls_of : ∀ {rs results}, Calls parse final keep [] rs results →
        ∃ first, Calls parse final keep [] (singles (s.take n) ++ rs) (first ++ results) ∧
          first = if keep r then [.message r] else [] := by
      intro rs results hcalls
      by_cases hk : keep r = true
      · refine ⟨[.message r], ?_, by simp [hk]⟩
        have hcall : Call parse final keep [] (singles (s.take n) ++ rs) (.message r)
            ((s.take n).drop n) rs :=
          Call.after_singles hbefore (.message (by simpa using hmessage) hk)
        rw [hdone] at hcall
        exact .next hcall hcalls
      · rw [Bool.not_eq_true] at hk
        refine ⟨[], ?_, by simp [hk]⟩
        have hskip : ∀ {result b' rs'}, Call parse final keep [] rs result b' rs' →
            Call parse final keep [] (singles (s.take n) ++ rs) result b' rs' := by
          intro result b' rs' hcall
          refine Call.after_singles hbefore (.skip (by simpa using hmessage) hk ?_)
          rw [List.nil_append, hdone]
          exact hcall
        cases hcalls with
        | one hcall => exact .one (hskip hcall)
        | next hcall hrest => exact .next (hskip hcall) hrest
    obtain ⟨first, hfirst, hfirst_eq⟩ := hcalls_of hcalls
    obtain ⟨first', hfirst', hfirst_eq'⟩ := hcalls_of hcalls'
    rw [← hfirst_eq] at hfirst_eq'
    subst hfirst_eq'
    refine ⟨singles (s.take n) ++ rs, singles (s.take n) ++ rs', first' ++ results, result,
      ?_, ?_, by simpa using hfirst, by simpa using hfirst', hne⟩
    · have := (division_singles hm (s.take n)).append hdiv
      rwa [← hsplit] at this
    · have := (division_singles hm (s.take n)).append hdiv'
      rwa [← hsplit] at this

end SingleError

end Restart

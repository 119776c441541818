/-
The first line and the header section of a message.

Both parsers look for the end of the header section, hand the first line and
then the header lines on, and differ in how they read the first line, in what
they do with a field and in the texts of their errors.  `parseBlock` is that
part of their `parse` functions.  What it reports it has read off a block of
lines (`parseBlock_block`), so

* `parseBlock_append` — a report other than "incomplete" is final;
* `parseBlock_take` — on a part of an input that has a header section the
  section is found as soon as all of it is there.
-/
import Droplet.Http.HeaderLoop

open Search Lines

namespace Http

/-- The errors of a header section that is too large or has no first line. -/
structure BlockErrors where
  tooLarge : ParseFailure
  incompleteLine : ParseFailure

variable {σ : Type}

/-- The size of the header section and what the first line and the header lines
lead to. -/
def parseBlock (limit : ℕ) (errors : BlockErrors) (messages : HeaderMessages)
    (parseFirst : Bytes → Except ParseFailure σ)
    (onField : σ → Bytes → Bytes → Except ParseFailure σ) (input : Bytes) :
    Except ParseFailure (Option (ℕ × σ)) :=
  match find headerTerminator input 0 with
  | none => if limit < input.length then .error errors.tooLarge else .ok none
  | some headerEnd =>
    let headerSize := headerEnd + 4
    if limit < headerSize then .error errors.tooLarge
    else
      match find crlf input 0 with
      | none => .error errors.incompleteLine
      | some lineEnd =>
        if headerEnd < lineEnd then .error errors.incompleteLine
        else do
          let s ← parseFirst (substr input 0 lineEnd)
          let s ← headerLoop messages onField input headerEnd (lineEnd + 2) s
          return some (headerSize, s)

section

variable {limit : ℕ} {errors : BlockErrors} {messages : HeaderMessages}
  {parseFirst : Bytes → Except ParseFailure σ}
  {onField : σ → Bytes → Bytes → Except ParseFailure σ}

/-- What a block of lines leads to. -/
def interpretBlock (limit : ℕ) (errors : BlockErrors) (messages : HeaderMessages)
    (parseFirst : Bytes → Except ParseFailure σ)
    (onField : σ → Bytes → Bytes → Except ParseFailure σ) (first : Bytes) (fields : List Bytes) :
    Except ParseFailure (Option (ℕ × σ)) :=
  let size := (unlines 13 10 (first :: fields) ++ crlf).length
  if limit < size then .error errors.tooLarge
  else do
    let s ← parseFirst first
    let s ← fields.foldlM (headerStep messages onField) s
    return some (size, s)

/-- A block of lines is read as such, whatever follows it. -/
theorem parseBlock_block {first : Bytes} {fields : List Bytes} (rest : Bytes)
    (h : IsBlock 13 10 first fields) :
    parseBlock limit errors messages parseFirst onField
        (unlines 13 10 (first :: fields) ++ crlf ++ rest) =
      interpretBlock limit errors messages parseFirst onField first fields := by
  have hinput : unlines 13 10 (first :: fields) ++ crlf ++ rest =
      unlines 13 10 (first :: fields) ++ 13 :: 10 :: rest := by
    simp
  have hfirst : find crlf (unlines 13 10 (first :: fields) ++ 13 :: 10 :: rest) 0 =
      some first.length := by
    have := find_first_line (by decide) h.1 (unlines 13 10 fields ++ 13 :: 10 :: rest)
    simpa using this
  have hloop := headerLoop_block messages onField (first ++ crlf) rest h.2
  have hlen : (unlines 13 10 (first :: fields)).length =
      first.length + 2 + (unlines 13 10 fields).length := by
    simp
    omega
  rw [interpretBlock, hinput, parseBlock, find_double_block (by decide) h]
  simp only [hfirst]
  have hsize : (unlines 13 10 (first :: fields)).length - 2 + 4 =
      (unlines 13 10 (first :: fields) ++ crlf).length := by
    rw [List.length_append, hlen]
    simp
    omega
  rw [hsize, if_neg (show ¬ (unlines 13 10 (first :: fields)).length - 2 < first.length by omega)]
  have hline : substr (unlines 13 10 (first :: fields) ++ 13 :: 10 :: rest) 0 first.length =
      first := by
    rw [unlines_cons, List.append_assoc]
    exact substr_left
  have hsplit : unlines 13 10 (first :: fields) ++ 13 :: 10 :: rest =
      (first ++ crlf) ++ (unlines 13 10 fields ++ 13 :: 10 :: rest) := by
    simp
  have hbegin : first.length + 2 = (first ++ crlf).length := by simp
  rw [hline, hlen, hbegin]
  simp only [hsplit, hloop]

/-- An input has no complete header section, or it is a block of lines and what
follows it. -/
theorem block_cases (input : Bytes) :
    find headerTerminator input 0 = none ∨
      ∃ first fields rest, IsBlock 13 10 first fields ∧
        input = unlines 13 10 (first :: fields) ++ crlf ++ rest := by
  rcases hf : find headerTerminator input 0 with _ | headerEnd
  · exact .inl rfl
  · obtain ⟨first, fields, rest, hblock, hinput, -⟩ := exists_block (by decide) hf
    exact .inr ⟨first, fields, rest, hblock, by simpa using hinput⟩

theorem parseBlock_none {input : Bytes} (h : find headerTerminator input 0 = none) :
    parseBlock limit errors messages parseFirst onField input =
      if limit < input.length then .error errors.tooLarge else .ok none := by
  rw [parseBlock, h]

/-- A block of lines that is accepted is all of the header section. -/
theorem interpretBlock_eq_ok {first : Bytes} {fields : List Bytes} {result : Option (ℕ × σ)}
    (h : interpretBlock limit errors messages parseFirst onField first fields = .ok result) :
    ∃ s, result = some ((unlines 13 10 (first :: fields) ++ crlf).length, s) := by
  rw [interpretBlock] at h
  generalize (unlines 13 10 (first :: fields) ++ crlf).length = size at h ⊢
  by_cases hlt : limit < size
  · simp [hlt] at h
  · simp only [hlt, if_false] at h
    rcases hfirst : parseFirst first with failure | s₁
    · simp [hfirst, bind, Except.bind] at h
    · rcases hfold : fields.foldlM (headerStep messages onField) s₁ with failure | s₂
      · simp [hfirst, hfold, bind, Except.bind] at h
      · simp only [hfirst, hfold, bind, Except.bind, pure, Except.pure, Except.ok.injEq] at h
        exact ⟨s₂, h.symm⟩

theorem parseBlock_eq_none_iff {input : Bytes} :
    parseBlock limit errors messages parseFirst onField input = .ok none ↔
      find headerTerminator input 0 = none ∧ input.length ≤ limit := by
  rcases block_cases input with hnone | ⟨first, fields, rest, hblock, rfl⟩
  · rw [parseBlock_none hnone]
    by_cases hlen : limit < input.length
    · simp [hlen]
    · simp [hnone, hlen, Nat.le_of_not_lt hlen]
  · rw [parseBlock_block rest hblock]
    refine ⟨fun h => ?_, fun h => ?_⟩
    · obtain ⟨s, hs⟩ := interpretBlock_eq_ok h
      exact absurd hs (by simp)
    · have hinput : unlines 13 10 (first :: fields) ++ crlf ++ rest =
          unlines 13 10 (first :: fields) ++ 13 :: 10 :: rest := by
        simp
      rw [hinput, find_double_block (by decide) hblock] at h
      exact absurd h.1 (by simp)

/-- What is reported on a buffer, an error or a header section, is reported on
every extension of it. -/
theorem parseBlock_append {input : Bytes} (t : Bytes)
    (h : parseBlock limit errors messages parseFirst onField input ≠ .ok none) :
    parseBlock limit errors messages parseFirst onField (input ++ t) =
      parseBlock limit errors messages parseFirst onField input := by
  rcases block_cases input with hnone | ⟨first, fields, rest, hblock, rfl⟩
  · -- no header section yet, so the report is that it is too large
    rw [parseBlock_none hnone] at h ⊢
    have hlarge : limit < input.length := by
      by_contra hle
      exact h (if_neg hle)
    rw [if_pos hlarge, parseBlock]
    rcases hf : find headerTerminator (input ++ t) 0 with _ | headerEnd
    · simp only
      rw [if_pos (by rw [List.length_append]; omega)]
    · have := lt_of_find_append (by simp) hnone hf
      simp only [List.length_cons, List.length_nil] at this
      simp only
      rw [if_pos (by omega)]
  · rw [List.append_assoc, parseBlock_block _ hblock, parseBlock_block _ hblock]

/-- The size of a header section: at least its terminator, at most the limit and
the input. -/
theorem parseBlock_size {input : Bytes} {size : ℕ} {s : σ}
    (h : parseBlock limit errors messages parseFirst onField input = .ok (some (size, s))) :
    4 ≤ size ∧ size ≤ limit ∧ size ≤ input.length := by
  rcases block_cases input with hnone | ⟨first, fields, rest, hblock, rfl⟩
  · rw [parseBlock_none hnone] at h
    split_ifs at h
    simp at h
  · rw [parseBlock_block rest hblock] at h
    obtain ⟨s', hs'⟩ := interpretBlock_eq_ok h
    rw [Option.some.injEq, Prod.mk.injEq] at hs'
    rw [hs'.1]
    refine ⟨by simp; omega, ?_, by simp⟩
    rw [interpretBlock] at h
    by_contra hlt
    rw [if_pos (by omega)] at h
    exact absurd h (by simp)

/-- On a part of an input with a header section, the section is found as soon as
all of it is there. -/
theorem parseBlock_take {input : Bytes} {size : ℕ} {s : σ}
    (h : parseBlock limit errors messages parseFirst onField input = .ok (some (size, s)))
    (k : ℕ) :
    parseBlock limit errors messages parseFirst onField (input.take k) =
      if size ≤ k then .ok (some (size, s)) else .ok none := by
  obtain ⟨-, hlimit, hlen⟩ := parseBlock_size h
  have hsplit : input.take k ++ input.drop k = input := List.take_append_drop k input
  by_cases hk : size ≤ k
  · rw [if_pos hk]
    rcases block_cases input with hnone | ⟨first, fields, rest, hblock, rfl⟩
    · rw [parseBlock_none hnone] at h
      split_ifs at h
      simp at h
    · -- the block lies within the part
      rw [parseBlock_block rest hblock] at h
      obtain ⟨s', hs'⟩ := interpretBlock_eq_ok h
      have hsize : size = (unlines 13 10 (first :: fields) ++ crlf).length := by
        rw [Option.some.injEq, Prod.mk.injEq] at hs'
        exact hs'.1
      have htake : (unlines 13 10 (first :: fields) ++ crlf ++ rest).take k =
          unlines 13 10 (first :: fields) ++ crlf ++
            rest.take (k - (unlines 13 10 (first :: fields) ++ crlf).length) := by
        rw [List.take_append, List.take_of_length_le (by omega)]
      rw [htake, parseBlock_block _ hblock, h]
  · rw [if_neg hk]
    by_contra hne
    have happend := parseBlock_append (input.drop k) hne
    rw [hsplit, h] at happend
    have := (parseBlock_size happend.symm).2.2
    rw [List.length_take] at this
    omega

/-- What the first line establishes and the fields preserve holds of the result. -/
theorem parseBlock_invariant {P : σ → Prop} (hfirst : ∀ line s, parseFirst line = .ok s → P s)
    (hfield : ∀ s name value s', P s → ParsedField (name, value) → onField s name value = .ok s' →
      P s') {input : Bytes} {size : ℕ} {s : σ}
    (h : parseBlock limit errors messages parseFirst onField input = .ok (some (size, s))) :
    P s := by
  rcases block_cases input with hnone | ⟨first, fields, rest, hblock, rfl⟩
  · rw [parseBlock_none hnone] at h
    split_ifs at h
    simp at h
  · rw [parseBlock_block rest hblock, interpretBlock] at h
    split at h
    · exact absurd h (by simp)
    · rcases hline : parseFirst first with failure | s₁
      · simp [hline, bind, Except.bind] at h
      · rcases hfold : fields.foldlM (headerStep messages onField) s₁ with failure | s₂
        · simp [hline, hfold, bind, Except.bind] at h
        · simp only [hline, hfold, bind, Except.bind, pure, Except.pure, Except.ok.injEq,
            Option.some_inj, Prod.mk.injEq] at h
          rw [← h.2]
          refine foldlM_invariant (fun s line s' hs hstep => ?_) (hfirst first s₁ hline) hfold
          rw [headerStep] at hstep
          rcases hparse : parseHeaderLine messages line with failure | field
          · simp [hparse, bind, Except.bind] at hstep
          · rw [hparse] at hstep
            exact hfield s field.1 field.2 s' hs (parseHeaderLine_spec hparse) hstep

/-- A header section that a serializer wrote is read back field by field. -/
theorem parseBlock_serialized {first : Bytes} {fields : List (Bytes × Bytes)} (rest : Bytes)
    (hfirst : IsLine 13 10 first) (hfields : ∀ field ∈ fields, ValidField field)
    (hsize : (first ++ crlf ++ fields.flatMap fieldLine ++ crlf).length ≤ limit) :
    parseBlock limit errors messages parseFirst onField
        (first ++ crlf ++ fields.flatMap fieldLine ++ crlf ++ rest) =
      parseFirst first >>= fun s =>
        (fields.foldlM (fun s field => onField s field.1 (trimOptionalWhitespace field.2)) s).map
          fun s => some ((first ++ crlf ++ fields.flatMap fieldLine ++ crlf).length, s) := by
  have hblock : IsBlock 13 10 first (fields.map fieldText) := by
    refine ⟨hfirst, ?_⟩
    intro l hl
    obtain ⟨field, hfield, rfl⟩ := List.mem_map.mp hl
    exact ⟨(hfields field hfield).isLine, (hfields field hfield).ne_nil⟩
  have htext : first ++ crlf ++ fields.flatMap fieldLine ++ crlf =
      unlines 13 10 (first :: fields.map fieldText) ++ crlf := by
    rw [flatMap_fieldLine]
    simp
  rw [htext] at hsize ⊢
  rw [parseBlock_block rest hblock, interpretBlock, if_neg (by omega)]
  refine congrArg _ (funext fun s => ?_)
  rw [foldlM_headerStep hfields]
  rcases fields.foldlM (fun s field => onField s field.1 (trimOptionalWhitespace field.2)) s
    with failure | s' <;> rfl

theorem interpretBlock_eq_some_iff {first : Bytes} {fields : List Bytes} {size : ℕ} {s : σ} :
    interpretBlock limit errors messages parseFirst onField first fields = .ok (some (size, s)) ↔
      size = (unlines 13 10 (first :: fields) ++ crlf).length ∧ size ≤ limit ∧
        ∃ s₀, parseFirst first = .ok s₀ ∧
          fields.foldlM (headerStep messages onField) s₀ = .ok s := by
  rw [interpretBlock]
  generalize (unlines 13 10 (first :: fields) ++ crlf).length = total
  split_ifs with hlarge
  · constructor
    · intro h
      exact absurd h (by simp)
    · rintro ⟨rfl, hle, -⟩
      omega
  · rcases parseFirst first with failure | s₀
    · simp [bind, Except.bind]
    · simp only [bind, Except.bind, Except.ok.injEq, exists_eq_left']
      rcases fields.foldlM (headerStep messages onField) s₀ with failure | s₁
      · simp
      · simp only [pure, Except.pure, Except.ok.injEq, Option.some_inj, Prod.mk.injEq]
        constructor
        · rintro ⟨rfl, rfl⟩
          exact ⟨rfl, by omega, rfl⟩
        · rintro ⟨rfl, -, rfl⟩
          exact ⟨rfl, rfl⟩

/-- The header sections that are accepted. -/
theorem parseBlock_eq_some_iff {input : Bytes} {size : ℕ} {s : σ} :
    parseBlock limit errors messages parseFirst onField input = .ok (some (size, s)) ↔
      ∃ first fields rest, IsBlock 13 10 first fields ∧
        input = unlines 13 10 (first :: fields) ++ crlf ++ rest ∧
        size = (unlines 13 10 (first :: fields) ++ crlf).length ∧ size ≤ limit ∧
        ∃ s₀, parseFirst first = .ok s₀ ∧ fields.foldlM (headerStep messages onField) s₀ = .ok s := by
  constructor
  · intro h
    rcases block_cases input with hnone | ⟨first, fields, rest, hblock, rfl⟩
    · rw [parseBlock_none hnone] at h
      split_ifs at h
      exact absurd h (by simp)
    · rw [parseBlock_block rest hblock] at h
      exact ⟨first, fields, rest, hblock, rfl, interpretBlock_eq_some_iff.mp h⟩
  · rintro ⟨first, fields, rest, hblock, rfl, h⟩
    rw [parseBlock_block rest hblock]
    exact interpretBlock_eq_some_iff.mpr h

theorem parseBlock_coded (hlarge : errors.tooLarge.error ≠ .none)
    (hfirst : ∀ line, Coded (parseFirst line))
    (hfield : ∀ s name value, Coded (onField s name value)) (input : Bytes) :
    Coded (parseBlock limit errors messages parseFirst onField input) := by
  rcases block_cases input with hnone | ⟨first, fields, rest, hblock, rfl⟩
  · rw [parseBlock_none hnone]
    split
    · exact Coded.error hlarge
    · exact Coded.ok _
  · rw [parseBlock_block rest hblock, interpretBlock]
    split
    · exact Coded.error hlarge
    · exact (hfirst first).bind fun s =>
        (Coded.foldlM (headerStep_coded hfield) fields s).bind fun _ => Coded.ok _

end

/-! ### The buffer of a parser -/

/-- `std::memmove(data, data + consumed, length - consumed)` on the whole buffer. -/
def moveToFront (data : Bytes) (consumed : ℕ) : Bytes :=
  data.drop consumed ++ data.drop (data.length - consumed)

/-- The buffer after `execute(char*, size_t)`: the unconsumed bytes move to the
front. -/
def afterExecute (data : Bytes) (consumed : ℕ) : Bytes :=
  if consumed ≠ 0 ∧ consumed < data.length then moveToFront data consumed else data

/-- Resizing the buffer drops exactly the consumed bytes. -/
theorem take_afterExecute {data : Bytes} {consumed : ℕ} :
    (afterExecute data consumed).take (data.length - consumed) = data.drop consumed := by
  rw [afterExecute]
  by_cases h : consumed ≠ 0 ∧ consumed < data.length
  · rw [if_pos h, moveToFront, List.take_append_of_le_length (by simp)]
    exact List.take_of_length_le (by simp)
  · rw [if_neg h]
    by_cases h0 : consumed = 0
    · simp [h0]
    · have hle : data.length ≤ consumed := by
        by_contra hlt
        exact h ⟨h0, by omega⟩
      rw [List.drop_eq_nil_of_le hle, Nat.sub_eq_zero_of_le hle, List.take_zero]

end Http

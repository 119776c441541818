/-
Header sections.

Both parsers read the lines between the first line of a message and the empty
line with the same loop; they differ in the texts of their errors and in what
they do with a field.  `headerLoop` is that loop, with the offsets of the
source, and `headerLoop_block` says what it computes: on a block of lines it
is one pass over the lines (`List.foldlM`).
-/
import Droplet.Http.Message

open Search Lines

namespace Http

inductive HttpParseError
  | none | invalidMethod | invalidRequestTarget | invalidVersion | invalidStatus | invalidHeader
  | invalidContentLength | invalidChunkSize | unsupportedTransferEncoding | headerTooLarge
  | bodyTooLarge
  deriving DecidableEq, Repr

/-- What `setError` records. -/
structure ParseFailure where
  error : HttpParseError
  message : Bytes
  deriving DecidableEq

/-- `\r\n\r\n`. -/
abbrev headerTerminator : Bytes := [13, 10, 13, 10]

/-- The texts of the errors of a field. -/
structure FieldMessages where
  missingColon : Bytes
  invalid : Bytes

/-- The texts of the errors of a header section. -/
structure HeaderMessages extends FieldMessages where
  unterminated : Bytes
  folded : Bytes

variable {σ : Type}

/-- Name and value of a header or trailer line. -/
def parseField (messages : FieldMessages) (line : Bytes) : Except ParseFailure (Bytes × Bytes) :=
  match find [58] line 0 with
  | none => .error ⟨.invalidHeader, messages.missingColon⟩
  | some colon =>
    let name := substr line 0 colon
    let value := trimOptionalWhitespace (line.drop (colon + 1))
    if !isValidHeaderName name || !isValidHeaderValue value then
      .error ⟨.invalidHeader, messages.invalid⟩
    else .ok (name, value)

/-- Name and value of a header line, which must not be empty or folded. -/
def parseHeaderLine (messages : HeaderMessages) (line : Bytes) :
    Except ParseFailure (Bytes × Bytes) :=
  if line.isEmpty || line.head? == some 32 || line.head? == some 9 then
    .error ⟨.invalidHeader, messages.folded⟩
  else parseField messages.toFieldMessages line

/-- One line of a header section: parse it and hand the field on. -/
def headerStep (messages : HeaderMessages) (onField : σ → Bytes → Bytes → Except ParseFailure σ)
    (state : σ) (line : Bytes) : Except ParseFailure σ := do
  let field ← parseHeaderLine messages line
  onField state field.1 field.2

/-- The loop over the header lines from `lineBegin` to `headerEnd`. -/
def headerLoop (messages : HeaderMessages) (onField : σ → Bytes → Bytes → Except ParseFailure σ)
    (input : Bytes) (headerEnd lineBegin : ℕ) (state : σ) : Except ParseFailure σ :=
  if lineBegin < headerEnd then
    match h : find crlf input lineBegin with
    | none => .error ⟨.invalidHeader, messages.unterminated⟩
    | some lineEnd =>
      if headerEnd < lineEnd then .error ⟨.invalidHeader, messages.unterminated⟩
      else do
        let state ← headerStep messages onField state
          (substr input lineBegin (lineEnd - lineBegin))
        headerLoop messages onField input headerEnd (lineEnd + 2) state
  else .ok state
termination_by headerEnd - lineBegin
decreasing_by
  have := le_of_find (by simp) h
  omega

/-- On the lines of a block the loop is one pass over the lines. -/
theorem headerLoop_block (messages : HeaderMessages)
    (onField : σ → Bytes → Bytes → Except ParseFailure σ) (pre t : Bytes) {ls : List Bytes}
    (hls : ∀ l ∈ ls, IsLine 13 10 l ∧ l ≠ []) (state : σ) :
    headerLoop messages onField (pre ++ (unlines 13 10 ls ++ 13 :: 10 :: t))
        (pre.length + (unlines 13 10 ls).length - 2) pre.length state =
      ls.foldlM (headerStep messages onField) state := by
  induction ls generalizing pre state with
  | nil =>
    rw [headerLoop, if_neg]
    · rfl
    · simp only [unlines_nil, List.length_nil]
      omega
  | cons l ls ih =>
    obtain ⟨hl, hne⟩ := hls l (List.mem_cons_self ..)
    have hpos := List.length_pos_of_ne_nil hne
    have hinput : pre ++ (unlines 13 10 (l :: ls) ++ 13 :: 10 :: t) =
        pre ++ (l ++ 13 :: 10 :: (unlines 13 10 ls ++ 13 :: 10 :: t)) := by
      simp
    have hfind := find_line (by decide) hl pre (unlines 13 10 ls ++ 13 :: 10 :: t)
    have hlen : (unlines 13 10 (l :: ls)).length = l.length + 2 + (unlines 13 10 ls).length := by
      simp
      omega
    rw [hlen, hinput, headerLoop, if_pos (by omega)]
    split
    · next hnone =>
      rw [hfind] at hnone
      exact absurd hnone (by simp)
    · next lineEnd hsome =>
      rw [hfind, Option.some_inj] at hsome
      subst hsome
      rw [if_neg (by omega), Nat.add_sub_cancel_left, substr_mid, List.foldlM_cons]
      -- the rest of the loop starts after the terminator of this line
      have hnext : pre ++ (l ++ 13 :: 10 :: (unlines 13 10 ls ++ 13 :: 10 :: t)) =
          (pre ++ l ++ [13, 10]) ++ (unlines 13 10 ls ++ 13 :: 10 :: t) := by
        simp
      have hpre : pre.length + l.length + 2 = (pre ++ l ++ [13, 10]).length := by
        simp
        omega
      have hend : pre.length + (l.length + 2 + (unlines 13 10 ls).length) - 2 =
          (pre ++ l ++ [13, 10]).length + (unlines 13 10 ls).length - 2 := by
        rw [← hpre]
        omega
      rw [hnext, hpre, hend]
      refine congrArg _ (funext fun state' => ?_)
      exact ih _ (fun x hx => hls x (List.mem_cons_of_mem _ hx)) state'

/-! ### Error codes -/

/-- Every failure of the computation carries an error code. -/
def Coded {α : Type} (x : Except ParseFailure α) : Prop :=
  ∀ failure, x = .error failure → failure.error ≠ .none

theorem Coded.ok {α : Type} (a : α) : Coded (.ok a : Except ParseFailure α) := by
  intro failure h
  exact absurd h (by simp)

theorem Coded.error {α : Type} {failure : ParseFailure} (h : failure.error ≠ .none) :
    Coded (.error failure : Except ParseFailure α) := by
  intro failure' h'
  rw [Except.error.injEq] at h'
  exact h' ▸ h

theorem Coded.bind {α β : Type} {x : Except ParseFailure α} {f : α → Except ParseFailure β}
    (hx : Coded x) (hf : ∀ a, Coded (f a)) : Coded (x >>= f) := by
  rcases x with failure | a
  · exact Coded.error (hx failure rfl)
  · exact hf a

theorem Coded.map {α β : Type} {x : Except ParseFailure α} (hx : Coded x) (f : α → β) :
    Coded (x.map f) := by
  rcases x with failure | a
  · exact Coded.error (hx failure rfl)
  · exact Coded.ok (f a)

theorem Coded.foldlM {f : σ → Bytes → Except ParseFailure σ} (hf : ∀ s l, Coded (f s l))
    (ls : List Bytes) (s : σ) : Coded (ls.foldlM f s) := by
  induction ls generalizing s with
  | nil => exact Coded.ok s
  | cons l ls ih =>
    rw [List.foldlM_cons]
    exact (hf s l).bind ih

theorem parseField_coded (messages : FieldMessages) (line : Bytes) :
    Coded (parseField messages line) := by
  rw [parseField]
  split
  · exact Coded.error (by simp)
  · simp only
    split
    · exact Coded.error (by simp)
    · exact Coded.ok _

theorem headerStep_coded {messages : HeaderMessages}
    {onField : σ → Bytes → Bytes → Except ParseFailure σ}
    (h : ∀ s name value, Coded (onField s name value)) (state : σ) (line : Bytes) :
    Coded (headerStep messages onField state line) := by
  refine Coded.bind ?_ fun field => h state field.1 field.2
  rw [parseHeaderLine]
  split
  · exact Coded.error (by simp)
  · exact parseField_coded messages.toFieldMessages line

/-! ### Passes over fields -/

/-- A pass over a list that contains an element which always fails, fails. -/
theorem foldlM_error_of_mem {α : Type} {f : σ → α → Except ParseFailure σ} {x : α} {xs : List α}
    (hx : x ∈ xs) (hfail : ∀ s, ∃ failure, f s x = .error failure) (s : σ) :
    ∃ failure, xs.foldlM f s = .error failure := by
  induction xs generalizing s with
  | nil => exact absurd hx List.not_mem_nil
  | cons y ys ih =>
    rw [List.foldlM_cons]
    rcases hstep : f s y with failure | s'
    · exact ⟨failure, rfl⟩
    · rcases List.mem_cons.mp hx with rfl | hmem
      · obtain ⟨failure, hfailure⟩ := hfail s
        exact absurd (hstep.symm.trans hfailure) (by simp)
      · exact ih hmem s'

/-- What every element of a list preserves, a pass over it preserves. -/
theorem foldlM_invariant {α : Type} {f : σ → α → Except ParseFailure σ} {P : σ → Prop}
    (hstep : ∀ s x s', P s → f s x = .ok s' → P s') {xs : List α} {s s' : σ} (hs : P s)
    (h : xs.foldlM f s = .ok s') : P s' := by
  induction xs generalizing s with
  | nil =>
    rw [List.foldlM_nil] at h
    exact Except.ok.inj h ▸ hs
  | cons x xs ih =>
    rw [List.foldlM_cons] at h
    rcases hx : f s x with failure | s₁
    · rw [hx] at h
      exact absurd h (by simp [bind, Except.bind])
    · rw [hx] at h
      exact ih (hstep s x s₁ hs hx) h

/-! ### Lines that are read as fields -/

/-- A field without the end of its line: a name, and what stands behind the colon. -/
def fieldSource (field : Bytes × Bytes) : Bytes := field.1 ++ 58 :: field.2

theorem flatMap_fieldSource (fields : List (Bytes × Bytes)) :
    (fields.flatMap fun field => fieldSource field ++ crlf) =
      unlines 13 10 (fields.map fieldSource) := by
  rw [List.flatMap_def, unlines, List.map_map]
  rfl

theorem parseField_iff {messages : FieldMessages} {line name value : Bytes} :
    parseField messages line = .ok (name, value) ↔
      ∃ source, line = fieldSource (name, source) ∧ isValidHeaderName name = true ∧
        value = trimOptionalWhitespace source ∧ isValidHeaderValue value = true := by
  have hread : ∀ {as bs : Bytes}, 58 ∉ as → parseField messages (as ++ 58 :: bs) =
      if !isValidHeaderName as || !isValidHeaderValue (trimOptionalWhitespace bs) then
        .error ⟨.invalidHeader, messages.invalid⟩
      else .ok (as, trimOptionalWhitespace bs) := by
    intro as bs has
    have hdrop : (as ++ 58 :: bs).drop (as.length + 1) = bs := by
      rw [← List.drop_drop, List.drop_left]
      rfl
    rw [parseField, find_single_iff.mpr ⟨as, bs, rfl, has, rfl⟩]
    simp only
    rw [substr_left, hdrop]
  constructor
  · intro h
    rcases hfind : find [58] line 0 with _ | colon
    · rw [parseField, hfind] at h
      exact absurd h (by simp)
    · obtain ⟨as, bs, rfl, has, -⟩ := find_single_iff.mp hfind
      rw [hread has] at h
      split_ifs at h with hvalid
      rw [Bool.or_eq_true, not_or, Bool.not_eq_true', Bool.not_eq_true', Bool.not_eq_false,
        Bool.not_eq_false] at hvalid
      obtain ⟨rfl, rfl⟩ := Prod.mk.inj (Except.ok.inj h)
      exact ⟨bs, rfl, hvalid.1, rfl, hvalid.2⟩
  · rintro ⟨source, rfl, hname, rfl, hvalue⟩
    rw [fieldSource, hread (colon_notMem_name hname), hname, hvalue]
    rfl

theorem parseHeaderLine_iff {messages : HeaderMessages} {line name value : Bytes} :
    parseHeaderLine messages line = .ok (name, value) ↔
      ∃ source, line = fieldSource (name, source) ∧ isValidHeaderName name = true ∧
        value = trimOptionalWhitespace source ∧ isValidHeaderValue value = true := by
  have hfield := @parseField_iff messages.toFieldMessages line name value
  rw [← hfield, parseHeaderLine]
  split_ifs with hfront
  · constructor
    · intro h
      exact absurd h (by simp)
    · intro h
      -- a name does not begin with a space or a tab
      obtain ⟨source, rfl, hname, -, -⟩ := hfield.mp h
      obtain ⟨b, bs, rfl⟩ := List.exists_cons_of_ne_nil (isValidHeaderName_ne_nil hname)
      have hb := isTokenCharacter_eq_true (isTokenCharacter_of_mem hname (List.mem_cons_self ..))
      have h32 : b ≠ 32 := fun h => absurd (h ▸ hb.1) (by decide)
      have h9 : b ≠ 9 := fun h => absurd (h ▸ hb.1) (by decide)
      exact absurd hfront (by simp [fieldSource, h32, h9])
  · exact Iff.rfl

/-- A line of a field is read as the field, its value trimmed. -/
theorem parseHeaderLine_fieldSource {messages : HeaderMessages} {field : Bytes × Bytes}
    (hname : isValidHeaderName field.1 = true)
    (hvalue : isValidHeaderValue (trimOptionalWhitespace field.2) = true) :
    parseHeaderLine messages (fieldSource field) = .ok (field.1, trimOptionalWhitespace field.2) :=
  parseHeaderLine_iff.mpr ⟨field.2, rfl, hname, rfl, hvalue⟩

/-- Lines of fields are one pass over the fields. -/
theorem foldlM_fieldSource {messages : HeaderMessages}
    {onField : σ → Bytes → Bytes → Except ParseFailure σ} {fields : List (Bytes × Bytes)}
    (h : ∀ field ∈ fields, isValidHeaderName field.1 = true ∧
      isValidHeaderValue (trimOptionalWhitespace field.2) = true) (state : σ) :
    (fields.map fieldSource).foldlM (headerStep messages onField) state =
      fields.foldlM (fun s field => onField s field.1 (trimOptionalWhitespace field.2)) state := by
  induction fields generalizing state with
  | nil => rfl
  | cons field fields ih =>
    obtain ⟨⟨hname, hvalue⟩, hrest⟩ := List.forall_mem_cons.mp h
    rw [List.map_cons, List.foldlM_cons, List.foldlM_cons, headerStep,
      parseHeaderLine_fieldSource hname hvalue]
    refine congrArg _ (funext fun state' => ?_)
    exact ih hrest state'

/-- A pass over lines is one over the fields that they are read as. -/
theorem foldlM_headerStep_iff {messages : HeaderMessages}
    {onField : σ → Bytes → Bytes → Except ParseFailure σ} {lines : List Bytes} {s s' : σ} :
    lines.foldlM (headerStep messages onField) s = .ok s' ↔
      ∃ fields : List (Bytes × Bytes), lines = fields.map fieldSource ∧
        (∀ field ∈ fields, isValidHeaderName field.1 = true ∧
          isValidHeaderValue (trimOptionalWhitespace field.2) = true) ∧
        fields.foldlM (fun s field => onField s field.1 (trimOptionalWhitespace field.2)) s =
          .ok s' := by
  induction lines generalizing s with
  | nil =>
    constructor
    · intro h
      exact ⟨[], rfl, by simp, h⟩
    · rintro ⟨fields, hlines, -, h⟩
      obtain rfl := List.map_eq_nil_iff.mp hlines.symm
      exact h
  | cons line lines ih =>
    rw [List.foldlM_cons, headerStep]
    constructor
    · intro h
      rcases hline : parseHeaderLine messages line with failure | ⟨name, value⟩
      · rw [hline] at h
        exact absurd h (by simp [bind, Except.bind])
      · rw [hline] at h
        rcases hstep : onField s name value with failure | s₁
        · exact absurd h (by simp [bind, Except.bind, hstep])
        · simp only [bind, Except.bind, hstep] at h
          obtain ⟨source, rfl, hname, rfl, hvalue⟩ := parseHeaderLine_iff.mp hline
          obtain ⟨fields, rfl, hvalid, hrest⟩ := ih.mp h
          refine ⟨(name, source) :: fields, rfl, List.forall_mem_cons.mpr ⟨⟨hname, hvalue⟩, hvalid⟩, ?_⟩
          rw [List.foldlM_cons, hstep]
          exact hrest
    · rintro ⟨fields, hlines, hvalid, h⟩
      cases fields with
      | nil => exact absurd hlines (by simp)
      | cons field fields =>
        rw [List.map_cons, List.cons.injEq] at hlines
        obtain ⟨rfl, rfl⟩ := hlines
        obtain ⟨⟨hname, hvalue⟩, hvalid⟩ := List.forall_mem_cons.mp hvalid
        rw [parseHeaderLine_fieldSource hname hvalue]
        rw [List.foldlM_cons] at h
        rcases hstep : onField s field.1 (trimOptionalWhitespace field.2) with failure | s₁
        · rw [hstep] at h
          exact absurd h (by simp [bind, Except.bind])
        · rw [hstep] at h
          simp only [bind, Except.bind, hstep]
          exact ih.mpr ⟨fields, rfl, hvalid, h⟩

/-- A field is a line. -/
theorem isLine_fieldSource {name source : Bytes} (hname : isValidHeaderName name = true)
    (hvalue : isValidHeaderValue (trimOptionalWhitespace source) = true) :
    IsLine 13 10 (fieldSource (name, source)) ∧ fieldSource (name, source) ≠ [] := by
  refine ⟨IsLine.of_notMem ?_, by simp [fieldSource]⟩
  have hsource : (13 : UInt8) ∉ source := by
    intro hmem
    exact cr_notMem_value hvalue (mem_trim_of_mem hmem (by decide))
  simp [fieldSource, cr_notMem_name hname, hsource]

/-- The values of the fields of a name. -/
def valuesOf (name : Bytes) (fields : List (Bytes × Bytes)) : List Bytes :=
  (fields.filter fun field => caseInsensitiveEqual field.1 name).map
    fun field => trimOptionalWhitespace field.2

section Values

variable {field : Bytes × Bytes} {fields : List (Bytes × Bytes)}

theorem valuesOf_cons (name : Bytes) : valuesOf name (field :: fields) =
    if caseInsensitiveEqual field.1 name = true then
      trimOptionalWhitespace field.2 :: valuesOf name fields
    else valuesOf name fields := by
  rw [valuesOf, List.filter_cons]
  split_ifs
  · rfl
  · rfl

theorem trim_of_mem_valuesOf {name value : Bytes} (h : value ∈ valuesOf name fields) :
    trimOptionalWhitespace value = value := by
  obtain ⟨field, -, rfl⟩ := List.mem_map.mp h
  exact trim_trim field.2

end Values

/-! ### Lines written by the serializers -/

/-- The line of a field, without its terminator. -/
def fieldText (field : Bytes × Bytes) : Bytes := field.1 ++ ascii ": " ++ field.2

theorem fieldLine_eq (field : Bytes × Bytes) : fieldLine field = fieldText field ++ crlf := rfl

theorem flatMap_fieldLine (fields : List (Bytes × Bytes)) :
    fields.flatMap fieldLine = unlines 13 10 (fields.map fieldText) := by
  induction fields with
  | nil => rfl
  | cons field fields ih => simp [fieldLine_eq, ih]

/-- A field whose name and value the parsers accept. -/
def ValidField (field : Bytes × Bytes) : Prop :=
  isValidHeaderName field.1 = true ∧ isValidHeaderValue field.2 = true

instance (field : Bytes × Bytes) : Decidable (ValidField field) :=
  inferInstanceAs (Decidable (_ ∧ _))

theorem ValidField.isLine {field : Bytes × Bytes} (h : ValidField field) :
    IsLine 13 10 (fieldText field) := by
  refine IsLine.of_notMem ?_
  have hsep : (13 : UInt8) ∉ ascii ": " := by decide
  simp [fieldText, cr_notMem_name h.1, cr_notMem_value h.2, hsep]

theorem ValidField.ne_nil {field : Bytes × Bytes} (h : ValidField field) :
    fieldText field ≠ [] := by
  simp [fieldText, isValidHeaderName_ne_nil h.1]

/-- A field as the parsers report it: valid, and its value trimmed. -/
def ParsedField (field : Bytes × Bytes) : Prop :=
  ValidField field ∧ trimOptionalWhitespace field.2 = field.2

theorem parseHeaderLine_spec {messages : HeaderMessages} {line : Bytes} {field : Bytes × Bytes}
    (h : parseHeaderLine messages line = .ok field) : ParsedField field := by
  rw [parseHeaderLine] at h
  split at h
  · exact absurd h (by simp)
  · rw [parseField] at h
    split at h
    · exact absurd h (by simp)
    · simp only at h
      split at h
      · exact absurd h (by simp)
      · next hvalid =>
        rw [Bool.or_eq_true, not_or, Bool.not_eq_true', Bool.not_eq_true', Bool.not_eq_false,
          Bool.not_eq_false] at hvalid
        rw [← Except.ok.inj h]
        exact ⟨hvalid, trim_trim _⟩

/-- A serializer puts a space behind the colon. -/
theorem fieldText_eq (field : Bytes × Bytes) :
    fieldText field = fieldSource (field.1, 32 :: field.2) := by
  rw [fieldText, fieldSource, List.append_assoc]
  rfl

/-- The lines that a serializer wrote are one pass over its fields. -/
theorem foldlM_headerStep {messages : HeaderMessages}
    {onField : σ → Bytes → Bytes → Except ParseFailure σ} {fields : List (Bytes × Bytes)}
    (h : ∀ field ∈ fields, ValidField field) (state : σ) :
    (fields.map fieldText).foldlM (headerStep messages onField) state =
      fields.foldlM (fun s field => onField s field.1 (trimOptionalWhitespace field.2)) state := by
  have hlines : fields.map fieldText =
      (fields.map fun field => (field.1, 32 :: field.2)).map fieldSource := by
    rw [List.map_map]
    exact List.map_congr_left fun field _ => fieldText_eq field
  have hvalid : ∀ source ∈ fields.map (fun field => (field.1, 32 :: field.2)),
      isValidHeaderName source.1 = true ∧
        isValidHeaderValue (trimOptionalWhitespace source.2) = true := by
    intro source hsource
    obtain ⟨field, hfield, rfl⟩ := List.mem_map.mp hsource
    refine ⟨(h field hfield).1, ?_⟩
    rw [trim_space_cons]
    exact isValidHeaderValue_trim (h field hfield).2
  rw [hlines, foldlM_fieldSource hvalid, List.foldlM_map]
  simp only [trim_space_cons]

end Http

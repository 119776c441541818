/-
The grammar of requests.

A request is a first line, header fields and a body, and the parser accepts the texts of this
grammar and no others.

* `RequestText` — the parts of a request and what follows it, `RequestText.WellFormed` what
  the parser asks of them;
* `parseRequestLine_parts`, `exists_parts` — the three parts of the first line;
* `foldlM_onField_iff` — what the header fields come to;
* `finished_iff_grammar` — the parser finishes on the texts of the grammar, takes up all but
  what follows the request, and reports its parts.
-/
import Droplet.Http.Ranged

open Search Lines

namespace Http

/-! ### The grammar -/

/-- The parts of a request, and the bytes that follow it.  A field is a name and what stands
between the colon and the end of the line. -/
structure RequestText where
  method : Bytes
  target : Bytes
  version : Bytes
  fields : List (Bytes × Bytes)
  body : Bytes
  rest : Bytes

/-- The number that a text of decimal digits stands for. -/
def decimalValue (text : Bytes) : Option ℕ :=
  if text ≠ [] ∧ text.all fun b => 48 ≤ b && b ≤ 57 then
    some (text.foldl (fun value b => value * 10 + (b.toNat - 48)) 0)
  else none

/-- What follows the first occurrence of a byte. -/
def behind (mark : UInt8) (text : Bytes) : Bytes := (text.dropWhile (· != mark)).drop 1

/-- What comes before the first occurrence of a byte. -/
def before (mark : UInt8) (text : Bytes) : Bytes := text.takeWhile (· != mark)

namespace RequestText

/-- The part of the target before the first `#` or `?`. -/
def path (g : RequestText) : Bytes := g.target.takeWhile fun b => b != 35 && b != 63

def query (g : RequestText) : Bytes := behind 63 (before 35 g.target)

def fragment (g : RequestText) : Bytes := behind 35 g.target

def firstLine (g : RequestText) : Bytes := g.method ++ 32 :: (g.target ++ 32 :: g.version)

/-- Everything before the body. -/
def head (g : RequestText) : Bytes :=
  g.firstLine ++ crlf ++ (g.fields.flatMap fun field => fieldSource field ++ crlf) ++ crlf

def text (g : RequestText) : Bytes := g.head ++ g.body ++ g.rest

/-- What is asked of the parts. -/
structure WellFormed (g : RequestText) : Prop where
  method : g.method ∈ kMethodNames
  target : g.target ≠ [] ∧ ∀ b ∈ g.target, 0x20 < b ∧ b ≠ 0x7F
  path : g.path ≠ []
  version : g.version = ascii "HTTP/1.0" ∨ g.version = ascii "HTTP/1.1"
  fields : ∀ field ∈ g.fields, isValidHeaderName field.1 = true ∧
    isValidHeaderValue (trimOptionalWhitespace field.2) = true
  length : (valuesOf (ascii "content-length") g.fields = [] ∧ g.body = []) ∨
    ∃ value n, valuesOf (ascii "content-length") g.fields = [value] ∧
      decimalValue value = some n ∧ n ≤ 64 * 1024 * 1024 ∧ g.body.length = n
  coding : ∀ value ∈ valuesOf (ascii "transfer-encoding") g.fields, value = []
  size : g.head.length ≤ 65536

/-- What a parser that has finished reports. -/
structure Reports (g : RequestText) (result : HttpRequestParser × ℕ) : Prop where
  finished : result.1.finished = true
  error : result.1.hasError = false
  consumed : result.2 + g.rest.length = g.text.length
  method : httpMethodToString result.1.data.method = g.method
  version : result.1.data.version = if g.version = ascii "HTTP/1.0" then 0x10 else 0x11
  path : result.1.data.path = g.path
  query : result.1.data.query = g.query
  fragment : result.1.data.fragment = g.fragment
  body : result.1.data.body = g.body
  headers : ∀ name, result.1.data.headers.find? name = (valuesOf name g.fields).getLast?

end RequestText

namespace HttpRequestParser

/-! ### The first line -/

variable {method target version line : Bytes} {request : HttpRequest}

/-- What the parser makes of the three parts of the first line. -/
def readParts (method target version : Bytes) : Except ParseFailure HttpRequest :=
  if stringToHttpMethod method = .invalidMethod then
    .error ⟨.invalidMethod, ascii "unsupported HTTP method: " ++ method⟩
  else if target.any fun character => character ≤ 0x20 || character == 0x7F then
    .error ⟨.invalidRequestTarget, ascii "HTTP request target contains an invalid character"⟩
  else
    match encodedVersion version with
    | none => .error ⟨.invalidVersion,
        ascii "only HTTP/1.0 and HTTP/1.1 requests are supported"⟩
    | some encoded =>
      let request := setTarget
        ((HttpRequest.new encoded (encoded ≤ 0x10)).setMethod (stringToHttpMethod method)) target
      if request.path.isEmpty then
        .error ⟨.invalidRequestTarget, ascii "HTTP request target has an empty path"⟩
      else .ok request

/-- The first line is cut at its two spaces. -/
theorem parseRequestLine_parts (hmethod : 32 ∉ method) (hmethodNe : method ≠ [])
    (htarget : 32 ∉ target) (htargetNe : target ≠ []) (hversion : 32 ∉ version) :
    parseRequestLine (method ++ 32 :: (target ++ 32 :: version)) =
      readParts method target version := by
  have hfirst : find [32] (method ++ 32 :: (target ++ 32 :: version)) 0 = some method.length :=
    find_single_iff.mpr ⟨method, _, rfl, hmethod, rfl⟩
  have hdrop : (method ++ 32 :: (target ++ 32 :: version)).drop (method.length + 1) =
      target ++ 32 :: version := by
    rw [← List.drop_drop, List.drop_left]
    rfl
  have hsecond : find [32] (method ++ 32 :: (target ++ 32 :: version)) (method.length + 1) =
      some (target.length + (method.length + 1)) := by
    rw [find_drop, hdrop, find_single_iff.mpr ⟨target, version, rfl, htarget, rfl⟩]
    rfl
  have hdropBoth : (method ++ 32 :: (target ++ 32 :: version)).drop
      (target.length + (method.length + 1) + 1) = version := by
    rw [Nat.add_right_comm, Nat.add_comm, ← List.drop_drop, hdrop, ← List.drop_drop, List.drop_left]
    rfl
  have hthird : find [32] (method ++ 32 :: (target ++ 32 :: version))
      (target.length + (method.length + 1) + 1) = none := by
    rw [find_drop, hdropBoth, find_single_eq_none_iff.mpr hversion]
    rfl
  have hsize : target.length + (method.length + 1) - method.length - 1 = target.length := by
    omega
  have hmethodText : substr (method ++ 32 :: (target ++ 32 :: version)) 0 method.length = method :=
    substr_left
  have htargetText : substr (method ++ 32 :: (target ++ 32 :: version)) (method.length + 1)
      target.length = target := by
    rw [substr, hdrop, List.take_left]
  have hpositive := List.length_pos_of_ne_nil hmethodNe
  have htargetPositive := List.length_pos_of_ne_nil htargetNe
  have hshape : ¬ (method.length = 0 ∨
      target.length + (method.length + 1) = method.length + 1 ∨ (none : Option ℕ) ≠ none) := by
    rintro (hzero | hsame | hmore)
    · omega
    · omega
    · exact hmore rfl
  rw [parseRequestLine]
  simp only [hfirst, hsecond, hthird, hsize, hmethodText, htargetText, hdropBoth]
  rw [if_neg hshape]
  rfl

/-- A first line that is accepted has three parts. -/
theorem exists_parts (h : parseRequestLine line = .ok request) :
    ∃ method target version, line = method ++ 32 :: (target ++ 32 :: version) ∧ 32 ∉ method ∧
      method ≠ [] ∧ 32 ∉ target ∧ target ≠ [] ∧ 32 ∉ version := by
  rw [parseRequestLine] at h
  rcases hfirst : find [32] line 0 with _ | methodEnd
  · rw [hfirst] at h
    exact absurd h (by simp)
  · obtain ⟨method, line₁, rfl, hmethod, rfl⟩ := find_single_iff.mp hfirst
    have hdrop : (method ++ 32 :: line₁).drop (method.length + 1) = line₁ := by
      rw [← List.drop_drop, List.drop_left]
      rfl
    rw [hfirst] at h
    simp only at h
    rw [find_drop _ _ (method.length + 1), hdrop] at h
    rcases hsecond : find [32] line₁ 0 with _ | targetSize
    · rw [hsecond] at h
      exact absurd h (by simp)
    · obtain ⟨target, version, rfl, htarget, rfl⟩ := find_single_iff.mp hsecond
      rw [hsecond] at h
      simp only [Option.map_some] at h
      split_ifs at h with hshape
      obtain ⟨hmethodNe, hshape⟩ := not_or.mp hshape
      obtain ⟨htargetNe, hthird⟩ := not_or.mp hshape
      rw [not_not, find_drop, Nat.add_right_comm, Nat.add_comm _ (method.length + 1), ← List.drop_drop, hdrop, Option.map_eq_none_iff,
        ← List.drop_drop, List.drop_left, find_single_eq_none_iff] at hthird
      refine ⟨method, target, version, rfl, hmethod, ?_, htarget, ?_, hthird⟩
      · rintro rfl
        exact hmethodNe rfl
      · rintro rfl
        exact htargetNe (Nat.zero_add _)

theorem stringToHttpMethod_ne_invalid_iff :
    stringToHttpMethod method ≠ .invalidMethod ↔ method ∈ kMethodNames := by
  constructor
  · intro h
    by_contra hmem
    have hnone : kMethodNames.findIdx? (· == method) = none := by
      rw [List.findIdx?_eq_none_iff]
      intro name hname
      rw [beq_eq_false_iff_ne]
      rintro rfl
      exact hmem hname
    exact h (by rw [stringToHttpMethod, hnone])
  · have hall : ∀ name ∈ kMethodNames, stringToHttpMethod name ≠ .invalidMethod := by
      decide +kernel
    exact hall method

/-- A method name is the name of its method. -/
theorem httpMethodToString_stringToHttpMethod (h : method ∈ kMethodNames) :
    httpMethodToString (stringToHttpMethod method) = method := by
  have hall : ∀ name ∈ kMethodNames, httpMethodToString (stringToHttpMethod name) = name := by
    decide +kernel
  exact hall method h

theorem space_notMem_method (h : method ∈ kMethodNames) : 32 ∉ method ∧ method ≠ [] := by
  have hall : ∀ name ∈ kMethodNames, 32 ∉ name ∧ name ≠ [] := by decide +kernel
  exact hall method h

/-- A text cut at the first occurrence of a byte. -/
theorem take_of_find {mark : UInt8} {text : Bytes} {position : ℕ}
    (h : find [mark] text 0 = some position) :
    text.take position = before mark text ∧ text.drop (position + 1) = behind mark text := by
  exact ⟨(takeWhile_of_find h).symm, (dropWhile_of_find h).symm⟩

/-- A text in which the byte does not occur. -/
theorem before_eq_self {mark : UInt8} {text : Bytes} (h : mark ∉ text) :
    before mark text = text ∧ behind mark text = [] := by
  refine ⟨takeWhile_of_notMem h, ?_⟩
  rw [behind, dropWhile_of_notMem h]
  rfl

theorem takeWhile_and (text : Bytes) :
    (text.takeWhile fun b => b != 35 && b != 63) = before 63 (before 35 text) := by
  induction text with
  | nil => rfl
  | cons b text ih =>
    rw [before, before] at ih ⊢
    by_cases hhash : b = 35
    · simp [hhash]
    · by_cases hmark : b = 63
      · simp [hmark]
      · simp [hhash, hmark, ih]

/-- The fragment is cut off first. -/
theorem setTarget_of_find {position : ℕ} (h : find [35] target 0 = some position) :
    setTarget request target =
      setTarget (request.setFragment (behind 35 target)) (before 35 target) := by
  obtain ⟨htake, hdrop⟩ := take_of_find h
  have hnone : find [35] (before 35 target) 0 = none := by
    rw [← htake, find_single_eq_none_iff]
    exact notMem_take_of_find h
  rw [setTarget, setTarget, h, hnone, ← htake, ← hdrop]

/-- What a target without a fragment says. -/
theorem setTarget_line_of_notMem (h : 35 ∉ target) (hquery : request.query = []) :
    (setTarget request target).line = { request.line with
      path := before 63 target
      query := behind 63 target } := by
  rw [setTarget, find_single_eq_none_iff.mpr h]
  rcases hmark : find [63] target 0 with _ | position
  · obtain ⟨hbefore, hbehind⟩ := before_eq_self (find_single_eq_none_iff.mp hmark)
    simp only
    rw [hbefore, hbehind, ← hquery]
    rfl
  · obtain ⟨htake, hdrop⟩ := take_of_find hmark
    simp only
    rw [htake, hdrop]
    rfl

/-- What the target of a request says. -/
theorem setTarget_line (hquery : request.query = []) (hfragment : request.fragment = []) :
    (setTarget request target).line = { request.line with
      path := before 63 (before 35 target)
      query := behind 63 (before 35 target)
      fragment := behind 35 target } := by
  rcases hhash : find [35] target 0 with _ | position
  · have hnone := find_single_eq_none_iff.mp hhash
    obtain ⟨hbefore, hbehind⟩ := before_eq_self hnone
    rw [setTarget_line_of_notMem hnone hquery, hbefore, hbehind, HttpRequest.line, hfragment]
  · have hnone : 35 ∉ before 35 target := by
      rw [← (take_of_find hhash).1]
      exact notMem_take_of_find hhash
    rw [setTarget_of_find hhash]
    exact setTarget_line_of_notMem hnone hquery

/-- What is accepted of the three parts, and what is made of them. -/
theorem readParts_iff : readParts method target version = .ok request ↔
    method ∈ kMethodNames ∧ (∀ b ∈ target, 0x20 < b ∧ b ≠ 0x7F) ∧
      (∃ encoded, encodedVersion version = some encoded ∧ request = setTarget
        ((HttpRequest.new encoded (encoded ≤ 0x10)).setMethod (stringToHttpMethod method)) target) ∧
      before 63 (before 35 target) ≠ [] := by
  have hpath : ∀ encoded, (setTarget ((HttpRequest.new encoded (encoded ≤ 0x10)).setMethod
      (stringToHttpMethod method)) target).path = before 63 (before 35 target) :=
    fun _ => congrArg HttpRequest.Line.path (setTarget_line rfl rfl)
  have hcharacters : (target.any fun character => decide (character ≤ 0x20) || character == 0x7F) =
      true ↔ ¬ ∀ b ∈ target, 0x20 < b ∧ b ≠ 0x7F := by
    simp [List.any_eq_true, UInt8.not_lt, imp_iff_not_or]
  rw [readParts, ← stringToHttpMethod_ne_invalid_iff]
  by_cases hmethod : stringToHttpMethod method = .invalidMethod
  · rw [if_pos hmethod]
    simp [hmethod]
  · rw [if_neg hmethod]
    by_cases htarget : (target.any fun character => decide (character ≤ 0x20) ||
        character == 0x7F) = true
    · rw [if_pos htarget]
      constructor
      · intro h
        exact absurd h (by simp)
      · rintro ⟨-, hall, -⟩
        exact absurd hall (hcharacters.mp htarget)
    · rw [if_neg htarget]
      have hall := not_not.mp (mt hcharacters.mpr htarget)
      rcases encodedVersion version with _ | encoded
      · simp
      · simp only [hpath, Option.some_inj]
        split_ifs with hempty
        · rw [List.isEmpty_iff] at hempty
          simp [hempty]
        · rw [List.isEmpty_iff] at hempty
          constructor
          · intro h
            exact ⟨hmethod, hall, ⟨encoded, rfl, (Except.ok.inj h).symm⟩, hempty⟩
          · rintro ⟨-, -, ⟨_, rfl, rfl⟩, -⟩
            rfl

theorem encodedVersion_iff {encoded : UInt8} : encodedVersion version = some encoded ↔
    (version = ascii "HTTP/1.0" ∨ version = ascii "HTTP/1.1") ∧
      encoded = if version = ascii "HTTP/1.0" then 0x10 else 0x11 := by
  have hne : ascii "HTTP/1.1" ≠ ascii "HTTP/1.0" := by decide
  rw [encodedVersion]
  by_cases hnew : version = ascii "HTTP/1.1"
  · subst hnew
    rw [if_pos rfl, if_neg hne, Option.some_inj]
    simp [eq_comm]
  · by_cases hold : version = ascii "HTTP/1.0"
    · subst hold
      rw [if_neg hnew, if_pos rfl, Option.some_inj]
      simp [eq_comm]
    · rw [if_neg hnew, if_neg hold]
      simp [hnew, hold]

/-! ### Header fields -/

variable {field : Bytes × Bytes} {fields : List (Bytes × Bytes)} {s s' : Headers}

/-- What the header fields come to. -/
theorem foldlM_onField_iff :
    fields.foldlM (fun s field => onField s field.1 (trimOptionalWhitespace field.2)) s = .ok s' ↔
      s'.request = fields.foldl
          (fun r field => r.setHeader field.1 (trimOptionalWhitespace field.2)) s.request ∧
        (∀ value ∈ valuesOf (ascii "transfer-encoding") fields, value = []) ∧
        ((valuesOf (ascii "content-length") fields = [] ∧
            s'.contentLengthSeen = s.contentLengthSeen ∧
            s'.parsedContentLength = s.parsedContentLength) ∨
          (s.contentLengthSeen = false ∧ ∃ value,
            valuesOf (ascii "content-length") fields = [value] ∧
            parseContentLength value = some s'.parsedContentLength ∧
            s'.contentLengthSeen = true)) := by
  induction fields generalizing s with
  | nil =>
    obtain ⟨seen, length, request⟩ := s
    obtain ⟨seen', length', request'⟩ := s'
    simp [valuesOf, pure, Except.pure, eq_comm, and_comm, and_assoc]
  | cons field fields ih =>
    rw [List.foldlM_cons, List.foldl_cons, valuesOf_cons, valuesOf_cons]
    constructor
    · intro h
      rcases hstep : onField s field.1 (trimOptionalWhitespace field.2) with failure | s₁
      · rw [hstep] at h
        exact absurd h (by simp [bind, Except.bind])
      · rw [hstep] at h
        obtain ⟨hrequest, hcoding, hlength⟩ := onField_iff.mp hstep
        obtain ⟨hrest, hcodings, hlengths⟩ := ih.mp h
        refine ⟨hrequest ▸ hrest, ?_, ?_⟩
        · split_ifs with hname
          · exact List.forall_mem_cons.mpr ⟨hcoding hname, hcodings⟩
          · exact hcodings
        · rcases hlength with ⟨hname, hseen, hvalue, hseen'⟩ | ⟨hname, hseen, hvalue⟩
          · rw [if_pos hname]
            -- a second length is refused
            rcases hlengths with ⟨hnone, hseen'', hsame⟩ | ⟨hfalse, -⟩
            · exact .inr ⟨hseen, _, by rw [hnone], hsame ▸ hvalue, hseen''.trans hseen'⟩
            · exact absurd (hseen'.symm.trans hfalse) (by decide)
          · rw [if_neg hname]
            rcases hlengths with ⟨hnone, hseen', hsame⟩ | ⟨hfalse, hmore⟩
            · exact .inl ⟨hnone, hseen'.trans hseen, hsame.trans hvalue⟩
            · exact .inr ⟨hseen ▸ hfalse, hmore⟩
    · rintro ⟨hrequest, hcodings, hlengths⟩
      have hcoding : caseInsensitiveEqual field.1 (ascii "transfer-encoding") = true →
          trimOptionalWhitespace field.2 = [] := by
        intro hname
        rw [if_pos hname] at hcodings
        exact hcodings _ List.mem_cons_self
      have hrestCodings : ∀ value ∈ valuesOf (ascii "transfer-encoding") fields, value = [] := by
        intro value hvalue
        split_ifs at hcodings with hname
        · exact hcodings value (List.mem_cons_of_mem _ hvalue)
        · exact hcodings value hvalue
      -- the only length is this field's, or it is among those behind it
      by_cases hname : caseInsensitiveEqual field.1 (ascii "content-length") = true
      · rw [if_pos hname] at hlengths
        rcases hlengths with ⟨hnone, -⟩ | ⟨hseen, value, hone, hvalue, hseen'⟩
        · exact absurd hnone (by simp)
        · obtain ⟨rfl, hnone⟩ := List.cons.inj hone
          have hstep : onField s field.1 (trimOptionalWhitespace field.2) = .ok ⟨true,
              s'.parsedContentLength,
              s.request.setHeader field.1 (trimOptionalWhitespace field.2)⟩ :=
            onField_iff.mpr ⟨rfl, hcoding, .inl ⟨hname, hseen, hvalue, rfl⟩⟩
          rw [hstep]
          exact ih.mpr ⟨hrequest, hrestCodings, .inl ⟨hnone, hseen', rfl⟩⟩
      · rw [if_neg hname] at hlengths
        have hstep : onField s field.1 (trimOptionalWhitespace field.2) = .ok ⟨s.contentLengthSeen,
            s.parsedContentLength,
            s.request.setHeader field.1 (trimOptionalWhitespace field.2)⟩ :=
          onField_iff.mpr ⟨rfl, hcoding, .inr ⟨hname, rfl, rfl⟩⟩
        rw [hstep]
        exact ih.mpr ⟨hrequest, hrestCodings, hlengths⟩

/-- The headers of a request are the last values of its fields. -/
theorem find?_foldl_setHeader (name : Bytes) (r : HttpRequest) :
    (fields.foldl (fun r field => r.setHeader field.1 (trimOptionalWhitespace field.2)) r).headers.find?
      name = (valuesOf name fields).getLast?.or (r.headers.find? name) := by
  induction fields generalizing r with
  | nil => rfl
  | cons field fields ih =>
    rw [List.foldl_cons, ih, valuesOf_cons, HttpRequest.setHeader_headers,
      HttpMap.find?_insertOrAssign]
    split_ifs with hname
    · rw [List.getLast?_cons]
      cases (valuesOf name fields).getLast? <;> rfl
    · rfl

theorem foldl_setHeader_line (r : HttpRequest) :
    (fields.foldl (fun r field => r.setHeader field.1 (trimOptionalWhitespace field.2)) r).line =
      r.line := by
  induction fields generalizing r with
  | nil => rfl
  | cons field fields ih => rw [List.foldl_cons, ih, HttpRequest.setHeader_line]

theorem isDigitOf_ten {b : UInt8} : isDigitOf 10 b = true ↔ 48 ≤ b ∧ b ≤ 57 := by
  rw [isDigitOf, digitValue]
  simp only [UInt8.le_iff_toNat_le]
  split_ifs with hdigit hlower hupper
  · simp only [Option.any_some, decide_eq_true_eq]
    have htop : (57 : UInt8).toNat = 57 := rfl
    exact ⟨fun _ => hdigit, fun _ => by omega⟩
  · simp only [Option.any_some, decide_eq_true_eq, hdigit, iff_false]
    have hbottom : (97 : UInt8).toNat = 97 := rfl
    omega
  · simp only [Option.any_some, decide_eq_true_eq, hdigit, iff_false]
    have hbottom : (65 : UInt8).toNat = 65 := rfl
    omega
  · simpa only [Option.any_none, Bool.false_eq_true, false_iff] using hdigit

/-- A decimal number that is small enough is read. -/
theorem parseContentLength_iff {value : Bytes} {n : ℕ}
    (htrim : trimOptionalWhitespace value = value) :
    parseContentLength value = some n ↔ decimalValue value = some n ∧ n ≤ sizeMax := by
  have hread : parseContentLength value = some n ↔ wholeNumber sizeMax 10 value = some n := by
    rw [parseContentLength, htrim]
    cases value with
    | nil => exact ⟨fun h => absurd h (by simp), fun h => absurd rfl (wholeNumber_iff.mp h).1⟩
    | cons b value => exact Iff.rfl
  rw [hread]
  refine wholeNumber_iff_digits (fun b => ?_) fun b hb => ?_
  · rw [Bool.eq_iff_iff, isDigitOf_ten, Bool.and_eq_true, decide_eq_true_iff, decide_eq_true_iff]
  · rw [Bool.and_eq_true, decide_eq_true_iff, decide_eq_true_iff] at hb
    rw [digitValue, if_pos hb]
    rfl

/-! ### The whole request -/

end HttpRequestParser

namespace RequestText

open HttpRequestParser

variable {g : RequestText} {input : Bytes}

/-- The version byte of a request. -/
def encoded (g : RequestText) : UInt8 := if g.version = ascii "HTTP/1.0" then 0x10 else 0x11

/-- The request of the first line. -/
def lineRequest (g : RequestText) : HttpRequest :=
  setTarget ((HttpRequest.new g.encoded (g.encoded ≤ 0x10)).setMethod
    (stringToHttpMethod g.method)) g.target

/-- The request with its headers. -/
def headRequest (g : RequestText) : HttpRequest :=
  g.fields.foldl (fun r field => r.setHeader field.1 (trimOptionalWhitespace field.2)) g.lineRequest

/-- What a finished parse finds. -/
def parsed (g : RequestText) : Parsed where
  consumed := (g.head ++ g.body).length
  request := (g.headRequest.setBody g.body).initConnection
  contentLength := g.body.length

theorem head_eq (g : RequestText) :
    g.head = unlines 13 10 (g.firstLine :: g.fields.map fieldSource) ++ crlf := by
  rw [head, flatMap_fieldSource]
  simp

/-- The length of the body that the fields ask for. -/
theorem WellFormed.lengthRead (h : g.WellFormed) :
    (valuesOf (ascii "content-length") g.fields = [] ∧ g.body.length = 0) ∨
      ∃ value, valuesOf (ascii "content-length") g.fields = [value] ∧
        parseContentLength value = some g.body.length := by
  rcases h.length with ⟨hnone, hbody⟩ | ⟨value, n, hone, hvalue, hle, hbody⟩
  · exact .inl ⟨hnone, by rw [hbody]; rfl⟩
  · have htrim := trim_of_mem_valuesOf (hone ▸ List.mem_singleton_self value)
    refine .inr ⟨value, hone, (parseContentLength_iff htrim).mpr ⟨hbody ▸ hvalue, ?_⟩⟩
    rw [hbody, sizeMax]
    omega

theorem WellFormed.space_notMem (h : g.WellFormed) : 32 ∉ g.target ∧ 32 ∉ g.version := by
  constructor
  · intro hmem
    exact absurd (h.target.2 32 hmem).1 (by decide)
  · rcases h.version with hversion | hversion
    · rw [hversion]
      decide
    · rw [hversion]
      decide

theorem WellFormed.isLine (h : g.WellFormed) : IsLine 13 10 g.firstLine := by
  have hmethod : ∀ name ∈ kMethodNames, 13 ∉ name := by decide +kernel
  have htarget : 13 ∉ g.target := fun hmem => absurd (h.target.2 13 hmem).1 (by decide)
  have hversion : 13 ∉ g.version := by
    rcases h.version with hversion | hversion
    · rw [hversion]
      decide
    · rw [hversion]
      decide
  refine IsLine.of_notMem ?_
  simp [firstLine, hmethod _ h.method, htarget, hversion]

theorem WellFormed.parseRequestLine (h : g.WellFormed) :
    HttpRequestParser.parseRequestLine g.firstLine = .ok g.lineRequest := by
  obtain ⟨hmethod, hmethodNe⟩ := space_notMem_method h.method
  obtain ⟨htarget, hversion⟩ := h.space_notMem
  have hpath : before 63 (before 35 g.target) ≠ [] := by
    rw [← takeWhile_and]
    exact h.path
  rw [firstLine, parseRequestLine_parts hmethod hmethodNe htarget h.target.1 hversion]
  exact readParts_iff.mpr ⟨h.method, h.target.2,
    ⟨g.encoded, encodedVersion_iff.mpr ⟨h.version, rfl⟩, rfl⟩, hpath⟩

/-- The header section of a request is read. -/
theorem WellFormed.parseHead (h : g.WellFormed) : ∃ seen,
    HttpRequestParser.parseHead g.text =
      .ok (some (g.head.length, ⟨seen, g.body.length, g.headRequest⟩)) := by
  have hblock : IsBlock 13 10 g.firstLine (g.fields.map fieldSource) := by
    refine ⟨h.isLine, fun line hline => ?_⟩
    obtain ⟨field, hfield, rfl⟩ := List.mem_map.mp hline
    exact isLine_fieldSource (h.fields field hfield).1 (h.fields field hfield).2
  obtain ⟨seen, hseen⟩ : ∃ seen, g.fields.foldlM (fun s field => onField s field.1 (trimOptionalWhitespace field.2))
      ⟨false, 0, g.lineRequest⟩ = .ok ⟨seen, g.body.length, g.headRequest⟩ := by
    rcases h.lengthRead with ⟨hnone, hbody⟩ | ⟨value, hone, hvalue⟩
    · exact ⟨false, foldlM_onField_iff.mpr ⟨rfl, h.coding, .inl ⟨hnone, rfl, hbody⟩⟩⟩
    · exact ⟨true, foldlM_onField_iff.mpr ⟨rfl, h.coding, .inr ⟨rfl, value, hone, hvalue, rfl⟩⟩⟩
  refine ⟨seen, parseBlock_eq_some_iff.mpr ⟨g.firstLine, g.fields.map fieldSource, g.body ++ g.rest,
    hblock, ?_, ?_, h.size, ⟨false, 0, g.lineRequest⟩, ?_, ?_⟩⟩
  · rw [text, head_eq, List.append_assoc]
  · rw [head_eq]
  · rw [h.parseRequestLine]
    rfl
  · exact foldlM_headerStep_iff.mpr ⟨g.fields, rfl, h.fields, hseen⟩

theorem WellFormed.body_le (h : g.WellFormed) : g.body.length ≤ 64 * 1024 * 1024 := by
  rcases h.length with ⟨-, hbody⟩ | ⟨-, n, -, -, hle, hbody⟩
  · rw [hbody]
    exact Nat.zero_le _
  · rw [hbody]
    exact hle

/-- A text of the grammar is read as a whole. -/
theorem WellFormed.parseMessage (h : g.WellFormed) :
    HttpRequestParser.parseMessage g.text = .ok (some g.parsed) := by
  obtain ⟨seen, hhead⟩ := h.parseHead
  have hbody : g.body.length ≤ kMaxBodySize := h.body_le
  have hsize := h.size
  have hroom : ¬ sizeMax - g.head.length < g.body.length := by
    rw [sizeMax]
    rw [kMaxBodySize] at hbody
    omega
  have hlength : ¬ g.text.length < g.head.length + g.body.length := by
    rw [text, List.length_append, List.length_append]
    omega
  have hsubstr : substr g.text g.head.length g.body.length = g.body := by
    rw [text, List.append_assoc]
    exact substr_mid
  rw [HttpRequestParser.parseMessage, hhead]
  simp only [bind, Except.bind, parseBody]
  rw [if_neg (Nat.not_lt.mpr hbody), if_neg hroom, if_neg hlength, hsubstr, parsed,
    List.length_append]

/-- What is read is a text of the grammar. -/
theorem exists_of_parseMessage {m : Parsed} (h : HttpRequestParser.parseMessage input = .ok (some m)) :
    ∃ g : RequestText, g.WellFormed ∧ input = g.text := by
  rw [HttpRequestParser.parseMessage] at h
  rcases hhead : HttpRequestParser.parseHead input with failure | _ | ⟨size, s⟩
  · rw [hhead] at h
    exact absurd h (by simp [bind, Except.bind])
  · rw [hhead] at h
    exact absurd h (by simp [bind, Except.bind, pure, Except.pure])
  · rw [hhead] at h
    obtain ⟨first, lines, rest, hblock, rfl, hsize, hlimit, s₀, hfirst, hlines⟩ :=
      parseBlock_eq_some_iff.mp hhead
    obtain ⟨fields, rfl, hfields, hfold⟩ := foldlM_headerStep_iff.mp hlines
    rcases hline : HttpRequestParser.parseRequestLine first with failure | request
    · rw [hline] at hfirst
      exact absurd hfirst (by simp [Except.map])
    · rw [hline] at hfirst
      obtain rfl := Except.ok.inj hfirst
      obtain ⟨method, target, version, rfl, hmethod, hmethodNe, htarget, htargetNe, hversion⟩ :=
        exists_parts hline
      rw [parseRequestLine_parts hmethod hmethodNe htarget htargetNe hversion] at hline
      obtain ⟨hname, hcharacters, ⟨encoded, hencoded, -⟩, hpath⟩ := readParts_iff.mp hline
      obtain ⟨-, hcodings, hlengths⟩ := foldlM_onField_iff.mp hfold
      simp only [bind, Except.bind, parseBody] at h
      split_ifs at h with hlarge hroom hshort
      · exact absurd h (by simp)
      · have hbody : s.parsedContentLength ≤ rest.length := by
          rw [List.length_append, ← hsize] at hshort
          omega
        have htake : (rest.take s.parsedContentLength).length = s.parsedContentLength := by
          rw [List.length_take]
          omega
        have hheadText : unlines 13 10 ((method ++ 32 :: (target ++ 32 :: version)) ::
            fields.map fieldSource) ++ crlf = head ⟨method, target, version, fields, [], []⟩ :=
          (head_eq ⟨method, target, version, fields, [], []⟩).symm
        refine ⟨⟨method, target, version, fields, rest.take s.parsedContentLength,
          rest.drop s.parsedContentLength⟩, ?_, ?_⟩
        · constructor
          · exact hname
          · exact ⟨htargetNe, hcharacters⟩
          · rw [path, takeWhile_and]
            exact hpath
          · exact (encodedVersion_iff.mp hencoded).1
          · exact hfields
          · rcases hlengths with ⟨hnone, -, hzero⟩ | ⟨-, value, hone, hvalue, -⟩
            · refine .inl ⟨hnone, ?_⟩
              rw [hzero, List.take_zero]
            · have htrim := trim_of_mem_valuesOf (hone ▸ List.mem_singleton_self value)
              exact .inr ⟨value, _, hone, ((parseContentLength_iff htrim).mp hvalue).1,
                Nat.le_of_not_lt hlarge, htake⟩
          · exact hcodings
          · rw [hsize, hheadText] at hlimit
            exact hlimit
        · rw [hheadText, text, List.append_assoc, List.take_append_drop]
          rfl

theorem lineRequest_line (g : RequestText) : g.lineRequest.line =
    ⟨stringToHttpMethod g.method, g.encoded, g.path, g.query, g.fragment⟩ := by
  rw [lineRequest, setTarget_line rfl rfl, path, takeWhile_and]
  rfl

theorem WellFormed.reports (h : g.WellFormed) : g.Reports (HttpRequestParser.new.execute g.text) := by
  have hline : g.parsed.request.line = g.lineRequest.line := foldl_setHeader_line g.lineRequest
  rw [lineRequest_line] at hline
  have hheaders : g.lineRequest.headers = .empty := by
    rw [lineRequest, setTarget]
    split <;> split <;> rfl
  rw [execute_new, h.parseMessage]
  constructor
  · rfl
  · rfl
  · rw [text, List.length_append]
    rfl
  · exact (congrArg (fun line : HttpRequest.Line => httpMethodToString line.method) hline).trans
      (httpMethodToString_stringToHttpMethod h.method)
  · exact congrArg HttpRequest.Line.version hline
  · exact congrArg HttpRequest.Line.path hline
  · exact congrArg HttpRequest.Line.query hline
  · exact congrArg HttpRequest.Line.fragment hline
  · rfl
  · intro name
    refine (find?_foldl_setHeader name g.lineRequest).trans ?_
    rw [hheaders, HttpMap.find?_empty, Option.or_none]

end RequestText

namespace HttpRequestParser

/-- **The parser accepts its grammar.**  It finishes on the texts of the grammar only, takes up
all but what follows the request and reports the parts of it; and on every input that a
`string_view` can hold no size leaves its range. -/
theorem finished_iff_grammar (input : Bytes) :
    ((new.execute input).1.finished = true ↔ ∃ g : RequestText, g.WellFormed ∧ input = g.text) ∧
    (∀ g : RequestText, g.WellFormed → input = g.text → g.Reports (new.execute input)) ∧
    (input.length ≤ sizeMax → Ranged.parseRequest input = Sizes.total (parseMessage input)) := by
  refine ⟨?_, ?_, Ranged.parseRequest_eq⟩
  · constructor
    · intro h
      rw [execute_new] at h
      rcases hparse : parseMessage input with failure | _ | m
      · rw [hparse] at h
        exact absurd h (by simp [setError, new])
      · rw [hparse] at h
        exact absurd h (by simp [new])
      · exact RequestText.exists_of_parseMessage hparse
    · rintro ⟨g, hg, rfl⟩
      exact hg.reports.finished
  · rintro g hg rfl
    exact hg.reports

/-- A request with a body, and the beginning of another. -/
def requestWithBody : RequestText :=
  ⟨ascii "POST", ascii "/a?k=v#f", ascii "HTTP/1.1",
    [(ascii "Host", ascii " b"), (ascii "CONTENT-Length", ascii "\t3 ")], ascii "xyz", ascii "GET "⟩

theorem finished_requestWithBody :
    (new.execute requestWithBody.text).1.finished = true ∧
    requestWithBody.Reports (new.execute requestWithBody.text) ∧
    Ranged.parseRequest requestWithBody.text = Sizes.total (parseMessage requestWithBody.text) := by
  have hwell : requestWithBody.WellFormed := by
    constructor
    · decide +kernel
    · decide +kernel
    · decide +kernel
    · exact .inr rfl
    · decide +kernel
    · exact .inr ⟨ascii "3", 3, by decide +kernel, by decide +kernel, by decide, rfl⟩
    · decide +kernel
    · decide +kernel
  obtain ⟨hiff, hreports, hranged⟩ := finished_iff_grammar requestWithBody.text
  exact ⟨hiff.mpr ⟨_, hwell, rfl⟩, hreports _ hwell rfl, hranged (by decide +kernel)⟩

end HttpRequestParser

end Http

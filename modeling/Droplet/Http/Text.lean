/-
The byte-level text functions of the HTTP parsers.

These are the helpers of `http_parser.cc` (and their copies in
`http_request.cc`, `http_response.cc` and `http_connection.cc`): character
classes of header names and values, whitespace trimming, ASCII
case-insensitive comparison, the numbers of `Content-Length` and of chunk
sizes, and the comma-separated lists of `Connection` and `Transfer-Encoding`.

What later modules use of them:

* `caseInsensitiveEqual_iff` — the comparison is equality of the lowered texts;
* `parseContentLength_decimal` — a printed length is read back;
* `isValidHeaderValue_trim`, `trim_eq_self` — trimming keeps values valid.
-/
import Droplet.Lib.Lines
import Mathlib.Data.List.DropRight
import Mathlib.Data.Nat.Digits.Lemmas

open Search

namespace Http

/-- A `std::string`: its bytes. -/
abbrev Bytes := List UInt8

/-- The bytes of an ASCII text. -/
def ascii (s : String) : Bytes := s.toList.map fun c => UInt8.ofNat c.toNat

/-- The line terminator. -/
abbrev crlf : Bytes := [13, 10]

/-- The largest `size_t`, which is also the largest `u64`. -/
def sizeMax : ℕ := 2 ^ 64 - 1

/-! ### Header names and values -/

def isTokenCharacter (value : UInt8) : Bool :=
  if value ≤ 0x20 ∨ 0x7F ≤ value then false
  else !(ascii "()<>@,;:\\\"/[]?=\x7b\x7d").contains value

def isValidHeaderName (name : Bytes) : Bool :=
  !name.isEmpty && name.all isTokenCharacter

def isValidHeaderValue (value : Bytes) : Bool :=
  value.all fun character => !((character < 0x20 && character != 9) || character == 0x7F)

/-- Space and horizontal tab. -/
def isOptionalWhitespace (b : UInt8) : Bool := b == 32 || b == 9

def trimOptionalWhitespace (value : Bytes) : Bytes :=
  (value.dropWhile isOptionalWhitespace).rdropWhile isOptionalWhitespace

def asciiLower (value : UInt8) : UInt8 :=
  if 65 ≤ value ∧ value ≤ 90 then value + 32 else value

def caseInsensitiveEqual : Bytes → Bytes → Bool
  | [], [] => true
  | l :: lhs, r :: rhs => asciiLower l == asciiLower r && caseInsensitiveEqual lhs rhs
  | _, _ => false

theorem caseInsensitiveEqual_iff {lhs rhs : Bytes} :
    caseInsensitiveEqual lhs rhs = true ↔ lhs.map asciiLower = rhs.map asciiLower := by
  induction lhs generalizing rhs with
  | nil => cases rhs <;> simp [caseInsensitiveEqual]
  | cons l lhs ih =>
    cases rhs with
    | nil => simp [caseInsensitiveEqual]
    | cons r rhs => simp [caseInsensitiveEqual, ih]

@[simp] theorem caseInsensitiveEqual_self (text : Bytes) : caseInsensitiveEqual text text = true :=
  caseInsensitiveEqual_iff.mpr rfl

theorem isTokenCharacter_eq_true {b : UInt8} (h : isTokenCharacter b = true) :
    0x20 < b ∧ b < 0x7F ∧ b ≠ 58 := by
  rw [isTokenCharacter] at h
  by_cases hb : b ≤ 0x20 ∨ 0x7F ≤ b
  · simp [hb] at h
  · rw [if_neg hb] at h
    have hcolon : b ≠ 58 := by
      rintro rfl
      exact absurd h (by decide)
    simpa [hcolon] using hb

theorem isValidHeaderName_ne_nil {name : Bytes} (h : isValidHeaderName name = true) :
    name ≠ [] := by
  rintro rfl
  simp [isValidHeaderName] at h

theorem isTokenCharacter_of_mem {name : Bytes} (h : isValidHeaderName name = true) {b : UInt8}
    (hb : b ∈ name) : isTokenCharacter b = true := by
  simp only [isValidHeaderName, Bool.and_eq_true, List.all_eq_true] at h
  exact h.2 b hb

theorem isValidHeaderValue_iff {value : Bytes} :
    isValidHeaderValue value = true ↔ ∀ b ∈ value, (0x20 ≤ b ∨ b = 9) ∧ b ≠ 0x7F := by
  rw [isValidHeaderValue, List.all_eq_true]
  refine forall₂_congr fun b _ => ?_
  by_cases h1 : b < 0x20 <;> by_cases h2 : b = 9 <;> by_cases h3 : b = 0x7F <;>
    simp_all

/-- A carriage return is not a byte of a header name. -/
theorem cr_notMem_name {name : Bytes} (h : isValidHeaderName name = true) : (13 : UInt8) ∉ name :=
  fun hmem => absurd (isTokenCharacter_eq_true (isTokenCharacter_of_mem h hmem)).1 (by decide)

theorem colon_notMem_name {name : Bytes} (h : isValidHeaderName name = true) :
    (58 : UInt8) ∉ name :=
  fun hmem => (isTokenCharacter_eq_true (isTokenCharacter_of_mem h hmem)).2.2 rfl

theorem isValidHeaderValue_append {as bs : Bytes} :
    isValidHeaderValue (as ++ bs) = true ↔
      isValidHeaderValue as = true ∧ isValidHeaderValue bs = true := by
  simp [isValidHeaderValue, List.all_append]

theorem cr_notMem_value {value : Bytes} (h : isValidHeaderValue value = true) :
    (13 : UInt8) ∉ value := by
  intro hmem
  have := (isValidHeaderValue_iff.mp h 13 hmem).1
  exact absurd this (by decide)

theorem mem_of_mem_trim {value : Bytes} {b : UInt8} (h : b ∈ trimOptionalWhitespace value) :
    b ∈ value :=
  (List.dropWhile_suffix _).subset ((List.rdropWhile_prefix _ _).subset h)

theorem mem_dropWhile_of_mem {value : Bytes} {b : UInt8} (h : b ∈ value)
    (hb : isOptionalWhitespace b = false) : b ∈ value.dropWhile isOptionalWhitespace := by
  rw [← List.takeWhile_append_dropWhile (p := isOptionalWhitespace) (l := value),
    List.mem_append] at h
  rcases h with hspace | hrest
  · exact absurd (List.mem_takeWhile_imp hspace) (by simp [hb])
  · exact hrest

/-- Only whitespace is trimmed. -/
theorem mem_trim_of_mem {value : Bytes} {b : UInt8} (h : b ∈ value)
    (hb : isOptionalWhitespace b = false) : b ∈ trimOptionalWhitespace value := by
  have hfront := mem_dropWhile_of_mem h hb
  rw [trimOptionalWhitespace, List.rdropWhile, List.mem_reverse]
  exact mem_dropWhile_of_mem (List.mem_reverse.mpr hfront) hb

theorem isValidHeaderValue_trim {value : Bytes} (h : isValidHeaderValue value = true) :
    isValidHeaderValue (trimOptionalWhitespace value) = true :=
  isValidHeaderValue_iff.mpr fun b hb => isValidHeaderValue_iff.mp h b (mem_of_mem_trim hb)

/-- Nothing is trimmed from a text without whitespace. -/
theorem trim_eq_self {value : Bytes} (h : ∀ b ∈ value, isOptionalWhitespace b = false) :
    trimOptionalWhitespace value = value := by
  have hdrop : value.dropWhile isOptionalWhitespace = value := by
    rw [List.dropWhile_eq_self_iff]
    intro hpos
    rw [h _ (List.getElem_mem _)]
    simp
  rw [trimOptionalWhitespace, hdrop, List.rdropWhile_eq_self_iff]
  intro hne
  rw [h _ (List.getLast_mem hne)]
  simp

theorem trim_trim (value : Bytes) :
    trimOptionalWhitespace (trimOptionalWhitespace value) = trimOptionalWhitespace value := by
  have hfront : (trimOptionalWhitespace value).dropWhile isOptionalWhitespace =
      trimOptionalWhitespace value := by
    rw [List.dropWhile_eq_self_iff]
    intro hpos
    -- the first byte is the first one that the front was trimmed to
    obtain ⟨b, text, htext⟩ := List.exists_cons_of_length_pos hpos
    obtain ⟨tail, htail⟩ := List.rdropWhile_prefix isOptionalWhitespace
      (value.dropWhile isOptionalWhitespace)
    rw [← trimOptionalWhitespace, htext, List.cons_append] at htail
    have hnot := List.head_dropWhile_not isOptionalWhitespace (l := value) (by simp [← htail])
    simp only [← htail, List.head_cons] at hnot
    simp [htext, hnot]
  rw [trimOptionalWhitespace, hfront]
  exact List.rdropWhile_idempotent ..

/-- The space that the serializers put after the colon is trimmed. -/
theorem trim_space_cons (value : Bytes) :
    trimOptionalWhitespace (32 :: value) = trimOptionalWhitespace value := by
  simp [trimOptionalWhitespace, isOptionalWhitespace]

/-! ### Numbers -/

/-- The value of a digit, as `std::from_chars` reads it. -/
def digitValue (b : UInt8) : Option ℕ :=
  if 48 ≤ b ∧ b ≤ 57 then some (b.toNat - 48)
  else if 97 ≤ b ∧ b ≤ 122 then some (b.toNat - 87)
  else if 65 ≤ b ∧ b ≤ 90 then some (b.toNat - 55)
  else none

def isDigitOf (base : ℕ) (b : UInt8) : Bool := (digitValue b).any (· < base)

/-- The result of `std::from_chars` on an unsigned type: how many bytes belong
to the number, and its value unless there is an error. -/
structure FromChars where
  position : ℕ
  value : Option ℕ

/-- `std::from_chars` for an unsigned type with largest value `max`: the longest
run of digits is the number; no digit or a value above `max` is an error. -/
def fromChars (max base : ℕ) (text : Bytes) : FromChars :=
  let digits := text.takeWhile (isDigitOf base)
  let value := digits.foldl (fun acc b => acc * base + (digitValue b).getD 0) 0
  { position := digits.length
    value := if digits = [] ∨ max < value then none else some value }

/-- The number that takes up all of a text. -/
def wholeNumber (max base : ℕ) (text : Bytes) : Option ℕ :=
  let parsed := fromChars max base text
  if parsed.position = text.length then parsed.value else none

def parseContentLength (value : Bytes) : Option ℕ :=
  let value := trimOptionalWhitespace value
  if value.isEmpty then none else wholeNumber sizeMax 10 value

/-- A text is a number if it consists of digits and its value is not too large. -/
theorem wholeNumber_iff {max base n : ℕ} {text : Bytes} :
    wholeNumber max base text = some n ↔ text ≠ [] ∧ (∀ b ∈ text, isDigitOf base b = true) ∧
      text.foldl (fun acc b => acc * base + (digitValue b).getD 0) 0 = n ∧ n ≤ max := by
  have hall : (text.takeWhile (isDigitOf base)).length = text.length ↔
      ∀ b ∈ text, isDigitOf base b = true := by
    rw [← List.takeWhile_eq_self_iff]
    constructor
    · intro h
      exact (List.takeWhile_prefix _).eq_of_length h
    · intro h
      rw [h]
  rw [wholeNumber, fromChars]
  simp only
  by_cases hdigits : (text.takeWhile (isDigitOf base)).length = text.length
  · have htext : text.takeWhile (isDigitOf base) = text :=
      List.takeWhile_eq_self_iff.mpr (hall.mp hdigits)
    rw [if_pos hdigits, htext]
    generalize text.foldl (fun acc b => acc * base + (digitValue b).getD 0) 0 = value
    split_ifs with hbad
    · constructor
      · intro h
        exact absurd h (by simp)
      · rintro ⟨hne, -, rfl, hle⟩
        rcases hbad with hempty | hlt
        · exact absurd hempty hne
        · omega
    · obtain ⟨hne, hle⟩ := not_or.mp hbad
      rw [Option.some_inj]
      constructor
      · rintro rfl
        exact ⟨hne, hall.mp hdigits, rfl, Nat.le_of_not_lt hle⟩
      · rintro ⟨-, -, rfl, -⟩
        rfl
  · rw [if_neg hdigits]
    constructor
    · intro h
      exact absurd h (by simp)
    · rintro ⟨-, hdigits', -⟩
      exact absurd (hall.mpr hdigits') hdigits

/-- The number, with any test for its digits and any values that they have. -/
theorem wholeNumber_iff_digits {max base n : ℕ} {text : Bytes} {isDigit : UInt8 → Bool}
    {digit : UInt8 → ℕ} (htest : ∀ b, isDigitOf base b = isDigit b)
    (hdigit : ∀ b, isDigit b = true → (digitValue b).getD 0 = digit b) :
    wholeNumber max base text = some n ↔
      (if text ≠ [] ∧ text.all isDigit then
        some (text.foldl (fun value b => value * base + digit b) 0)
      else none) = some n ∧ n ≤ max := by
  obtain rfl : isDigitOf base = isDigit := funext htest
  have hall : text.all (isDigitOf base) = true ↔ ∀ b ∈ text, isDigitOf base b = true :=
    List.all_eq_true
  rw [wholeNumber_iff]
  split_ifs with hdigits
  · have hvalue : text.foldl (fun acc b => acc * base + (digitValue b).getD 0) 0 =
        text.foldl (fun value b => value * base + digit b) 0 :=
      List.foldl_ext _ _ _ fun acc b hb => by rw [hdigit b (hall.mp hdigits.2 b hb)]
    rw [Option.some_inj, hvalue]
    exact ⟨fun h => h.2.2, fun h => ⟨hdigits.1, hall.mp hdigits.2, h⟩⟩
  · constructor
    · rintro ⟨hne, hdigits', -⟩
      exact absurd ⟨hne, hall.mpr hdigits'⟩ hdigits
    · rintro ⟨h, -⟩
      exact absurd h (by simp)

/-- The part of a text before its first semicolon. -/
def beforeSemicolon (text : Bytes) : Bytes := text.takeWhile (· != 59)

def parseChunkSize (line : Bytes) : Option ℕ :=
  let line := trimOptionalWhitespace (beforeSemicolon line)
  if line.isEmpty then none else wholeNumber sizeMax 16 line

/-- A number printed in decimal, as `operator<<` prints it. -/
def decimal (n : ℕ) : Bytes :=
  if n = 0 then [48] else (Nat.digits 10 n).reverse.map fun d => UInt8.ofNat (48 + d)

private theorem digitValue_ofNat {d : ℕ} (hd : d < 10) :
    digitValue (UInt8.ofNat (48 + d)) = some d := by
  interval_cases d <;> decide

theorem decimal_ne_nil (n : ℕ) : decimal n ≠ [] := by
  rw [decimal]
  by_cases hn : n = 0
  · simp [hn]
  · simp [hn, Nat.digits_ne_nil_iff_ne_zero]

theorem exists_of_mem_decimal {n : ℕ} {b : UInt8} (h : b ∈ decimal n) :
    ∃ d < 10, b = UInt8.ofNat (48 + d) := by
  rw [decimal] at h
  by_cases hn : n = 0
  · rw [if_pos hn, List.mem_singleton] at h
    exact ⟨0, by omega, h⟩
  · rw [if_neg hn, List.mem_map] at h
    obtain ⟨d, hd, rfl⟩ := h
    exact ⟨d, Nat.digits_lt_base (by omega) (List.mem_reverse.mp hd), rfl⟩

private theorem foldl_digits (ds : List ℕ) (hds : ∀ d ∈ ds, d < 10) :
    (ds.reverse.map fun d => UInt8.ofNat (48 + d)).foldl
      (fun acc b => acc * 10 + (digitValue b).getD 0) 0 = Nat.ofDigits 10 ds := by
  induction ds with
  | nil => rfl
  | cons d ds ih =>
    have hd := hds d (List.mem_cons_self ..)
    rw [List.reverse_cons, List.map_append, List.foldl_append,
      ih fun x hx => hds x (List.mem_cons_of_mem _ hx)]
    simp only [List.map_cons, List.map_nil, List.foldl_cons, List.foldl_nil,
      digitValue_ofNat hd, Option.getD_some, Nat.ofDigits_cons]
    ring

theorem wholeNumber_decimal {max n : ℕ} (h : n ≤ max) :
    wholeNumber max 10 (decimal n) = some n := by
  have hdigits : (decimal n).takeWhile (isDigitOf 10) = decimal n := by
    rw [List.takeWhile_eq_self_iff]
    intro b hb
    obtain ⟨d, hd, rfl⟩ := exists_of_mem_decimal hb
    rw [isDigitOf, digitValue_ofNat hd]
    simp [hd]
  have hvalue : (decimal n).foldl (fun acc b => acc * 10 + (digitValue b).getD 0) 0 = n := by
    rw [decimal]
    by_cases hn : n = 0
    · subst hn
      decide
    · rw [if_neg hn, foldl_digits _ fun d hd => Nat.digits_lt_base (by omega) hd,
        Nat.ofDigits_digits]
  simp only [wholeNumber, fromChars, hdigits, hvalue, decimal_ne_nil, false_or, if_true]
  rw [if_neg (by omega)]

theorem decimal_noWhitespace {n : ℕ} {b : UInt8} (hb : b ∈ decimal n) :
    isOptionalWhitespace b = false := by
  obtain ⟨d, hd, rfl⟩ := exists_of_mem_decimal hb
  interval_cases d <;> decide

theorem isValidHeaderValue_decimal (n : ℕ) : isValidHeaderValue (decimal n) = true := by
  rw [isValidHeaderValue_iff]
  intro b hb
  obtain ⟨d, hd, rfl⟩ := exists_of_mem_decimal hb
  interval_cases d <;> decide

theorem trim_decimal (n : ℕ) : trimOptionalWhitespace (decimal n) = decimal n :=
  trim_eq_self fun _ hb => decimal_noWhitespace hb

theorem parseContentLength_trim (value : Bytes) :
    parseContentLength (trimOptionalWhitespace value) = parseContentLength value := by
  rw [parseContentLength, trim_trim]
  rfl

/-- A length that the serializers print is read back by the parsers. -/
theorem parseContentLength_decimal {n : ℕ} (h : n ≤ sizeMax) :
    parseContentLength (decimal n) = some n := by
  rw [parseContentLength, trim_decimal]
  simp [decimal_ne_nil, wholeNumber_decimal h]

/-! ### Comma-separated lists -/

/-- One pass over the codings of a list: `chunked` must come last and once.  The
source's `final_chunked` always equals its `saw_chunked`. -/
def finalChunkedLoop (sawToken sawChunked : Bool) : List Bytes → Bool
  | [] => sawToken && sawChunked
  | item :: items =>
    let token := trimOptionalWhitespace item
    if token.isEmpty then false
    else
      let coding := trimOptionalWhitespace (beforeSemicolon token)
      if coding.isEmpty then false
      else if sawChunked then false
      else finalChunkedLoop true (caseInsensitiveEqual coding (ascii "chunked")) items

def headerContainsFinalChunked (value : Bytes) : Bool :=
  finalChunkedLoop false false (value.splitOn 44)

def headerContainsToken (header token : Bytes) : Bool :=
  (header.splitOn 44).any fun item => caseInsensitiveEqual (trimOptionalWhitespace item) token

end Http

/-
Numbers in configuration texts.

The parser takes the blanks off both ends, a plus in front and the prefix of a hexadecimal
number, and leaves the rest to `std::from_chars`, which takes a minus in front by itself where
the type has negative values.

* `trim_append`, `exists_trim` — what is trimmed;
* `number_iff` — the texts that `std::from_chars` takes up whole;
* `parseArithmetic_arithmeticToNode` — a printed number is read back;
* `exact_iff` — the parser takes the numbers and nothing else, but for a minus behind a plus or
  behind the prefix.
-/
import Droplet.Http.Text
import Mathlib.Algebra.Group.Nat.Defs
import Mathlib.Data.List.DropRight

open Http Search

/-! ### Trimming -/

namespace StringUtils

/-- `ASCII_WHITESPACE`. -/
def isBlank (b : UInt8) : Bool := b == 32 || 9 ≤ b && b ≤ 13

def findFirstNotOf (text : Bytes) : Option ℕ := text.findIdx? fun b => !isBlank b

def findLastNotOf (text : Bytes) : Option ℕ :=
  (text.reverse.findIdx? fun b => !isBlank b).map fun i => text.length - 1 - i

def trim (text : Bytes) : Bytes :=
  match findFirstNotOf text with
  | none => []
  | some begin' =>
    match findLastNotOf text with
    | none => text.drop begin'
    | some end' => substr text begin' (end' - begin' + 1)

def Blank (text : Bytes) : Prop := ∀ b ∈ text, isBlank b = true

variable {text front body back : Bytes} {c d : UInt8}

theorem findIdx?_blank (hfront : Blank front) (hc : isBlank c = false) :
    (front ++ c :: back).findIdx? (fun b => !isBlank b) = some front.length := by
  have hnone : front.findIdx? (fun b => !isBlank b) = none := by
    rw [List.findIdx?_eq_none_iff]
    intro b hb
    rw [hfront b hb]
    rfl
  rw [List.findIdx?_append, hnone, List.findIdx?_cons, hc]
  simp

/-- **Blanks** on both ends are taken off. -/
theorem trim_append (hfront : Blank front) (hback : Blank back) (hbody : body ≠ [])
    (hfirst : ∀ c ∈ body.head?, isBlank c = false)
    (hlast : ∀ c ∈ body.getLast?, isBlank c = false) : trim (front ++ (body ++ back)) = body := by
  obtain ⟨c, tail, rfl⟩ := List.exists_cons_of_ne_nil hbody
  obtain ⟨init, d, hd⟩ := (c :: tail).eq_nil_or_concat.resolve_left hbody
  have hbegin : findFirstNotOf (front ++ (c :: tail ++ back)) = some front.length :=
    findIdx?_blank hfront (hfirst c rfl)
  have hend : findLastNotOf (front ++ (c :: tail ++ back)) =
      some (front.length + (c :: tail).length - 1) := by
    have hreverse : (front ++ (c :: tail ++ back)).reverse =
        back.reverse ++ d :: (init.reverse ++ front.reverse) := by
      rw [hd]
      simp
    have hdlast : isBlank d = false := hlast d (by rw [hd]; simp)
    have hblank : Blank back.reverse := fun b hb => hback b (List.mem_reverse.mp hb)
    rw [findLastNotOf, hreverse, findIdx?_blank hblank hdlast, Option.map_some,
      List.length_reverse, List.length_append, List.length_append]
    congr 1
    omega
  have hcount : front.length + (c :: tail).length - 1 - front.length + 1 = (c :: tail).length := by
    rw [List.length_cons]
    omega
  rw [trim, hbegin, hend]
  dsimp only
  rw [hcount]
  exact substr_mid

/-- The ends of a text between blanks. -/
theorem ends_rdropWhile {rest : Bytes} (hne : rest ≠ [])
    (hfirst : ∀ c ∈ rest.head?, isBlank c = false) :
    rest.rdropWhile isBlank ≠ [] ∧ (∀ c ∈ (rest.rdropWhile isBlank).head?, isBlank c = false) ∧
      ∀ c ∈ (rest.rdropWhile isBlank).getLast?, isBlank c = false := by
  obtain ⟨c, tail, rfl⟩ := List.exists_cons_of_ne_nil hne
  have hc : isBlank c = false := hfirst c rfl
  have hbody : (c :: tail).rdropWhile isBlank ≠ [] := by
    intro hnil
    rw [List.rdropWhile_eq_nil_iff.mp hnil c List.mem_cons_self] at hc
    exact Bool.false_ne_true hc.symm
  refine ⟨hbody, fun d hd => ?_, fun d hd => ?_⟩
  · obtain ⟨back, hback⟩ := List.rdropWhile_prefix isBlank (l := c :: tail)
    obtain ⟨e, body, he⟩ := List.exists_cons_of_ne_nil hbody
    rw [he, List.cons_append] at hback
    rw [he, List.head?_cons, Option.mem_some_iff] at hd
    rw [← hd, (List.cons.inj hback).1]
    exact hc
  · rw [List.getLast?_eq_some_getLast hbody, Option.mem_some_iff] at hd
    have hlast := List.rdropWhile_last_not isBlank (c :: tail) hbody
    rw [hd] at hlast
    exact Bool.eq_false_of_not_eq_true hlast

/-- A text is what is left of it between blanks. -/
theorem exists_trim (text : Bytes) : ∃ front back, text = front ++ (trim text ++ back) ∧
    Blank front ∧ Blank back := by
  by_cases hblank : text.dropWhile isBlank = []
  · have hall : Blank text := List.dropWhile_eq_nil_iff.mp hblank
    have hnone : findFirstNotOf text = none := by
      rw [findFirstNotOf, List.findIdx?_eq_none_iff]
      intro b hb
      rw [hall b hb]
      rfl
    refine ⟨text, [], ?_, hall, fun b hb => absurd hb List.not_mem_nil⟩
    rw [trim, hnone, List.append_nil, List.append_nil]
  · have hfront : Blank (text.takeWhile isBlank) := fun b hb => List.mem_takeWhile_imp hb
    have hback : Blank ((text.dropWhile isBlank).rtakeWhile isBlank) :=
      fun b hb => List.mem_rtakeWhile_imp hb
    have hsplit : text = text.takeWhile isBlank ++ ((text.dropWhile isBlank).rdropWhile isBlank ++
        (text.dropWhile isBlank).rtakeWhile isBlank) := by
      rw [List.rdropWhile_append_rtakeWhile, List.takeWhile_append_dropWhile]
    have hhead : ∀ c ∈ (text.dropWhile isBlank).head?, isBlank c = false := by
      intro c hc
      obtain ⟨d, rest, hd⟩ := List.exists_cons_of_ne_nil hblank
      rw [hd, List.head?_cons, Option.mem_some_iff] at hc
      have hnot := List.head_dropWhile_not isBlank hblank
      rw [← hc]
      simpa only [hd, List.head_cons] using hnot
    obtain ⟨hbody, hfirst, hlast⟩ := ends_rdropWhile hblank hhead
    have htrim := trim_append hfront hback hbody hfirst hlast
    rw [← hsplit] at htrim
    exact ⟨_, _, by rw [htrim]; exact hsplit, hfront, hback⟩

end StringUtils

namespace Config

open StringUtils

/-! ### The source -/

inductive IntType
  | i8 | i16 | i32 | i64 | u8 | u16 | u32 | u64
  deriving DecidableEq

namespace IntType

def signed : IntType → Bool
  | i8 | i16 | i32 | i64 => true
  | u8 | u16 | u32 | u64 => false

def bits : IntType → ℕ
  | i8 | u8 => 8
  | i16 | u16 => 16
  | i32 | u32 => 32
  | i64 | u64 => 64

def min (t : IntType) : ℤ := if t.signed then -2 ^ (t.bits - 1) else 0

def max (t : IntType) : ℤ := if t.signed then 2 ^ (t.bits - 1) - 1 else 2 ^ t.bits - 1

def InRange (t : IntType) (value : ℤ) : Prop := t.min ≤ value ∧ value ≤ t.max

instance (t : IntType) (value : ℤ) : Decidable (t.InRange value) :=
  inferInstanceAs (Decidable (_ ∧ _))

end IntType

/-- Why a text or a node is not converted. -/
inductive ConvertReason
  | emptyScalar
  | notNumber
  | notFormatted
  | notBool
  | noNode
  | notScalar
  | notSequence
  | notMap
  | keyNotScalar
  deriving DecidableEq

def ConvertReason.text : ConvertReason → String
  | emptyScalar => "空标量无法解析为数值"
  | notNumber => "无法解析为数值"
  | notFormatted => "数值类型无法格式化为字符串"
  | notBool => "无法解析为布尔值"
  | noNode => "节点不存在"
  | notScalar => "期望 YAML 标量节点"
  | notSequence => "期望 YAML 序列节点"
  | notMap => "期望 YAML 映射节点"
  | keyNotScalar => "映射的键必须是标量"

/-- What `ThrowConvertError` is called with; the value is empty where none is given. -/
structure ConvertError where
  typeName : String
  reason : ConvertReason
  value : Bytes
  deriving DecidableEq

def ConvertError.message (e : ConvertError) : Bytes :=
  ascii "ConfigConvert<" ++ ascii e.typeName ++ ascii ">: " ++ e.reason.text.toUTF8.toList ++
    if e.value ≠ [] then ascii ", value=" ++ e.value else []

def digitsValue (base : ℕ) (digits : Bytes) : ℕ :=
  digits.foldl (fun acc b => acc * base + (digitValue b).getD 0) 0

/-- How far `std::from_chars` has read, and the value unless there is an error. -/
structure FromChars where
  position : ℕ
  value : Option ℤ
  deriving DecidableEq

/-- `std::from_chars`: a minus is taken for the types that have negative values alone. -/
def fromChars (t : IntType) (base : ℕ) (text : Bytes) : FromChars :=
  let negative := t.signed && text.head? == some 45
  let digits := (if negative then text.drop 1 else text).takeWhile (isDigitOf base)
  let magnitude : ℤ := digitsValue base digits
  let value := if negative then -magnitude else magnitude
  if digits = [] then ⟨0, none⟩
  else
    { position := (if negative then 1 else 0) + digits.length
      value := if t.InRange value then some value else none }

def parseArithmetic (t : IntType) (text : Bytes) (typeName : String) : Except ConvertError ℤ :=
  let body := trim text
  if body = [] then .error ⟨typeName, .emptyScalar, []⟩
  else
    let body := if body.head? = some 43 then body.drop 1 else body
    let hexadecimal := 2 < body.length ∧ body[0]? = some 48 ∧
      (body[1]? = some 120 ∨ body[1]? = some 88)
    let base := if hexadecimal then 16 else 10
    let body := if hexadecimal then body.drop 2 else body
    let result := fromChars t base body
    match result.value with
    | none => .error ⟨typeName, .notNumber, text⟩
    | some value =>
      if result.position ≠ body.length then .error ⟨typeName, .notNumber, text⟩ else .ok value

/-- `std::to_chars` into a buffer of this size. -/
def toChars (size : ℕ) (value : ℤ) : Option Bytes :=
  let text := if value < 0 then 45 :: decimal value.natAbs else decimal value.natAbs
  if text.length ≤ size then some text else none

/-- The scalar that `ArithmeticToNode` makes. -/
def arithmeticToNode (value : ℤ) (typeName : String) : Except ConvertError Bytes :=
  match toChars 64 value with
  | none => .error ⟨typeName, .notFormatted, []⟩
  | some text => .ok text

/-! ### Numbers -/

def IsNumber (base : ℕ) (digits : Bytes) : Prop :=
  digits ≠ [] ∧ ∀ b ∈ digits, isDigitOf base b = true

/-- Decimal digits behind at most one sign. -/
inductive Decimal : Bytes → ℤ → Prop
  | plain {digits : Bytes} : IsNumber 10 digits → Decimal digits (digitsValue 10 digits)
  | plus {digits : Bytes} : IsNumber 10 digits → Decimal (43 :: digits) (digitsValue 10 digits)
  | minus {digits : Bytes} : IsNumber 10 digits → Decimal (45 :: digits) (-digitsValue 10 digits)

/-- Hexadecimal digits behind their prefix and perhaps a plus. -/
inductive Hexadecimal : Bytes → ℤ → Prop
  | plain {x : UInt8} {digits : Bytes} : x = 120 ∨ x = 88 → IsNumber 16 digits →
      Hexadecimal (48 :: x :: digits) (digitsValue 16 digits)
  | plus {x : UInt8} {digits : Bytes} : x = 120 ∨ x = 88 → IsNumber 16 digits →
      Hexadecimal (43 :: 48 :: x :: digits) (digitsValue 16 digits)

/-- What is left of a text between blanks. -/
def Trimmed (text body : Bytes) : Prop :=
  ∃ front back, text = front ++ (body ++ back) ∧ Blank front ∧ Blank back

/-- What is asked of the parser on a text: it returns numbers alone, as they are, and every
decimal one in range, where negative ones are not asked of a type without them. -/
def Exact (t : IntType) (text : Bytes) (typeName : String) : Prop :=
  (∀ value, parseArithmetic t text typeName = .ok value → ∃ body, Trimmed text body ∧
    (Decimal body value ∨ Hexadecimal body value) ∧ t.InRange value) ∧
  ∀ body value, Trimmed text body → Decimal body value → t.InRange value →
    (t.signed = false → body.head? ≠ some 45) → parseArithmetic t text typeName = .ok value

/-- A minus behind a plus, or behind the prefix. -/
inductive MisplacedMinus : Bytes → ℤ → Prop
  | behindPlus {digits : Bytes} : IsNumber 10 digits →
      MisplacedMinus (43 :: 45 :: digits) (-digitsValue 10 digits)
  | behindPrefix {x : UInt8} {digits : Bytes} : x = 120 ∨ x = 88 → IsNumber 16 digits →
      MisplacedMinus (48 :: x :: 45 :: digits) (-digitsValue 16 digits)
  | behindBoth {x : UInt8} {digits : Bytes} : x = 120 ∨ x = 88 → IsNumber 16 digits →
      MisplacedMinus (43 :: 48 :: x :: 45 :: digits) (-digitsValue 16 digits)

/-! ### Texts that are taken up whole -/

variable {t : IntType} {base : ℕ} {text body digits : Bytes} {value : ℤ} {typeName : String}

/-- What `std::from_chars` gives where it takes up all of a text. -/
def number (t : IntType) (base : ℕ) (text : Bytes) : Option ℤ :=
  if (fromChars t base text).position = text.length then (fromChars t base text).value else none

theorem minus_not_digit (base : ℕ) : isDigitOf base 45 = false := rfl

theorem length_takeWhile_iff : (text.takeWhile (isDigitOf base)).length = text.length ↔
    ∀ b ∈ text, isDigitOf base b = true := by
  rw [← List.takeWhile_eq_self_iff]
  exact ⟨fun h => (List.takeWhile_prefix _).eq_of_length h, fun h => by rw [h]⟩

/-- The digits that are read, with the sign in front of them. -/
theorem fromChars_eq (value : ℤ) (body : Bytes) {negative : Bool}
    (h : (t.signed && text.head? == some 45) = negative)
    (hbody : (if negative then text.drop 1 else text) = body) :
    ((fromChars t base text).position = (if negative then 1 else 0) + body.length ∧
      (fromChars t base text).value = some value) ↔
      t.InRange value ∧ IsNumber base body ∧
        value = if negative then -(digitsValue base body : ℤ) else digitsValue base body := by
  rw [fromChars, h, hbody]
  by_cases hdigits : ∀ b ∈ body, isDigitOf base b = true
  · rw [List.takeWhile_eq_self_iff.mpr hdigits]
    generalize (if negative then -(digitsValue base body : ℤ) else digitsValue base body) = read
    by_cases hne : body = []
    · rw [if_pos hne]
      exact ⟨fun h => absurd h.2 (Option.some_ne_none _).symm, fun h => absurd hne h.2.1.1⟩
    · rw [if_neg hne]
      constructor
      · rintro ⟨-, hvalue⟩
        dsimp only at hvalue
        split at hvalue
        · next hrange =>
          cases hvalue
          exact ⟨hrange, ⟨hne, hdigits⟩, rfl⟩
        · cases hvalue
      · rintro ⟨hrange, -, rfl⟩
        exact ⟨rfl, if_pos hrange⟩
  · constructor
    · rintro ⟨hposition, hvalue⟩
      split at hvalue
      · cases hvalue
      · next hne =>
        rw [if_neg hne] at hposition
        exact absurd (length_takeWhile_iff.mp (Nat.add_left_cancel hposition)) hdigits
    · exact fun h => absurd h.2.1.2 hdigits

theorem number_eq_some : number t base text = some value ↔
    (fromChars t base text).position = text.length ∧
      (fromChars t base text).value = some value := by
  rw [number]
  by_cases hposition : (fromChars t base text).position = text.length
  · rw [if_pos hposition]
    exact ⟨fun h => ⟨hposition, h⟩, fun h => h.2⟩
  · rw [if_neg hposition]
    exact ⟨fun h => absurd h (Option.some_ne_none _).symm, fun h => absurd h.1 hposition⟩

theorem not_isNumber_minus : ¬IsNumber base (45 :: digits) := by
  intro h
  have hminus := h.2 45 List.mem_cons_self
  rw [minus_not_digit] at hminus
  exact Bool.false_ne_true hminus

/-- **The texts** that are numbers for `std::from_chars`. -/
theorem number_iff : number t base text = some value ↔ t.InRange value ∧
    ((IsNumber base text ∧ value = digitsValue base text) ∨
      t.signed = true ∧ ∃ digits, text = 45 :: digits ∧ IsNumber base digits ∧
        value = -digitsValue base digits) := by
  rw [number_eq_some]
  cases hnegative : t.signed && text.head? == some 45 with
  | false =>
    -- no sign is taken: all of the text has to be digits
    have h := @fromChars_eq t base text value text false hnegative rfl
    have hnot : ¬(t.signed = true ∧ ∃ digits, text = 45 :: digits ∧ IsNumber base digits ∧
        value = -digitsValue base digits) := by
      rintro ⟨hsigned, digits, rfl, -⟩
      rw [hsigned] at hnegative
      exact Bool.false_ne_true hnegative.symm
    rw [or_iff_left hnot]
    simpa only [Bool.false_eq_true, if_false, Nat.zero_add] using h
  | true =>
    obtain ⟨hsigned, hhead⟩ := Bool.and_eq_true_iff.mp hnegative
    obtain ⟨digits, rfl⟩ := List.head?_eq_some_iff.mp (beq_iff_eq.mp hhead)
    have h := @fromChars_eq t base (45 :: digits) value digits true hnegative rfl
    rw [or_iff_right fun h => not_isNumber_minus h.1]
    have hright : (t.signed = true ∧ ∃ digits', 45 :: digits = 45 :: digits' ∧
        IsNumber base digits' ∧ value = -digitsValue base digits') ↔
        IsNumber base digits ∧ value = -digitsValue base digits := by
      constructor
      · rintro ⟨-, digits', heq, h⟩
        cases heq
        exact h
      · exact fun h => ⟨hsigned, digits, rfl, h⟩
    rw [hright]
    simpa only [if_true, List.length_cons, Nat.add_comm 1] using h

/-! ### Bodies -/

/-- What is behind a plus, or the text itself. -/
def afterPlus (body : Bytes) : Bytes := if body.head? = some 43 then body.drop 1 else body

def IsPrefixed (body : Bytes) : Prop :=
  2 < body.length ∧ body[0]? = some 48 ∧ (body[1]? = some 120 ∨ body[1]? = some 88)

instance (body : Bytes) : Decidable (IsPrefixed body) := inferInstanceAs (Decidable (_ ∧ _))

/-- The number behind the prefix, or the whole of a decimal one. -/
def readBody (t : IntType) (body : Bytes) : Option ℤ :=
  if IsPrefixed body then number t 16 (body.drop 2) else number t 10 body

theorem parseArithmetic_eq_ok : parseArithmetic t text typeName = .ok value ↔
    trim text ≠ [] ∧ readBody t (afterPlus (trim text)) = some value := by
  rw [parseArithmetic]
  by_cases hempty : trim text = []
  · rw [if_pos hempty]
    exact ⟨fun h => (by cases h), fun h => absurd hempty h.1⟩
  · have hread : ∀ base body, (match (fromChars t base body).value with
        | none => Except.error ⟨typeName, .notNumber, text⟩
        | some value =>
          if (fromChars t base body).position ≠ body.length then
            .error ⟨typeName, .notNumber, text⟩
          else .ok value) = (.ok value : Except ConvertError ℤ) ↔
        number t base body = some value := by
      intro base body
      rw [number_eq_some]
      split
      · next hvalue => simp [hvalue]
      · next read hvalue =>
        rw [hvalue]
        by_cases hposition : (fromChars t base body).position = body.length
        · simp [hposition]
        · simp [hposition]
    rw [if_neg hempty, readBody, afterPlus]
    -- both sides make the same test for the prefix
    simp only [hread]
    simp only [IsPrefixed, hempty, ne_eq, not_false_eq_true, true_and]
    split <;> split <;> rfl

theorem isPrefixed_iff : IsPrefixed body ↔
    ∃ x digits, body = 48 :: x :: digits ∧ (x = 120 ∨ x = 88) ∧ digits ≠ [] := by
  constructor
  · rintro ⟨hlength, hzero, hx⟩
    match body with
    | [] | [_] | [_, _] => exact absurd hlength (by simp)
    | a :: x :: c :: digits =>
      cases hzero
      exact ⟨x, c :: digits, rfl, hx.imp (fun h => Option.some_inj.mp h)
        fun h => Option.some_inj.mp h, List.cons_ne_nil _ _⟩
  · rintro ⟨x, digits, rfl, hx, hne⟩
    refine ⟨?_, rfl, hx.imp (congrArg some) (congrArg some)⟩
    have hpos := List.length_pos_of_ne_nil hne
    rw [List.length_cons, List.length_cons]
    omega

/-- A prefix is not part of a decimal number. -/
theorem not_isPrefixed (h : number t 10 body = some value) : ¬IsPrefixed body := by
  rintro hprefixed
  obtain ⟨x, digits, rfl, hx, -⟩ := isPrefixed_iff.mp hprefixed
  rcases (number_iff.mp h).2 with ⟨hnumber, -⟩ | ⟨-, digits', heq, -⟩
  · have hdigit := hnumber.2 x (List.mem_cons_of_mem _ List.mem_cons_self)
    rcases hx with rfl | rfl <;> exact Bool.false_ne_true hdigit
  · cases heq

theorem readBody_eq_some : readBody t body = some value ↔
    (∃ x digits, body = 48 :: x :: digits ∧ (x = 120 ∨ x = 88) ∧
      number t 16 digits = some value) ∨ number t 10 body = some value := by
  rw [readBody]
  constructor
  · intro h
    split at h
    · next hprefixed =>
      obtain ⟨x, digits, rfl, hx, -⟩ := isPrefixed_iff.mp hprefixed
      exact .inl ⟨x, digits, rfl, hx, h⟩
    · exact .inr h
  · rintro (⟨x, digits, rfl, hx, h⟩ | h)
    · have hne : digits ≠ [] := by
        rintro rfl
        rcases (number_iff.mp h).2 with hnumber | ⟨-, digits', heq, -⟩
        · exact hnumber.1.1 rfl
        · cases heq
      rw [if_pos (isPrefixed_iff.mpr ⟨x, digits, rfl, hx, hne⟩)]
      exact h
    · rw [if_neg (not_isPrefixed h)]
      exact h

theorem head?_ne_plus (h : IsNumber base digits) : digits.head? ≠ some 43 := by
  intro hhead
  obtain ⟨tail, rfl⟩ := List.head?_eq_some_iff.mp hhead
  exact Bool.false_ne_true (h.2 43 List.mem_cons_self)

theorem afterPlus_of_ne (h : body.head? ≠ some 43) : afterPlus body = body := if_neg h

/-- **What is read**: the numbers, and those with a minus in the wrong place. -/
theorem readBody_iff : readBody t (afterPlus body) = some value ↔ t.InRange value ∧
    ((Decimal body value ∧ (t.signed = false → body.head? ≠ some 45)) ∨ Hexadecimal body value ∨
      (t.signed = true ∧ MisplacedMinus body value)) := by
  constructor
  · intro h
    have hsplit : body = 43 :: afterPlus body ∨ body = afterPlus body ∧ body.head? ≠ some 43 := by
      by_cases hplus : body.head? = some 43
      · obtain ⟨tail, rfl⟩ := List.head?_eq_some_iff.mp hplus
        exact .inl rfl
      · exact .inr ⟨(afterPlus_of_ne hplus).symm, hplus⟩
    -- eight ways to read a text: prefix, minus and plus are there or not
    generalize hrest : afterPlus body = rest at h hsplit
    rcases readBody_eq_some.mp h with ⟨x, digits, rfl, hx, hnumber⟩ | hnumber
    · obtain ⟨hrange, ⟨hdigits, rfl⟩ | ⟨hsigned, digits, rfl, hdigits, rfl⟩⟩ :=
        number_iff.mp hnumber
      · rcases hsplit with rfl | ⟨rfl, -⟩
        · exact ⟨hrange, .inr (.inl (.plus hx hdigits))⟩
        · exact ⟨hrange, .inr (.inl (.plain hx hdigits))⟩
      · rcases hsplit with rfl | ⟨rfl, -⟩
        · exact ⟨hrange, .inr (.inr ⟨hsigned, .behindBoth hx hdigits⟩)⟩
        · exact ⟨hrange, .inr (.inr ⟨hsigned, .behindPrefix hx hdigits⟩)⟩
    · obtain ⟨hrange, ⟨hdigits, rfl⟩ | ⟨hsigned, digits, rfl, hdigits, rfl⟩⟩ :=
        number_iff.mp hnumber
      · rcases hsplit with rfl | ⟨rfl, -⟩
        · exact ⟨hrange, .inl ⟨.plus hdigits, fun _ => by simp⟩⟩
        · refine ⟨hrange, .inl ⟨.plain hdigits, fun _ hminus => ?_⟩⟩
          obtain ⟨tail, rfl⟩ := List.head?_eq_some_iff.mp hminus
          exact not_isNumber_minus hdigits
      · rcases hsplit with rfl | ⟨rfl, -⟩
        · exact ⟨hrange, .inr (.inr ⟨hsigned, .behindPlus hdigits⟩)⟩
        · refine ⟨hrange, .inl ⟨.minus hdigits, fun hunsigned => ?_⟩⟩
          rw [hunsigned] at hsigned
          exact absurd hsigned Bool.false_ne_true
  · rintro ⟨hrange, ⟨hdecimal, hminus⟩ | hhexadecimal | ⟨hsigned, hmisplaced⟩⟩
    · refine readBody_eq_some.mpr (.inr ?_)
      cases hdecimal with
      | plain hdigits =>
        rw [afterPlus_of_ne (head?_ne_plus hdigits)]
        exact number_iff.mpr ⟨hrange, .inl ⟨hdigits, rfl⟩⟩
      | plus hdigits => exact number_iff.mpr ⟨hrange, .inl ⟨hdigits, rfl⟩⟩
      | @minus digits hdigits =>
        have hsigned : t.signed = true := by
          by_contra hunsigned
          exact hminus (Bool.eq_false_of_not_eq_true hunsigned) rfl
        exact number_iff.mpr ⟨hrange, .inr ⟨hsigned, digits, rfl, hdigits, rfl⟩⟩
    · refine readBody_eq_some.mpr (.inl ?_)
      cases hhexadecimal with
      | @plain x digits hx hdigits =>
        exact ⟨x, digits, rfl, hx, number_iff.mpr ⟨hrange, .inl ⟨hdigits, rfl⟩⟩⟩
      | @plus x digits hx hdigits =>
        exact ⟨x, digits, rfl, hx, number_iff.mpr ⟨hrange, .inl ⟨hdigits, rfl⟩⟩⟩
    · rw [readBody_eq_some]
      cases hmisplaced with
      | @behindPlus digits hdigits =>
        exact .inr (number_iff.mpr ⟨hrange, .inr ⟨hsigned, digits, rfl, hdigits, rfl⟩⟩)
      | @behindPrefix x digits hx hdigits =>
        exact .inl ⟨x, 45 :: digits, rfl, hx,
          number_iff.mpr ⟨hrange, .inr ⟨hsigned, digits, rfl, hdigits, rfl⟩⟩⟩
      | @behindBoth x digits hx hdigits =>
        exact .inl ⟨x, 45 :: digits, rfl, hx,
          number_iff.mpr ⟨hrange, .inr ⟨hsigned, digits, rfl, hdigits, rfl⟩⟩⟩

/-! ### Texts -/

theorem isBlank_of_isDigitOf {b : UInt8} (h : isDigitOf base b = true) : isBlank b = false := by
  have hlow : 48 ≤ b.toNat := by
    rw [isDigitOf, digitValue] at h
    split at h
    · next hrange => exact hrange.1
    · split at h
      · next hrange => exact Nat.le_trans (by decide : 48 ≤ 97) hrange.1
      · split at h
        · next hrange => exact Nat.le_trans (by decide : 48 ≤ 65) hrange.1
        · cases h
  rw [isBlank, Bool.or_eq_false_iff, Bool.and_eq_false_iff, beq_eq_false_iff_ne,
    decide_eq_false_iff_not, decide_eq_false_iff_not, Ne, ← UInt8.toNat_inj,
    UInt8.le_iff_toNat_le, UInt8.le_iff_toNat_le]
  simp only [UInt8.reduceToNat]
  omega

/-- A text without blanks. -/
def Solid (body : Bytes) : Prop := body ≠ [] ∧ ∀ b ∈ body, isBlank b = false

theorem IsNumber.solid (h : IsNumber base digits) : Solid digits :=
  ⟨h.1, fun b hb => isBlank_of_isDigitOf (h.2 b hb)⟩

theorem Solid.cons {b : UInt8} (h : Solid body) (hb : isBlank b = false) : Solid (b :: body) :=
  ⟨List.cons_ne_nil _ _, List.forall_mem_cons.mpr ⟨hb, h.2⟩⟩

theorem isBlank_letterX {x : UInt8} (hx : x = 120 ∨ x = 88) : isBlank x = false := by
  rcases hx with rfl | rfl <;> rfl

theorem Decimal.solid (h : Decimal body value) : Solid body := by
  cases h with
  | plain hdigits => exact hdigits.solid
  | plus hdigits => exact hdigits.solid.cons rfl
  | minus hdigits => exact hdigits.solid.cons rfl

theorem Hexadecimal.solid (h : Hexadecimal body value) : Solid body := by
  cases h with
  | plain hx hdigits => exact (hdigits.solid.cons (isBlank_letterX hx)).cons rfl
  | plus hx hdigits => exact ((hdigits.solid.cons (isBlank_letterX hx)).cons rfl).cons rfl

theorem MisplacedMinus.solid (h : MisplacedMinus body value) : Solid body := by
  cases h with
  | behindPlus hdigits => exact (hdigits.solid.cons rfl).cons rfl
  | behindPrefix hx hdigits =>
    exact ((hdigits.solid.cons rfl).cons (isBlank_letterX hx)).cons rfl
  | behindBoth hx hdigits =>
    exact (((hdigits.solid.cons rfl).cons (isBlank_letterX hx)).cons rfl).cons rfl

theorem trim_of_trimmed (h : Trimmed text body) (hsolid : Solid body) : trim text = body := by
  obtain ⟨front, back, rfl, hfront, hback⟩ := h
  exact trim_append hfront hback hsolid.1
    (fun c hc => hsolid.2 c (List.mem_of_mem_head? hc))
    fun c hc => hsolid.2 c (List.mem_of_mem_getLast? hc)

/-- **What is parsed**: a text whose number may have a minus in the wrong place. -/
theorem parseArithmetic_iff : parseArithmetic t text typeName = .ok value ↔
    ∃ body, Trimmed text body ∧ t.InRange value ∧
      ((Decimal body value ∧ (t.signed = false → body.head? ≠ some 45)) ∨
        Hexadecimal body value ∨ (t.signed = true ∧ MisplacedMinus body value)) := by
  rw [parseArithmetic_eq_ok]
  constructor
  · rintro ⟨-, hread⟩
    exact ⟨trim text, exists_trim text, readBody_iff.mp hread⟩
  · rintro ⟨body, htrimmed, hbody⟩
    have hsolid : Solid body := by
      rcases hbody.2 with ⟨hdecimal, -⟩ | hhexadecimal | ⟨-, hmisplaced⟩
      · exact hdecimal.solid
      · exact hhexadecimal.solid
      · exact hmisplaced.solid
    rw [trim_of_trimmed htrimmed hsolid]
    exact ⟨hsolid.1, readBody_iff.mpr hbody⟩

theorem not_misplacedMinus_decimal {value' : ℤ} (h : MisplacedMinus body value) :
    ¬Decimal body value' := by
  intro hdecimal
  cases h with
  | behindPlus hdigits =>
    cases hdecimal with
    | plain hdigits' => exact Bool.false_ne_true (hdigits'.2 43 List.mem_cons_self)
    | plus hdigits' => exact not_isNumber_minus hdigits'
  | @behindPrefix x digits hx hdigits =>
    cases hdecimal with
    | plain hdigits' =>
      exact Bool.false_ne_true (hdigits'.2 45 (List.mem_cons_of_mem _
        (List.mem_cons_of_mem _ List.mem_cons_self)))
  | @behindBoth x digits hx hdigits =>
    cases hdecimal with
    | plain hdigits' => exact Bool.false_ne_true (hdigits'.2 43 List.mem_cons_self)
    | plus hdigits' =>
      exact Bool.false_ne_true (hdigits'.2 45 (List.mem_cons_of_mem _
        (List.mem_cons_of_mem _ List.mem_cons_self)))

theorem not_misplacedMinus_hexadecimal {value' : ℤ} (h : MisplacedMinus body value) :
    ¬Hexadecimal body value' := by
  intro hhexadecimal
  cases h with
  | behindPlus hdigits => cases hhexadecimal
  | behindPrefix hx hdigits =>
    cases hhexadecimal with
    | plain _ hdigits' => exact not_isNumber_minus hdigits'
  | behindBoth hx hdigits =>
    cases hhexadecimal with
    | plus _ hdigits' => exact not_isNumber_minus hdigits'

/-- A minus in the wrong place is read where the type has negative values. -/
theorem not_exact (hsigned : t.signed = true) (htrimmed : Trimmed text body)
    (hmisplaced : MisplacedMinus body value) (hrange : t.InRange value) :
    ¬Exact t text typeName := by
  rintro ⟨hsound, -⟩
  have hparse : parseArithmetic t text typeName = .ok value :=
    parseArithmetic_iff.mpr ⟨body, htrimmed, hrange, .inr (.inr ⟨hsigned, hmisplaced⟩)⟩
  obtain ⟨body', htrimmed', hnumber, -⟩ := hsound value hparse
  have htrim := trim_of_trimmed htrimmed hmisplaced.solid
  rcases hnumber with hdecimal | hhexadecimal
  · rw [← htrim, trim_of_trimmed htrimmed' hdecimal.solid] at hmisplaced
    exact not_misplacedMinus_decimal hmisplaced hdecimal
  · rw [← htrim, trim_of_trimmed htrimmed' hhexadecimal.solid] at hmisplaced
    exact not_misplacedMinus_hexadecimal hmisplaced hhexadecimal

/-! ### Printed numbers -/

theorem isNumber_decimal (n : ℕ) : IsNumber 10 (decimal n) ∧ digitsValue 10 (decimal n) = n := by
  obtain ⟨hne, hdigits, hvalue, -⟩ := wholeNumber_iff.mp (wholeNumber_decimal (Nat.le_refl n))
  exact ⟨⟨hne, hdigits⟩, hvalue⟩

theorem length_decimal_le {n k : ℕ} (hk : 0 < k) (h : n < 10 ^ k) : (decimal n).length ≤ k := by
  rw [decimal]
  split
  · exact hk
  · rw [List.length_map, List.length_reverse]
    exact (Nat.digits_length_le_iff (by decide) n).mpr h

theorem natAbs_lt (h : t.InRange value) : value.natAbs < 10 ^ 20 := by
  obtain ⟨hmin, hmax⟩ := h
  cases t <;> simp only [IntType.min, IntType.max, IntType.signed, IntType.bits] at hmin hmax <;>
    norm_num at hmin hmax <;> omega

/-- **Printed numbers** fit into the buffer and are read back. -/
theorem parseArithmetic_arithmeticToNode (typeName : String) (h : t.InRange value) :
    ∃ text, arithmeticToNode value typeName = .ok text ∧ Decimal text value ∧
      parseArithmetic t text typeName = .ok value := by
  obtain ⟨hnumber, hvalue⟩ := isNumber_decimal value.natAbs
  have hlength : (decimal value.natAbs).length ≤ 20 := length_decimal_le (by decide) (natAbs_lt h)
  have hblank : Blank [] := fun b hb => absurd hb List.not_mem_nil
  by_cases hnegative : value < 0
  · have hdecimal : Decimal (45 :: decimal value.natAbs) value := by
      have hminus := Decimal.minus hnumber
      have heq : -((digitsValue 10 (decimal value.natAbs) : ℕ) : ℤ) = value := by
        rw [hvalue]
        omega
      rwa [heq] at hminus
    have hsigned : t.signed = true := by
      by_contra hunsigned
      have hmin := h.1
      rw [IntType.min, if_neg hunsigned] at hmin
      omega
    refine ⟨45 :: decimal value.natAbs, ?_, hdecimal, ?_⟩
    · have hfits : (45 :: decimal value.natAbs).length ≤ 64 := by
        rw [List.length_cons]
        omega
      rw [arithmeticToNode, toChars, if_pos hnegative, if_pos hfits]
    · refine parseArithmetic_iff.mpr ⟨_, ⟨[], [], (List.append_nil _).symm, hblank, hblank⟩, h,
        .inl ⟨hdecimal, fun hunsigned => ?_⟩⟩
      rw [hunsigned] at hsigned
      exact absurd hsigned Bool.false_ne_true
  · have hdecimal : Decimal (decimal value.natAbs) value := by
      have hplain := Decimal.plain hnumber
      have heq : ((digitsValue 10 (decimal value.natAbs) : ℕ) : ℤ) = value := by
        rw [hvalue]
        omega
      rwa [heq] at hplain
    refine ⟨decimal value.natAbs, ?_, hdecimal, ?_⟩
    · have hfits : (decimal value.natAbs).length ≤ 64 := by omega
      rw [arithmeticToNode, toChars, if_neg hnegative, if_pos hfits]
    · refine parseArithmetic_iff.mpr ⟨_, ⟨[], [], (List.append_nil _).symm, hblank, hblank⟩, h,
        .inl ⟨hdecimal, fun _ hminus => ?_⟩⟩
      obtain ⟨tail, htail⟩ := List.head?_eq_some_iff.mp hminus
      rw [htail] at hnumber
      exact not_isNumber_minus hnumber

/-- **Integers** are parsed exactly where the text is not one of a type with negative values that
has its minus behind a plus or behind the prefix; and every printed one is read back. -/
theorem exact_iff (t : IntType) (text : Bytes) (typeName : String) :
    (Exact t text typeName ↔ ¬(t.signed = true ∧ ∃ body value,
      Trimmed text body ∧ MisplacedMinus body value ∧ t.InRange value)) ∧
    ∀ value, t.InRange value → ∃ printed,
      arithmeticToNode value typeName = .ok printed ∧
        parseArithmetic t printed typeName = .ok value := by
  refine ⟨⟨?_, fun hnot => ⟨fun value hparse => ?_, ?_⟩⟩, ?_⟩
  · rintro hexact ⟨hsigned, body, value, htrimmed, hmisplaced, hrange⟩
    exact not_exact hsigned htrimmed hmisplaced hrange hexact
  · obtain ⟨body, htrimmed, hrange, hbody⟩ := parseArithmetic_iff.mp hparse
    rcases hbody with ⟨hdecimal, -⟩ | hhexadecimal | ⟨hsigned, hmisplaced⟩
    · exact ⟨body, htrimmed, .inl hdecimal, hrange⟩
    · exact ⟨body, htrimmed, .inr hhexadecimal, hrange⟩
    · exact absurd ⟨hsigned, body, value, htrimmed, hmisplaced, hrange⟩ hnot
  · intro body value htrimmed hdecimal hrange hminus
    exact parseArithmetic_iff.mpr ⟨body, htrimmed, hrange, .inl ⟨hdecimal, hminus⟩⟩
  · intro value hrange
    obtain ⟨printed, hprinted, -, hparse⟩ := parseArithmetic_arithmeticToNode typeName hrange
    exact ⟨printed, hprinted, hparse⟩

/-- A minus behind a plus is read. -/
theorem not_exact_plus_minus : ¬∀ t text typeName, Exact t text typeName := by
  intro h
  have hnil : Blank [] := fun b hb => absurd hb List.not_mem_nil
  have hnumber : IsNumber 10 [53] := ⟨List.cons_ne_nil _ _, fun b hb => by
    rw [List.mem_singleton.mp hb]
    rfl⟩
  have hfive : MisplacedMinus [43, 45, 53] (-5) := .behindPlus hnumber
  exact not_exact rfl ⟨[], [], rfl, hnil, hnil⟩ hfive (by decide) (h .i32 [43, 45, 53] "int")

end Config

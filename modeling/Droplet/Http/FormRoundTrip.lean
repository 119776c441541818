/-
Forms are read back.

A form is a list of pairs, each an encoded key and an encoded value around an equals sign,
with ampersands between them.  The encoded texts have no ampersand and no equals sign, so
cutting the form before decoding it finds the pairs.

* `Decodes` — what `UrlDecode` makes of a text, escape by escape;
* `urlDecodeLoop_eq` — its loop reads no byte that is not there;
* `form_roundTrip` — the map of a form holds the first pair of every key.
-/
import Droplet.Http.KeyValueList

open Search

namespace Http

/-! ### Decoding -/

/-- The loop of `UrlDecode`, with a result only if every byte that it looks at is there. -/
def urlDecodeLoop (value : Bytes) (index : ℕ) : Option Bytes :=
  if index < value.length then
    value[index]?.bind fun b =>
      if b = 43 then (urlDecodeLoop value (index + 1)).map (32 :: ·)
      else if b = 37 ∧ index + 2 < value.length then
        value[index + 1]?.bind fun first => value[index + 2]?.bind fun second =>
          match hexValue first, hexValue second with
          | some high, some low =>
            (urlDecodeLoop value (index + 3)).map (UInt8.ofNat (high * 16 + low) :: ·)
          | _, _ => (urlDecodeLoop value (index + 1)).map (b :: ·)
      else (urlDecodeLoop value (index + 1)).map (b :: ·)
  else some []
termination_by value.length - index

/-- An escape is a percent sign with two hexadecimal digits. -/
def StartsEscape (text : Bytes) : Prop :=
  ∃ first second rest high low, text = 37 :: first :: second :: rest ∧
    hexValue first = some high ∧ hexValue second = some low

/-- Plus signs are spaces, escapes their bytes, and everything else stands for itself. -/
inductive Decodes : Bytes → Bytes → Prop
  | nil : Decodes [] []
  | plus {text decoded : Bytes} (h : Decodes text decoded) : Decodes (43 :: text) (32 :: decoded)
  | escape {text decoded : Bytes} {first second : UInt8} {high low : ℕ}
      (hfirst : hexValue first = some high) (hsecond : hexValue second = some low)
      (h : Decodes text decoded) :
      Decodes (37 :: first :: second :: text) (UInt8.ofNat (high * 16 + low) :: decoded)
  | other {text decoded : Bytes} {b : UInt8} (hplus : b ≠ 43) (hescape : ¬ StartsEscape (b :: text))
      (h : Decodes text decoded) : Decodes (b :: text) (b :: decoded)

variable {text decoded value : Bytes} {b : UInt8}

theorem urlDecode_other (hplus : b ≠ 43) (hescape : ¬ StartsEscape (b :: text)) :
    urlDecode (b :: text) = b :: urlDecode text := by
  rw [urlDecode.eq_def]
  split
  · next heq => exact absurd heq (by simp)
  · next heq => exact absurd (List.cons_eq_cons.mp heq).1 hplus
  · next first second rest heq =>
    obtain ⟨rfl, rfl⟩ := List.cons_eq_cons.mp heq
    split
    · next hfirst hsecond => exact absurd ⟨_, _, _, _, _, rfl, hfirst, hsecond⟩ hescape
    · rfl
  · next heq =>
    obtain ⟨rfl, rfl⟩ := List.cons_eq_cons.mp heq
    rfl

theorem urlDecode_escape {first second : UInt8} {high low : ℕ} (hfirst : hexValue first = some high)
    (hsecond : hexValue second = some low) :
    urlDecode (37 :: first :: second :: text) = UInt8.ofNat (high * 16 + low) :: urlDecode text := by
  rw [urlDecode, hfirst, hsecond]

/-- `UrlDecode` is determined by its escapes. -/
theorem Decodes.urlDecode_eq (h : Decodes text decoded) : urlDecode text = decoded := by
  induction h with
  | nil => rfl
  | plus h ih => rw [urlDecode, ih]
  | escape hfirst hsecond h ih => rw [urlDecode_escape hfirst hsecond, ih]
  | other hplus hescape h ih => rw [urlDecode_other hplus hescape, ih]

theorem decodes_urlDecode (text : Bytes) : Decodes text (urlDecode text) := by
  induction hn : text.length using Nat.strong_induction_on generalizing text with
  | _ n ih =>
    rcases text with _ | ⟨b, rest⟩
    · exact .nil
    · rw [List.length_cons] at hn
      by_cases hplus : b = 43
      · subst hplus
        exact .plus (ih rest.length (by omega) rest rfl)
      · by_cases hescape : StartsEscape (b :: rest)
        · obtain ⟨first, second, tail, high, low, heq, hfirst, hsecond⟩ := hescape
          obtain ⟨rfl, rfl⟩ := List.cons_eq_cons.mp heq
          rw [urlDecode_escape hfirst hsecond]
          rw [List.length_cons, List.length_cons] at hn
          exact .escape hfirst hsecond (ih tail.length (by omega) tail rfl)
        · rw [urlDecode_other hplus hescape]
          exact .other hplus hescape (ih rest.length (by omega) rest rfl)

/-- The loop reads within the text, and decodes it. -/
theorem urlDecodeLoop_eq (value : Bytes) (index : ℕ) :
    urlDecodeLoop value index = some (urlDecode (value.drop index)) := by
  induction hn : value.length - index using Nat.strong_induction_on generalizing index with
  | _ n ih =>
    rw [urlDecodeLoop]
    by_cases hlt : index < value.length
    · have hnext : ∀ k, 0 < k → urlDecodeLoop value (index + k) =
          some (urlDecode (value.drop (index + k))) := by
        intro k hk
        exact ih (value.length - (index + k)) (by omega) (index + k) rfl
      rw [if_pos hlt, List.getElem?_eq_getElem hlt, Option.bind_some,
        List.drop_eq_getElem_cons hlt]
      generalize value[index] = b
      by_cases hplus : b = 43
      · rw [if_pos hplus, hnext 1 Nat.one_pos, hplus, urlDecode]
        rfl
      · rw [if_neg hplus]
        by_cases hpercent : b = 37 ∧ index + 2 < value.length
        · obtain ⟨rfl, hroom⟩ := hpercent
          have hone : index + 1 < value.length := by omega
          rw [if_pos ⟨rfl, hroom⟩, List.getElem?_eq_getElem hone, Option.bind_some,
            List.getElem?_eq_getElem hroom, Option.bind_some, hnext 1 Nat.one_pos,
            hnext 3 (by omega), List.drop_eq_getElem_cons hone, List.drop_eq_getElem_cons hroom,
            urlDecode]
          rcases hexValue value[index + 1] with _ | high
          · rfl
          · rcases hexValue value[index + 2] with _ | low
            · rfl
            · rfl
        · rw [if_neg hpercent, hnext 1 Nat.one_pos, urlDecode_other hplus]
          · rfl
          · rintro ⟨first, second, rest, high, low, heq, -⟩
            obtain ⟨rfl, hrest⟩ := List.cons_eq_cons.mp heq
            have hlength := congrArg List.length hrest
            rw [List.length_drop, List.length_cons, List.length_cons] at hlength
            exact hpercent ⟨rfl, by omega⟩
    · rw [if_neg hlt, List.drop_eq_nil_of_le (Nat.le_of_not_lt hlt)]
      rfl

/-! ### Encoding -/

def isAlphanumeric (b : UInt8) : Bool :=
  (48 ≤ b && b ≤ 57) || (65 ≤ b && b ≤ 90) || (97 ≤ b && b ≤ 122)

/-- The encoded forms of some bytes: letters and digits stand for themselves, a space may be a
plus sign, and every byte may be an escape with digits of either case. -/
inductive Encodes : Bytes → Bytes → Prop
  | nil : Encodes [] []
  | literal {encoded bytes : Bytes} {b : UInt8} (hb : isAlphanumeric b = true)
      (h : Encodes encoded bytes) : Encodes (b :: encoded) (b :: bytes)
  | plus {encoded bytes : Bytes} (h : Encodes encoded bytes) : Encodes (43 :: encoded) (32 :: bytes)
  | escape {encoded bytes : Bytes} {b first second : UInt8} {high low : ℕ}
      (hfirst : hexValue first = some high) (hsecond : hexValue second = some low)
      (hb : b.toNat = high * 16 + low) (h : Encodes encoded bytes) :
      Encodes (37 :: first :: second :: encoded) (b :: bytes)

/-- The upper-case digit of a number. -/
def hexDigit (n : ℕ) : UInt8 := UInt8.ofNat (if n < 10 then 48 + n else 55 + n)

/-- The encoded form with upper-case digits; `plus` says how a space is written. -/
def urlEncode (plus : Bool) (bytes : Bytes) : Bytes :=
  bytes.flatMap fun b =>
    if isAlphanumeric b then [b]
    else if plus && b == 32 then [43]
    else [37, hexDigit (b.toNat / 16), hexDigit (b.toNat % 16)]

/-- A form of some pairs. -/
def IsForm (pairs : List (Bytes × Bytes)) (form : Bytes) : Prop :=
  ∃ encoded : List (Bytes × Bytes),
    List.Forall₂ (fun e pair => Encodes e.1 pair.1 ∧ Encodes e.2 pair.2) encoded pairs ∧
      form = [38].intercalate (encoded.map fun e => e.1 ++ 61 :: e.2)

variable {encoded bytes form : Bytes} {pairs : List (Bytes × Bytes)}

theorem hexValue_hexDigit {n : ℕ} (h : n < 16) : hexValue (hexDigit n) = some n := by
  interval_cases n <;> decide

theorem encodes_urlEncode (plus : Bool) (bytes : Bytes) : Encodes (urlEncode plus bytes) bytes := by
  induction bytes with
  | nil => exact .nil
  | cons b bytes ih =>
    rw [urlEncode, List.flatMap_cons]
    by_cases hb : isAlphanumeric b = true
    · rw [if_pos hb]
      exact .literal hb ih
    · rw [if_neg hb]
      by_cases hspace : (plus && b == 32) = true
      · rw [if_pos hspace]
        obtain rfl : b = 32 := beq_iff_eq.mp (Bool.and_eq_true_iff.mp hspace).2
        exact .plus ih
      · have hlt := b.toNat_lt
        rw [if_neg hspace]
        exact .escape (hexValue_hexDigit (by omega)) (hexValue_hexDigit (by omega)) (by omega) ih

theorem isAlphanumeric_of_hexValue {digit : UInt8} {n : ℕ} (h : hexValue digit = some n) :
    isAlphanumeric digit = true := by
  rw [hexValue] at h
  by_cases hdigit : (48 ≤ digit && digit ≤ 57) = true
  · rw [isAlphanumeric, hdigit, Bool.true_or, Bool.true_or]
  · rw [if_neg hdigit] at h
    dsimp only at h
    split_ifs at h with hletter
    rw [asciiLower] at hletter
    split_ifs at hletter with hupper
    · simp [isAlphanumeric, hupper]
    · simp only [isAlphanumeric]
      grind

/-- Only letters, digits, plus and percent signs are written. -/
theorem Encodes.forall_mem (h : Encodes encoded bytes) :
    ∀ b ∈ encoded, isAlphanumeric b = true ∨ b = 43 ∨ b = 37 := by
  induction h with
  | nil => exact fun b hb => absurd hb List.not_mem_nil
  | literal hb h ih => exact List.forall_mem_cons.mpr ⟨.inl hb, ih⟩
  | plus h ih => exact List.forall_mem_cons.mpr ⟨.inr (.inl rfl), ih⟩
  | escape hfirst hsecond hb h ih =>
    exact List.forall_mem_cons.mpr ⟨.inr (.inr rfl), List.forall_mem_cons.mpr
      ⟨.inl (isAlphanumeric_of_hexValue hfirst), List.forall_mem_cons.mpr ⟨.inl (isAlphanumeric_of_hexValue hsecond), ih⟩⟩⟩

/-- What is encoded is decoded again. -/
theorem Encodes.decodes (h : Encodes encoded bytes) : Decodes encoded bytes := by
  induction h with
  | nil => exact .nil
  | literal hb h ih =>
    refine .other ?_ ?_ ih
    · rintro rfl
      exact absurd hb (by decide)
    · rintro ⟨first, second, rest, high, low, heq, -⟩
      obtain ⟨rfl, -⟩ := List.cons_eq_cons.mp heq
      exact absurd hb (by decide)
  | plus h ih => exact .plus ih
  | escape hfirst hsecond hb h ih =>
    rename_i b first second high low
    have hbyte : b = UInt8.ofNat (high * 16 + low) := by
      rw [← hb, UInt8.ofNat_toNat]
    rw [hbyte]
    exact .escape hfirst hsecond ih

theorem Encodes.ne_nil (h : Encodes encoded bytes) (hbytes : bytes ≠ []) : encoded ≠ [] := by
  cases h with
  | nil => exact absurd rfl hbytes
  | _ => exact List.cons_ne_nil _ _

/-- A separator is not mistaken for a part of an encoded text. -/
theorem Encodes.notMem (h : Encodes encoded bytes) (hb : isAlphanumeric b = false) (hplus : b ≠ 43)
    (hpercent : b ≠ 37) : b ∉ encoded := by
  intro hmem
  rcases h.forall_mem b hmem with halpha | rfl | rfl
  · exact absurd (hb.symm.trans halpha) Bool.false_ne_true
  · exact hplus rfl
  · exact hpercent rfl

/-- The key and the value of an encoded pair. -/
theorem keyValue_of_encodes {e pair : Bytes × Bytes} (hkey : Encodes e.1 pair.1)
    (hvalue : Encodes e.2 pair.2) (hne : pair.1 ≠ []) :
    keyValue false (e.1 ++ 61 :: e.2) = some pair := by
  have hmark : 61 ∉ e.1 := hkey.notMem (by decide) (by decide) (by decide)
  have hempty : ¬ e.1.isEmpty = true := by simpa using hkey.ne_nil hne
  show (if (((e.1 ++ 61 :: e.2).takeWhile (· != 61))).isEmpty then _ else _) = _
  rw [takeWhile_append_cons hmark, if_neg hempty]
  show some (urlDecode ((e.1 ++ 61 :: e.2).takeWhile (· != 61)),
    urlDecode (((e.1 ++ 61 :: e.2).dropWhile (· != 61)).drop 1)) = _
  rw [takeWhile_append_cons hmark, dropWhile_append_cons hmark, List.drop_succ_cons, List.drop_zero,
    hkey.decodes.urlDecode_eq, hvalue.decodes.urlDecode_eq]

/-- The parts of a form have no ampersand. -/
theorem amp_notMem_part {encoded : List (Bytes × Bytes)}
    (h : List.Forall₂ (fun e pair => Encodes e.1 pair.1 ∧ Encodes e.2 pair.2) encoded pairs) :
    ∀ part ∈ encoded.map (fun e => e.1 ++ 61 :: e.2), 38 ∉ part := by
  induction h with
  | nil => exact fun part hpart => absurd hpart List.not_mem_nil
  | cons hpair hrest ih =>
    refine List.forall_mem_cons.mpr ⟨?_, ih⟩
    rw [List.mem_append, List.mem_cons, not_or, not_or]
    exact ⟨hpair.1.notMem (by decide) (by decide) (by decide), by decide,
      hpair.2.notMem (by decide) (by decide) (by decide)⟩

/-- A form is cut into its pairs. -/
theorem keyValuePairs_of_isForm (h : IsForm pairs form) (hkeys : ∀ pair ∈ pairs, pair.1 ≠ []) :
    keyValuePairs 38 false form = pairs := by
  obtain ⟨encoded, hencoded, rfl⟩ := h
  rcases encoded with _ | ⟨e, encoded⟩
  · obtain rfl := List.forall₂_nil_left_iff.mp hencoded
    rfl
  · rw [keyValuePairs, List.splitOn_intercalate _ (amp_notMem_part hencoded) (by simp)]
    generalize e :: encoded = encoded at hencoded
    induction hencoded with
    | nil => rfl
    | cons hpair hrest ih =>
      rw [List.map_cons, List.filterMap_cons, keyValue_of_encodes hpair.1 hpair.2
        (hkeys _ List.mem_cons_self), ih fun pair hmem => hkeys pair (List.mem_cons_of_mem _ hmem)]

/-- **Forms are read back.**  The map of a form holds the first pair of every key and nothing
else; and every text, whatever its escapes, is decoded without looking behind its end, where
what is neither a plus sign nor an escape stays as it is. -/
theorem form_roundTrip (h : IsForm pairs form) (hkeys : ∀ pair ∈ pairs, pair.1 ≠ []) (text : Bytes) :
    (∀ e, e ∈ (parseKeyValueList form 38 .empty false).entries ↔
      (pairs.find? fun pair => caseInsensitiveEqual pair.1 e.1) = some e) ∧
    urlDecodeLoop text 0 = some (urlDecode text) ∧
    ∀ decoded, urlDecode text = decoded ↔ Decodes text decoded := by
  refine ⟨?_, urlDecodeLoop_eq text 0, ?_⟩
  · intro e
    rw [parseKeyValueList_eq, keyValuePairs_of_isForm h hkeys, HttpMap.mem_emplaceAll]
    simp [HttpMap.empty, HttpMap.find?]
  · intro decoded
    constructor
    · rintro rfl
      exact decodes_urlDecode text
    · exact Decodes.urlDecode_eq

/-- Two spellings of a key with a byte that is escaped, and a text with a broken escape. -/
theorem form_roundTrip_twice :
    (parseKeyValueList (ascii "a%26+b=1%3d2&A%26%20B=3&c=") 38 .empty false).entries =
      [(ascii "a& b", ascii "1=2"), (ascii "c", [])] ∧
    (ascii "a& b", ascii "1=2") ∈
      (parseKeyValueList (ascii "a%26+b=1%3d2&A%26%20B=3&c=") 38 .empty false).entries ∧
    Decodes (ascii "%4g%41%") (ascii "%4gA%") := by
  have hform : IsForm [(ascii "a& b", ascii "1=2"), (ascii "A& B", ascii "3"), (ascii "c", [])]
      (ascii "a%26+b=1%3d2&A%26%20B=3&c=") := by
    refine ⟨[(ascii "a%26+b", ascii "1%3d2"), (ascii "A%26%20B", ascii "3"), (ascii "c", [])],
      .cons ⟨?_, ?_⟩ (.cons ⟨?_, ?_⟩ (.cons ⟨?_, ?_⟩ .nil)), by decide⟩
    · exact .literal rfl (.escape rfl rfl rfl (.plus (.literal rfl .nil)))
    · exact .literal rfl (.escape rfl rfl rfl (.literal rfl .nil))
    · exact .literal rfl (.escape rfl rfl rfl (.escape rfl rfl rfl (.literal rfl .nil)))
    · exact .literal rfl .nil
    · exact .literal rfl .nil
    · exact .nil
  obtain ⟨hmem, -, hdecodes⟩ := form_roundTrip hform (by decide) (ascii "%4g%41%")
  refine ⟨by decide +kernel, (hmem _).mpr (by decide +kernel), (hdecodes _).mp (by decide)⟩

end Http

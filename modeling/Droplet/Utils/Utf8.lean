/-
UTF-8 in both directions.

Wide characters have 32 bits, and a failed check of a precondition returns the empty string.
Reads of the text are checked here: one past its end is an outcome of its own, as is a loop
that has not ended within the rounds that it is given.

* `Character`, `Encoding` — the well-formed byte sequences of one code point, and of a text;
* `character_iff` — they are what the writer appends for the scalar values;
* `decode_of_character`, `character_of_decode` — a round of the reader takes one of them;
* `utf8_exact` — which texts are decoded, and that each direction undoes the other.
-/
import Droplet.Http.Text

open Http

namespace StringUtils

/-! ### The source -/

def maxUnicodeCodePoint : UInt32 := 0x10FFFF

def isHighSurrogate (value : UInt32) : Bool := 0xD800 ≤ value && value ≤ 0xDBFF

def isLowSurrogate (value : UInt32) : Bool := 0xDC00 ≤ value && value ≤ 0xDFFF

def appendUtf8 (output : Bytes) (codePoint : UInt32) : Bytes :=
  if codePoint ≤ 0x7F then output ++ [codePoint.toUInt8]
  else if codePoint ≤ 0x7FF then
    output ++ [((0xC0 : UInt32) ||| codePoint >>> 6).toUInt8,
      ((0x80 : UInt32) ||| codePoint &&& 0x3F).toUInt8]
  else if codePoint ≤ 0xFFFF then
    output ++ [((0xE0 : UInt32) ||| codePoint >>> 12).toUInt8,
      ((0x80 : UInt32) ||| codePoint >>> 6 &&& 0x3F).toUInt8,
      ((0x80 : UInt32) ||| codePoint &&& 0x3F).toUInt8]
  else
    output ++ [((0xF0 : UInt32) ||| codePoint >>> 18).toUInt8,
      ((0x80 : UInt32) ||| codePoint >>> 12 &&& 0x3F).toUInt8,
      ((0x80 : UInt32) ||| codePoint >>> 6 &&& 0x3F).toUInt8,
      ((0x80 : UInt32) ||| codePoint &&& 0x3F).toUInt8]

/-- What `DecodeUtf8CodePoint` returns and writes. -/
structure Decoded where
  ok : Bool
  offset : ℕ
  codePoint : UInt32
  deriving DecidableEq

/-- What the first byte says: its part of the code point, the least one that may be written so,
and how many bytes follow. -/
def leadByte (first : UInt8) : Option (UInt32 × UInt32 × ℕ) :=
  if 0xC2 ≤ first ∧ first ≤ 0xDF then some ((first &&& 0x1F).toUInt32, 0x80, 1)
  else if 0xE0 ≤ first ∧ first ≤ 0xEF then some ((first &&& 0x0F).toUInt32, 0x800, 2)
  else if 0xF0 ≤ first ∧ first ≤ 0xF4 then some ((first &&& 0x07).toUInt32, 0x10000, 3)
  else none

/-- The loop over the bytes that follow; `none` is a read past the end. -/
def continuations (text : Bytes) : ℕ → ℕ → UInt32 → Option Decoded
  | 0, offset, codePoint => some ⟨true, offset, codePoint⟩
  | count + 1, offset, codePoint =>
    match text[offset]? with
    | none => none
    | some continuation =>
      if continuation &&& 0xC0 ≠ 0x80 then some ⟨false, offset + 1, codePoint⟩
      else
        continuations text count (offset + 1)
          (codePoint <<< 6 ||| (continuation &&& 0x3F).toUInt32)

/-- The test behind the loop. -/
def checkCodePoint (minimumCodePoint : UInt32) (decoded : Decoded) : Decoded :=
  if !decoded.ok then decoded
  else if decoded.codePoint < minimumCodePoint || maxUnicodeCodePoint < decoded.codePoint ||
      isHighSurrogate decoded.codePoint || isLowSurrogate decoded.codePoint then
    { decoded with ok := false }
  else decoded

def decodeUtf8CodePoint (text : Bytes) (offset : ℕ) : Option Decoded :=
  match text[offset]? with
  | none => none
  | some first =>
    let offset := offset + 1
    if first ≤ 0x7F then some ⟨true, offset, first.toUInt32⟩
    else
      match leadByte first with
      | none => some ⟨false, offset, 0⟩
      | some (codePoint, minimumCodePoint, continuationCount) =>
        if text.length - offset < continuationCount then some ⟨false, offset, codePoint⟩
        else
          (continuations text continuationCount offset codePoint).map
            (checkCodePoint minimumCodePoint)

/-- The loop of `WStringToString`. -/
def encodeLoop : List UInt32 → Bytes → Bytes
  | [], result => result
  | codePoint :: text, result =>
    if codePoint ≤ maxUnicodeCodePoint && !isHighSurrogate codePoint &&
        !isLowSurrogate codePoint then
      encodeLoop text (appendUtf8 result codePoint)
    else []

def wStringToString (text : List UInt32) : Bytes := encodeLoop text []

/-- How the loop of `StringToWString` ends, if it does within the rounds it is given. -/
inductive Outcome
  | decoded (result : List UInt32)
  | rejected
  | outOfBounds
  | running
  deriving DecidableEq

def decodeLoop (text : Bytes) : ℕ → ℕ → List UInt32 → Outcome
  | rounds, offset, result =>
    if offset < text.length then
      match rounds with
      | 0 => .running
      | rounds + 1 =>
        match decodeUtf8CodePoint text offset with
        | none => .outOfBounds
        | some decoded =>
          if decoded.ok then decodeLoop text rounds decoded.offset (result ++ [decoded.codePoint])
          else .rejected
    else .decoded result

/-- A round for every byte is enough. -/
def stringToWString (text : Bytes) : List UInt32 :=
  match decodeLoop text text.length 0 [] with
  | .decoded result => result
  | _ => []

/-! ### Well-formed texts -/

/-- A byte of a code point behind its first one. -/
def Tail (b : UInt8) : Prop := 0x80 ≤ b ∧ b ≤ 0xBF

/-- The byte sequences of one code point: those that a shorter one could be, the surrogates and
what is above the last code point are left out. -/
inductive Character : Bytes → ℕ → Prop
  | one {a : UInt8} : a ≤ 0x7F → Character [a] a.toNat
  | two {a b : UInt8} : 0xC2 ≤ a → a ≤ 0xDF → Tail b →
      Character [a, b] ((a.toNat - 0xC0) * 64 + (b.toNat - 0x80))
  | three {a b c : UInt8} : 0xE0 ≤ a → a ≤ 0xEF → Tail b → Tail c →
      (a = 0xE0 → 0xA0 ≤ b) → (a = 0xED → b ≤ 0x9F) →
      Character [a, b, c] (((a.toNat - 0xE0) * 64 + (b.toNat - 0x80)) * 64 + (c.toNat - 0x80))
  | four {a b c d : UInt8} : 0xF0 ≤ a → a ≤ 0xF4 → Tail b → Tail c → Tail d →
      (a = 0xF0 → 0x90 ≤ b) → (a = 0xF4 → b ≤ 0x8F) →
      Character [a, b, c, d] ((((a.toNat - 0xF0) * 64 + (b.toNat - 0x80)) * 64 +
        (c.toNat - 0x80)) * 64 + (d.toNat - 0x80))

/-- A text and its code points. -/
inductive Encoding : Bytes → List UInt32 → Prop
  | nil : Encoding [] []
  | cons {bytes text : Bytes} {codePoint : UInt32} {codePoints : List UInt32} :
      Character bytes codePoint.toNat → Encoding text codePoints →
      Encoding (bytes ++ text) (codePoint :: codePoints)

def WellFormed (text : Bytes) : Prop := ∃ codePoints, Encoding text codePoints

/-- A Unicode scalar value. -/
def IsScalar (codePoint : UInt32) : Prop :=
  codePoint ≤ 0x10FFFF ∧ ¬(0xD800 ≤ codePoint ∧ codePoint ≤ 0xDFFF)

/-! ### Bits -/

variable {a b c : UInt8} {n : ℕ} {bytes text rest : Bytes}

theorem tail_iff : c &&& 0xC0 = 0x80 ↔ Tail c := by
  -- all bytes are tried
  have hall : ∀ n < 256, UInt8.ofNat n &&& 0xC0 = 0x80 ↔
      0x80 ≤ UInt8.ofNat n ∧ UInt8.ofNat n ≤ 0xBF := by
    decide +kernel
  have hc := hall c.toNat c.toNat_lt
  rwa [UInt8.ofNat_toNat] at hc

theorem Tail.toNat (h : Tail c) : 0x80 ≤ c.toNat ∧ c.toNat ≤ 0xBF := h

theorem toNat_and_ones (c : UInt8) {m : UInt8} {i : ℕ} (hm : m.toNat = 2 ^ i - 1) :
    (c &&& m).toUInt32.toNat = c.toNat % 2 ^ i := by
  rw [UInt8.toNat_toUInt32, UInt8.toNat_and, hm, Nat.and_two_pow_sub_one_eq_mod]

/-- Six more bits of a code point. -/
theorem toNat_next (codePoint : UInt32) (hsmall : codePoint.toNat < 2 ^ 26) (hc : Tail c) :
    (codePoint <<< 6 ||| (c &&& 0x3F).toUInt32).toNat =
      codePoint.toNat * 64 + (c.toNat - 0x80) := by
  have hshift : codePoint.toNat <<< 6 % 2 ^ 32 = 2 ^ 6 * codePoint.toNat := by
    rw [Nat.shiftLeft_eq]
    omega
  have htail := hc.toNat
  rw [UInt32.toNat_or, UInt32.toNat_shiftLeft, toNat_and_ones c (i := 6) rfl]
  change codePoint.toNat <<< 6 % 2 ^ 32 ||| _ = _
  rw [hshift, ← Nat.two_pow_add_eq_or_of_lt (Nat.mod_lt _ (by decide))]
  omega

theorem toNat_two_tails (codePoint : UInt32) (hsmall : codePoint.toNat < 2 ^ 20) (hb : Tail b)
    (hc : Tail c) :
    ((codePoint <<< 6 ||| (b &&& 0x3F).toUInt32) <<< 6 ||| (c &&& 0x3F).toUInt32).toNat =
      (codePoint.toNat * 64 + (b.toNat - 0x80)) * 64 + (c.toNat - 0x80) := by
  have hfirst := toNat_next codePoint (by omega) hb
  have hb' := hb.toNat
  rw [toNat_next _ (by omega) hc, hfirst]

theorem toNat_three_tails {d : UInt8} (codePoint : UInt32) (hsmall : codePoint.toNat < 2 ^ 14)
    (hb : Tail b) (hc : Tail c) (hd : Tail d) :
    (((codePoint <<< 6 ||| (b &&& 0x3F).toUInt32) <<< 6 ||| (c &&& 0x3F).toUInt32) <<< 6 |||
      (d &&& 0x3F).toUInt32).toNat =
        ((codePoint.toNat * 64 + (b.toNat - 0x80)) * 64 + (c.toNat - 0x80)) * 64 +
          (d.toNat - 0x80) := by
  have htwo := toNat_two_tails codePoint (by omega) hb hc
  have hb' := hb.toNat
  have hc' := hc.toNat
  rw [toNat_next _ (by omega) hd, htwo]

/-- A byte of a marker and the bits under it. -/
theorem toUInt8_or {m x : UInt32} (i k : ℕ) (hm : m.toNat = 2 ^ i * k) (hx : x.toNat < 2 ^ i) :
    (m ||| x).toUInt8 = UInt8.ofNat (m.toNat + x.toNat) := by
  rw [← UInt8.toNat_inj, UInt32.toNat_toUInt8, UInt32.toNat_or, UInt8.toNat_ofNat', hm,
    ← Nat.two_pow_add_eq_or_of_lt hx]

theorem toUInt8_continuation (x : UInt32) :
    ((0x80 : UInt32) ||| x &&& 0x3F).toUInt8 = UInt8.ofNat (0x80 + x.toNat % 64) := by
  have hx : (x &&& 0x3F).toNat = x.toNat % 2 ^ 6 := by
    rw [UInt32.toNat_and]
    exact Nat.and_two_pow_sub_one_eq_mod _ 6
  have hlt : (x &&& 0x3F).toNat < 2 ^ 6 := hx ▸ Nat.mod_lt _ (by decide)
  rw [toUInt8_or 6 2 rfl hlt, hx]
  rfl

theorem toNat_shiftRight (x : UInt32) {s : UInt32} (hs : s.toNat < 32) :
    (x >>> s).toNat = x.toNat / 2 ^ s.toNat := by
  rw [UInt32.toNat_shiftRight, Nat.mod_eq_of_lt hs, Nat.shiftRight_eq_div_pow]

/-- The bytes of a code point, as numbers. -/
def written (n : ℕ) : Bytes :=
  if n ≤ 0x7F then [UInt8.ofNat n]
  else if n ≤ 0x7FF then [UInt8.ofNat (0xC0 + n / 64), UInt8.ofNat (0x80 + n % 64)]
  else if n ≤ 0xFFFF then
    [UInt8.ofNat (0xE0 + n / 4096), UInt8.ofNat (0x80 + n / 64 % 64), UInt8.ofNat (0x80 + n % 64)]
  else
    [UInt8.ofNat (0xF0 + n / 262144), UInt8.ofNat (0x80 + n / 4096 % 64),
      UInt8.ofNat (0x80 + n / 64 % 64), UInt8.ofNat (0x80 + n % 64)]

theorem appendUtf8_eq (output : Bytes) {codePoint : UInt32} (hmax : codePoint ≤ 0x10FFFF) :
    appendUtf8 output codePoint = output ++ written codePoint.toNat := by
  have hmax' : codePoint.toNat ≤ 0x10FFFF := hmax
  have h6 : (codePoint >>> 6).toNat = codePoint.toNat / 64 :=
    toNat_shiftRight codePoint (by decide)
  have h12 : (codePoint >>> 12).toNat = codePoint.toNat / 4096 :=
    toNat_shiftRight codePoint (by decide)
  have h18 : (codePoint >>> 18).toNat = codePoint.toNat / 262144 :=
    toNat_shiftRight codePoint (by decide)
  -- only the first byte of each form is left: its marker and the bits under it do not overlap
  simp only [appendUtf8, written, toUInt8_continuation, h6, h12, UInt32.le_iff_toNat_le,
    UInt32.reduceToNat]
  split
  · rfl
  · split
    · have hlead : (codePoint >>> 6).toNat < 2 ^ 6 := by omega
      rw [toUInt8_or 6 3 rfl hlead, h6]
      rfl
    · split
      · have hlead : (codePoint >>> 12).toNat < 2 ^ 5 := by omega
        rw [toUInt8_or 5 7 rfl hlead, h12]
        rfl
      · have hlead : (codePoint >>> 18).toNat < 2 ^ 4 := by omega
        rw [toUInt8_or 4 15 rfl hlead, h18]
        rfl

/-! ### Code points -/

theorem toNat_ofNat_of_lt (h : n < 256) : (UInt8.ofNat n).toNat = n := by
  rw [UInt8.toNat_ofNat', Nat.mod_eq_of_lt h]

theorem eq_ofNat_of_toNat (h : a.toNat = n) : a = UInt8.ofNat n := by
  rw [← h, UInt8.ofNat_toNat]

theorem toNat_tail {x : ℕ} (hx : x < 64) : (UInt8.ofNat (0x80 + x)).toNat = 0x80 + x :=
  toNat_ofNat_of_lt (by omega)

theorem tail_ofNat {x : ℕ} (hx : x < 64) : Tail (UInt8.ofNat (0x80 + x)) := by
  have hlow : 0x80 ≤ (UInt8.ofNat (0x80 + x)).toNat := by
    rw [toNat_tail hx]
    omega
  have hhigh : (UInt8.ofNat (0x80 + x)).toNat ≤ 0xBF := by
    rw [toNat_tail hx]
    omega
  exact ⟨hlow, hhigh⟩

/-- The rules, on the bits under the markers. -/
theorem character_two {x y : ℕ} (hlow : 2 ≤ x) (hhigh : x < 32) (hy : y < 64) :
    Character [UInt8.ofNat (0xC0 + x), UInt8.ofNat (0x80 + y)] (x * 64 + y) := by
  have ha : (UInt8.ofNat (0xC0 + x)).toNat = 0xC0 + x := toNat_ofNat_of_lt (by omega)
  have hleast : 0xC2 ≤ (UInt8.ofNat (0xC0 + x)).toNat := by omega
  have hmost : (UInt8.ofNat (0xC0 + x)).toNat ≤ 0xDF := by omega
  have htwo := Character.two hleast hmost (tail_ofNat hy)
  rwa [ha, toNat_tail hy, Nat.add_sub_cancel_left, Nat.add_sub_cancel_left] at htwo

theorem character_three {x y z : ℕ} (hx : x < 16) (hy : y < 64) (hz : z < 64)
    (hleast : x = 0 → 32 ≤ y) (hmost : x = 13 → y < 32) :
    Character [UInt8.ofNat (0xE0 + x), UInt8.ofNat (0x80 + y), UInt8.ofNat (0x80 + z)]
      ((x * 64 + y) * 64 + z) := by
  have ha : (UInt8.ofNat (0xE0 + x)).toNat = 0xE0 + x := toNat_ofNat_of_lt (by omega)
  have hb := toNat_tail hy
  have hfirst : 0xE0 ≤ (UInt8.ofNat (0xE0 + x)).toNat := by omega
  have hlast : (UInt8.ofNat (0xE0 + x)).toNat ≤ 0xEF := by omega
  have hleast' : (UInt8.ofNat (0xE0 + x)).toNat = 0xE0 → 0xA0 ≤ (UInt8.ofNat (0x80 + y)).toNat := by
    omega
  have hmost' : (UInt8.ofNat (0xE0 + x)).toNat = 0xED → (UInt8.ofNat (0x80 + y)).toNat ≤ 0x9F := by
    omega
  have hthree := Character.three hfirst hlast (tail_ofNat hy) (tail_ofNat hz)
    (fun h => hleast' (congrArg UInt8.toNat h)) (fun h => hmost' (congrArg UInt8.toNat h))
  rwa [ha, hb, toNat_tail hz, Nat.add_sub_cancel_left, Nat.add_sub_cancel_left,
    Nat.add_sub_cancel_left] at hthree

theorem character_four {x y z u : ℕ} (hx : x < 5) (hy : y < 64) (hz : z < 64) (hu : u < 64)
    (hleast : x = 0 → 16 ≤ y) (hmost : x = 4 → y < 16) :
    Character [UInt8.ofNat (0xF0 + x), UInt8.ofNat (0x80 + y), UInt8.ofNat (0x80 + z),
      UInt8.ofNat (0x80 + u)] (((x * 64 + y) * 64 + z) * 64 + u) := by
  have ha : (UInt8.ofNat (0xF0 + x)).toNat = 0xF0 + x := toNat_ofNat_of_lt (by omega)
  have hb := toNat_tail hy
  have hfirst : 0xF0 ≤ (UInt8.ofNat (0xF0 + x)).toNat := by omega
  have hlast : (UInt8.ofNat (0xF0 + x)).toNat ≤ 0xF4 := by omega
  have hleast' : (UInt8.ofNat (0xF0 + x)).toNat = 0xF0 → 0x90 ≤ (UInt8.ofNat (0x80 + y)).toNat := by
    omega
  have hmost' : (UInt8.ofNat (0xF0 + x)).toNat = 0xF4 → (UInt8.ofNat (0x80 + y)).toNat ≤ 0x8F := by
    omega
  have hfour := Character.four hfirst hlast (tail_ofNat hy) (tail_ofNat hz) (tail_ofNat hu)
    (fun h => hleast' (congrArg UInt8.toNat h)) (fun h => hmost' (congrArg UInt8.toNat h))
  rwa [ha, hb, toNat_tail hz, toNat_tail hu, Nat.add_sub_cancel_left, Nat.add_sub_cancel_left,
    Nat.add_sub_cancel_left, Nat.add_sub_cancel_left] at hfour

theorem written_of_character (h : Character bytes n) :
    (n ≤ 0x10FFFF ∧ ¬(0xD800 ≤ n ∧ n ≤ 0xDFFF)) ∧ bytes = written n := by
  cases h with
  | @one a ha =>
    have ha' : a.toNat ≤ 0x7F := ha
    refine ⟨by omega, ?_⟩
    rw [written, if_pos ha', UInt8.ofNat_toNat]
  | @two a b hlow hhigh hb =>
    have ha : 0xC2 ≤ a.toNat ∧ a.toNat ≤ 0xDF := ⟨hlow, hhigh⟩
    have hb' := hb.toNat
    refine ⟨by omega, ?_⟩
    rw [written, if_neg (by omega), if_pos (by omega), ← eq_ofNat_of_toNat (a := a) (by omega),
      ← eq_ofNat_of_toNat (a := b) (by omega)]
  | @three a b c hlow hhigh hb hc hleast hmost =>
    have ha : 0xE0 ≤ a.toNat ∧ a.toNat ≤ 0xEF := ⟨hlow, hhigh⟩
    have hb' := hb.toNat
    have hc' := hc.toNat
    have hleast' : a.toNat = 0xE0 → 0xA0 ≤ b.toNat := fun h => hleast (UInt8.toNat_inj.mp h)
    have hmost' : a.toNat = 0xED → b.toNat ≤ 0x9F := fun h => hmost (UInt8.toNat_inj.mp h)
    refine ⟨by omega, ?_⟩
    rw [written, if_neg (by omega), if_neg (by omega), if_pos (by omega),
      ← eq_ofNat_of_toNat (a := a) (by omega), ← eq_ofNat_of_toNat (a := b) (by omega),
      ← eq_ofNat_of_toNat (a := c) (by omega)]
  | @four a b c d hlow hhigh hb hc hd hleast hmost =>
    have ha : 0xF0 ≤ a.toNat ∧ a.toNat ≤ 0xF4 := ⟨hlow, hhigh⟩
    have hb' := hb.toNat
    have hc' := hc.toNat
    have hd' := hd.toNat
    have hleast' : a.toNat = 0xF0 → 0x90 ≤ b.toNat := fun h => hleast (UInt8.toNat_inj.mp h)
    have hmost' : a.toNat = 0xF4 → b.toNat ≤ 0x8F := fun h => hmost (UInt8.toNat_inj.mp h)
    refine ⟨by omega, ?_⟩
    rw [written, if_neg (by omega), if_neg (by omega), if_neg (by omega),
      ← eq_ofNat_of_toNat (a := a) (by omega), ← eq_ofNat_of_toNat (a := b) (by omega),
      ← eq_ofNat_of_toNat (a := c) (by omega), ← eq_ofNat_of_toNat (a := d) (by omega)]

theorem character_written (hmax : n ≤ 0x10FFFF) (hscalar : ¬(0xD800 ≤ n ∧ n ≤ 0xDFFF)) :
    Character (written n) n := by
  have hlast : n % 64 < 64 := Nat.mod_lt n (by decide)
  rw [written]
  split
  · next h1 =>
    have ha : (UInt8.ofNat n).toNat = n := toNat_ofNat_of_lt (by omega)
    have hlow : (UInt8.ofNat n).toNat ≤ 0x7F := by omega
    have hone := Character.one hlow
    rwa [ha] at hone
  · split
    · have htwo := character_two (x := n / 64) (y := n % 64) (by omega) (by omega) hlast
      have hvalue : n / 64 * 64 + n % 64 = n := by omega
      rwa [hvalue] at htwo
    · split
      · have hthree := character_three (x := n / 4096) (y := n / 64 % 64) (z := n % 64)
          (by omega) (by omega) hlast (by omega) (by omega)
        have hvalue : (n / 4096 * 64 + n / 64 % 64) * 64 + n % 64 = n := by omega
        rwa [hvalue] at hthree
      · have hfour := character_four (x := n / 262144) (y := n / 4096 % 64) (z := n / 64 % 64)
          (u := n % 64) (by omega) (by omega) (by omega) hlast (by omega) (by omega)
        have hvalue : ((n / 262144 * 64 + n / 4096 % 64) * 64 + n / 64 % 64) * 64 + n % 64 =
          n := by omega
        rwa [hvalue] at hfour

/-- **A code point** has one byte sequence, the one that the writer appends. -/
theorem character_iff {codePoint : UInt32} : Character bytes codePoint.toNat ↔
    IsScalar codePoint ∧ bytes = appendUtf8 [] codePoint := by
  constructor
  · intro h
    obtain ⟨⟨hmax, hscalar⟩, hbytes⟩ := written_of_character h
    refine ⟨⟨hmax, hscalar⟩, ?_⟩
    rw [appendUtf8_eq [] hmax, List.nil_append, hbytes]
  · rintro ⟨⟨hmax, hscalar⟩, rfl⟩
    rw [appendUtf8_eq [] hmax, List.nil_append]
    exact character_written hmax hscalar

/-! ### A round of the reader -/

variable {offset count : ℕ} {codePoint minimum : UInt32} {d : Decoded}

theorem getElem?_of_drop (h : text.drop offset = a :: rest) : text[offset]? = some a := by
  rw [← Nat.add_zero offset, ← List.getElem?_drop, h, List.getElem?_cons_zero]

theorem drop_succ_of_drop (h : text.drop offset = a :: rest) : text.drop (offset + 1) = rest := by
  rw [← List.drop_drop, h, List.drop_one, List.tail_cons]

theorem drop_of_getElem? (h : text[offset]? = some a) :
    text.drop offset = a :: text.drop (offset + 1) := by
  obtain ⟨hlt, rfl⟩ := List.getElem?_eq_some_iff.mp h
  exact List.drop_eq_getElem_cons hlt

/-- A byte that follows is taken into the code point. -/
theorem continuations_tail (h : text.drop offset = b :: rest) (hb : Tail b) :
    continuations text (count + 1) offset codePoint =
      continuations text count (offset + 1) (codePoint <<< 6 ||| (b &&& 0x3F).toUInt32) := by
  rw [continuations, getElem?_of_drop h]
  exact if_neg (not_not_intro (tail_iff.mpr hb))

/-- Where the loop ends well, a byte that follows was there. -/
theorem tail_of_continuations (h : continuations text (count + 1) offset codePoint = some d)
    (hok : d.ok = true) : ∃ b, text.drop offset = b :: text.drop (offset + 1) ∧ Tail b ∧
      continuations text count (offset + 1) (codePoint <<< 6 ||| (b &&& 0x3F).toUInt32) =
        some d := by
  rw [continuations] at h
  split at h
  · cases h
  · next b hb =>
    split at h
    · cases h
      exact absurd hok Bool.false_ne_true
    · next hmarker => exact ⟨b, drop_of_getElem? hb, tail_iff.mp (not_not.mp hmarker), h⟩

/-- The loop reads no more than it is told to. -/
theorem continuations_total (hlength : offset + count ≤ text.length) :
    ∃ d, continuations text count offset codePoint = some d ∧ offset ≤ d.offset ∧
      d.offset ≤ offset + count := by
  induction count generalizing offset codePoint with
  | zero => exact ⟨_, rfl, Nat.le_refl _, Nat.le_refl _⟩
  | succ count ih =>
    have hlt : offset < text.length := by omega
    rw [continuations, List.getElem?_eq_getElem hlt]
    dsimp only
    split
    · exact ⟨_, rfl, Nat.le_succ _, Nat.add_le_add_left (Nat.le_add_left 1 count) offset⟩
    · obtain ⟨d, hd, hfrom, hto⟩ := @ih (offset + 1)
        (codePoint <<< 6 ||| (text[offset] &&& 0x3F).toUInt32) (by omega)
      exact ⟨d, hd, by omega, by omega⟩

theorem offset_checkCodePoint : (checkCodePoint minimum d).offset = d.offset := by
  rw [checkCodePoint]
  split
  · rfl
  · split <;> rfl

theorem checkCodePoint_eq (h : (checkCodePoint minimum d).ok = true) :
    checkCodePoint minimum d = d := by
  rw [checkCodePoint] at h ⊢
  split
  · rfl
  · next hok =>
    rw [if_neg hok] at h
    split
    · next hcheck =>
      rw [if_pos hcheck] at h
      exact absurd h Bool.false_ne_true
    · rfl

/-- The scalar values from the least one on pass the check. -/
theorem ok_checkCodePoint : (checkCodePoint minimum d).ok = true ↔
    d.ok = true ∧ minimum.toNat ≤ d.codePoint.toNat ∧ d.codePoint.toNat ≤ 0x10FFFF ∧
      ¬(0xD800 ≤ d.codePoint.toNat ∧ d.codePoint.toNat ≤ 0xDFFF) := by
  rw [checkCodePoint]
  cases hok : d.ok with
  | false => simp [hok]
  | true =>
    simp only [Bool.not_true, Bool.false_eq_true, if_false, true_and]
    split
    · next h =>
      simp only [maxUnicodeCodePoint, isHighSurrogate, isLowSurrogate, Bool.or_eq_true,
        Bool.and_eq_true, decide_eq_true_eq, UInt32.lt_iff_toNat_lt, UInt32.le_iff_toNat_le,
        UInt32.reduceToNat] at h
      simp only [Bool.false_eq_true, false_iff]
      omega
    · next h =>
      simp only [maxUnicodeCodePoint, isHighSurrogate, isLowSurrogate, Bool.or_eq_true,
        Bool.and_eq_true, decide_eq_true_eq, UInt32.lt_iff_toNat_lt, UInt32.le_iff_toNat_le,
        UInt32.reduceToNat] at h
      simp only [hok, true_iff]
      omega

theorem toNat_leadByte_two (hlow : 0xC2 ≤ a.toNat) (hhigh : a.toNat ≤ 0xDF) :
    leadByte a = some ((a &&& 0x1F).toUInt32, 0x80, 1) ∧
      (a &&& 0x1F).toUInt32.toNat = a.toNat - 0xC0 := by
  refine ⟨if_pos ⟨hlow, hhigh⟩, ?_⟩
  rw [toNat_and_ones a (i := 5) rfl]
  omega

theorem toNat_leadByte_three (hlow : 0xE0 ≤ a.toNat) (hhigh : a.toNat ≤ 0xEF) :
    leadByte a = some ((a &&& 0x0F).toUInt32, 0x800, 2) ∧
      (a &&& 0x0F).toUInt32.toNat = a.toNat - 0xE0 := by
  have hnot : ¬(0xC2 ≤ a ∧ a ≤ 0xDF) := fun h => by
    have hle : a.toNat ≤ 0xDF := h.2
    omega
  refine ⟨(if_neg hnot).trans (if_pos ⟨hlow, hhigh⟩), ?_⟩
  rw [toNat_and_ones a (i := 4) rfl]
  omega

theorem toNat_leadByte_four (hlow : 0xF0 ≤ a.toNat) (hhigh : a.toNat ≤ 0xF4) :
    leadByte a = some ((a &&& 0x07).toUInt32, 0x10000, 3) ∧
      (a &&& 0x07).toUInt32.toNat = a.toNat - 0xF0 := by
  have hnot : ¬(0xC2 ≤ a ∧ a ≤ 0xDF) := fun h => by
    have hle : a.toNat ≤ 0xDF := h.2
    omega
  have hnot' : ¬(0xE0 ≤ a ∧ a ≤ 0xEF) := fun h => by
    have hle : a.toNat ≤ 0xEF := h.2
    omega
  refine ⟨(if_neg hnot).trans ((if_neg hnot').trans (if_pos ⟨hlow, hhigh⟩)), ?_⟩
  rw [toNat_and_ones a (i := 3) rfl]
  omega

/-- The branches of a first byte that is not a code point by itself. -/
theorem decode_of_lead (h : text.drop offset = a :: rest) (ha : 0x7F < a.toNat)
    (hlead : leadByte a = some (codePoint, minimum, count)) (hlength : count ≤ rest.length) :
    decodeUtf8CodePoint text offset =
      (continuations text count (offset + 1) codePoint).map (checkCodePoint minimum) := by
  have hnot : ¬a ≤ 0x7F := Nat.not_le.mpr ha
  have hdrop := congrArg List.length (drop_succ_of_drop h)
  rw [List.length_drop] at hdrop
  have henough : ¬text.length - (offset + 1) < count := by omega
  rw [decodeUtf8CodePoint, getElem?_of_drop h]
  dsimp only
  rw [if_neg hnot, hlead]
  exact if_neg henough

/-- **A round** takes the bytes of a code point. -/
theorem decode_of_character (h : Character bytes n) (hn : n = codePoint.toNat)
    (hdrop : text.drop offset = bytes ++ rest) :
    decodeUtf8CodePoint text offset = some ⟨true, offset + bytes.length, codePoint⟩ := by
  have hscalar := (written_of_character h).1
  -- what the loop ends with passes the check
  have hpass : ∀ (minimum value : UInt32) (end' : ℕ), value.toNat = n → minimum.toNat ≤ n →
      checkCodePoint minimum ⟨true, end', value⟩ = ⟨true, end', codePoint⟩ := by
    intro minimum value end' hvalue hminimum
    have heq : value = codePoint := UInt32.toNat_inj.mp (hvalue.trans hn)
    have hok : (checkCodePoint minimum ⟨true, end', value⟩).ok = true := by
      rw [ok_checkCodePoint]
      exact ⟨rfl, hvalue ▸ hminimum, hvalue ▸ hscalar.1, hvalue ▸ hscalar.2⟩
    rw [checkCodePoint_eq hok, heq]
  cases h with
  | @one a ha =>
    rw [decodeUtf8CodePoint, getElem?_of_drop hdrop]
    refine (if_pos ha).trans ?_
    have heq : a.toUInt32 = codePoint := UInt32.toNat_inj.mp hn
    rw [heq]
    rfl
  | @two a b hlow hhigh hb =>
    have ha : 0xC2 ≤ a.toNat ∧ a.toNat ≤ 0xDF := ⟨hlow, hhigh⟩
    obtain ⟨hlead, hvalue⟩ := toNat_leadByte_two ha.1 ha.2
    have hfirst := toNat_next (a &&& 0x1F).toUInt32 (by omega) hb
    have hmin : 0x80 ≤ (a.toNat - 0xC0) * 64 + (b.toNat - 0x80) := by omega
    have hsecond := drop_succ_of_drop hdrop
    rw [decode_of_lead hdrop (by omega) hlead (Nat.le_add_left 1 _),
      continuations_tail hsecond hb, continuations, Option.map_some,
      hpass 0x80 _ _ (by rw [hfirst, hvalue]) hmin]
    rfl
  | @three a b c hlow hhigh hb hc hleast hmost =>
    have ha : 0xE0 ≤ a.toNat ∧ a.toNat ≤ 0xEF := ⟨hlow, hhigh⟩
    obtain ⟨hlead, hvalue⟩ := toNat_leadByte_three ha.1 ha.2
    have hb' := hb.toNat
    have hleast' : a.toNat = 0xE0 → 0xA0 ≤ b.toNat := fun h => hleast (UInt8.toNat_inj.mp h)
    have htails := toNat_two_tails (a &&& 0x0F).toUInt32 (by omega) hb hc
    have hmin : 0x800 ≤ ((a.toNat - 0xE0) * 64 + (b.toNat - 0x80)) * 64 + (c.toNat - 0x80) := by
      omega
    have hsecond := drop_succ_of_drop hdrop
    have hthird := drop_succ_of_drop hsecond
    rw [decode_of_lead hdrop (by omega) hlead (Nat.le_add_left 2 _),
      continuations_tail hsecond hb, continuations_tail hthird hc, continuations, Option.map_some,
      hpass 0x800 _ _ (by rw [htails, hvalue]) hmin]
    rfl
  | @four a b c d hlow hhigh hb hc hd hleast hmost =>
    have ha : 0xF0 ≤ a.toNat ∧ a.toNat ≤ 0xF4 := ⟨hlow, hhigh⟩
    obtain ⟨hlead, hvalue⟩ := toNat_leadByte_four ha.1 ha.2
    have hb' := hb.toNat
    have hc' := hc.toNat
    have hleast' : a.toNat = 0xF0 → 0x90 ≤ b.toNat := fun h => hleast (UInt8.toNat_inj.mp h)
    have htails := toNat_three_tails (a &&& 0x07).toUInt32 (by omega) hb hc hd
    have hmin : 0x10000 ≤ (((a.toNat - 0xF0) * 64 + (b.toNat - 0x80)) * 64 +
        (c.toNat - 0x80)) * 64 + (d.toNat - 0x80) := by
      omega
    have hsecond := drop_succ_of_drop hdrop
    have hthird := drop_succ_of_drop hsecond
    have hfourth := drop_succ_of_drop hthird
    rw [decode_of_lead hdrop (by omega) hlead (Nat.le_add_left 3 _),
      continuations_tail hsecond hb, continuations_tail hthird hc, continuations_tail hfourth hd,
      continuations, Option.map_some, hpass 0x10000 _ _ (by rw [htails, hvalue]) hmin]
    rfl

/-- What the first byte can be where it is not refused. -/
theorem leadByte_eq_some (h : leadByte a = some (codePoint, minimum, count)) :
    (0xC2 ≤ a.toNat ∧ a.toNat ≤ 0xDF ∧ minimum = 0x80 ∧ count = 1) ∨
      (0xE0 ≤ a.toNat ∧ a.toNat ≤ 0xEF ∧ minimum = 0x800 ∧ count = 2) ∨
      (0xF0 ≤ a.toNat ∧ a.toNat ≤ 0xF4 ∧ minimum = 0x10000 ∧ count = 3) := by
  rw [leadByte] at h
  split at h
  · next hrange =>
    cases h
    exact .inl ⟨hrange.1, hrange.2, rfl, rfl⟩
  · split at h
    · next hrange =>
      cases h
      exact .inr (.inl ⟨hrange.1, hrange.2, rfl, rfl⟩)
    · split at h
      · next hrange =>
        cases h
        exact .inr (.inr ⟨hrange.1, hrange.2, rfl, rfl⟩)
      · cases h

/-- The bytes behind a first one that end well are those of a code point. -/
theorem character_of_continuations (hlead : leadByte a = some (codePoint, minimum, count))
    (h : continuations text count offset codePoint = some d)
    (hok : (checkCodePoint minimum d).ok = true) :
    ∃ tails, text.drop offset = tails ++ text.drop d.offset ∧
      Character (a :: tails) d.codePoint.toNat := by
  -- the check says what the rules say of the second byte, once the value is spelled out
  obtain ⟨hdok, hmin, hmax, hscalar⟩ := ok_checkCodePoint.mp hok
  rcases leadByte_eq_some hlead with ⟨hlow, hhigh, rfl, rfl⟩ | ⟨hlow, hhigh, rfl, rfl⟩ |
    ⟨hlow, hhigh, rfl, rfl⟩
  · obtain ⟨hlead', hvalue⟩ := toNat_leadByte_two hlow hhigh
    cases hlead.symm.trans hlead'
    obtain ⟨b, hb, htailb, h⟩ := tail_of_continuations h hdok
    rw [continuations] at h
    cases h
    refine ⟨[b], hb, ?_⟩
    rw [toNat_next _ (by omega) htailb, hvalue]
    exact .two hlow hhigh htailb
  · obtain ⟨hlead', hvalue⟩ := toNat_leadByte_three hlow hhigh
    cases hlead.symm.trans hlead'
    obtain ⟨b, hb, htailb, h⟩ := tail_of_continuations h hdok
    obtain ⟨c, hc, htailc, h⟩ := tail_of_continuations h hdok
    rw [continuations] at h
    cases h
    have hb' := htailb.toNat
    have hc' := htailc.toNat
    have htails := toNat_two_tails (a &&& 0x0F).toUInt32 (by omega) htailb htailc
    rw [htails, hvalue] at hmin hscalar ⊢
    have hmin' : 0x800 ≤ ((a.toNat - 0xE0) * 64 + (b.toNat - 0x80)) * 64 + (c.toNat - 0x80) := hmin
    have hleast : a.toNat = 0xE0 → 0xA0 ≤ b.toNat := by omega
    have hmost : a.toNat = 0xED → b.toNat ≤ 0x9F := by omega
    refine ⟨[b, c], by rw [hb, hc]; rfl, ?_⟩
    exact .three hlow hhigh htailb htailc (fun h => hleast (congrArg UInt8.toNat h))
      fun h => hmost (congrArg UInt8.toNat h)
  · obtain ⟨hlead', hvalue⟩ := toNat_leadByte_four hlow hhigh
    cases hlead.symm.trans hlead'
    obtain ⟨b, hb, htailb, h⟩ := tail_of_continuations h hdok
    obtain ⟨c, hc, htailc, h⟩ := tail_of_continuations h hdok
    obtain ⟨e, he, htaile, h⟩ := tail_of_continuations h hdok
    rw [continuations] at h
    cases h
    have hb' := htailb.toNat
    have hc' := htailc.toNat
    have he' := htaile.toNat
    have htails := toNat_three_tails (a &&& 0x07).toUInt32 (by omega) htailb htailc htaile
    rw [htails, hvalue] at hmin hmax ⊢
    have hmin' : 0x10000 ≤ (((a.toNat - 0xF0) * 64 + (b.toNat - 0x80)) * 64 +
      (c.toNat - 0x80)) * 64 + (e.toNat - 0x80) := hmin
    have hleast : a.toNat = 0xF0 → 0x90 ≤ b.toNat := by omega
    have hmost : a.toNat = 0xF4 → b.toNat ≤ 0x8F := by omega
    refine ⟨[b, c, e], by rw [hb, hc, he]; rfl, ?_⟩
    exact .four hlow hhigh htailb htailc htaile (fun h => hleast (congrArg UInt8.toNat h))
      fun h => hmost (congrArg UInt8.toNat h)

/-- **A round that ends well** has taken the bytes of a code point. -/
theorem character_of_decode (h : decodeUtf8CodePoint text offset = some d) (hok : d.ok = true) :
    ∃ bytes, text.drop offset = bytes ++ text.drop d.offset ∧
      Character bytes d.codePoint.toNat := by
  rw [decodeUtf8CodePoint] at h
  split at h
  · cases h
  · next a ha =>
    dsimp only at h
    split at h
    · next hone =>
      cases h
      exact ⟨[a], drop_of_getElem? ha, .one hone⟩
    · split at h
      · cases h
        exact absurd hok Bool.false_ne_true
      · next codePoint minimum count hlead =>
        split at h
        · cases h
          exact absurd hok Bool.false_ne_true
        · obtain ⟨d', hd', rfl⟩ := Option.map_eq_some_iff.mp h
          obtain ⟨tails, htails, hcharacter⟩ := character_of_continuations hlead hd' hok
          refine ⟨a :: tails, ?_, ?_⟩
          · rw [drop_of_getElem? ha, htails, offset_checkCodePoint, List.cons_append]
          · rwa [checkCodePoint_eq hok]

/-- Every round inside the text ends, further on in it. -/
theorem decode_total (hlt : offset < text.length) : ∃ d, decodeUtf8CodePoint text offset = some d ∧
    offset < d.offset ∧ d.offset ≤ text.length := by
  rw [decodeUtf8CodePoint, List.getElem?_eq_getElem hlt]
  dsimp only
  split
  · exact ⟨_, rfl, Nat.lt_succ_self _, hlt⟩
  · split
    · exact ⟨_, rfl, Nat.lt_succ_self _, hlt⟩
    · next codePoint minimum count hlead =>
      split
      · exact ⟨_, rfl, Nat.lt_succ_self _, hlt⟩
      · next henough =>
        obtain ⟨d, hd, hfrom, hto⟩ := @continuations_total text (offset + 1) count codePoint
          (by omega)
        refine ⟨checkCodePoint minimum d, by rw [hd, Option.map_some], ?_, ?_⟩
        · rw [offset_checkCodePoint]
          omega
        · rw [offset_checkCodePoint]
          omega

/-! ### The loops -/

variable {rounds : ℕ} {result w : List UInt32}

theorem Character.length_pos (h : Character bytes n) : 0 < bytes.length := by
  cases h <;> exact Nat.succ_pos _

theorem decodeLoop_end (hend : text.length ≤ offset) :
    decodeLoop text rounds offset result = .decoded result := by
  rw [decodeLoop.eq_def]
  exact if_neg (Nat.not_lt.mpr hend)

/-- A well-formed text is decoded. -/
theorem decodeLoop_of_encoding {tail : Bytes} (h : Encoding tail w)
    (htail : text.drop offset = tail) (hrounds : text.length - offset ≤ rounds) :
    decodeLoop text rounds offset result = .decoded (result ++ w) := by
  induction h generalizing offset rounds result with
  | nil => rw [decodeLoop_end (List.drop_eq_nil_iff.mp htail), List.append_nil]
  | @cons bytes rest codePoint codePoints hcharacter hrest ih =>
    have hlength := congrArg List.length htail
    rw [List.length_drop, List.length_append] at hlength
    have hpos := hcharacter.length_pos
    have hlt : offset < text.length := by omega
    cases rounds with
    | zero => omega
    | succ rounds =>
      have hnext : text.drop (offset + bytes.length) = rest := by
        rw [← List.drop_drop, htail, List.drop_left]
      rw [decodeLoop, if_pos hlt, decode_of_character hcharacter rfl htail]
      refine (if_pos rfl).trans ?_
      rw [ih hnext (by omega), List.append_assoc, List.singleton_append]

theorem encoding_at_end (hend : text.length ≤ offset) (w : List UInt32) :
    ∃ w', w = w ++ w' ∧ Encoding (text.drop offset) w' := by
  refine ⟨[], (List.append_nil w).symm, ?_⟩
  rw [List.drop_eq_nil_iff.mpr hend]
  exact .nil

/-- A text that is decoded is well-formed. -/
theorem encoding_of_decodeLoop (h : decodeLoop text rounds offset result = .decoded w) :
    ∃ w', w = result ++ w' ∧ Encoding (text.drop offset) w' := by
  induction rounds generalizing offset result with
  | zero =>
    rw [decodeLoop] at h
    split at h
    · cases h
    · next hend =>
      cases h
      exact encoding_at_end (Nat.not_lt.mp hend) _
  | succ rounds ih =>
    rw [decodeLoop] at h
    split at h
    · split at h
      · cases h
      · next d hd =>
        split at h
        · next hok =>
          obtain ⟨w', rfl, hrest⟩ := ih h
          obtain ⟨bytes, hbytes, hcharacter⟩ := character_of_decode hd hok
          refine ⟨d.codePoint :: w', by rw [List.append_assoc, List.singleton_append], ?_⟩
          rw [hbytes]
          exact .cons hcharacter hrest
        · cases h
    · next hend =>
      cases h
      exact encoding_at_end (Nat.not_lt.mp hend) _

/-- A round for every byte is enough: more change nothing, and no read is outside. -/
theorem decodeLoop_ends {rounds' : ℕ} (hrounds : text.length - offset ≤ rounds)
    (hrounds' : text.length - offset ≤ rounds') :
    decodeLoop text rounds' offset result = decodeLoop text rounds offset result ∧
      decodeLoop text rounds offset result ≠ .running ∧
      decodeLoop text rounds offset result ≠ .outOfBounds := by
  induction rounds generalizing offset result rounds' with
  | zero =>
    have hend : text.length ≤ offset := by omega
    rw [decodeLoop_end hend, decodeLoop_end hend]
    exact ⟨rfl, Outcome.noConfusion, Outcome.noConfusion⟩
  | succ rounds ih =>
    by_cases hlt : offset < text.length
    · cases rounds' with
      | zero => omega
      | succ rounds' =>
        obtain ⟨d, hd, hfrom, hto⟩ := decode_total hlt
        rw [decodeLoop, decodeLoop, if_pos hlt, if_pos hlt, hd]
        dsimp only
        split
        · exact ih (by omega) (by omega)
        · exact ⟨rfl, Outcome.noConfusion, Outcome.noConfusion⟩
    · rw [decodeLoop_end (Nat.not_lt.mp hlt), decodeLoop_end (Nat.not_lt.mp hlt)]
      exact ⟨rfl, Outcome.noConfusion, Outcome.noConfusion⟩

/-- The check of the writer is for scalar values. -/
theorem encodeLoop_cons (codePoint : UInt32) (codePoints : List UInt32) (result : Bytes) :
    (IsScalar codePoint → encodeLoop (codePoint :: codePoints) result =
      encodeLoop codePoints (appendUtf8 result codePoint)) ∧
    (¬IsScalar codePoint → encodeLoop (codePoint :: codePoints) result = []) := by
  have hcheck : (codePoint ≤ maxUnicodeCodePoint && !isHighSurrogate codePoint &&
      !isLowSurrogate codePoint) = true ↔ IsScalar codePoint := by
    simp only [maxUnicodeCodePoint, isHighSurrogate, isLowSurrogate, IsScalar, Bool.and_eq_true,
      Bool.not_eq_true', Bool.and_eq_false_iff, decide_eq_true_eq, decide_eq_false_iff_not,
      UInt32.le_iff_toNat_le, UInt32.reduceToNat]
    omega
  rw [encodeLoop]
  exact ⟨fun h => if_pos (hcheck.mpr h), fun h => if_neg (mt hcheck.mp h)⟩

theorem encodeLoop_of_encoding (h : Encoding text w) (result : Bytes) :
    encodeLoop w result = result ++ text := by
  induction h generalizing result with
  | nil => exact (List.append_nil result).symm
  | @cons bytes rest codePoint codePoints hcharacter hrest ih =>
    obtain ⟨hscalar, hbytes⟩ := character_iff.mp hcharacter
    have happend : appendUtf8 result codePoint = result ++ bytes := by
      rw [hbytes, appendUtf8_eq [] hscalar.1, appendUtf8_eq result hscalar.1, List.nil_append]
    rw [(encodeLoop_cons _ _ _).1 hscalar, ih, happend, List.append_assoc]

theorem exists_encoding (h : ∀ codePoint ∈ w, IsScalar codePoint) : ∃ text, Encoding text w := by
  induction w with
  | nil => exact ⟨[], .nil⟩
  | cons codePoint w ih =>
    obtain ⟨hscalar, hrest⟩ := List.forall_mem_cons.mp h
    obtain ⟨text, htext⟩ := ih hrest
    exact ⟨_, .cons (character_iff.mpr ⟨hscalar, rfl⟩) htext⟩

theorem encodeLoop_of_not_scalar (h : ¬∀ codePoint ∈ w, IsScalar codePoint) (result : Bytes) :
    encodeLoop w result = [] := by
  induction w generalizing result with
  | nil => exact absurd (fun _ hmem => absurd hmem List.not_mem_nil) h
  | cons codePoint w ih =>
    by_cases hscalar : IsScalar codePoint
    · rw [(encodeLoop_cons _ _ _).1 hscalar]
      exact ih (fun hrest => h (List.forall_mem_cons.mpr ⟨hscalar, hrest⟩)) _
    · exact (encodeLoop_cons _ _ _).2 hscalar

/-! ### Both directions -/

/-- The whole text is decoded. -/
def Decodes (text : Bytes) (w : List UInt32) : Prop :=
  decodeLoop text text.length 0 [] = .decoded w

theorem decodes_iff : Decodes text w ↔ Encoding text w := by
  constructor
  · intro h
    obtain ⟨w', hw, hencoding⟩ := encoding_of_decodeLoop h
    rw [List.nil_append] at hw
    rw [List.drop_zero] at hencoding
    rwa [hw]
  · intro h
    exact decodeLoop_of_encoding h List.drop_zero (Nat.le_refl _)

theorem stringToWString_of_encoding (h : Encoding text w) : stringToWString text = w := by
  have hdecodes := decodes_iff.mpr h
  rw [Decodes] at hdecodes
  rw [stringToWString, hdecodes]

/-- **UTF-8**: the texts that are decoded are the well-formed ones, each direction undoes the
other on them and on the scalar values, and gives nothing elsewhere; the reader ends within a
round for every byte and stays inside the text. -/
theorem utf8_exact :
    (∀ text, (∃ w, Decodes text w) ↔ WellFormed text) ∧
    (∀ text, WellFormed text → wStringToString (stringToWString text) = text) ∧
    (∀ w, (∀ codePoint ∈ w, IsScalar codePoint) →
      Decodes (wStringToString w) w ∧ stringToWString (wStringToString w) = w) ∧
    (∀ text, ¬WellFormed text → stringToWString text = []) ∧
    (∀ w, ¬(∀ codePoint ∈ w, IsScalar codePoint) → wStringToString w = []) ∧
    ∀ text rounds, text.length ≤ rounds →
      decodeLoop text rounds 0 [] = decodeLoop text text.length 0 [] ∧
        decodeLoop text text.length 0 [] ≠ .running ∧
        decodeLoop text text.length 0 [] ≠ .outOfBounds := by
  refine ⟨fun text => exists_congr fun w => decodes_iff, ?_, fun w hscalar => ?_,
    fun text hnot => ?_, fun w hnot => encodeLoop_of_not_scalar hnot [],
    fun text rounds hrounds => decodeLoop_ends (Nat.le_refl _) hrounds⟩
  · rintro text ⟨w, h⟩
    rw [stringToWString_of_encoding h]
    exact encodeLoop_of_encoding h []
  · obtain ⟨text, h⟩ := exists_encoding hscalar
    have htext : wStringToString w = text := encodeLoop_of_encoding h []
    rw [htext]
    exact ⟨decodes_iff.mpr h, stringToWString_of_encoding h⟩
  · rw [stringToWString]
    split
    · next w h => exact absurd ⟨w, decodes_iff.mp h⟩ hnot
    · rfl

end StringUtils

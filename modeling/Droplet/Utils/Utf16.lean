/-
UTF-8 and the wide characters of 16 bits.

Where a wide character has 16 bits, a code point above 0xFFFF is a pair of surrogates. The reader
of the bytes and the writer of the bytes are those of the other width; what is pushed for a code
point and how a code point is taken differ.

* `Units`, `Encoding16` — the units of one code point, and of a text;
* `units_iff` — they are what the loop pushes for the scalar values;
* `decodeLoop16_eq` — the loop does what the one for 32 bits does, and writes its code points;
* `encodeLoop16_of_encoding`, `encodeLoop16_of_not_wellFormed` — the loop over the units does what
  the one over the code points does, and takes nothing else;
* `utf16_exact` — which texts are converted, in both directions and against the other width.
-/
import Droplet.Utils.Utf8

open Http

namespace StringUtils

/-! ### The source -/

def highSurrogateFirst : UInt32 := 0xD800

def lowSurrogateFirst : UInt32 := 0xDC00

/-- The loop of `WStringToString` over characters of 16 bits. -/
def encodeLoop16 : List UInt16 → Bytes → Bytes
  | [], result => result
  | unit :: text, result =>
    let codePoint := unit.toUInt32
    if isHighSurrogate codePoint then
      match text with
      | [] => []
      | low :: text =>
        let lowSurrogate := low.toUInt32
        if isLowSurrogate lowSurrogate then
          encodeLoop16 text (appendUtf8 result ((0x10000 : UInt32) +
            ((codePoint - highSurrogateFirst) <<< 10) + (lowSurrogate - lowSurrogateFirst)))
        else []
    else if !isLowSurrogate codePoint then encodeLoop16 text (appendUtf8 result codePoint)
    else []

def wStringToString16 (text : List UInt16) : Bytes := encodeLoop16 text []

/-- What a round of `StringToWString` pushes for its code point. -/
def pushUtf16 (result : List UInt16) (codePoint : UInt32) : List UInt16 :=
  if codePoint ≤ 0xFFFF then result ++ [codePoint.toUInt16]
  else
    let codePoint := codePoint - 0x10000
    result ++ [(highSurrogateFirst + (codePoint >>> 10)).toUInt16,
      (lowSurrogateFirst + (codePoint &&& 0x3FF)).toUInt16]

/-- How the loop over characters of 16 bits ends. -/
inductive Outcome16
  | decoded (result : List UInt16)
  | rejected
  | outOfBounds
  | running
  deriving DecidableEq

def decodeLoop16 (text : Bytes) : ℕ → ℕ → List UInt16 → Outcome16
  | rounds, offset, result =>
    if offset < text.length then
      match rounds with
      | 0 => .running
      | rounds + 1 =>
        match decodeUtf8CodePoint text offset with
        | none => .outOfBounds
        | some decoded =>
          if decoded.ok then
            decodeLoop16 text rounds decoded.offset (pushUtf16 result decoded.codePoint)
          else .rejected
    else .decoded result

def stringToWString16 (text : Bytes) : List UInt16 :=
  match decodeLoop16 text text.length 0 [] with
  | .decoded result => result
  | _ => []

/-! ### Well-formed units -/

/-- The units of one code point. -/
inductive Units : List UInt16 → ℕ → Prop
  | one {u : UInt16} : ¬(0xD800 ≤ u ∧ u ≤ 0xDFFF) → Units [u] u.toNat
  | pair {u v : UInt16} : 0xD800 ≤ u → u ≤ 0xDBFF → 0xDC00 ≤ v → v ≤ 0xDFFF →
      Units [u, v] (0x10000 + (u.toNat - 0xD800) * 0x400 + (v.toNat - 0xDC00))

/-- Units and their code points. -/
inductive Encoding16 : List UInt16 → List UInt32 → Prop
  | nil : Encoding16 [] []
  | cons {units text : List UInt16} {codePoint : UInt32} {codePoints : List UInt32} :
      Units units codePoint.toNat → Encoding16 text codePoints →
      Encoding16 (units ++ text) (codePoint :: codePoints)

def WellFormed16 (text : List UInt16) : Prop := ∃ codePoints, Encoding16 text codePoints

/-- The whole text is decoded. -/
def Decodes16 (text : Bytes) (units : List UInt16) : Prop :=
  decodeLoop16 text text.length 0 [] = .decoded units

/-- The units of a list of code points. -/
def toUtf16 (codePoints : List UInt32) : List UInt16 := codePoints.foldl pushUtf16 []

def Outcome.toUtf16 : Outcome → Outcome16
  | .decoded result => .decoded (StringUtils.toUtf16 result)
  | .rejected => .rejected
  | .outOfBounds => .outOfBounds
  | .running => .running

/-! ### One code point -/

variable {u v : UInt16} {codePoint : UInt32} {units text : List UInt16} {w : List UInt32}

theorem isHighSurrogate_toUInt32 :
    isHighSurrogate u.toUInt32 = true ↔ 0xD800 ≤ u.toNat ∧ u.toNat ≤ 0xDBFF := by
  simp only [isHighSurrogate, Bool.and_eq_true, decide_eq_true_eq, UInt32.le_iff_toNat_le,
    UInt16.toNat_toUInt32, UInt32.reduceToNat]

theorem isLowSurrogate_toUInt32 :
    isLowSurrogate u.toUInt32 = true ↔ 0xDC00 ≤ u.toNat ∧ u.toNat ≤ 0xDFFF := by
  simp only [isLowSurrogate, Bool.and_eq_true, decide_eq_true_eq, UInt32.le_iff_toNat_le,
    UInt16.toNat_toUInt32, UInt32.reduceToNat]

/-- The value of a pair does not overflow. -/
theorem toNat_pair (hu : 0xD800 ≤ u.toNat ∧ u.toNat ≤ 0xDBFF)
    (hv : 0xDC00 ≤ v.toNat ∧ v.toNat ≤ 0xDFFF) :
    ((0x10000 : UInt32) + ((u.toUInt32 - highSurrogateFirst) <<< 10) +
        (v.toUInt32 - lowSurrogateFirst)).toNat =
      0x10000 + (u.toNat - 0xD800) * 0x400 + (v.toNat - 0xDC00) := by
  have hfirst : highSurrogateFirst ≤ u.toUInt32 := hu.1
  have hsecond : lowSurrogateFirst ≤ v.toUInt32 := hv.1
  have hhigh : (u.toUInt32 - highSurrogateFirst).toNat = u.toNat - 0xD800 := by
    rw [UInt32.toNat_sub_of_le _ _ hfirst, UInt16.toNat_toUInt32]
    rfl
  have hlow : (v.toUInt32 - lowSurrogateFirst).toNat = v.toNat - 0xDC00 := by
    rw [UInt32.toNat_sub_of_le _ _ hsecond, UInt16.toNat_toUInt32]
    rfl
  have hshift : ((u.toUInt32 - highSurrogateFirst) <<< 10).toNat = (u.toNat - 0xD800) * 0x400 := by
    rw [UInt32.toNat_shiftLeft, hhigh]
    change (u.toNat - 0xD800) <<< 10 % 2 ^ 32 = _
    rw [Nat.shiftLeft_eq]
    omega
  rw [UInt32.toNat_add, UInt32.toNat_add, hshift, hlow]
  change ((0x10000 + (u.toNat - 0xD800) * 0x400) % 2 ^ 32 + (v.toNat - 0xDC00)) % 2 ^ 32 = _
  omega

theorem pushUtf16_small (hsmall : codePoint.toNat ≤ 0xFFFF) :
    pushUtf16 [] codePoint = [codePoint.toUInt16] ∧
      codePoint.toUInt16.toNat = codePoint.toNat := by
  refine ⟨if_pos hsmall, ?_⟩
  rw [UInt32.toNat_toUInt16]
  exact Nat.mod_eq_of_lt (Nat.lt_succ_of_le hsmall)

/-- Ten bits of the code point above 0xFFFF in each unit. -/
theorem pushUtf16_large (hlarge : 0xFFFF < codePoint.toNat) (hmax : codePoint.toNat ≤ 0x10FFFF) :
    ∃ u v : UInt16, pushUtf16 [] codePoint = [u, v] ∧
      u.toNat = 0xD800 + (codePoint.toNat - 0x10000) / 0x400 ∧
      v.toNat = 0xDC00 + (codePoint.toNat - 0x10000) % 0x400 := by
  have hnot : ¬codePoint ≤ 0xFFFF := Nat.not_le.mpr hlarge
  have hle : (0x10000 : UInt32) ≤ codePoint := hlarge
  have hrest : (codePoint - 0x10000).toNat = codePoint.toNat - 0x10000 :=
    UInt32.toNat_sub_of_le _ _ hle
  have hhigh : ((codePoint - 0x10000) >>> 10).toNat = (codePoint.toNat - 0x10000) / 0x400 := by
    rw [toNat_shiftRight _ (by decide), hrest]
    rfl
  have hlow : ((codePoint - 0x10000) &&& 0x3FF).toNat = (codePoint.toNat - 0x10000) % 0x400 := by
    rw [UInt32.toNat_and, hrest]
    exact Nat.and_two_pow_sub_one_eq_mod _ 10
  refine ⟨_, _, if_neg hnot, ?_, ?_⟩
  · rw [UInt32.toNat_toUInt16, UInt32.toNat_add, hhigh]
    change (0xD800 + (codePoint.toNat - 0x10000) / 0x400) % 2 ^ 32 % 2 ^ 16 = _
    omega
  · rw [UInt32.toNat_toUInt16, UInt32.toNat_add, hlow]
    change (0xDC00 + (codePoint.toNat - 0x10000) % 0x400) % 2 ^ 32 % 2 ^ 16 = _
    omega

/-- **A code point** has one sequence of units, the one that is pushed. -/
theorem units_iff : Units units codePoint.toNat ↔
    IsScalar codePoint ∧ units = pushUtf16 [] codePoint := by
  constructor
  · intro h
    generalize hn : codePoint.toNat = n at h
    cases h with
    | @one u hscalar =>
      have hbound := u.toNat_lt
      have hscalar' : ¬(0xD800 ≤ u.toNat ∧ u.toNat ≤ 0xDFFF) := hscalar
      have hmax : codePoint.toNat ≤ 0x10FFFF := by omega
      have hnot : ¬(0xD800 ≤ codePoint.toNat ∧ codePoint.toNat ≤ 0xDFFF) := by omega
      obtain ⟨hpush, hvalue⟩ := @pushUtf16_small codePoint (by omega)
      have hunit : u = codePoint.toUInt16 := UInt16.toNat_inj.mp (by rw [hvalue, hn])
      exact ⟨⟨hmax, hnot⟩, by rw [hpush, hunit]⟩
    | @pair u v hfirst hlast hfirst' hlast' =>
      have hu : 0xD800 ≤ u.toNat ∧ u.toNat ≤ 0xDBFF := ⟨hfirst, hlast⟩
      have hv : 0xDC00 ≤ v.toNat ∧ v.toNat ≤ 0xDFFF := ⟨hfirst', hlast'⟩
      have hmax : codePoint.toNat ≤ 0x10FFFF := by omega
      have hnot : ¬(0xD800 ≤ codePoint.toNat ∧ codePoint.toNat ≤ 0xDFFF) := by omega
      obtain ⟨u', v', hpush, hhigh, hlow⟩ := @pushUtf16_large codePoint (by omega) hmax
      have hunit : u = u' := UInt16.toNat_inj.mp (by omega)
      have hunit' : v = v' := UInt16.toNat_inj.mp (by omega)
      exact ⟨⟨hmax, hnot⟩, by rw [hpush, hunit, hunit']⟩
  · rintro ⟨⟨hmax, hnot⟩, rfl⟩
    have hmax' : codePoint.toNat ≤ 0x10FFFF := hmax
    have hnot' : ¬(0xD800 ≤ codePoint.toNat ∧ codePoint.toNat ≤ 0xDFFF) := hnot
    by_cases hsmall : codePoint.toNat ≤ 0xFFFF
    · obtain ⟨hpush, hvalue⟩ := pushUtf16_small hsmall
      have hone : Units [codePoint.toUInt16] codePoint.toUInt16.toNat :=
        .one fun h => hnot' (hvalue ▸ h)
      rw [hpush]
      rwa [hvalue] at hone
    · obtain ⟨u, v, hpush, hhigh, hlow⟩ := pushUtf16_large (Nat.not_le.mp hsmall) hmax'
      have hu : 0xD800 ≤ u.toNat ∧ u.toNat ≤ 0xDBFF := by omega
      have hv : 0xDC00 ≤ v.toNat ∧ v.toNat ≤ 0xDFFF := by omega
      have hvalue : 0x10000 + (u.toNat - 0xD800) * 0x400 + (v.toNat - 0xDC00) =
          codePoint.toNat := by omega
      rw [hpush, ← hvalue]
      exact .pair hu.1 hu.2 hv.1 hv.2

/-! ### Texts -/

theorem pushUtf16_eq (result : List UInt16) (codePoint : UInt32) :
    pushUtf16 result codePoint = result ++ pushUtf16 [] codePoint := by
  rw [pushUtf16, pushUtf16]
  split <;> rfl

theorem foldl_pushUtf16 (result : List UInt16) (w : List UInt32) :
    w.foldl pushUtf16 result = result ++ toUtf16 w := by
  induction w generalizing result with
  | nil => exact (List.append_nil result).symm
  | cons codePoint w ih =>
    rw [toUtf16, List.foldl_cons, List.foldl_cons, ih, ih (pushUtf16 [] codePoint), pushUtf16_eq,
      List.append_assoc]

theorem toUtf16_cons (codePoint : UInt32) (w : List UInt32) :
    toUtf16 (codePoint :: w) = pushUtf16 [] codePoint ++ toUtf16 w :=
  foldl_pushUtf16 (pushUtf16 [] codePoint) w

theorem toUtf16_concat (w : List UInt32) (codePoint : UInt32) :
    toUtf16 (w ++ [codePoint]) = pushUtf16 (toUtf16 w) codePoint :=
  List.foldl_concat pushUtf16 [] codePoint w

theorem encoding16_iff : Encoding16 units w ↔
    (∀ codePoint ∈ w, IsScalar codePoint) ∧ units = toUtf16 w := by
  constructor
  · intro h
    induction h with
    | nil => exact ⟨fun _ hmem => absurd hmem List.not_mem_nil, rfl⟩
    | cons hunits _ ih =>
      obtain ⟨hscalar, hpush⟩ := units_iff.mp hunits
      exact ⟨List.forall_mem_cons.mpr ⟨hscalar, ih.1⟩, by rw [toUtf16_cons, hpush, ih.2]⟩
  · rintro ⟨hscalar, rfl⟩
    induction w with
    | nil => exact .nil
    | cons codePoint w ih =>
      obtain ⟨hfirst, hrest⟩ := List.forall_mem_cons.mp hscalar
      rw [toUtf16_cons]
      exact .cons (units_iff.mpr ⟨hfirst, rfl⟩) (ih hrest)

theorem isScalar_of_encoding {bytes : Bytes} (h : Encoding bytes w) :
    ∀ codePoint ∈ w, IsScalar codePoint := by
  induction h with
  | nil => exact fun _ hmem => absurd hmem List.not_mem_nil
  | cons hcharacter _ ih => exact List.forall_mem_cons.mpr ⟨(character_iff.mp hcharacter).1, ih⟩

/-! ### From bytes -/

/-- **The loop from bytes** does what the loop for the other width does, and ends as that does. -/
theorem decodeLoop16_eq (bytes : Bytes) (rounds offset : ℕ) (result : List UInt32) :
    decodeLoop16 bytes rounds offset (toUtf16 result) =
      (decodeLoop bytes rounds offset result).toUtf16 := by
  induction rounds generalizing offset result with
  | zero =>
    rw [decodeLoop16, decodeLoop]
    split <;> rfl
  | succ rounds ih =>
    rw [decodeLoop16, decodeLoop]
    split
    · cases decodeUtf8CodePoint bytes offset with
      | none => rfl
      | some decoded =>
        dsimp only
        split
        · rw [← toUtf16_concat, ih]
        · rfl
    · rfl

theorem decodeLoop16_start (bytes : Bytes) (rounds : ℕ) :
    decodeLoop16 bytes rounds 0 [] = (decodeLoop bytes rounds 0 []).toUtf16 :=
  decodeLoop16_eq bytes rounds 0 []

theorem toUtf16_eq_running {outcome : Outcome} : outcome.toUtf16 = .running ↔ outcome = .running := by
  cases outcome <;> simp [Outcome.toUtf16]

theorem toUtf16_eq_outOfBounds {outcome : Outcome} :
    outcome.toUtf16 = .outOfBounds ↔ outcome = .outOfBounds := by
  cases outcome <;> simp [Outcome.toUtf16]

theorem stringToWString16_eq (bytes : Bytes) :
    stringToWString16 bytes = toUtf16 (stringToWString bytes) := by
  rw [stringToWString16, stringToWString, decodeLoop16_start]
  cases decodeLoop bytes bytes.length 0 [] <;> rfl

theorem decodes16_iff {bytes : Bytes} :
    Decodes16 bytes units ↔ ∃ w, Encoding bytes w ∧ Encoding16 units w := by
  rw [Decodes16, decodeLoop16_start]
  constructor
  · intro h
    cases hloop : decodeLoop bytes bytes.length 0 [] with
    | decoded w =>
      rw [hloop] at h
      have hencoding : Encoding bytes w := decodes_iff.mp hloop
      have hunits : toUtf16 w = units := Outcome16.decoded.inj h
      exact ⟨w, hencoding, encoding16_iff.mpr ⟨isScalar_of_encoding hencoding, hunits.symm⟩⟩
    | rejected => exact absurd (hloop ▸ h) Outcome16.noConfusion
    | outOfBounds => exact absurd (hloop ▸ h) Outcome16.noConfusion
    | running => exact absurd (hloop ▸ h) Outcome16.noConfusion
  · rintro ⟨w, hencoding, hunits⟩
    have hdecodes : decodeLoop bytes bytes.length 0 [] = .decoded w := decodes_iff.mpr hencoding
    rw [hdecodes, (encoding16_iff.mp hunits).2]
    rfl

/-! ### To bytes -/

/-- A round takes the units of a code point. -/
theorem encodeLoop16_units {n : ℕ} (h : Units units n) (hn : n = codePoint.toNat)
    (text : List UInt16) (result : Bytes) :
    encodeLoop16 (units ++ text) result = encodeLoop16 text (appendUtf8 result codePoint) := by
  cases h with
  | @one u hscalar =>
    have hscalar' : ¬(0xD800 ≤ u.toNat ∧ u.toNat ≤ 0xDFFF) := hscalar
    have hhigh : ¬isHighSurrogate u.toUInt32 = true := fun h => by
      have hrange := isHighSurrogate_toUInt32.mp h
      omega
    have hlow : ¬isLowSurrogate u.toUInt32 = true := fun h => by
      have hrange := isLowSurrogate_toUInt32.mp h
      omega
    have hvalue : u.toUInt32 = codePoint := UInt32.toNat_inj.mp hn
    rw [List.singleton_append, encodeLoop16.eq_def]
    dsimp only
    rw [if_neg hhigh, if_pos (by rw [Bool.eq_false_of_not_eq_true hlow]; rfl), hvalue]
  | @pair u v hfirst hlast hfirst' hlast' =>
    have hu : 0xD800 ≤ u.toNat ∧ u.toNat ≤ 0xDBFF := ⟨hfirst, hlast⟩
    have hv : 0xDC00 ≤ v.toNat ∧ v.toNat ≤ 0xDFFF := ⟨hfirst', hlast'⟩
    have hvalue := UInt32.toNat_inj.mp ((toNat_pair hu hv).trans hn)
    rw [List.cons_append, List.singleton_append, encodeLoop16]
    dsimp only
    rw [if_pos (isHighSurrogate_toUInt32.mpr hu), if_pos (isLowSurrogate_toUInt32.mpr hv), hvalue]

/-- **The loop to bytes** does on units what the loop for the other width does on their code
points. -/
theorem encodeLoop16_of_encoding (h : Encoding16 units w) (result : Bytes) :
    encodeLoop16 units result = encodeLoop w result := by
  induction h generalizing result with
  | nil => rfl
  | cons hunits _ ih =>
    rw [encodeLoop16_units hunits rfl, (encodeLoop_cons _ _ _).1 (units_iff.mp hunits).1, ih]

theorem WellFormed16.cons {n : ℕ} (hunits : Units units n) (hn : n = codePoint.toNat)
    (h : WellFormed16 text) : WellFormed16 (units ++ text) := by
  obtain ⟨w, hw⟩ := h
  exact ⟨codePoint :: w, .cons (hn ▸ hunits) hw⟩

/-- Nothing else is taken. -/
theorem encodeLoop16_of_not_wellFormed (h : ¬WellFormed16 units) (result : Bytes) :
    encodeLoop16 units result = [] := by
  induction units, result using encodeLoop16.induct with
  | case1 result => exact absurd ⟨[], .nil⟩ h
  | case2 unit result codePoint hhigh =>
    rw [encodeLoop16.eq_def]
    exact if_pos hhigh
  | case3 unit result codePoint hhigh low text lowSurrogate hlow ih =>
    have hu := isHighSurrogate_toUInt32.mp hhigh
    have hv := isLowSurrogate_toUInt32.mp hlow
    have hpair : Units [unit, low] _ := .pair hu.1 hu.2 hv.1 hv.2
    have hrest := ih fun htext => h (htext.cons hpair (toNat_pair hu hv).symm)
    rw [encodeLoop16.eq_def]
    exact (if_pos hhigh).trans ((if_pos hlow).trans hrest)
  | case4 unit result codePoint hhigh low text lowSurrogate hlow =>
    rw [encodeLoop16.eq_def]
    exact (if_pos hhigh).trans (if_neg hlow)
  | case5 unit text result codePoint hhigh hlow ih =>
    have hnot : ¬(0xD800 ≤ unit.toNat ∧ unit.toNat ≤ 0xDFFF) := fun hrange => by
      -- a surrogate is a high one or a low one
      have hhigh' := mt isHighSurrogate_toUInt32.mpr hhigh
      have hlow' : ¬isLowSurrogate unit.toUInt32 = true := by
        have hfalse : isLowSurrogate unit.toUInt32 = false := (Bool.not_eq_true' _).mp hlow
        rw [hfalse]
        exact Bool.false_ne_true
      have hrange' := mt isLowSurrogate_toUInt32.mpr hlow'
      omega
    have hrest := ih fun htext => h (htext.cons (.one hnot) (UInt16.toNat_toUInt32 unit).symm)
    rw [encodeLoop16.eq_def]
    exact (if_neg hhigh).trans ((if_pos hlow).trans hrest)
  | case6 unit text result codePoint hhigh hlow =>
    rw [encodeLoop16.eq_def]
    exact (if_neg hhigh).trans (if_neg hlow)

/-! ### Both directions -/

/-- **UTF-8 and UTF-16**: bytes are converted exactly if they are well-formed, into the units of
their code points, and well-formed units into the bytes that they came from; both directions are
those of the other width with the code points written as units, and give nothing elsewhere.  The
reader ends within a round for every byte and stays inside the text. -/
theorem utf16_exact :
    (∀ bytes units, Decodes16 bytes units ↔ ∃ w, Encoding bytes w ∧ Encoding16 units w) ∧
    (∀ bytes, stringToWString16 bytes = toUtf16 (stringToWString bytes)) ∧
    (∀ units w, Encoding16 units w → wStringToString16 units = wStringToString w) ∧
    (∀ bytes, WellFormed bytes → wStringToString16 (stringToWString16 bytes) = bytes) ∧
    (∀ units, WellFormed16 units → Decodes16 (wStringToString16 units) units ∧
      stringToWString16 (wStringToString16 units) = units) ∧
    (∀ bytes, ¬WellFormed bytes → stringToWString16 bytes = []) ∧
    (∀ units, ¬WellFormed16 units → wStringToString16 units = []) ∧
    ∀ bytes rounds, bytes.length ≤ rounds →
      decodeLoop16 bytes rounds 0 [] = decodeLoop16 bytes bytes.length 0 [] ∧
        decodeLoop16 bytes bytes.length 0 [] ≠ .running ∧
        decodeLoop16 bytes bytes.length 0 [] ≠ .outOfBounds := by
  refine ⟨fun bytes units => decodes16_iff, stringToWString16_eq,
    fun units w h => encodeLoop16_of_encoding h [], ?_, ?_, ?_,
    fun units hnot => encodeLoop16_of_not_wellFormed hnot [], ?_⟩
  · rintro bytes ⟨w, h⟩
    have hunits : Encoding16 (toUtf16 w) w := encoding16_iff.mpr ⟨isScalar_of_encoding h, rfl⟩
    rw [stringToWString16_eq, stringToWString_of_encoding h, wStringToString16,
      encodeLoop16_of_encoding hunits, encodeLoop_of_encoding h, List.nil_append]
  · rintro units ⟨w, h⟩
    obtain ⟨hscalar, hunits⟩ := encoding16_iff.mp h
    obtain ⟨bytes, hbytes⟩ := exists_encoding hscalar
    have hwritten : wStringToString16 units = bytes := by
      rw [wStringToString16, encodeLoop16_of_encoding h, encodeLoop_of_encoding hbytes,
        List.nil_append]
    rw [hwritten, stringToWString16_eq, stringToWString_of_encoding hbytes]
    exact ⟨decodes16_iff.mpr ⟨w, hbytes, h⟩, hunits.symm⟩
  · intro bytes hnot
    rw [stringToWString16, decodeLoop16_start]
    cases hloop : decodeLoop bytes bytes.length 0 [] with
    | decoded w => exact absurd ⟨w, decodes_iff.mp hloop⟩ hnot
    | rejected => rfl
    | outOfBounds => rfl
    | running => rfl
  · intro bytes rounds hrounds
    obtain ⟨hmore, hends, hinside⟩ := @decodeLoop_ends bytes 0 bytes.length [] rounds
      (Nat.le_refl _) hrounds
    rw [decodeLoop16_start, decodeLoop16_start, hmore]
    exact ⟨rfl, mt toUtf16_eq_running.mp hends, mt toUtf16_eq_outOfBounds.mp hinside⟩

end StringUtils

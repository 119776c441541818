/-
Words taken apart and put together.

* `orAll_byteAt` — a word is the `or` of its bytes, each shifted back to its place, in
  whatever order they are taken, as long as they cover it; `byteAt_orAll` — bytes put
  together are found again;
* `low`, `low_add` — the low bits of a word, and one more group of them;
* `low_seven_last`, `low_seven_more` — groups of seven bits in bytes whose highest bit
  says whether there are more;
* `unzigzag_zigzag`, `zigzag_unzigzag` — the zigzag form of a signed word.
-/
import Mathlib.Algebra.Group.Nat.Defs
import Mathlib.Data.List.Basic

namespace Words

variable {w : ℕ}

/-! ### Bytes -/

/-- The byte of a word at a shift. -/
def byteAt (bits : BitVec w) (shift : ℕ) : BitVec 8 := (bits >>> shift).setWidth 8

/-- Bytes shifted to their places. -/
def orAll (shift : ℕ → ℕ) (byte : ℕ → BitVec 8) : ℕ → BitVec w
  | 0 => 0#w
  | n + 1 => orAll shift byte n ||| (byte n).setWidth w <<< shift n

/-- A bit of them is a bit of one of them. -/
theorem getLsbD_orAll (shift : ℕ → ℕ) (byte : ℕ → BitVec 8) (n j : ℕ) :
    (orAll shift byte n : BitVec w).getLsbD j = true ↔
      j < w ∧ ∃ i < n, shift i ≤ j ∧ (byte i).getLsbD (j - shift i) = true := by
  induction n with
  | zero => simp [orAll]
  | succ n ih =>
    rw [orAll, BitVec.getLsbD_or, Bool.or_eq_true, ih]
    have hshifted : (((byte n).setWidth w <<< shift n : BitVec w)).getLsbD j = true ↔
        j < w ∧ shift n ≤ j ∧ (byte n).getLsbD (j - shift n) = true := by
      rw [BitVec.getLsbD_shiftLeft, BitVec.getLsbD_setWidth]
      simp only [Bool.and_eq_true, decide_eq_true_eq, Bool.not_eq_true', decide_eq_false_iff_not,
        Nat.not_lt]
      constructor
      · rintro ⟨⟨hj, hle⟩, -, hbit⟩
        exact ⟨hj, hle, hbit⟩
      · rintro ⟨hj, hle, hbit⟩
        exact ⟨⟨hj, hle⟩, by omega, hbit⟩
    rw [hshifted]
    constructor
    · rintro (⟨hj, i, hi, hbit⟩ | ⟨hj, hbit⟩)
      · exact ⟨hj, i, Nat.lt_succ_of_lt hi, hbit⟩
      · exact ⟨hj, n, Nat.lt_succ_self n, hbit⟩
    · rintro ⟨hj, i, hi, hbit⟩
      by_cases hin : i = n
      · exact .inr ⟨hj, hin ▸ hbit⟩
      · exact .inl ⟨hj, i, by omega, hbit⟩

/-- Bytes that cover a word give it back. -/
theorem orAll_byteAt {shift : ℕ → ℕ} {n : ℕ} (bits : BitVec w)
    (hcover : ∀ j < w, ∃ i < n, shift i ≤ j ∧ j < shift i + 8) :
    orAll shift (fun i => byteAt bits (shift i)) n = bits := by
  refine BitVec.eq_of_getLsbD_eq fun j hj => Bool.eq_iff_iff.mpr ?_
  rw [getLsbD_orAll]
  have hbyte : ∀ i, shift i ≤ j → (byteAt bits (shift i)).getLsbD (j - shift i) =
      (decide (j - shift i < 8) && bits.getLsbD j) := by
    intro i hle
    rw [byteAt, BitVec.getLsbD_setWidth, BitVec.getLsbD_ushiftRight, Nat.add_sub_cancel' hle]
  constructor
  · rintro ⟨-, i, -, hle, hbit⟩
    rw [hbyte i hle, Bool.and_eq_true] at hbit
    exact hbit.2
  · intro hbit
    obtain ⟨i, hi, hle, hlt⟩ := hcover j hj
    refine ⟨hj, i, hi, hle, ?_⟩
    rw [hbyte i hle, hbit, Bool.and_true, decide_eq_true_eq]
    omega

/-- Bytes shifted to places apart are found there. -/
theorem byteAt_orAll {shift : ℕ → ℕ} {n i : ℕ} (byte : ℕ → BitVec 8)
    (hapart : ∀ i < n, ∀ k < n, i ≠ k → shift i + 8 ≤ shift k ∨ shift k + 8 ≤ shift i)
    (hwithin : ∀ i < n, shift i + 8 ≤ w) (hi : i < n) :
    byteAt (orAll shift byte n : BitVec w) (shift i) = byte i := by
  refine BitVec.eq_of_getLsbD_eq fun j hj => ?_
  rw [byteAt, BitVec.getLsbD_setWidth, BitVec.getLsbD_ushiftRight, decide_eq_true hj, Bool.true_and,
    Bool.eq_iff_iff, getLsbD_orAll]
  constructor
  · rintro ⟨-, k, hk, hle, hbit⟩
    by_cases hsame : i = k
    · rwa [← hsame, Nat.add_sub_cancel_left] at hbit
    · -- no other byte reaches this far
      have hbeyond : 8 ≤ shift i + j - shift k := by
        have hcases := hapart i hi k hk hsame
        omega
      rw [BitVec.getLsbD_of_ge _ _ hbeyond] at hbit
      exact absurd hbit Bool.false_ne_true
  · intro hbit
    have hend := hwithin i hi
    refine ⟨by omega, i, hi, Nat.le_add_right _ _, ?_⟩
    rwa [Nat.add_sub_cancel_left]

/-- `orAll` looks at the first `n` bytes only. -/
theorem orAll_congr {shift : ℕ → ℕ} {byte byte' : ℕ → BitVec 8} {n : ℕ}
    (h : ∀ i < n, byte i = byte' i) : (orAll shift byte n : BitVec w) = orAll shift byte' n := by
  induction n with
  | zero => rfl
  | succ n ih =>
    rw [orAll, orAll, ih fun i hi => h i (Nat.lt_succ_of_lt hi), h n (Nat.lt_succ_self n)]

/-! ### Groups of bits -/

/-- The low bits of a word. -/
def low (bits : BitVec w) (n : ℕ) : BitVec w := (bits.setWidth n).setWidth w

theorem getLsbD_low (bits : BitVec w) (n j : ℕ) :
    (low bits n).getLsbD j = (decide (j < n) && bits.getLsbD j) := by
  rw [low, BitVec.getLsbD_setWidth, BitVec.getLsbD_setWidth]
  by_cases hj : j < w
  · rw [decide_eq_true hj, Bool.true_and]
  · rw [BitVec.getLsbD_of_ge bits j (Nat.le_of_not_lt hj), Bool.and_false, Bool.and_false]

theorem toNat_low (bits : BitVec w) (n : ℕ) : (low bits n).toNat = bits.toNat % 2 ^ n := by
  have hle : bits.toNat % 2 ^ n < 2 ^ w := Nat.lt_of_le_of_lt (Nat.mod_le _ _) bits.isLt
  rw [low, BitVec.toNat_setWidth, BitVec.toNat_setWidth, Nat.mod_eq_of_lt hle]

theorem low_zero (bits : BitVec w) : low bits 0 = 0#w :=
  BitVec.eq_of_getLsbD_eq fun j _ => by rw [getLsbD_low]; simp

/-- What is left of a word has no bits beyond the low ones. -/
theorem low_eq_of_shift {n : ℕ} (bits : BitVec w) (h : bits >>> n = 0#w) : low bits n = bits := by
  refine BitVec.eq_of_getLsbD_eq fun j _ => ?_
  rw [getLsbD_low]
  by_cases hjn : j < n
  · rw [decide_eq_true hjn, Bool.true_and]
  · have hzero : (bits >>> n).getLsbD (j - n) = false := by rw [h, BitVec.getLsbD_zero]
    rw [BitVec.getLsbD_ushiftRight, Nat.add_sub_cancel' (Nat.le_of_not_lt hjn)] at hzero
    rw [hzero, Bool.and_false]

/-- A group of `m` bits more. -/
theorem low_add (bits : BitVec w) (n m : ℕ) :
    low bits n ||| low (bits >>> n) m <<< n = low bits (n + m) := by
  refine BitVec.eq_of_getLsbD_eq fun j hj => ?_
  rw [BitVec.getLsbD_or, BitVec.getLsbD_shiftLeft, getLsbD_low, getLsbD_low, getLsbD_low,
    BitVec.getLsbD_ushiftRight, decide_eq_true hj, Bool.true_and]
  by_cases hjn : j < n
  · have hjm : j < n + m := Nat.lt_add_right m hjn
    rw [decide_eq_true hjn, decide_eq_true hjm, Bool.not_true, Bool.false_and, Bool.or_false]
  · have hiff : decide (j - n < m) = decide (j < n + m) := decide_eq_decide.mpr (by omega)
    rw [decide_eq_false hjn, Bool.not_false, Bool.false_and, Bool.false_or, Bool.true_and, hiff,
      Nat.add_sub_cancel' (Nat.le_of_not_lt hjn)]

/-! ### Groups of seven bits -/

theorem getLsbD_lowMask (w j : ℕ) : (0x7f#w).getLsbD j = (decide (j < w) && decide (j < 7)) := by
  rw [BitVec.getLsbD_ofNat]
  show (decide (j < w) && (2 ^ 7 - 1).testBit j) = _
  rw [Nat.testBit_two_pow_sub_one]

theorem getLsbD_highBit (w j : ℕ) : (0x80#w).getLsbD j = (decide (j < w) && decide (7 = j)) := by
  rw [BitVec.getLsbD_ofNat]
  show (decide (j < w) && (2 ^ 7).testBit j) = _
  rw [Nat.testBit_two_pow]

/-- The low seven bits of a byte that has them from a word. -/
theorem low_seven {byte : BitVec 8} (value : BitVec w)
    (h : ∀ j < 7, byte.getLsbD j = value.getLsbD j) :
    (byte &&& 0x7f#8).setWidth w = low value 7 := by
  refine BitVec.eq_of_getLsbD_eq fun j hj => ?_
  rw [BitVec.getLsbD_setWidth, BitVec.getLsbD_and, getLsbD_lowMask, getLsbD_low,
    decide_eq_true hj, Bool.true_and]
  by_cases hseven : j < 7
  · have height : j < 8 := by omega
    rw [h j hseven, decide_eq_true hseven, decide_eq_true height, Bool.true_and, Bool.and_true,
      Bool.true_and]
  · rw [decide_eq_false hseven, Bool.and_false, Bool.and_false, Bool.false_and]

/-- A byte with the highest bit set. -/
theorem low_seven_more (hw : 8 ≤ w) (value : BitVec w) :
    (((value &&& 0x7f#w) ||| 0x80#w).setWidth 8 &&& 0x7f#8).setWidth w = low value 7 := by
  refine low_seven value fun j hj => ?_
  have height : j < 8 := by omega
  have hne : ¬ 7 = j := by omega
  rw [BitVec.getLsbD_setWidth, BitVec.getLsbD_or, BitVec.getLsbD_and, getLsbD_lowMask,
    getLsbD_highBit, decide_eq_true height, decide_eq_true (Nat.lt_of_lt_of_le height hw),
    decide_eq_true hj, decide_eq_false hne]
  simp

theorem highBit_more (hw : 8 ≤ w) (value : BitVec w) :
    ((value &&& 0x7f#w) ||| 0x80#w).setWidth 8 &&& 0x80#8 ≠ 0#8 := by
  intro hzero
  have hseven : 7 < w := by omega
  have hbit := congrArg (fun byte : BitVec 8 => byte.getLsbD 7) hzero
  revert hbit
  show (((value &&& 0x7f#w) ||| 0x80#w).setWidth 8 &&& 0x80#8).getLsbD 7 = _ → False
  rw [BitVec.getLsbD_and, BitVec.getLsbD_setWidth, BitVec.getLsbD_or, getLsbD_highBit,
    getLsbD_highBit, decide_eq_true hseven]
  simp

/-- A byte with the highest bit clear. -/
theorem low_seven_last (value : BitVec w) :
    (value.setWidth 8 &&& 0x7f#8).setWidth w = low value 7 := by
  refine low_seven value fun j hj => ?_
  have height : j < 8 := by omega
  rw [BitVec.getLsbD_setWidth, decide_eq_true height, Bool.true_and]

theorem shift_seven_last {value : BitVec w} (h : value.toNat < 0x80) : value >>> 7 = 0#w := by
  refine BitVec.eq_of_toNat_eq ?_
  rw [BitVec.toNat_ushiftRight, Nat.shiftRight_eq_div_pow, Nat.div_eq_of_lt h]
  rfl

theorem highBit_last {value : BitVec w} (h : value.toNat < 0x80) :
    value.setWidth 8 &&& 0x80#8 = 0#8 := by
  refine BitVec.eq_of_getLsbD_eq fun j hj => ?_
  rw [BitVec.getLsbD_and, getLsbD_highBit, BitVec.getLsbD_setWidth, BitVec.getLsbD_zero]
  by_cases hseven : 7 = j
  · have hclear : (value >>> 7).getLsbD 0 = false := by
      rw [shift_seven_last h, BitVec.getLsbD_zero]
    rw [BitVec.getLsbD_ushiftRight, Nat.add_zero] at hclear
    rw [← hseven, hclear, Bool.and_false, Bool.false_and]
  · rw [decide_eq_false hseven, Bool.and_false, Bool.and_false]

/-! ### Zigzag -/

/-- The sign goes to the lowest bit. -/
def zigzag (value : BitVec w) : BitVec w :=
  (value <<< 1) ^^^ -(BitVec.ofBool (value.slt 0#w)).setWidth w

def unzigzag (value : BitVec w) : BitVec w := (value >>> 1) ^^^ (0#w - (value &&& 1#w))

/-- A word of ones or of zeros. -/
theorem getLsbD_neg_ofBool (b : Bool) {j : ℕ} (hj : j < w) :
    (-(BitVec.ofBool b).setWidth w).getLsbD j = b := by
  cases b with
  | false => simp
  | true =>
    have hone : (BitVec.ofBool true).setWidth w = 1#w := by
      refine BitVec.eq_of_toNat_eq ?_
      simp
    rw [hone, BitVec.neg_one_eq_allOnes, BitVec.getLsbD_allOnes, decide_eq_true hj]

/-- The lowest bit of the zigzag form is the sign. -/
theorem zigzag_and_one (value : BitVec w) :
    zigzag value &&& 1#w = (BitVec.ofBool (value.slt 0#w)).setWidth w := by
  refine BitVec.eq_of_getLsbD_eq fun j hj => ?_
  rw [BitVec.getLsbD_and, zigzag, BitVec.getLsbD_xor, getLsbD_neg_ofBool _ hj,
    BitVec.getLsbD_shiftLeft, BitVec.getLsbD_setWidth, BitVec.getLsbD_ofBool, BitVec.getLsbD_one]
  by_cases hzero : j = 0
  · subst hzero
    simp [hj]
  · simp [hzero]

theorem unzigzag_zigzag (value : BitVec w) : unzigzag (zigzag value) = value := by
  refine BitVec.eq_of_getLsbD_eq fun j hj => ?_
  rw [unzigzag, zigzag_and_one, BitVec.zero_sub, BitVec.getLsbD_xor, getLsbD_neg_ofBool _ hj,
    BitVec.getLsbD_ushiftRight, zigzag, BitVec.getLsbD_xor, BitVec.getLsbD_shiftLeft]
  by_cases hlast : 1 + j < w
  · have hsub : 1 + j - 1 = j := by omega
    rw [getLsbD_neg_ofBool _ hlast, decide_eq_true hlast, hsub]
    simp
  · -- the highest bit is the sign itself
    have hmsb : value.getLsbD j = value.msb := by
      rw [BitVec.msb_eq_getLsbD_last]
      exact congrArg _ (by omega)
    rw [BitVec.getLsbD_of_ge _ _ (Nat.le_of_not_lt hlast), decide_eq_false hlast, hmsb,
      BitVec.slt_zero_eq_msb]
    simp

/-- A bit of the word is a bit of the form, turned by the lowest one. -/
theorem getLsbD_unzigzag (value : BitVec w) {j : ℕ} (hj : j < w) :
    (unzigzag value).getLsbD j = (value.getLsbD (1 + j) ^^ value.getLsbD 0) := by
  have hone : value &&& 1#w = (BitVec.ofBool (value.getLsbD 0)).setWidth w := by
    refine BitVec.eq_of_getLsbD_eq fun i hi => ?_
    rw [BitVec.getLsbD_and, BitVec.getLsbD_setWidth, BitVec.getLsbD_ofBool, BitVec.getLsbD_one]
    by_cases hzero : i = 0
    · subst hzero
      simp [hi]
    · simp [hzero]
  rw [unzigzag, hone, BitVec.zero_sub, BitVec.getLsbD_xor, getLsbD_neg_ofBool _ hj,
    BitVec.getLsbD_ushiftRight]

theorem zigzag_unzigzag (value : BitVec w) : zigzag (unzigzag value) = value := by
  refine BitVec.eq_of_getLsbD_eq fun j hj => ?_
  have hpos : 0 < w := Nat.lt_of_le_of_lt (Nat.zero_le j) hj
  -- nothing is above the highest bit, so the sign is the lowest bit of the form
  have hsign : (unzigzag value).msb = value.getLsbD 0 := by
    have hlast : 1 + (w - 1) = w := by omega
    rw [BitVec.msb_eq_getLsbD_last, getLsbD_unzigzag value (by omega), hlast,
      BitVec.getLsbD_of_ge value w (Nat.le_refl w), Bool.false_xor]
  rw [zigzag, BitVec.getLsbD_xor, getLsbD_neg_ofBool _ hj, BitVec.slt_zero_eq_msb, hsign,
    BitVec.getLsbD_shiftLeft, decide_eq_true hj, Bool.true_and]
  cases j with
  | zero => simp
  | succ j =>
    have hnext : 1 + j = j + 1 := Nat.add_comm 1 j
    have hnot : ¬ j + 1 < 1 := by omega
    rw [decide_eq_false hnot, Nat.add_sub_cancel, getLsbD_unzigzag value (by omega), hnext]
    simp

end Words

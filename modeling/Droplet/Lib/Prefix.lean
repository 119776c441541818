/-
Prefixes of words and of byte strings.

A word of width `w` is a number below `2 ^ w` whose first bit is the most significant one; a
byte string is read as such a number with its first byte in front.

* `testBit_bigEndian` — the bits of a byte string;
* `testBit_mask`, `testBit_hostMask` — the mask of the first `p` bits and that of the others;
* `eq_and_mask`, `eq_or_hostMask` — the words that have the first `p` bits of another, and
  zeros or ones behind them;
* `and_mask_or`, `and_mask_eq_iff` — a masked word is that of all words with its first bits;
* `takeWhile_bits` — a mask begins with its ones.
-/
import Mathlib.Algebra.Group.Nat.Defs
import Mathlib.Data.List.Basic
import Mathlib.Data.Nat.Bitwise

namespace Prefix

variable {w p j : ℕ} {a b : ℕ}

/-! ### Masks -/

/-- The first `p` of `w` bits. -/
def mask (w p : ℕ) : ℕ := 2 ^ w - 2 ^ (w - p)

/-- The bits behind the first `p`. -/
def hostMask (w p : ℕ) : ℕ := 2 ^ w - 1 - mask w p

theorem mask_eq (hp : p ≤ w) : mask w p = (2 ^ p - 1) <<< (w - p) := by
  have hsplit : 2 ^ w = 2 ^ p * 2 ^ (w - p) := by
    rw [← Nat.pow_add, Nat.add_sub_cancel' hp]
  rw [mask, Nat.shiftLeft_eq, Nat.sub_mul, ← hsplit, Nat.one_mul]

theorem hostMask_eq (w p : ℕ) : hostMask w p = 2 ^ (w - p) - 1 := by
  have hle : 2 ^ (w - p) ≤ 2 ^ w := Nat.pow_le_pow_right (by decide) (Nat.sub_le w p)
  rw [hostMask, mask]
  omega

theorem testBit_mask (hp : p ≤ w) :
    (mask w p).testBit j = (decide (w - p ≤ j) && decide (j < w)) := by
  rw [mask_eq hp, Nat.testBit_shiftLeft, Nat.testBit_two_pow_sub_one]
  by_cases hj : w - p ≤ j
  · have hiff : j - (w - p) < p ↔ j < w := by omega
    simp [hj, hiff]
  · simp [hj]

theorem testBit_hostMask : (hostMask w p).testBit j = decide (j < w - p) := by
  rw [hostMask_eq, Nat.testBit_two_pow_sub_one]

/-- The first bits of a word with zeros behind them. -/
theorem eq_and_mask (hp : p ≤ w) (ha : a < 2 ^ w)
    (hbits : ∀ j, a.testBit j = (decide (w - p ≤ j) && b.testBit j)) : a = b &&& mask w p := by
  refine Nat.eq_of_testBit_eq fun j => ?_
  rw [Nat.testBit_and, testBit_mask hp]
  by_cases hj : j < w
  · rw [hbits, decide_eq_true hj, Bool.and_true, Bool.and_comm]
  · have hpow : 2 ^ w ≤ 2 ^ j := Nat.pow_le_pow_right (by decide) (Nat.le_of_not_lt hj)
    rw [Nat.testBit_eq_false_of_lt (Nat.lt_of_lt_of_le ha hpow), decide_eq_false hj,
      Bool.and_false, Bool.and_false]

/-- The first bits of a word with ones behind them. -/
theorem eq_or_hostMask
    (hbits : ∀ j, a.testBit j = (decide (j < w - p) || b.testBit j)) :
    a = b ||| hostMask w p := by
  refine Nat.eq_of_testBit_eq fun j => ?_
  rw [Nat.testBit_or, testBit_hostMask, hbits, Bool.or_comm]

/-- What is added behind the first bits is masked. -/
theorem and_mask_or (hp : p ≤ w) : (a ||| hostMask w p) &&& mask w p = a &&& mask w p := by
  refine Nat.eq_of_testBit_eq fun j => ?_
  rw [Nat.testBit_and, Nat.testBit_or, Nat.testBit_and, testBit_mask hp, testBit_hostMask]
  by_cases hj : w - p ≤ j
  · rw [decide_eq_false (Nat.not_lt.mpr hj), Bool.or_false]
  · rw [decide_eq_false hj, Bool.false_and, Bool.and_false, Bool.and_false]

/-- **Masked words** are equal when the first bits are. -/
theorem and_mask_eq_iff (hp : p ≤ w) : a &&& mask w p = b &&& mask w p ↔
    ∀ i < p, a.testBit (w - 1 - i) = b.testBit (w - 1 - i) := by
  constructor
  · intro h i hi
    have hbit := congrArg (fun n => n.testBit (w - 1 - i)) h
    have hfront : w - p ≤ w - 1 - i := by omega
    have hlt : w - 1 - i < w := by omega
    simpa only [Nat.testBit_and, testBit_mask hp, hfront, hlt, decide_true, Bool.and_true]
      using hbit
  · intro h
    refine Nat.eq_of_testBit_eq fun j => ?_
    rw [Nat.testBit_and, Nat.testBit_and, testBit_mask hp]
    by_cases hj : w - p ≤ j ∧ j < w
    · have hplace : w - 1 - (w - 1 - j) = j := by omega
      have hbit := h (w - 1 - j) (by omega)
      rw [hplace] at hbit
      rw [hbit]
    · have hout : (decide (w - p ≤ j) && decide (j < w)) = false := by
        rw [Bool.and_eq_false_iff, decide_eq_false_iff_not, decide_eq_false_iff_not]
        omega
      rw [hout, Bool.and_false, Bool.and_false]

/-! ### Byte strings -/

/-- A byte string as a number, the first byte in front. -/
def bigEndian (bytes : List UInt8) : ℕ := bytes.foldl (fun acc byte => acc * 256 + byte.toNat) 0

theorem foldl_bigEndian (bytes : List UInt8) (start : ℕ) :
    bytes.foldl (fun acc byte => acc * 256 + byte.toNat) start =
      start * 256 ^ bytes.length + bigEndian bytes := by
  induction bytes generalizing start with
  | nil => simp [bigEndian]
  | cons byte bytes ih =>
    rw [bigEndian, List.foldl_cons, List.foldl_cons, ih, ih (0 * 256 + _), List.length_cons,
      Nat.pow_succ, Nat.zero_mul, Nat.zero_add, Nat.add_mul, Nat.mul_assoc,
      Nat.mul_comm 256, Nat.add_assoc]

theorem bigEndian_cons (byte : UInt8) (bytes : List UInt8) :
    bigEndian (byte :: bytes) = byte.toNat * 256 ^ bytes.length + bigEndian bytes := by
  rw [bigEndian, List.foldl_cons, foldl_bigEndian, Nat.zero_mul, Nat.zero_add]

theorem bigEndian_lt (bytes : List UInt8) : bigEndian bytes < 2 ^ (8 * bytes.length) := by
  induction bytes with
  | nil => exact Nat.one_pos
  | cons byte bytes ih =>
    have hbyte := byte.toNat_lt
    have hpow : (256 : ℕ) ^ bytes.length = 2 ^ (8 * bytes.length) := by
      rw [Nat.pow_mul]
    rw [bigEndian_cons, List.length_cons, Nat.mul_succ, Nat.pow_add, hpow, Nat.mul_comm]
    calc 2 ^ (8 * bytes.length) * byte.toNat + bigEndian bytes
        < 2 ^ (8 * bytes.length) * byte.toNat + 2 ^ (8 * bytes.length) :=
          Nat.add_lt_add_left ih _
      _ = 2 ^ (8 * bytes.length) * (byte.toNat + 1) := (Nat.mul_succ _ _).symm
      _ ≤ 2 ^ (8 * bytes.length) * 2 ^ 8 := Nat.mul_le_mul_left _ hbyte

/-- **The bits of a byte string**: bit `k` of the byte with `n` bytes behind it. -/
theorem testBit_bigEndian {bytes : List UInt8} {i k : ℕ} (hi : i < bytes.length) (hk : k < 8) :
    (bigEndian bytes).testBit (8 * (bytes.length - 1 - i) + k) = bytes[i].toNat.testBit k := by
  induction bytes generalizing i with
  | nil => exact absurd hi (Nat.not_lt_zero i)
  | cons byte bytes ih =>
    have hpow : (256 : ℕ) ^ bytes.length = 2 ^ (8 * bytes.length) := by
      rw [Nat.pow_mul]
    rw [bigEndian_cons, hpow, Nat.mul_comm, Nat.testBit_two_pow_mul_add _ (bigEndian_lt bytes)]
    cases i with
    | zero =>
      have hplace : 8 * ((byte :: bytes).length - 1 - 0) + k = 8 * bytes.length + k := rfl
      rw [hplace, if_neg (by omega), Nat.add_sub_cancel_left, List.getElem_cons_zero]
    | succ i =>
      rw [List.length_cons] at hi ⊢
      have hplace : 8 * (bytes.length + 1 - 1 - (i + 1)) + k =
          8 * (bytes.length - 1 - i) + k := by omega
      rw [hplace, if_pos (by omega), ih (Nat.lt_of_succ_lt_succ hi), List.getElem_cons_succ]

/-- Byte strings of one length are told apart by their numbers. -/
theorem bigEndian_inj {xs ys : List UInt8} (hlength : xs.length = ys.length) :
    bigEndian xs = bigEndian ys ↔ xs = ys := by
  refine ⟨fun h => List.ext_getElem hlength fun i hx hy => ?_, fun h => h ▸ rfl⟩
  refine UInt8.toNat_inj.mp (Nat.eq_of_testBit_eq fun k => ?_)
  by_cases hk : k < 8
  · rw [← testBit_bigEndian hx hk, ← testBit_bigEndian hy hk, h, hlength]
  · have hpow : 2 ^ 8 ≤ 2 ^ k := Nat.pow_le_pow_right (by decide) (Nat.le_of_not_lt hk)
    rw [Nat.testBit_eq_false_of_lt (Nat.lt_of_lt_of_le (xs[i].toNat_lt) hpow),
      Nat.testBit_eq_false_of_lt (Nat.lt_of_lt_of_le (ys[i].toNat_lt) hpow)]

/-- A number of the bits of a byte string, by a rule for the bits of each byte. -/
theorem testBit_of_bytes {bytes : List UInt8} (bit : ℕ → Bool) {w : ℕ}
    (hw : w = 8 * bytes.length)
    (hbits : ∀ i, (hi : i < bytes.length) → ∀ k < 8,
      bytes[i].toNat.testBit k = bit (8 * (bytes.length - 1 - i) + k)) (hj : j < w) :
    (bigEndian bytes).testBit j = bit j := by
  have hi : bytes.length - 1 - j / 8 < bytes.length := by omega
  have hplace : 8 * (bytes.length - 1 - (bytes.length - 1 - j / 8)) + j % 8 = j := by omega
  have hk : j % 8 < 8 := Nat.mod_lt j (by decide)
  have hbit := testBit_bigEndian hi hk
  rw [hbits _ hi _ hk, hplace] at hbit
  exact hbit

/-! ### Leading ones -/

/-- The bits of a byte string, from its first one on. -/
def bits (bytes : List UInt8) : List Bool :=
  bytes.flatMap fun byte => (List.range 8).map fun i => byte.toNat.testBit (7 - i)

theorem bits_eq (bytes : List UInt8) : bits bytes = (List.range (8 * bytes.length)).map fun i =>
    (bigEndian bytes).testBit (8 * bytes.length - 1 - i) := by
  induction bytes with
  | nil => rfl
  | cons byte bytes ih =>
    have hpow : (256 : ℕ) ^ bytes.length = 2 ^ (8 * bytes.length) := by
      rw [Nat.pow_mul]
    have hlength : 8 * (byte :: bytes).length = 8 + 8 * bytes.length := by
      rw [List.length_cons, Nat.mul_succ, Nat.add_comm]
    have hsplit : bits (byte :: bytes) =
        (List.range 8).map (fun i => byte.toNat.testBit (7 - i)) ++ bits bytes := rfl
    rw [hsplit, ih, hlength, List.range_add, List.map_append, List.map_map, bigEndian_cons, hpow,
      Nat.mul_comm byte.toNat]
    congr 1
    · refine List.map_congr_left fun i hi => ?_
      rw [List.mem_range] at hi
      have hplace : 8 + 8 * bytes.length - 1 - i - 8 * bytes.length = 7 - i := by omega
      rw [Nat.testBit_two_pow_mul_add _ (bigEndian_lt bytes), if_neg (by omega), hplace]
    · refine List.map_congr_left fun i hi => ?_
      rw [List.mem_range] at hi
      have hplace : 8 + 8 * bytes.length - 1 - (8 + i) = 8 * bytes.length - 1 - i := by omega
      rw [Function.comp_apply, hplace, Nat.testBit_two_pow_mul_add _ (bigEndian_lt bytes),
        if_pos (by omega)]

/-- A mask begins with its ones. -/
theorem takeWhile_bits {bytes : List UInt8} (hw : w = 8 * bytes.length) (hp : p ≤ w)
    (h : bigEndian bytes = mask w p) : ((bits bytes).takeWhile id).length = p := by
  have hones : (List.range p).map (fun i => (mask w p).testBit (w - 1 - i)) =
      List.replicate p true := by
    rw [List.eq_replicate_iff]
    refine ⟨by rw [List.length_map, List.length_range], fun b hb => ?_⟩
    obtain ⟨i, hi, rfl⟩ := List.mem_map.mp hb
    rw [List.mem_range] at hi
    rw [testBit_mask hp, Bool.and_eq_true, decide_eq_true_eq, decide_eq_true_eq]
    omega
  have hzeros : ∀ b ∈ (List.range (w - p)).map fun i => (mask w p).testBit (w - 1 - (p + i)),
      b = false := by
    intro b hb
    obtain ⟨i, hi, rfl⟩ := List.mem_map.mp hb
    rw [List.mem_range] at hi
    rw [testBit_mask hp, Bool.and_eq_false_iff, decide_eq_false_iff_not]
    left
    omega
  have hsplit : bits bytes = List.replicate p true ++
      (List.range (w - p)).map fun i => (mask w p).testBit (w - 1 - (p + i)) := by
    have hrange : List.range w = List.range p ++ (List.range (w - p)).map (p + ·) := by
      rw [← List.range_add, Nat.add_sub_cancel' hp]
    rw [bits_eq, ← hw, h, hrange, List.map_append, hones, List.map_map]
    rfl
  rw [hsplit, List.takeWhile_append_of_pos (p := id) fun b hb => List.eq_of_mem_replicate hb]
  rcases hrest : (List.range (w - p)).map fun i => (mask w p).testBit (w - 1 - (p + i))
    with _ | ⟨b, rest⟩
  · rw [List.takeWhile_nil, List.append_nil, List.length_replicate]
  · have hb : b = false := hzeros b (by rw [hrest]; exact List.mem_cons_self)
    rw [hb, List.takeWhile_cons_of_neg (by simp), List.append_nil, List.length_replicate]

end Prefix

/-
Numbers in groups of seven bits.

A number is a list of bytes, each with seven of its bits, the lowest first; the highest
bit of a byte says whether more of them follow.

* `number`, `Terminated` — what the bytes stand for, and where they end;
* `Terminated.eq_of_isPrefix` — a list of bytes starts with at most one such number;
* `Shortest` — no other bytes for the same number are as few; `shortest_singleton`,
  `Shortest.cons` build them group by group;
* `toNat_group` — one more group behind those that have been read.
-/
import Mathlib.Data.Nat.Digits.Defs
import Droplet.Lib.Words

namespace Groups

variable {byte last : BitVec 8} {bytes rest other : List (BitVec 8)}

/-- The number that the groups stand for. -/
def number (bytes : List (BitVec 8)) : ℕ := Nat.ofDigits 128 (bytes.map fun byte => byte.toNat % 128)

/-- The last byte is the only one with its highest bit clear. -/
def Terminated (bytes : List (BitVec 8)) : Prop :=
  ∃ init last, bytes = init ++ [last] ∧ (∀ byte ∈ init, byte.msb = true) ∧ last.msb = false

theorem number_cons (byte : BitVec 8) (rest : List (BitVec 8)) :
    number (byte :: rest) = byte.toNat % 128 + 128 * number rest := by
  rw [number, List.map_cons, Nat.ofDigits_cons]
  rfl

theorem number_singleton (byte : BitVec 8) : number [byte] = byte.toNat % 128 := by
  rw [number_cons, number, List.map_nil, Nat.ofDigits_nil, Nat.mul_zero, Nat.add_zero]

theorem Terminated.ne_nil (h : Terminated bytes) : bytes ≠ [] := by
  obtain ⟨init, last, rfl, -, -⟩ := h
  exact List.append_ne_nil_of_right_ne_nil init (List.cons_ne_nil last [])

theorem terminated_singleton (h : last.msb = false) : Terminated [last] :=
  ⟨[], last, rfl, fun _ hmem => absurd hmem List.not_mem_nil, h⟩

theorem Terminated.cons (hbyte : byte.msb = true) (h : Terminated rest) :
    Terminated (byte :: rest) := by
  obtain ⟨init, last, rfl, hinit, hlast⟩ := h
  refine ⟨byte :: init, last, rfl, ?_, hlast⟩
  intro other hother
  cases List.mem_cons.mp hother with
  | inl heq => rw [heq, hbyte]
  | inr hmem => exact hinit other hmem

/-- By the first byte. -/
theorem Terminated.cases_cons (h : Terminated (byte :: rest)) :
    byte.msb = false ∧ rest = [] ∨ byte.msb = true ∧ Terminated rest := by
  obtain ⟨init, last, heq, hinit, hlast⟩ := h
  cases init with
  | nil =>
    obtain ⟨rfl, rfl⟩ := List.cons.inj heq
    exact .inl ⟨hlast, rfl⟩
  | cons first init =>
    obtain ⟨rfl, rfl⟩ := List.cons.inj heq
    refine .inr ⟨hinit byte List.mem_cons_self, init, last, rfl, ?_, hlast⟩
    intro other hother
    exact hinit other (List.mem_cons_of_mem byte hother)

/-- A byte whose highest bit is clear ends the number. -/
theorem Terminated.rest_eq_nil (h : Terminated (byte :: rest)) (hbyte : byte.msb = false) :
    rest = [] := by
  obtain ⟨-, hrest⟩ | ⟨hset, -⟩ := h.cases_cons
  · exact hrest
  · rw [hbyte] at hset
    exact absurd hset Bool.false_ne_true

theorem Terminated.tail (h : Terminated (byte :: rest)) (hbyte : byte.msb = true) :
    Terminated rest := by
  obtain ⟨hclear, -⟩ | ⟨-, hrest⟩ := h.cases_cons
  · rw [hbyte] at hclear
    exact absurd hclear.symm Bool.false_ne_true
  · exact hrest

/-- No number goes on behind the end of another one. -/
theorem Terminated.eq_of_isPrefix {more : List (BitVec 8)} (h : Terminated bytes)
    (hother : Terminated other) (hbytes : bytes <+: more) (hfront : other <+: more) :
    bytes = other := by
  induction bytes generalizing other more with
  | nil => exact absurd rfl h.ne_nil
  | cons byte rest ih =>
    obtain ⟨behind, rfl⟩ := hbytes
    obtain ⟨first, left, rfl⟩ := List.exists_cons_of_ne_nil hother.ne_nil
    rw [List.cons_append, List.cons_prefix_cons] at hfront
    obtain ⟨rfl, hleft⟩ := hfront
    cases hbyte : first.msb with
    | false => rw [h.rest_eq_nil hbyte, hother.rest_eq_nil hbyte]
    | true => rw [ih (h.tail hbyte) (hother.tail hbyte) (List.prefix_append rest behind) hleft]

/-! ### The bits of a byte -/

/-- The highest bit counts 128. -/
theorem toNat_eq (byte : BitVec 8) : byte.toNat = byte.toNat % 128 + 128 * byte.msb.toNat := by
  have hlt := byte.isLt
  rw [BitVec.msb_eq_decide]
  by_cases hle : 2 ^ (8 - 1) ≤ byte.toNat
  · rw [decide_eq_true hle]
    show byte.toNat = byte.toNat % 128 + 128 * 1
    omega
  · rw [decide_eq_false hle]
    show byte.toNat = byte.toNat % 128 + 128 * 0
    omega

theorem toNat_of_msb_eq_false (h : byte.msb = false) : byte.toNat % 128 = byte.toNat := by
  have heq := toNat_eq byte
  rw [h, Bool.toNat_false, Nat.mul_zero, Nat.add_zero] at heq
  exact heq.symm

theorem toNat_lowMask (byte : BitVec 8) : (byte &&& 0x7f#8).toNat = byte.toNat % 128 := by
  rw [BitVec.toNat_and]
  exact Nat.and_two_pow_sub_one_eq_mod byte.toNat 7

theorem and_highBit_eq_zero_iff (byte : BitVec 8) : byte &&& 0x80#8 = 0#8 ↔ byte.msb = false := by
  rw [BitVec.msb_eq_getLsbD_last]
  constructor
  · intro hzero
    have hbit := congrArg (fun bits : BitVec 8 => bits.getLsbD 7) hzero
    simpa using hbit
  · intro hclear
    refine BitVec.eq_of_getLsbD_eq fun j _ => ?_
    rw [BitVec.getLsbD_and, Words.getLsbD_highBit, BitVec.getLsbD_zero]
    by_cases hseven : 7 = j
    · subst hseven
      rw [hclear, Bool.false_and]
    · rw [decide_eq_false hseven, Bool.and_false, Bool.and_false]

/-- One more group: the bits read so far are below it, and it still is within the word. -/
theorem toNat_group {w n : ℕ} {bits : BitVec w} (hw : 8 ≤ w) (hbits : bits.toNat < 2 ^ n)
    (hfits : byte.toNat % 128 * 2 ^ n < 2 ^ w) :
    (bits ||| (byte &&& 0x7f#8).setWidth w <<< n).toNat = bits.toNat + 2 ^ n * (byte.toNat % 128) := by
  have hwide : byte.toNat % 128 < 2 ^ w := by
    have hpow : 2 ^ 8 ≤ 2 ^ w := Nat.pow_le_pow_right (by decide) hw
    omega
  rw [BitVec.toNat_or, BitVec.toNat_shiftLeft, BitVec.toNat_setWidth, toNat_lowMask,
    Nat.mod_eq_of_lt hwide, Nat.shiftLeft_eq, Nat.mod_eq_of_lt hfits, Nat.or_comm, Nat.mul_comm,
    ← Nat.two_pow_add_eq_or_of_lt hbits, Nat.add_comm]

/-! ### The shortest form -/

/-- The bytes are a number, and any others for it are more. -/
structure Shortest (bytes : List (BitVec 8)) : Prop where
  terminated : Terminated bytes
  least : ∀ other, Terminated other → number other = number bytes →
    other = bytes ∨ bytes.length < other.length

/-- A number of one group. -/
theorem shortest_singleton (h : last.msb = false) : Shortest [last] := by
  refine ⟨terminated_singleton h, ?_⟩
  intro other hother hnumber
  obtain ⟨first, rest, rfl⟩ := List.exists_cons_of_ne_nil hother.ne_nil
  cases hfirst : first.msb with
  | true =>
    right
    have hpos := List.length_pos_of_ne_nil (hother.tail hfirst).ne_nil
    rw [List.length_singleton, List.length_cons]
    omega
  | false =>
    left
    obtain rfl := hother.rest_eq_nil hfirst
    rw [number_singleton, number_singleton, toNat_of_msb_eq_false h,
      toNat_of_msb_eq_false hfirst] at hnumber
    rw [BitVec.eq_of_toNat_eq hnumber]

/-- A group in front of a number that is not zero. -/
theorem Shortest.cons (h : Shortest rest) (hbyte : byte.msb = true) (hpos : 0 < number rest) :
    Shortest (byte :: rest) := by
  refine ⟨h.terminated.cons hbyte, ?_⟩
  intro other hother hnumber
  obtain ⟨first, left, rfl⟩ := List.exists_cons_of_ne_nil hother.ne_nil
  rw [number_cons, number_cons] at hnumber
  cases hfirst : first.msb with
  | false =>
    -- one group cannot hold it
    obtain rfl := hother.rest_eq_nil hfirst
    have hnil : number [] = 0 := rfl
    omega
  | true =>
    have hlow : first.toNat % 128 = byte.toNat % 128 := by omega
    have hleft : number left = number rest := by omega
    have hsame : first = byte := by
      refine BitVec.eq_of_toNat_eq ?_
      rw [toNat_eq first, toNat_eq byte, hfirst, hbyte, hlow]
    obtain rfl | hlt := h.least left (hother.tail hfirst) hleft
    · exact .inl (by rw [hsame])
    · exact .inr (Nat.succ_lt_succ hlt)

end Groups

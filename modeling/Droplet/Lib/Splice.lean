/-
Writing into a list.

`splice xs p ys` overwrites `xs` from position `p` on with `ys`, and extends it where
`ys` ends behind it: what a write at a cursor does to a flat buffer.

* `length_splice`, `take_splice`, `drop_splice` — what is left of the old list and what
  is new; `getElem_splice_new`, `getElem_splice_old` — the same for each element;
* `splice_append_left`, `splice_append_right` — a write into one part of a
  concatenation;
* `splice_append` — a write in two parts.
-/
import Mathlib.Data.List.Basic

namespace Splice

variable {α : Type*} {xs ys zs : List α} {p n : ℕ}

/-- Overwrite `xs` from `p` on. -/
def splice (xs : List α) (p : ℕ) (ys : List α) : List α :=
  xs.take p ++ ys ++ xs.drop (p + ys.length)

theorem splice_nil (xs : List α) (p : ℕ) : splice xs p [] = xs := by
  rw [splice, List.append_nil, List.length_nil, Nat.add_zero, List.take_append_drop]

theorem length_splice (h : p ≤ xs.length) :
    (splice xs p ys).length = max xs.length (p + ys.length) := by
  rw [splice, List.length_append, List.length_append, List.length_take, List.length_drop]
  omega

/-- What is before the cursor stays. -/
theorem take_splice (h : p ≤ xs.length) : (splice xs p ys).take p = xs.take p := by
  rw [splice, List.append_assoc, List.take_append_of_le_length (by rw [List.length_take]; omega),
    List.take_take, Nat.min_self]

/-- What was written, and what is behind it. -/
theorem drop_splice (h : p ≤ xs.length) :
    (splice xs p ys).drop p = ys ++ xs.drop (p + ys.length) := by
  have hlen : (xs.take p).length = p := by rw [List.length_take]; omega
  rw [splice, List.append_assoc, List.drop_append, hlen, Nat.sub_self, List.drop_zero,
    List.drop_of_length_le (Nat.le_of_eq hlen), List.nil_append]

/-- An element that is written. -/
theorem getElem_splice_new {i : ℕ} (h : p ≤ xs.length) (hi : i < ys.length) :
    (splice xs p ys)[p + i]? = ys[i]? := by
  rw [← List.getElem?_drop, drop_splice h, List.getElem?_append_left hi]

/-- An element before or behind what is written. -/
theorem getElem_splice_old {i : ℕ} (h : p ≤ xs.length) (hi : i < p ∨ p + ys.length ≤ i) :
    (splice xs p ys)[i]? = xs[i]? := by
  cases hi with
  | inl hlt => rw [← List.getElem?_take_of_lt hlt, take_splice h, List.getElem?_take_of_lt hlt]
  | inr hle =>
    obtain ⟨k, rfl⟩ := Nat.exists_eq_add_of_le hle
    rw [Nat.add_assoc, ← List.getElem?_drop, drop_splice h,
      List.getElem?_append_right (Nat.le_add_right _ _), Nat.add_sub_cancel_left,
      List.getElem?_drop, Nat.add_assoc]

/-- A write that stays in the first part of a concatenation. -/
theorem splice_append_left (h : p + ys.length ≤ xs.length) :
    splice (xs ++ zs) p ys = splice xs p ys ++ zs := by
  rw [splice, splice, List.take_append_of_le_length (by omega),
    List.drop_append_of_le_length h, ← List.append_assoc]

/-- A write into the second part of a concatenation. -/
theorem splice_append_right : splice (xs ++ zs) (xs.length + p) ys = xs ++ splice zs p ys := by
  rw [splice, splice, List.take_length_add_append, Nat.add_assoc, List.drop_length_add_append]
  simp only [List.append_assoc]

/-- A write in two parts. -/
theorem splice_append (h : p ≤ xs.length) :
    splice xs p (ys ++ zs) = splice (splice xs p ys) (p + ys.length) zs := by
  have hlen : (xs.take p ++ ys).length = p + ys.length := by
    rw [List.length_append, List.length_take]
    omega
  have hinner : splice xs p ys = (xs.take p ++ ys) ++ xs.drop (p + ys.length) := rfl
  have houter : splice (xs.take p ++ ys ++ xs.drop (p + ys.length))
      ((xs.take p ++ ys).length + 0) zs =
        xs.take p ++ ys ++ splice (xs.drop (p + ys.length)) 0 zs := splice_append_right
  rw [Nat.add_zero, hlen] at houter
  rw [hinner, houter, splice, splice, List.take_zero, List.nil_append, Nat.zero_add,
    List.drop_drop, List.length_append]
  simp only [List.append_assoc, Nat.add_assoc]

/-- A write into a prefix that holds it. -/
theorem take_splice_of_le (hp : p ≤ xs.length) (h : p + ys.length ≤ n) :
    (splice xs p ys).take n = splice (xs.take n) p ys := by
  have hlen : (xs.take p ++ ys).length = p + ys.length := by
    rw [List.length_append, List.length_take]
    omega
  have hleft : (xs.take n).take p = xs.take p := by
    rw [List.take_take, Nat.min_eq_left (by omega)]
  rw [splice, splice, hleft, List.drop_take, List.take_append, hlen,
    List.take_of_length_le (by omega)]

end Splice

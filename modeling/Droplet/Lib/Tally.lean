/-
Numbers added up over a list of parties.

A system of parties is a list of what each of them is doing, and a step changes one
entry or adds one.  `tally f l` is the sum of a measure over the list.

* `exists_set_eq` — the party that changes, and the others around it;
* `tally_concat`, `tally_set`, `tally_set_congr` — the sum after a step;
* `tally_eraseP` — the sum without the first entry of a kind;
* `add_le_tally` — two parties count both.
-/
import Mathlib.Algebra.BigOperators.Group.List.Basic
import Mathlib.Algebra.GroupWithZero.Nat

namespace Tally

variable {α : Type*} {f g : α → ℕ} {l : List α} {i j : ℕ} {a b : α}

/-- An entry of the list that is replaced, and the others around it. -/
theorem exists_set_eq (h : l[i]? = some a) :
    ∃ before after, l = before ++ a :: after ∧ ∀ b, l.set i b = before ++ b :: after := by
  obtain ⟨hi, rfl⟩ := List.getElem?_eq_some_iff.mp h
  refine ⟨l.take i, l.drop (i + 1), ?_, fun b => ?_⟩
  · rw [List.getElem_cons_drop, List.take_append_drop]
  · rw [List.set_eq_take_append_cons_drop, if_pos hi]

/-- The replacement is there, and the others stay where they are. -/
theorem mem_set {c : α} (h : c ∈ l.set i b) : c = b ∨ ∃ j, j ≠ i ∧ l[j]? = some c := by
  obtain ⟨j, hj⟩ := List.mem_iff_getElem?.mp h
  by_cases hij : i = j
  · subst hij
    rw [List.getElem?_set_self'] at hj
    obtain ⟨-, -, rfl⟩ := Option.map_eq_some_iff.mp hj
    exact .inl rfl
  · rw [List.getElem?_set_ne hij] at hj
    exact .inr ⟨j, Ne.symm hij, hj⟩

/-- The sum of a measure. -/
def tally (f : α → ℕ) (l : List α) : ℕ := (l.map f).sum

@[simp] theorem tally_nil : tally f [] = 0 := rfl

@[simp] theorem tally_cons : tally f (a :: l) = f a + tally f l := by
  rw [tally, List.map_cons, List.sum_cons, tally]

@[simp] theorem tally_append {l' : List α} : tally f (l ++ l') = tally f l + tally f l' := by
  rw [tally, List.map_append, List.sum_append, tally, tally]

theorem tally_eq_zero (h : ∀ a ∈ l, f a = 0) : tally f l = 0 := by
  induction l with
  | nil => rfl
  | cons a l ih =>
    rw [tally_cons, h a List.mem_cons_self, ih fun b hb => h b (List.mem_cons_of_mem a hb)]

/-- A larger measure. -/
theorem tally_mono (h : ∀ a ∈ l, f a ≤ g a) : tally f l ≤ tally g l := by
  induction l with
  | nil => exact Nat.le_refl _
  | cons a l ih =>
    have hhead := h a List.mem_cons_self
    have htail := ih fun b hb => h b (List.mem_cons_of_mem a hb)
    rw [tally_cons, tally_cons]
    omega

/-- A measure with a bound. -/
theorem tally_le_mul {c : ℕ} (h : ∀ a ∈ l, f a ≤ c) : tally f l ≤ c * l.length := by
  induction l with
  | nil => exact Nat.zero_le _
  | cons a l ih =>
    have hhead := h a List.mem_cons_self
    have htail := ih fun b hb => h b (List.mem_cons_of_mem a hb)
    rw [tally_cons, List.length_cons, Nat.mul_succ]
    omega

theorem tally_congr (h : ∀ a ∈ l, f a = g a) : tally f l = tally g l :=
  Nat.le_antisymm (tally_mono fun a ha => Nat.le_of_eq (h a ha))
    (tally_mono fun a ha => Nat.le_of_eq (h a ha).symm)

theorem tally_congr_getElem (h : ∀ (j : ℕ) (a : α), l[j]? = some a → f a = g a) :
    tally f l = tally g l := by
  refine tally_congr fun a ha => ?_
  obtain ⟨j, hj⟩ := List.mem_iff_getElem?.mp ha
  exact h j a hj

/-- A party more. -/
theorem tally_concat (l : List α) (a : α) : tally f (l ++ [a]) = tally f l + f a := by
  rw [tally_append, tally_cons, tally_nil, Nat.add_zero]

/-- A party changes. -/
theorem tally_set (h : l[i]? = some a) (b : α) :
    tally f (l.set i b) + f a = tally f l + f b := by
  obtain ⟨before, after, hsplit, hset⟩ := exists_set_eq h
  rw [hset, hsplit, tally_append, tally_append, tally_cons, tally_cons]
  omega

/-- A party changes, and the measure with it, but not for the others. -/
theorem tally_set_congr (h : l[i]? = some a) (b : α)
    (hothers : ∀ (j : ℕ) (c : α), j ≠ i → l[j]? = some c → g c = f c) :
    tally g (l.set i b) + f a = tally f l + g b := by
  induction l generalizing i with
  | nil => exact absurd h (by simp)
  | cons c l ih =>
    cases i with
    | zero =>
      obtain rfl := Option.some_inj.mp h
      have hrest : tally g l = tally f l := by
        refine tally_congr_getElem fun j c hj => ?_
        exact hothers (j + 1) c (Nat.succ_ne_zero j) hj
      rw [List.set_cons_zero, tally_cons, tally_cons, hrest]
      omega
    | succ i =>
      have hrest := ih h fun j c hj hc => hothers (j + 1) c (fun heq => hj (Nat.succ.inj heq)) hc
      have hhead : g c = f c := hothers 0 c (Nat.succ_ne_zero i).symm rfl
      rw [List.set_cons_succ, tally_cons, tally_cons, hhead]
      omega

theorem le_tally (h : l[i]? = some a) : f a ≤ tally f l := by
  obtain ⟨before, after, hsplit, -⟩ := exists_set_eq h
  rw [hsplit, tally_append, tally_cons]
  omega

/-- Two parties. -/
theorem add_le_tally (hij : i ≠ j) (hi : l[i]? = some a) (hj : l[j]? = some b) :
    f a + f b ≤ tally f l := by
  induction l generalizing i j with
  | nil => exact absurd hi (by simp)
  | cons c l ih =>
    rw [tally_cons]
    cases i with
    | zero =>
      cases j with
      | zero => exact absurd rfl hij
      | succ j =>
        obtain rfl := Option.some_inj.mp hi
        have hrest : f b ≤ tally f l := le_tally hj
        omega
    | succ i =>
      cases j with
      | zero =>
        obtain rfl := Option.some_inj.mp hj
        have hrest : f a ≤ tally f l := le_tally hi
        omega
      | succ j =>
        have hrest := ih (fun heq => hij (congrArg (· + 1) heq)) hi hj
        omega

/-- The sum without the first entry that meets a condition. -/
theorem tally_eraseP {p : α → Bool} (h : l.find? p = some a) :
    tally f l = f a + tally f (l.eraseP p) := by
  induction l with
  | nil => exact absurd h (by simp)
  | cons c l ih =>
    by_cases hc : p c = true
    · rw [List.find?_cons_of_pos hc, Option.some_inj] at h
      rw [List.eraseP_cons_of_pos hc, tally_cons, h]
    · rw [List.find?_cons_of_neg hc] at h
      rw [List.eraseP_cons_of_neg hc, tally_cons, tally_cons, ih h]
      omega

end Tally

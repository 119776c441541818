/-
Blocks of lines that end at the first empty line.

A line is a list without the two-element terminator `[c, d]` (`c ≠ d`); a block
is a sequence of terminated lines, none empty after the first, followed by one
more terminator.  The end of a block is where the doubled terminator occurs
first, and every list that has such an occurrence starts with exactly one
block:

* `find_line` — the terminator of the line that starts at an offset;
* `find_double_block` — a block ends at the first doubled terminator;
* `exists_block` — a first doubled terminator ends a block.
-/
import Droplet.Lib.Search
import Mathlib.Data.List.Flatten

namespace Lines

open Search

variable {α : Type*} {c d : α}

/-- No terminator occurs inside a line. -/
def IsLine (c d : α) (l : List α) : Prop := ¬ [c, d] <:+: l

/-- Every line followed by its terminator. -/
def unlines (c d : α) (ls : List (List α)) : List α := (ls.map (· ++ [c, d])).flatten

/-- The lines of a block: a first line, and further lines that are not empty. -/
def IsBlock (c d : α) (first : List α) (fields : List (List α)) : Prop :=
  IsLine c d first ∧ ∀ l ∈ fields, IsLine c d l ∧ l ≠ []

@[simp] theorem unlines_nil : unlines c d [] = [] := rfl

@[simp] theorem unlines_cons (l : List α) (ls : List (List α)) :
    unlines c d (l :: ls) = l ++ (c :: d :: unlines c d ls) := by
  simp [unlines]

theorem IsLine.of_notMem {l : List α} (h : c ∉ l) : IsLine c d l :=
  fun hin => h (hin.subset (List.mem_cons_self ..))

/-- No occurrence of the terminator starts inside a line, also when the line is
followed by its terminator. -/
theorem IsLine.not_prefix_drop (hcd : c ≠ d) {l t : List α} (hl : IsLine c d l) {j : ℕ}
    (hj : j < l.length) : ¬ [c, d] <+: (l ++ c :: d :: t).drop j := by
  intro hp
  rw [List.drop_append_of_le_length (by omega), List.drop_eq_getElem_cons hj] at hp
  rcases hrest : l.drop (j + 1) with _ | ⟨b, l'⟩
  · rw [hrest] at hp
    simp at hp
    exact hcd hp.2.symm
  · rw [hrest] at hp
    simp at hp
    refine hl ⟨l.take j, l', ?_⟩
    have hsplit := List.take_append_drop j l
    rw [List.drop_eq_getElem_cons hj, hrest, ← hp.1, ← hp.2] at hsplit
    simpa using hsplit

/-- The part of a list before the first terminator is a line. -/
theorem IsLine.take_of_find [DecidableEq α] {xs : List α} {i : ℕ}
    (h : find [c, d] xs 0 = some i) : IsLine c d (xs.take i) := by
  rintro ⟨as, bs, hin⟩
  obtain ⟨-, -, hmin⟩ := (find_eq_some_iff (by simp)).mp h
  have hlen := congrArg List.length hin
  simp only [List.length_append, List.length_cons, List.length_nil, List.length_take] at hlen
  refine hmin as.length (Nat.zero_le _) (by omega) ?_
  have hxs : xs = as ++ ([c, d] ++ (bs ++ xs.drop i)) := by
    rw [← List.append_assoc, ← List.append_assoc, hin, List.take_append_drop]
  rw [hxs, List.drop_left]
  exact List.prefix_append _ _

/-- A line that is not empty does not start with a terminator. -/
theorem IsLine.not_prefix (hcd : c ≠ d) {l t : List α} (hl : IsLine c d l) (hne : l ≠ []) :
    ¬ [c, d] <+: l ++ c :: d :: t := by
  have := hl.not_prefix_drop hcd (t := t) (List.length_pos_of_ne_nil hne)
  simpa using this

private theorem double_prefix_iff {t : List α} :
    [c, d, c, d] <+: c :: d :: t ↔ [c, d] <+: t := by
  simp

private theorem single_of_double {t : List α} (h : [c, d, c, d] <+: t) :
    [c, d] <+: t :=
  (List.prefix_append [c, d] [c, d]).trans h

variable [DecidableEq α]

/-- The terminator of the line that starts at `pre.length`. -/
theorem find_line (hcd : c ≠ d) {l : List α} (hl : IsLine c d l) (pre t : List α) :
    find [c, d] (pre ++ (l ++ c :: d :: t)) pre.length = some (pre.length + l.length) := by
  refine (find_eq_some_iff (by simp)).mpr ⟨by omega, ?_, ?_⟩
  · rw [← List.drop_drop, List.drop_left, List.drop_left]
    exact ⟨t, rfl⟩
  · intro j hj hlt hp
    obtain ⟨k, rfl⟩ : ∃ k, j = pre.length + k := ⟨j - pre.length, by omega⟩
    rw [← List.drop_drop, List.drop_left] at hp
    exact hl.not_prefix_drop hcd (by omega) hp

theorem find_first_line (hcd : c ≠ d) {l : List α} (hl : IsLine c d l) (t : List α) :
    find [c, d] (l ++ c :: d :: t) 0 = some l.length := by
  simpa using find_line hcd hl [] t

/-- The first terminator splits a list into a line and what follows it. -/
theorem exists_line {xs : List α} {i : ℕ} (h : find [c, d] xs 0 = some i) :
    ∃ l t, xs = l ++ c :: d :: t ∧ IsLine c d l ∧ l.length = i := by
  obtain ⟨-, ⟨t, ht⟩, -⟩ := (find_eq_some_iff (by simp)).mp h
  have hlen := find_add_length_le (by simp) h
  simp only [List.length_cons, List.length_nil] at hlen
  refine ⟨xs.take i, t, ?_, IsLine.take_of_find h, by simp; omega⟩
  have hsplit := List.take_append_drop i xs
  rw [← ht] at hsplit
  simpa using hsplit.symm

/-- The doubled terminator on a line and what follows it: at the end of the
line if an empty line follows, else within what follows. -/
theorem find_double_cons (hcd : c ≠ d) {l t : List α} (hl : IsLine c d l) :
    find [c, d, c, d] (l ++ c :: d :: t) 0 =
      if [c, d] <+: t then some l.length
      else (find [c, d, c, d] t 0).map (· + (l.length + 2)) := by
  have hbefore : ∀ j < l.length, ¬ [c, d, c, d] <+: (l ++ c :: d :: t).drop j :=
    fun j hj hp => hl.not_prefix_drop hcd hj (single_of_double hp)
  by_cases ht : [c, d] <+: t
  · rw [if_pos ht]
    refine (find_eq_some_iff (by simp)).mpr ⟨Nat.zero_le _, ?_, fun j _ hj => hbefore j hj⟩
    rw [List.drop_left]
    exact double_prefix_iff.mpr ht
  · rw [if_neg ht]
    -- An occurrence lies at the end of the line (excluded), one later (there is
    -- a `d` there, not a `c`), or within `t`.
    have hdrop : ∀ k, (l ++ c :: d :: t).drop (k + (l.length + 2)) = t.drop k := by
      intro k
      rw [show k + (l.length + 2) = l.length + (k + 2) by omega, ← List.drop_drop,
        List.drop_left]
      simp
    have hmid : ∀ j, j < l.length + 2 → ¬ [c, d, c, d] <+: (l ++ c :: d :: t).drop j := by
      intro j hj hp
      rcases Nat.lt_trichotomy j l.length with hlt | rfl | hgt
      · exact hbefore j hlt hp
      · rw [List.drop_left] at hp
        exact ht (double_prefix_iff.mp hp)
      · obtain rfl : j = l.length + 1 := by omega
        rw [← List.drop_drop, List.drop_left] at hp
        simp at hp
        exact hcd hp.1
    rcases hf : find [c, d, c, d] t 0 with _ | k
    · rw [Option.map_none, find_eq_none_iff (by simp)]
      intro j _ hp
      rcases Nat.lt_or_ge j (l.length + 2) with hlt | hge
      · exact hmid j hlt hp
      · obtain ⟨k, rfl⟩ : ∃ k, j = k + (l.length + 2) := ⟨j - (l.length + 2), by omega⟩
        rw [hdrop] at hp
        exact (find_eq_none_iff (by simp)).mp hf k (Nat.zero_le _) hp
    · obtain ⟨-, hk, hmin⟩ := (find_eq_some_iff (by simp)).mp hf
      rw [Option.map_some]
      refine (find_eq_some_iff (by simp)).mpr ⟨Nat.zero_le _, by rwa [hdrop], ?_⟩
      intro j _ hj hp
      rcases Nat.lt_or_ge j (l.length + 2) with hlt | hge
      · exact hmid j hlt hp
      · obtain ⟨k', rfl⟩ : ∃ k', j = k' + (l.length + 2) := ⟨j - (l.length + 2), by omega⟩
        rw [hdrop] at hp
        exact hmin k' (Nat.zero_le _) (by omega) hp

/-- A block ends at the first doubled terminator. -/
theorem find_double_block (hcd : c ≠ d) {first : List α} {fields : List (List α)} {t : List α}
    (h : IsBlock c d first fields) :
    find [c, d, c, d] (unlines c d (first :: fields) ++ c :: d :: t) 0 =
      some ((unlines c d (first :: fields)).length - 2) := by
  induction fields generalizing first with
  | nil =>
    have := find_double_cons hcd (t := c :: d :: t) h.1
    rw [if_pos (by simp)] at this
    simpa using this
  | cons l ls ih =>
    obtain ⟨hl, hne⟩ := h.2 l (List.mem_cons_self ..)
    have htail := ih ⟨hl, fun x hx => h.2 x (List.mem_cons_of_mem _ hx)⟩
    rw [unlines_cons, List.append_assoc, List.cons_append, List.cons_append,
      find_double_cons hcd h.1, if_neg, htail]
    · simp only [Option.map_some, Option.some_inj, unlines_cons, List.length_append,
        List.length_cons]
      omega
    · rw [unlines_cons, List.append_assoc, List.cons_append, List.cons_append]
      exact hl.not_prefix hcd hne

/-- A list with a first doubled terminator starts with a block that ends there. -/
theorem exists_block (hcd : c ≠ d) {xs : List α} {i : ℕ} (h : find [c, d, c, d] xs 0 = some i) :
    ∃ first fields t, IsBlock c d first fields ∧
      xs = unlines c d (first :: fields) ++ c :: d :: t ∧
      (unlines c d (first :: fields)).length = i + 2 := by
  induction hn : xs.length using Nat.strong_induction_on generalizing xs i with
  | _ n ih =>
    obtain ⟨j, hj⟩ : ∃ j, find [c, d] xs 0 = some j := by
      by_contra hno
      have hnone : find [c, d] xs 0 = none := by
        rcases hf : find [c, d] xs 0 with _ | j
        · rfl
        · exact absurd ⟨j, hf⟩ hno
      obtain ⟨-, hp, -⟩ := (find_eq_some_iff (by simp)).mp h
      exact (find_eq_none_iff (by simp)).mp hnone i (Nat.zero_le _) (single_of_double hp)
    obtain ⟨l, t, rfl, hl, -⟩ := exists_line hj
    rw [find_double_cons hcd hl] at h
    by_cases ht : [c, d] <+: t
    · rw [if_pos ht, Option.some_inj] at h
      obtain ⟨t', rfl⟩ := ht
      refine ⟨l, [], t', ⟨hl, by simp⟩, by simp, by simp [h]⟩
    · rw [if_neg ht, Option.map_eq_some_iff] at h
      obtain ⟨k, hk, rfl⟩ := h
      obtain ⟨first, fields, t', hblock, rfl, hlen⟩ :=
        ih t.length (by rw [← hn]; simp; omega) hk rfl
      refine ⟨l, first :: fields, t', ⟨hl, ?_⟩, by simp, by simp at hlen ⊢; omega⟩
      intro x hx
      rcases List.mem_cons.mp hx with rfl | hx
      · refine ⟨hblock.1, ?_⟩
        rintro rfl
        exact ht (by simp)
      · exact hblock.2 x hx

end Lines

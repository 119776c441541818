/-
Searching a list for a pattern.

`find pat xs pos` is the first index `≥ pos` at which `pat` occurs in `xs`,
with the semantics of a string search from an offset.  The development is
about how the answer behaves when `xs` grows at its right end, which is what a
parser that restarts on a longer buffer depends on:

* `find_eq_some_iff`, `find_eq_none_iff` — the search specified by occurrences;
* `find_append` — an occurrence stays the first one when bytes are appended;
* `lt_of_find_append` — an occurrence that was not there before the append ends
  after the old end;
* `find_at` — the search on a concatenation whose first part holds no
  occurrence;
* `takeWhile_of_find`, `dropWhile_of_find` — the parts around a single element.
-/
import Mathlib.Data.List.Basic
import Mathlib.Data.List.Infix
import Mathlib.Data.List.TakeWhile

namespace Search

variable {α : Type*} {pat xs ys : List α} {pos i j n : ℕ}

/-! ### Parts of a list -/

/-- The part of `xs` of length `n` (less at the end of `xs`) from `pos` on. -/
def substr (xs : List α) (pos n : ℕ) : List α := (xs.drop pos).take n

@[simp] theorem length_substr : (substr xs pos n).length = min n (xs.length - pos) := by
  simp [substr]

theorem substr_append (h : pos + n ≤ xs.length) : substr (xs ++ ys) pos n = substr xs pos n := by
  rw [substr, substr, List.drop_append_of_le_length (by omega),
    List.take_append_of_le_length (by rw [List.length_drop]; omega)]

theorem substr_left : substr (xs ++ ys) 0 xs.length = xs := by
  simp [substr]

theorem substr_take {k : ℕ} (h : pos + n ≤ k) : substr (xs.take k) pos n = substr xs pos n := by
  rw [substr, substr, List.drop_take, List.take_take, Nat.min_eq_left (by omega)]

theorem mem_of_mem_substr {x : α} (h : x ∈ substr xs pos n) : x ∈ xs :=
  List.mem_of_mem_drop (List.mem_of_mem_take h)

/-- The part between two separators of a concatenation. -/
theorem substr_mid {as bs cs : List α} :
    substr (as ++ (bs ++ cs)) as.length bs.length = bs := by
  simp [substr]

theorem length_le_of_prefix_drop (hpat : pat ≠ []) (h : pat <+: xs.drop i) :
    i + pat.length ≤ xs.length := by
  have hlen := h.length_le
  have hpos := List.length_pos_of_ne_nil hpat
  rw [List.length_drop] at hlen
  omega

/-- Within the old end, the occurrences in `xs ++ ys` are those in `xs`. -/
theorem prefix_drop_append (h : i + pat.length ≤ xs.length) :
    pat <+: (xs ++ ys).drop i ↔ pat <+: xs.drop i := by
  rw [List.drop_append_of_le_length (by omega)]
  constructor
  · intro hp
    exact List.prefix_of_prefix_length_le hp (List.prefix_append _ _)
      (by rw [List.length_drop]; omega)
  · intro hp
    exact hp.trans (List.prefix_append _ _)

/-! ### The first occurrence of a pattern -/

variable [DecidableEq α]

/-- Index of the first occurrence of `pat` in a list. -/
def firstOccurrence (pat : List α) : List α → Option ℕ
  | [] => if pat = [] then some 0 else none
  | x :: xs => if pat <+: x :: xs then some 0 else (firstOccurrence pat xs).map (· + 1)

/-- Index of the first occurrence of `pat` at or after `pos`. -/
def find (pat xs : List α) (pos : ℕ) : Option ℕ :=
  (firstOccurrence pat (xs.drop pos)).map (· + pos)

/-- A search from an offset is one in what follows. -/
theorem find_drop (pat xs : List α) (pos : ℕ) :
    find pat xs pos = (find pat (xs.drop pos) 0).map (· + pos) := by
  rw [find, find, List.drop_zero, Option.map_map]
  rfl

theorem firstOccurrence_eq_some_iff (hpat : pat ≠ []) :
    firstOccurrence pat xs = some i ↔
      pat <+: xs.drop i ∧ ∀ j < i, ¬ pat <+: xs.drop j := by
  induction xs generalizing i with
  | nil => simp [firstOccurrence, hpat]
  | cons x xs ih =>
    rw [firstOccurrence]
    by_cases hx : pat <+: x :: xs
    · rw [if_pos hx, Option.some_inj]
      constructor
      · rintro rfl
        exact ⟨by simpa using hx, fun j hj => absurd hj (Nat.not_lt_zero j)⟩
      · rintro ⟨-, hmin⟩
        by_contra hne
        exact hmin 0 (by omega) (by simpa using hx)
    · rw [if_neg hx, Option.map_eq_some_iff]
      constructor
      · rintro ⟨k, hk, rfl⟩
        obtain ⟨hpre, hmin⟩ := ih.mp hk
        refine ⟨by simpa using hpre, fun j hj => ?_⟩
        rcases j with _ | j
        · simpa using hx
        · simpa using hmin j (by omega)
      · rintro ⟨hpre, hmin⟩
        rcases i with _ | i
        · exact absurd (by simpa using hpre) hx
        · refine ⟨i, ih.mpr ⟨by simpa using hpre, fun j hj => ?_⟩, rfl⟩
          simpa using hmin (j + 1) (by omega)

theorem firstOccurrence_eq_none_iff (hpat : pat ≠ []) :
    firstOccurrence pat xs = none ↔ ∀ j, ¬ pat <+: xs.drop j := by
  induction xs with
  | nil => simp [firstOccurrence, hpat]
  | cons x xs ih =>
    rw [firstOccurrence]
    by_cases hx : pat <+: x :: xs
    · rw [if_pos hx]
      constructor
      · intro h
        exact absurd h (by simp)
      · intro h
        exact absurd hx (by simpa using h 0)
    · rw [if_neg hx, Option.map_eq_none_iff, ih]
      constructor
      · intro h j
        rcases j with _ | j
        · simpa using hx
        · simpa using h j
      · intro h j
        simpa using h (j + 1)

theorem find_eq_some_iff (hpat : pat ≠ []) :
    find pat xs pos = some i ↔
      pos ≤ i ∧ pat <+: xs.drop i ∧ ∀ j, pos ≤ j → j < i → ¬ pat <+: xs.drop j := by
  rw [find, Option.map_eq_some_iff]
  constructor
  · rintro ⟨k, hk, rfl⟩
    obtain ⟨hpre, hmin⟩ := (firstOccurrence_eq_some_iff hpat).mp hk
    rw [List.drop_drop] at hpre
    refine ⟨by omega, by rwa [Nat.add_comm], fun j hj hlt => ?_⟩
    have := hmin (j - pos) (by omega)
    rwa [List.drop_drop, Nat.add_sub_cancel' hj] at this
  · rintro ⟨hpos, hpre, hmin⟩
    refine ⟨i - pos, (firstOccurrence_eq_some_iff hpat).mpr ⟨?_, fun j hj => ?_⟩, by omega⟩
    · rwa [List.drop_drop, Nat.add_sub_cancel' hpos]
    · rw [List.drop_drop]
      exact hmin (pos + j) (by omega) (by omega)

theorem find_eq_none_iff (hpat : pat ≠ []) :
    find pat xs pos = none ↔ ∀ j, pos ≤ j → ¬ pat <+: xs.drop j := by
  rw [find, Option.map_eq_none_iff, firstOccurrence_eq_none_iff hpat]
  constructor
  · intro h j hj
    have := h (j - pos)
    rwa [List.drop_drop, Nat.add_sub_cancel' hj] at this
  · intro h j
    rw [List.drop_drop]
    exact h (pos + j) (by omega)

theorem le_of_find (hpat : pat ≠ []) (h : find pat xs pos = some i) : pos ≤ i :=
  ((find_eq_some_iff hpat).mp h).1

theorem find_add_length_le (hpat : pat ≠ []) (h : find pat xs pos = some i) :
    i + pat.length ≤ xs.length :=
  length_le_of_prefix_drop hpat ((find_eq_some_iff hpat).mp h).2.1

/-- An occurrence stays the first one when the list grows at its right end. -/
theorem find_append (hpat : pat ≠ []) (h : find pat xs pos = some i) :
    find pat (xs ++ ys) pos = some i := by
  have hlen := find_add_length_le hpat h
  obtain ⟨hpos, hpre, hmin⟩ := (find_eq_some_iff hpat).mp h
  refine (find_eq_some_iff hpat).mpr ⟨hpos, (prefix_drop_append hlen).mpr hpre, ?_⟩
  intro j hj hlt hp
  exact hmin j hj hlt ((prefix_drop_append (by omega)).mp hp)

/-- An occurrence that lies within the old end was already found there. -/
theorem find_of_append (hpat : pat ≠ []) (h : find pat (xs ++ ys) pos = some i)
    (hlen : i + pat.length ≤ xs.length) : find pat xs pos = some i := by
  obtain ⟨hpos, hpre, hmin⟩ := (find_eq_some_iff hpat).mp h
  refine (find_eq_some_iff hpat).mpr ⟨hpos, (prefix_drop_append hlen).mp hpre, ?_⟩
  intro j hj hlt hp
  exact hmin j hj hlt ((prefix_drop_append (by omega)).mpr hp)

/-- An occurrence that was not there before the append ends after the old end. -/
theorem lt_of_find_append (hpat : pat ≠ []) (hnone : find pat xs pos = none)
    (h : find pat (xs ++ ys) pos = some i) : xs.length < i + pat.length := by
  by_contra hle
  rw [find_of_append hpat h (by omega)] at hnone
  exact absurd hnone (by simp)

/-- In a part of the list the first occurrence is found when all of it is there. -/
theorem find_take (hpat : pat ≠ []) (h : find pat xs pos = some i) (k : ℕ) :
    find pat (xs.take k) pos = if i + pat.length ≤ k then some i else none := by
  have hle := find_add_length_le hpat h
  have hsplit : xs.take k ++ xs.drop k = xs := List.take_append_drop k xs
  by_cases hk : i + pat.length ≤ k
  · rw [if_pos hk]
    rw [← hsplit] at h
    refine find_of_append hpat h ?_
    rw [List.length_take]
    omega
  · rw [if_neg hk]
    rcases hfind : find pat (xs.take k) pos with _ | j
    · rfl
    · have hj := find_add_length_le hpat hfind
      rw [List.length_take] at hj
      have hsame : find pat (xs.take k ++ xs.drop k) pos = some j := find_append hpat hfind
      rw [hsplit, h, Option.some_inj] at hsame
      omega

theorem find_take_eq_none (hpat : pat ≠ []) (h : find pat xs pos = none) (k : ℕ) :
    find pat (xs.take k) pos = none := by
  rcases hfind : find pat (xs.take k) pos with _ | j
  · rfl
  · have hsame : find pat (xs.take k ++ xs.drop k) pos = some j := find_append hpat hfind
    rw [List.take_append_drop, h] at hsame
    exact absurd hsame (by simp)

/-- The search on a concatenation `as ++ pat ++ bs` when the first element of
the pattern does not occur in the part of `as` that is searched. -/
theorem find_at {c : α} {cs as bs : List α} (hc : c ∉ as.drop pos) (hpos : pos ≤ as.length) :
    find (c :: cs) (as ++ (c :: cs ++ bs)) pos = some as.length := by
  refine (find_eq_some_iff (by simp)).mpr ⟨hpos, ?_, ?_⟩
  · rw [List.drop_left]
    exact List.prefix_append _ _
  · intro j hj hlt hp
    have hne : (as.drop j) ≠ [] := by
      intro h0
      have := List.drop_eq_nil_iff.mp h0
      omega
    obtain ⟨a, l, hal⟩ := List.exists_cons_of_ne_nil hne
    rw [List.drop_append_of_le_length (by omega), hal, List.cons_append,
      List.cons_prefix_cons] at hp
    refine hc ?_
    have hmem : a ∈ as.drop j := by simp [hal]
    rw [hp.1]
    have hdrop : as.drop j = (as.drop pos).drop (j - pos) := by
      rw [List.drop_drop, Nat.add_sub_cancel' hj]
    rw [hdrop] at hmem
    exact List.mem_of_mem_drop hmem

/-- A search that fails: the first element of the pattern does not occur. -/
theorem find_eq_none_of_notMem {c : α} {cs : List α} (hc : c ∉ xs.drop pos) :
    find (c :: cs) xs pos = none := by
  refine (find_eq_none_iff (by simp)).mpr fun j hj hp => hc ?_
  have hmem : c ∈ xs.drop j := hp.subset (List.mem_cons_self ..)
  rw [show j = pos + (j - pos) by omega, ← List.drop_drop] at hmem
  exact List.mem_of_mem_drop hmem

theorem notMem_take_of_find {c : α} (h : find [c] xs 0 = some i) : c ∉ xs.take i := by
  intro hmem
  obtain ⟨j, hj, hget⟩ := List.mem_take_iff_getElem.mp hmem
  have hmin := ((find_eq_some_iff (by simp)).mp h).2.2
  refine hmin j (Nat.zero_le _) (by omega) ?_
  rw [List.drop_eq_getElem_cons (by omega), hget]
  exact ⟨_, rfl⟩

theorem notMem_of_find_eq_none {c : α} (h : find [c] xs 0 = none) : c ∉ xs := by
  intro hmem
  obtain ⟨j, hj, hget⟩ := List.getElem_of_mem hmem
  refine (find_eq_none_iff (by simp)).mp h j (Nat.zero_le _) ?_
  rw [List.drop_eq_getElem_cons hj, hget]
  exact ⟨_, rfl⟩

/-- The first occurrence of a single element cuts the list there. -/
theorem find_single_iff {c : α} :
    find [c] xs 0 = some i ↔ ∃ as bs, xs = as ++ c :: bs ∧ c ∉ as ∧ as.length = i := by
  constructor
  · intro h
    have hlen := find_add_length_le (by simp) h
    rw [List.length_singleton] at hlen
    have hget : xs[i] = c := by
      have hp := ((find_eq_some_iff (by simp)).mp h).2.1
      rw [List.drop_eq_getElem_cons (by omega), List.cons_prefix_cons] at hp
      exact hp.1.symm
    refine ⟨xs.take i, xs.drop (i + 1), ?_, notMem_take_of_find h, ?_⟩
    · rw [← hget, List.getElem_cons_drop, List.take_append_drop]
    · rw [List.length_take]
      omega
  · rintro ⟨as, bs, rfl, hc, rfl⟩
    exact find_at (by rwa [List.drop_zero]) (Nat.zero_le _)

theorem find_single_eq_none_iff {c : α} : find [c] xs 0 = none ↔ c ∉ xs :=
  ⟨notMem_of_find_eq_none, fun hc => find_eq_none_of_notMem (by rwa [List.drop_zero])⟩

/-! ### Cutting at a single element -/

section Cutting

variable {as bs : List α} {c : α}

private theorem forall_bne (h : c ∉ xs) : ∀ x ∈ xs, (x != c) = true := by
  intro x hx
  rw [bne_iff_ne]
  rintro rfl
  exact h hx

theorem takeWhile_of_notMem (h : c ∉ xs) : xs.takeWhile (· != c) = xs :=
  List.takeWhile_eq_self_iff.mpr (forall_bne h)

theorem dropWhile_of_notMem (h : c ∉ xs) : xs.dropWhile (· != c) = [] :=
  List.dropWhile_eq_nil_iff.mpr (forall_bne h)

theorem takeWhile_append_cons (h : c ∉ as) : (as ++ c :: bs).takeWhile (· != c) = as := by
  rw [List.takeWhile_append_of_pos (forall_bne h), List.takeWhile_cons_of_neg (by simp),
    List.append_nil]

theorem dropWhile_append_cons (h : c ∉ as) : (as ++ c :: bs).dropWhile (· != c) = c :: bs := by
  rw [List.dropWhile_append_of_pos (forall_bne h), List.dropWhile_cons_of_neg (by simp)]

/-- The parts before and behind an element that a search has found. -/
theorem takeWhile_of_find (h : find [c] xs 0 = some i) : xs.takeWhile (· != c) = xs.take i := by
  obtain ⟨as, bs, rfl, hc, rfl⟩ := find_single_iff.mp h
  rw [takeWhile_append_cons hc, List.take_left]

theorem dropWhile_of_find (h : find [c] xs 0 = some i) :
    (xs.dropWhile (· != c)).drop 1 = xs.drop (i + 1) := by
  obtain ⟨as, bs, rfl, hc, rfl⟩ := find_single_iff.mp h
  rw [dropWhile_append_cons hc, ← List.drop_drop, List.drop_left]

end Cutting

end Search

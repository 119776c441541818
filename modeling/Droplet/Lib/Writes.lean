/-
Writes to a store in a row.

* `last` — the last of the writes to a key;
* `apply_eq` — it is what the store holds after them;
* `apply_eq_self_iff` — doing the writes again changes a key only if the last write to it
  says something else;
* `last_flatMap` — of writes in groups, the last group that writes to the key decides.
-/
import Mathlib.Data.List.Basic
import Mathlib.Logic.Function.Basic

namespace Writes

variable {κ V ι : Type*} [DecidableEq κ] {writes writes' : List (κ × V)} {m : κ → V} {k : κ}

/-- The store after the writes. -/
def apply (writes : List (κ × V)) (m : κ → V) : κ → V :=
  writes.foldl (fun m write => Function.update m write.1 write.2) m

/-- The last write to a key. -/
def last (k : κ) : List (κ × V) → Option V
  | [] => none
  | write :: writes => (last k writes).or (if write.1 = k then some write.2 else none)

theorem last_append : last k (writes ++ writes') = (last k writes').or (last k writes) := by
  induction writes with
  | nil => rw [List.nil_append, last, Option.or_none]
  | cons write writes ih => rw [List.cons_append, last, ih, last, Option.or_assoc]

theorem apply_append : apply (writes ++ writes') m = apply writes' (apply writes m) :=
  List.foldl_append

/-- What the store holds after the writes. -/
theorem apply_eq : apply writes m k = (last k writes).getD (m k) := by
  induction writes generalizing m with
  | nil => rfl
  | cons write writes ih =>
    have hfirst : apply (write :: writes) m = apply writes (Function.update m write.1 write.2) := rfl
    rw [hfirst, ih, last]
    cases last k writes with
    | some v => rfl
    | none =>
      by_cases hk : write.1 = k
      · subst hk
        rw [if_pos rfl, Function.update_self]
        rfl
      · rw [if_neg hk, Function.update_of_ne (Ne.symm hk)]
        rfl

/-- Writes that leave a key as it is. -/
theorem apply_eq_self_iff : apply writes m k = m k ↔ ∀ v ∈ last k writes, v = m k := by
  rw [apply_eq]
  cases last k writes <;> simp

/-- Groups of writes of which none writes to the key. -/
theorem last_flatMap_eq_none {l : List ι} {f : ι → List (κ × V)}
    (h : ∀ x ∈ l, last k (f x) = none) : last k (l.flatMap f) = none := by
  induction l with
  | nil => rfl
  | cons x l ih =>
    rw [List.flatMap_cons, last_append, ih fun y hy => h y (List.mem_cons_of_mem x hy),
      h x List.mem_cons_self, Option.or_none]

/-- The last group that writes to the key. -/
theorem last_flatMap {l : List ι} {f : ι → List (κ × V)} {x : ι}
    (h : (l.filter fun y => (last k (f y)).isSome).getLast? = some x) :
    last k (l.flatMap f) = last k (f x) := by
  obtain ⟨before, hsplit⟩ := List.getLast?_eq_some_iff.mp h
  obtain ⟨init, tail, rfl, hinit, htail⟩ := List.filter_eq_append_iff.mp hsplit
  obtain ⟨skipped, rest, rfl, hskipped, hx, hrest⟩ := List.filter_eq_cons_iff.mp htail
  have hnone : last k (rest.flatMap f) = none := by
    refine last_flatMap_eq_none fun y hy => ?_
    have hy' := List.filter_eq_nil_iff.mp hrest y hy
    rwa [Option.not_isSome_iff_eq_none] at hy'
  obtain ⟨v, hv⟩ := Option.isSome_iff_exists.mp hx
  rw [List.flatMap_append, List.flatMap_append, List.flatMap_cons, last_append, last_append,
    last_append, hnone, hv]
  rfl

end Writes

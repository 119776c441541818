/-
Two runs of a call that may throw.

* `Coupled` — two results that cannot be told apart: the same value or the same
  exception, in related states;
* `Couples` — two calls that lead from related states to such results; `Couples.bind`,
  `Couples.map`, `Couples.get_bind` follow how a call is put together;
* `attempt`, `Couples.mapM` — a list of calls, none of which stops the others.
-/
import Mathlib.Data.List.Basic

namespace TwoRuns

variable {ε σ α β ι : Type} {R : σ → σ → Prop}

/-- The same value or the same exception, in related states. -/
inductive Coupled (R : σ → σ → Prop) : EStateM.Result ε σ α → EStateM.Result ε σ α → Prop
  | ok {a : α} {s t : σ} (h : R s t) : Coupled R (.ok a s) (.ok a t)
  | error {e : ε} {s t : σ} (h : R s t) : Coupled R (.error e s) (.error e t)

/-- From related states both calls come to the same. -/
def Couples (R : σ → σ → Prop) (x y : EStateM ε σ α) : Prop := ∀ s t, R s t → Coupled R (x s) (y t)

/-- What a call returns, or the exception that it throws. -/
def outcome : EStateM.Result ε σ α → Except ε α
  | .ok a _ => .ok a
  | .error e _ => .error e

/-- The state that a call leaves. -/
def after : EStateM.Result ε σ α → σ
  | .ok _ s => s
  | .error _ s => s

/-- A call whose exception is part of what it returns. -/
def attempt (x : EStateM ε σ α) : EStateM ε σ (Except ε α) := fun s => .ok (outcome (x s)) (after (x s))

theorem Coupled.outcome {r q : EStateM.Result ε σ α} (h : Coupled R r q) :
    outcome r = outcome q := by
  cases h with
  | ok _ => rfl
  | error _ => rfl

theorem Coupled.after {r q : EStateM.Result ε σ α} (h : Coupled R r q) : R (after r) (after q) := by
  cases h with
  | ok h => exact h
  | error h => exact h

/-- A function of what is returned. -/
theorem Coupled.map {x y : EStateM ε σ α} {s t : σ} (f : α → β) (h : Coupled R (x s) (y t)) :
    Coupled R ((f <$> x) s) ((f <$> y) t) := by
  show Coupled R (EStateM.map f x s) (EStateM.map f y t)
  rw [EStateM.map, EStateM.map]
  generalize x s = r, y t = q at h
  cases h with
  | ok h => exact .ok h
  | error h => exact .error h

namespace Couples

variable {x y : EStateM ε σ α} {f g : α → EStateM ε σ β}

theorem pure (a : α) : Couples R (Pure.pure a : EStateM ε σ α) (Pure.pure a) := fun _ _ h => .ok h

theorem throw (e : ε) : Couples R (MonadExcept.throw e : EStateM ε σ α) (MonadExcept.throw e) :=
  fun _ _ h => .error h

theorem bind (hx : Couples R x y) (hf : ∀ a, Couples R (f a) (g a)) :
    Couples R (x >>= f) (y >>= g) := by
  intro s t h
  show Coupled R (EStateM.bind x f s) (EStateM.bind y g t)
  rw [EStateM.bind, EStateM.bind]
  have hcoupled := hx s t h
  generalize x s = r, y t = q at hcoupled
  cases hcoupled with
  | ok h => exact hf _ _ _ h
  | error h => exact .error h

theorem map (f : α → β) (hx : Couples R x y) : Couples R (f <$> x) (f <$> y) :=
  fun s t h => (hx s t h).map f

/-- What a call finds out about its state is the same in both runs. -/
theorem get_bind {f g : σ → EStateM ε σ α} (h : ∀ s t, R s t → Coupled R (f s s) (g t t)) :
    Couples R (get >>= f) (get >>= g) := h

theorem attempt (hx : Couples R x y) : Couples R (attempt x) (TwoRuns.attempt y) := by
  intro s t h
  have hcoupled := hx s t h
  show Coupled R (.ok (outcome (x s)) (after (x s))) (.ok (outcome (y t)) (TwoRuns.after (y t)))
  rw [hcoupled.outcome]
  exact .ok hcoupled.after

/-- **A list of calls**, one after the other. -/
theorem mapM {run : ι → EStateM ε σ α} (hrun : ∀ i, Couples R (run i) (run i)) (calls : List ι) :
    Couples R (calls.mapM run) (calls.mapM run) := by
  induction calls with
  | nil => exact Couples.pure []
  | cons call rest ih =>
    rw [List.mapM_cons]
    exact (hrun call).bind fun a => ih.bind fun rest => Couples.pure (a :: rest)

end Couples

end TwoRuns

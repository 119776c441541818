/-
One worker for a fiber.

A fiber is written to by the worker that resumes it: `state_` and `ctx_` are its own
from the state write of `resume` to the test after it.  Nothing in the source keeps
another worker away meanwhile; with that as the condition on steps, the invariants
below are kept.

* `Inv` — who may touch the fields of a fiber, and what they hold meanwhile;
* `Accounted` — the queue entries made for suspensions as `READY`;
* `sound_of_settled` — if no fiber is resumed before the worker that resumed it last
  has stored its context and tested its state, then fibers run on one worker at a
  time, from their latest suspension point, and are queued once for each `READY`;
* `not_sound_early` — an event that fires before the switch breaks this.
-/
import Droplet.Scheduler.Run

open Transition Transition.System

namespace Scheduler

/-- The state of a fiber that has left its stack. -/
def Fiber.State.Left (state : Fiber.State) : Prop := state ≠ .exec ∧ state ≠ .init

/-- What the fields of a fiber hold while a worker is at this step with it. -/
def ResumeStep.Matches (fiber : Fiber) : ResumeStep → Prop
  | .taken => True
  | .switching => fiber.state = .exec ∧ fiber.ctx = fiber.point
  | .running => fiber.state = .exec ∧ fiber.ctx = fiber.point
  | .leaving left => left.Left ∧ fiber.state = left ∧ fiber.ctx = fiber.point
  | .returned point left => left.Left ∧ fiber.state = left ∧ point = fiber.point
  | .stored point left =>
    left.Left ∧ fiber.state = left ∧ point = fiber.point ∧ fiber.ctx = fiber.point

namespace Phase

variable {phase : Phase} {f : ℕ} {origin : Origin} {step : ResumeStep}

theorem resumed_holding (h : step ≠ .taken) : (holding f origin step).resumed = some f := by
  cases step with
  | taken => exact absurd rfl h
  | _ => rfl

theorem resumed_taken : (holding f origin .taken).resumed = none := rfl

/-- A worker that executes on a stack has resumed its fiber. -/
theorem resumed_of_onStack (h : phase.onStack = some f) : phase.resumed = some f := by
  cases phase with
  | holding g origin step =>
    cases step with
    | running => exact h
    | leaving => exact h
    | _ => exact absurd h (by simp [onStack])
  | _ => exact absurd h (by simp [onStack])

/-- A fiber that a worker resumes is in its hands. -/
theorem held_of_resumed (h : phase.resumed = some f) : phase.held = some f := by
  cases phase with
  | holding g origin step =>
    cases step with
    | taken => exact absurd h (by simp [resumed])
    | _ => exact h
  | _ => exact absurd h (by simp [resumed])

theorem not_onCbFiber_of_held (h : phase.held = none) : ¬ phase.OnCbFiber f := by
  rintro ⟨step, rfl⟩
  exact absurd h (by simp [held])

theorem onCbFiber_holding_iff {g : ℕ} :
    (holding f origin step).OnCbFiber g ↔ f = g ∧ origin = .cbFiber := by
  constructor
  · rintro ⟨step', h⟩
    obtain ⟨rfl, rfl, -⟩ := holding.inj h
    exact ⟨rfl, rfl⟩
  · rintro ⟨rfl, rfl⟩
    exact ⟨step, rfl⟩

/-- What a worker owes after the store of the context. -/
theorem owed_stored (f : ℕ) (origin : Origin) (point : ℕ) (left : Fiber.State) :
    (holding f origin (.stored point left)).owed =
      if left = .ready then some ⟨f, point⟩ else none := by
  cases left with
  | ready => rfl
  | _ => rfl

/-- What a worker owes after the switch. -/
theorem owed_returned (f : ℕ) (origin : Origin) (point : ℕ) (left : Fiber.State) :
    (holding f origin (.returned point left)).owed =
      if left = .ready then some ⟨f, point⟩ else none := by
  cases left with
  | ready => rfl
  | _ => rfl

end Phase

namespace RunState

/-! ### Who may touch a fiber -/

/-- One worker at most is between the state write of `resume` and the test after it,
and the fields of the fiber are as that worker left them. -/
structure Inv {n : ℕ} (phase : Fin n → Phase) (fibers : ℕ → Fiber) (cbFiber : Fin n → Option ℕ) :
    Prop where
  fields : ∀ w f origin step, phase w = .holding f origin step → step.Matches (fibers f)
  unique : ∀ w w' f, (phase w).resumed = some f → (phase w').resumed = some f → w = w'
  saved : ∀ f, (∀ w, (phase w).resumed ≠ some f) → (fibers f).ctx = (fibers f).point
  wrapped : ∀ w f, (phase w).OnCbFiber f → cbFiber w = some f
  wrapper : ∀ w w' f, cbFiber w = some f → cbFiber w' = some f → w = w'
  ended : ∀ w f, cbFiber w = some f → ¬ (phase w).OnCbFiber f →
    ¬ (fibers f).Resumable ∧ ∀ w', (phase w').resumed ≠ some f

namespace Inv

variable {n : ℕ} {phase : Fin n → Phase} {fibers : ℕ → Fiber} {cbFiber : Fin n → Option ℕ}
  {w : Fin n} {f : ℕ} {origin : Origin} {step step' : ResumeStep}

theorem start : Inv (RunState.start n).phase (RunState.start n).fibers (RunState.start n).cbFiber where
  fields := fun _ _ _ _ h => absurd h (by simp [RunState.start])
  unique := fun _ _ _ h => absurd h (by simp [RunState.start, Phase.resumed])
  saved := fun _ _ => rfl
  wrapped := fun _ _ ⟨_, h⟩ => absurd h (by simp [RunState.start])
  wrapper := fun _ _ _ h => absurd h (by simp [RunState.start])
  ended := fun _ _ h => absurd h (by simp [RunState.start])

/-- The worker that resumes a fiber goes on with it; only it may, and only this
fiber changes. -/
theorem move (h : Inv phase fibers cbFiber) (hphase : phase w = .holding f origin step)
    {fiber : Fiber} (hothers : ∀ w', (phase w').resumed = some f → w' = w)
    (hbegun : step ≠ .taken ∨ (fibers f).Resumable) (hstep' : step' ≠ .taken)
    (hmatches : step'.Matches fiber) :
    Inv (Function.update phase w (.holding f origin step')) (Function.update fibers f fiber)
      cbFiber := by
  -- who resumes a fiber behind the step: this worker its own, or another one another
  have hresumed : ∀ w' g, (Function.update phase w (.holding f origin step') w').resumed = some g →
      w' = w ∧ g = f ∨ w' ≠ w ∧ g ≠ f ∧ (phase w').resumed = some g := by
    intro w' g hg
    by_cases hw : w' = w
    · subst hw
      rw [Function.update_self, Phase.resumed_holding hstep', Option.some_inj] at hg
      exact .inl ⟨rfl, hg.symm⟩
    · rw [Function.update_of_ne hw] at hg
      exact .inr ⟨hw, fun hgf => hw (hothers w' (hgf ▸ hg)), hg⟩
  have hcb : ∀ w' g, (Function.update phase w (.holding f origin step') w').OnCbFiber g ↔
      (phase w').OnCbFiber g := by
    intro w' g
    by_cases hw : w' = w
    · subst hw
      rw [Function.update_self, hphase, Phase.onCbFiber_holding_iff, Phase.onCbFiber_holding_iff]
    · rw [Function.update_of_ne hw]
  constructor
  · intro w' g origin' step'' hw'
    by_cases hw : w' = w
    · subst hw
      rw [Function.update_self] at hw'
      obtain ⟨rfl, -, rfl⟩ := Phase.holding.inj hw'
      rw [Function.update_self]
      exact hmatches
    · rw [Function.update_of_ne hw] at hw'
      by_cases hg : g = f
      · -- another worker has this fiber in its hands, but has not begun to resume it
        subst hg
        by_cases htaken : step'' = .taken
        · rw [htaken]
          exact trivial
        · exact absurd (hothers w' (by rw [hw', Phase.resumed_holding htaken])) hw
      · rw [Function.update_of_ne hg]
        exact h.fields w' g origin' step'' hw'
  · intro w₁ w₂ g h₁ h₂
    rcases hresumed w₁ g h₁ with ⟨rfl, rfl⟩ | ⟨-, hg, h₁⟩
    · rcases hresumed w₂ g h₂ with ⟨rfl, -⟩ | ⟨-, hg, -⟩
      · rfl
      · exact absurd rfl hg
    · rcases hresumed w₂ g h₂ with ⟨-, rfl⟩ | ⟨-, -, h₂⟩
      · exact absurd rfl hg
      · exact h.unique w₁ w₂ g h₁ h₂
  · intro g hg
    -- a fiber that nobody resumes is not the one of this worker
    have hgf : f ≠ g := by
      intro heq
      refine hg w ?_
      rw [Function.update_self, Phase.resumed_holding hstep', heq]
    rw [Function.update_of_ne hgf.symm]
    refine h.saved g fun w' hw' => ?_
    by_cases hw : w' = w
    · subst hw
      have := hphase ▸ hw'
      by_cases htaken : step = .taken
      · rw [htaken, Phase.resumed_taken] at this
        exact absurd this (by simp)
      · rw [Phase.resumed_holding htaken, Option.some_inj] at this
        exact hgf this
    · refine hg w' ?_
      rw [Function.update_of_ne hw]
      exact hw'
  · intro w' g hg
    exact h.wrapped w' g ((hcb w' g).mp hg)
  · exact h.wrapper
  · intro w' g hg hnot
    obtain ⟨hend, hfree⟩ := h.ended w' g hg fun hon => hnot ((hcb w' g).mpr hon)
    have hgf : g ≠ f := by
      rintro rfl
      rcases hbegun with hbegun | hbegun
      · exact hfree w (by rw [hphase, Phase.resumed_holding hbegun])
      · exact hend hbegun
    rw [Function.update_of_ne hgf]
    refine ⟨hend, fun w₁ hw₁ => ?_⟩
    rcases hresumed w₁ g hw₁ with ⟨-, heq⟩ | ⟨-, -, hw₁⟩
    · exact hgf heq
    · exact hfree w₁ hw₁

/-- A worker that resumes nothing has a fiber whose fields are not looked at yet, if it has
one. -/
theorem fields_update (h : Inv phase fibers cbFiber) {phase' : Phase}
    (hnew : phase'.resumed = none) :
    ∀ w' g origin step, Function.update phase w phase' w' = .holding g origin step →
      step.Matches (fibers g) := by
  intro w' g origin step hw'
  by_cases heq : w' = w
  · subst heq
    rw [Function.update_self] at hw'
    subst hw'
    by_cases htaken : step = .taken
    · rw [htaken]
      exact trivial
    · rw [Phase.resumed_holding htaken] at hnew
      exact absurd hnew (by simp)
  · rw [Function.update_of_ne heq] at hw'
    exact h.fields w' g origin step hw'

/-- A worker that resumes nothing takes up something else that it does not resume. -/
theorem quiet (h : Inv phase fibers cbFiber) {phase' : Phase}
    (hold : (phase w).resumed = none) (hcb : ∀ f, ¬ (phase w).OnCbFiber f)
    (hnew : phase'.resumed = none) (hcb' : ∀ f, ¬ phase'.OnCbFiber f) :
    Inv (Function.update phase w phase') fibers cbFiber := by
  have hresumed : ∀ w', (Function.update phase w phase' w').resumed = (phase w').resumed := by
    intro w'
    by_cases hw : w' = w
    · rw [hw, Function.update_self, hold, hnew]
    · rw [Function.update_of_ne hw]
  have hon : ∀ w' g, (Function.update phase w phase' w').OnCbFiber g ↔ (phase w').OnCbFiber g := by
    intro w' g
    by_cases hw : w' = w
    · rw [hw, Function.update_self]
      exact iff_of_false (hcb' g) (hcb g)
    · rw [Function.update_of_ne hw]
  constructor
  · exact h.fields_update hnew
  · intro w₁ w₂ g h₁ h₂
    rw [hresumed] at h₁ h₂
    exact h.unique w₁ w₂ g h₁ h₂
  · intro g hg
    refine h.saved g fun w' hw' => hg w' ?_
    rw [hresumed, hw']
  · intro w' g hg
    exact h.wrapped w' g ((hon w' g).mp hg)
  · exact h.wrapper
  · intro w' g hg hnot
    obtain ⟨hend, hfree⟩ := h.ended w' g hg fun hg => hnot ((hon w' g).mpr hg)
    refine ⟨hend, fun w₁ hw₁ => ?_⟩
    rw [hresumed] at hw₁
    exact hfree w₁ hw₁

/-- A worker wraps a function into a fiber that nobody resumes and that is the
`cb_fiber` of nobody else. -/
theorem takeCbFiber (h : Inv phase fibers cbFiber) {fiber : Fiber}
    (hold : (phase w).resumed = none) (hfree : ∀ w', (phase w').resumed ≠ some f)
    (hothers : ∀ w', cbFiber w' = some f → w' = w) (hctx : fiber.ctx = fiber.point) :
    Inv (Function.update phase w (.holding f .cbFiber .taken)) (Function.update fibers f fiber)
      (Function.update cbFiber w (some f)) := by
  -- the fiber is taken but not resumed yet, so that nothing changes in who resumes what
  have hresumed : ∀ w', (Function.update phase w (.holding f .cbFiber .taken) w').resumed =
      (phase w').resumed := by
    intro w'
    by_cases hw : w' = w
    · rw [hw, Function.update_self, hold, Phase.resumed_taken]
    · rw [Function.update_of_ne hw]
  constructor
  · intro w' g origin' step hw'
    by_cases htaken : step = .taken
    · rw [htaken]
      exact trivial
    · have hg : (phase w').resumed = some g := by
        rw [← hresumed, hw', Phase.resumed_holding htaken]
      have hgf : g ≠ f := fun heq => hfree w' (heq ▸ hg)
      have hw : w' ≠ w := by
        rintro rfl
        rw [hold] at hg
        exact absurd hg (by simp)
      rw [Function.update_of_ne hw] at hw'
      rw [Function.update_of_ne hgf]
      exact h.fields w' g origin' step hw'
  · intro w₁ w₂ g h₁ h₂
    rw [hresumed] at h₁ h₂
    exact h.unique w₁ w₂ g h₁ h₂
  · intro g hg
    by_cases hgf : g = f
    · rw [hgf, Function.update_self]
      exact hctx
    · rw [Function.update_of_ne hgf]
      exact h.saved g fun w' hw' => hg w' (by rw [hresumed, hw'])
  · intro w' g hg
    by_cases hw : w' = w
    · subst hw
      rw [Function.update_self, Phase.onCbFiber_holding_iff] at hg
      rw [Function.update_self, hg.1]
    · rw [Function.update_of_ne hw] at hg ⊢
      exact h.wrapped w' g hg
  · intro w₁ w₂ g h₁ h₂
    by_cases hw₁ : w₁ = w
    · subst hw₁
      rw [Function.update_self, Option.some_inj] at h₁
      by_cases hw₂ : w₂ = w₁
      · exact hw₂.symm
      · rw [Function.update_of_ne hw₂] at h₂
        exact (hothers w₂ (h₁ ▸ h₂)).symm
    · rw [Function.update_of_ne hw₁] at h₁
      by_cases hw₂ : w₂ = w
      · subst hw₂
        rw [Function.update_self, Option.some_inj] at h₂
        exact hothers w₁ (h₂ ▸ h₁)
      · rw [Function.update_of_ne hw₂] at h₂
        exact h.wrapper w₁ w₂ g h₁ h₂
  · intro w' g hg hnot
    by_cases hw : w' = w
    · subst hw
      rw [Function.update_self, Option.some_inj] at hg
      refine absurd ?_ hnot
      rw [Function.update_self, Phase.onCbFiber_holding_iff]
      exact ⟨hg, rfl⟩
    · rw [Function.update_of_ne hw] at hg hnot
      have hgf : g ≠ f := fun heq => hw (hothers w' (heq ▸ hg))
      obtain ⟨hend, hgfree⟩ := h.ended w' g hg hnot
      rw [Function.update_of_ne hgf]
      refine ⟨hend, fun w₁ hw₁ => ?_⟩
      rw [hresumed] at hw₁
      exact hgfree w₁ hw₁

/-- After its test a worker puts its fiber down, and keeps it as its `cb_fiber` only
if it has ended. -/
theorem release (h : Inv phase fibers cbFiber) {point : ℕ} {left : Fiber.State}
    (hphase : phase w = .holding f origin (.stored point left)) {phase' : Phase}
    (hnew : phase'.resumed = none) (hcb' : ∀ f, ¬ phase'.OnCbFiber f) {kept : Option ℕ}
    (hkept : ∀ g, kept = some g → cbFiber w = some g)
    (hended : origin = .cbFiber → kept = some f → ¬ (fibers f).Resumable) :
    Inv (Function.update phase w phase') fibers (Function.update cbFiber w kept) := by
  have hw : (phase w).resumed = some f := by
    rw [hphase]
    rfl
  have hresumed : ∀ w' g, (Function.update phase w phase' w').resumed = some g →
      w' ≠ w ∧ (phase w').resumed = some g := by
    intro w' g hg
    by_cases heq : w' = w
    · rw [heq, Function.update_self, hnew] at hg
      exact absurd hg (by simp)
    · rw [Function.update_of_ne heq] at hg
      exact ⟨heq, hg⟩
  have hstays : ∀ w' g, Function.update cbFiber w kept w' = some g → cbFiber w' = some g := by
    intro w' g hg
    by_cases heq : w' = w
    · subst heq
      rw [Function.update_self] at hg
      exact hkept g hg
    · rw [Function.update_of_ne heq] at hg
      exact hg
  constructor
  · exact h.fields_update hnew
  · intro w₁ w₂ g h₁ h₂
    exact h.unique w₁ w₂ g (hresumed w₁ g h₁).2 (hresumed w₂ g h₂).2
  · intro g hg
    by_cases hgf : g = f
    · subst hgf
      exact (h.fields w g origin _ hphase).2.2.2
    · refine h.saved g fun w' hw' => ?_
      by_cases heq : w' = w
      · subst heq
        rw [hw, Option.some_inj] at hw'
        exact hgf hw'.symm
      · refine hg w' ?_
        rw [Function.update_of_ne heq]
        exact hw'
  · intro w' g hg
    by_cases heq : w' = w
    · subst heq
      rw [Function.update_self] at hg
      exact absurd hg (hcb' g)
    · rw [Function.update_of_ne heq] at hg ⊢
      exact h.wrapped w' g hg
  · intro w₁ w₂ g h₁ h₂
    exact h.wrapper w₁ w₂ g (hstays w₁ g h₁) (hstays w₂ g h₂)
  · intro w' g hg hnot
    have hfree : (∀ w₁, (phase w₁).resumed ≠ some g) →
        ∀ w₁, (Function.update phase w phase' w₁).resumed ≠ some g :=
      fun hfree w₁ hw₁ => hfree w₁ (hresumed w₁ g hw₁).2
    by_cases heq : w' = w
    · subst heq
      by_cases hon : (phase w').OnCbFiber g
      · -- the fiber that was just tested
        rw [hphase, Phase.onCbFiber_holding_iff] at hon
        obtain ⟨rfl, horigin⟩ := hon
        rw [Function.update_self] at hg
        refine ⟨hended horigin hg, fun w₁ hw₁ => ?_⟩
        obtain ⟨hne, hw₁⟩ := hresumed w₁ f hw₁
        exact hne (h.unique w₁ w' f hw₁ hw)
      · obtain ⟨hend, hg'⟩ := h.ended w' g (hstays w' g hg) hon
        exact ⟨hend, hfree hg'⟩
    · rw [Function.update_of_ne heq] at hnot
      obtain ⟨hend, hg'⟩ := h.ended w' g (hstays w' g hg) hnot
      exact ⟨hend, hfree hg'⟩

end Inv

/-! ### The condition -/

variable {n : ℕ}

/-- `resume` writes the state of a fiber only when no other worker is still between
that write and its test of the state afterwards. -/
def Settled (s : RunState n) : RunAction n → Prop
  | .beginResume w =>
    ∀ w', (s.phase w').resumed = none ∨ (s.phase w').resumed ≠ (s.phase w).held
  | _ => True

instance (s : RunState n) (action : RunAction n) : Decidable (s.Settled action) :=
  match action with
  | .beginResume w =>
    inferInstanceAs (Decidable (∀ w', (s.phase w').resumed = none ∨
      (s.phase w').resumed ≠ (s.phase w).held))
  | .create | .schedule _ | .cancelEvent _ _ _ | .processEvent _ _ | .trigger _ | .getNextTask _
  | .leaveIdle _ _ | .wrap _ | .switchIn _ | .addEvent _ _ _ _ | .yieldTo _ _ | .finish _ _
  | .switchOut _ | .storeContext _ | .testState _ | .requeue _ => .isTrue trivial

variable {s s' : RunState n} {action : RunAction n}

/-- The worker that has resumed a fiber is the only one. -/
theorem Inv.alone {phase : Fin n → Phase} {fibers : ℕ → Fiber} {cbFiber : Fin n → Option ℕ}
    (h : Inv phase fibers cbFiber) {w : Fin n} {f : ℕ} {origin : Origin} {step : ResumeStep}
    (hphase : phase w = .holding f origin step) (hstep : step ≠ .taken) (w' : Fin n)
    (hw' : (phase w').resumed = some f) : w' = w :=
  h.unique w' w f hw' (by rw [hphase, Phase.resumed_holding hstep])

/-- **The invariant** is kept by the steps that meet the condition. -/
theorem Inv.step (hknown : s.Known) (h : Inv s.phase s.fibers s.cbFiber)
    (hcond : s.Settled action) (hstep : Step s action s') :
    Inv s'.phase s'.fibers s'.cbFiber := by
  have hnone : ∀ {phase : Phase}, phase.held = none → phase.resumed = none := by
    intro phase hphase
    cases phase with
    | holding => exact absurd hphase (by simp [Phase.held])
    | _ => rfl
  cases hstep with
  | create => exact h
  | schedule => exact h
  | cancelEvent => exact h
  | processEvent => exact h
  | trigger => exact h
  | @goIdle w hphase =>
    have hheld : (s.phase w).held = none := by rw [hphase]; rfl
    exact h.quiet (hnone hheld) (fun _ => Phase.not_onCbFiber_of_held hheld) rfl
      fun _ => Phase.not_onCbFiber_of_held rfl
  | @takeFiber w f threadId rest hphase hnext =>
    have hheld : (s.phase w).held = none := by rw [hphase]; rfl
    refine h.quiet (hnone hheld) (fun _ => Phase.not_onCbFiber_of_held hheld) rfl fun g hg => ?_
    exact absurd (Phase.onCbFiber_holding_iff.mp hg).2 (by simp)
  | @takeCallback w callback threadId rest hphase hnext =>
    have hheld : (s.phase w).held = none := by rw [hphase]; rfl
    exact h.quiet (hnone hheld) (fun _ => Phase.not_onCbFiber_of_held hheld) rfl
      fun _ => Phase.not_onCbFiber_of_held rfl
  | @leaveIdle w terminated hphase =>
    have hheld : (s.phase w).held = none := by rw [hphase]; rfl
    have hheld' : (if terminated then Phase.exited else .loop).held = none := by
      cases terminated <;> rfl
    exact h.quiet (hnone hheld) (fun _ => Phase.not_onCbFiber_of_held hheld) (hnone hheld')
      fun _ => Phase.not_onCbFiber_of_held hheld'
  | @reuse w callback f hphase hcb hterm =>
    have hheld : (s.phase w).held = none := by rw [hphase]; rfl
    have hsame : Function.update s.cbFiber w (some f) = s.cbFiber := by
      rw [← hcb, Function.update_eq_self]
    -- the fiber that `cb_fiber` keeps has ended, so that nobody resumes it
    obtain ⟨-, hfree⟩ := h.ended w f hcb (Phase.not_onCbFiber_of_held hheld)
    have hinv := h.takeCbFiber (hnone hheld) hfree (fun w' hw' => h.wrapper w' w f hw' hcb)
      (show (s.fibers f).reset.ctx = (s.fibers f).reset.point from rfl)
    rwa [hsame] at hinv
  | @makeFiber w callback hphase =>
    have hheld : (s.phase w).held = none := by rw [hphase]; rfl
    -- nothing names the new fiber
    have hfree : ∀ w', (s.phase w').resumed ≠ some s.fiberCount := by
      intro w' hw'
      exact Nat.lt_irrefl _ (hknown.held w' _ (Phase.held_of_resumed hw'))
    have hcb : ∀ w', s.cbFiber w' = some s.fiberCount → w' = w := by
      intro w' hw'
      exact absurd (hknown.cbFiber w' _ hw') (Nat.lt_irrefl _)
    have hinv := h.takeCbFiber (hnone hheld) hfree hcb (h.saved _ hfree)
    rwa [Function.update_eq_self] at hinv
  | @beginResume w f origin hphase hresumable =>
    -- the condition of the run: no other worker is still on its way out of this fiber
    have hothers : ∀ w', (s.phase w').resumed ≠ some f := by
      intro w' hw'
      rcases hcond w' with hw | hw
      · exact absurd (hw.symm.trans hw') (by simp)
      · rw [hw', hphase] at hw
        exact hw rfl
    exact h.move hphase (fun w' hw' => absurd hw' (hothers w')) (.inr hresumable) (by simp)
      ⟨rfl, h.saved f hothers⟩
  | @switchIn w f origin hphase =>
    have hmatches : ResumeStep.running.Matches (s.fibers f) :=
      h.fields w f origin .switching hphase
    have hinv := h.move hphase (h.alone hphase (by simp)) (.inl (by simp)) (by simp) hmatches
    rwa [Function.update_eq_self] at hinv
  | addEvent => exact h
  | @yieldTo w f origin ready hphase =>
    obtain ⟨-, hctx⟩ := h.fields w f origin _ hphase
    refine h.move hphase (h.alone hphase (by simp)) (.inl (by simp)) (by simp) ⟨?_, rfl, hctx⟩
    cases ready with
    | false => exact ⟨by simp, by simp⟩
    | true => exact ⟨by simp, by simp⟩
  | @finish w f origin threw hphase =>
    obtain ⟨hstate, hctx⟩ := h.fields w f origin _ hphase
    have hleft : ((s.fibers f).finish threw).state.Left := by
      cases threw with
      | false => simp [Fiber.finish, hstate, Fiber.State.Left]
      | true => simp [Fiber.finish, Fiber.State.Left]
    obtain ⟨hctx', hpoint⟩ := (s.fibers f).finish_ctx_point threw
    exact h.move hphase (h.alone hphase (by simp)) (.inl (by simp)) (by simp)
      ⟨hleft, rfl, by rw [hctx', hpoint, hctx]⟩
  | @switchOut w f origin left hphase =>
    obtain ⟨hleft, hstate, -⟩ := h.fields w f origin _ hphase
    exact h.move hphase (h.alone hphase (by simp)) (.inl (by simp)) (by simp)
      ⟨hleft, hstate, rfl⟩
  | @storeContext w f origin point left hphase =>
    obtain ⟨hleft, hstate, hpoint⟩ := h.fields w f origin _ hphase
    exact h.move hphase (h.alone hphase (by simp)) (.inl (by simp)) (by simp)
      ⟨hleft, hstate, hpoint, hpoint⟩
  | @testState w f origin point left hphase =>
    obtain ⟨⟨hexec, hinit⟩, hstate, -, -⟩ := h.fields w f origin _ hphase
    refine h.release hphase ?_ (fun g => ?_) (fun g hg => ?_) fun horigin hkept => ?_
    · split <;> rfl
    · rintro ⟨step, hstep⟩
      split at hstep
      · exact absurd hstep (by simp)
      · exact absurd hstep (by simp)
    · cases origin with
      | task => exact hg
      | cbFiber => exact (Option.ite_none_left_eq_some.mp hg).2
    · -- the fiber is kept only if it neither waits nor wants to run on
      subst horigin
      obtain ⟨hnot, -⟩ := Option.ite_none_left_eq_some.mp hkept
      rw [not_or] at hnot
      rintro ⟨hterm, hexcept⟩
      rw [hstate] at hnot hterm hexcept
      cases left with
      | init => exact hinit rfl
      | hold => exact hnot.2 rfl
      | exec => exact hexec rfl
      | term => exact hterm rfl
      | ready => exact hnot.1 rfl
      | except => exact hexcept rfl
  | @requeue w f origin point hphase =>
    refine h.quiet ?_ (fun g hg => ?_) rfl fun _ => Phase.not_onCbFiber_of_held rfl
    · rw [hphase]
      rfl
    · obtain ⟨step, hstep⟩ := hg
      rw [hphase] at hstep
      exact absurd hstep (by simp)

/-! ### The entries of the queue -/

/-- Every suspension as `READY` has one queue entry, or a worker that still owes it. -/
structure Accounted (phase : Fin n → Phase) (fibers : ℕ → Fiber)
    (suspensions entries : List Suspension) : Prop where
  bound : ∀ x ∈ suspensions, x.point ≤ (fibers x.fiber).point
  nodup : entries.Nodup
  subset : ∀ x ∈ entries, x ∈ suspensions
  owed : ∀ w x, (phase w).owed = some x → x ∈ suspensions ∧ x ∉ entries
  unique : ∀ w w' x, (phase w).owed = some x → (phase w').owed = some x → w = w'
  queued : ∀ x ∈ suspensions, x ∈ entries ∨ ∃ w, (phase w).owed = some x

namespace Accounted

variable {phase phase' : Fin n → Phase} {fibers fibers' : ℕ → Fiber}
  {suspensions entries : List Suspension} {w : Fin n}

/-- A step of a worker that neither makes a suspension nor queues one. -/
theorem keep (h : Accounted phase fibers suspensions entries) {phaseOf : Phase}
    (hsame : (phase w).owed = phaseOf.owed)
    (hpoint : ∀ f, (fibers f).point ≤ (fibers' f).point) :
    Accounted (Function.update phase w phaseOf) fibers' suspensions entries := by
  have howed : ∀ w', (Function.update phase w phaseOf w').owed = (phase w').owed := by
    intro w'
    by_cases hw : w' = w
    · rw [hw, Function.update_self, hsame]
    · rw [Function.update_of_ne hw]
  constructor
  · exact fun x hx => Nat.le_trans (h.bound x hx) (hpoint x.fiber)
  · exact h.nodup
  · exact h.subset
  · intro w' x hx
    exact h.owed w' x (by rw [← howed, hx])
  · intro w₁ w₂ x h₁ h₂
    exact h.unique w₁ w₂ x (by rw [← howed, h₁]) (by rw [← howed, h₂])
  · intro x hx
    exact (h.queued x hx).imp_right fun ⟨w', hw'⟩ => ⟨w', by rw [howed, hw']⟩

/-- A fiber suspends itself as `READY`; its worker owes the entry. -/
theorem suspend (h : Accounted phase fibers suspensions entries) {f : ℕ} {fiber : Fiber}
    {phaseOf : Phase} (hold : (phase w).owed = none) (hpoint : fiber.point = (fibers f).point + 1)
    (hnew : phaseOf.owed = some ⟨f, (fibers f).point + 1⟩) :
    Accounted (Function.update phase w phaseOf) (Function.update fibers f fiber)
      (suspensions ++ [⟨f, (fibers f).point + 1⟩]) entries := by
  have hfresh : (⟨f, (fibers f).point + 1⟩ : Suspension) ∉ suspensions :=
    fun hmem => Nat.not_succ_le_self _ (h.bound _ hmem)
  have howed : ∀ w' x, (Function.update phase w phaseOf w').owed = some x →
      w' = w ∧ x = ⟨f, (fibers f).point + 1⟩ ∨ (phase w').owed = some x := by
    intro w' x hx
    by_cases hw : w' = w
    · rw [hw, Function.update_self, hnew, Option.some_inj] at hx
      exact .inl ⟨hw, hx.symm⟩
    · rw [Function.update_of_ne hw] at hx
      exact .inr hx
  constructor
  · intro x hx
    rcases List.mem_append.mp hx with hx | hx
    · by_cases hxf : x.fiber = f
      · rw [hxf, Function.update_self, hpoint]
        exact Nat.le_succ_of_le (hxf ▸ h.bound x hx)
      · rw [Function.update_of_ne hxf]
        exact h.bound x hx
    · have hnew : (Function.update fibers f fiber f).point = (fibers f).point + 1 := by
        rw [Function.update_self, hpoint]
      exact List.mem_singleton.mp hx ▸ Nat.le_of_eq hnew.symm
  · exact h.nodup
  · exact fun x hx => List.mem_append_left _ (h.subset x hx)
  · intro w' x hx
    rcases howed w' x hx with ⟨-, rfl⟩ | hx
    · exact ⟨List.mem_append_right _ (List.mem_singleton.mpr rfl),
        fun hmem => hfresh (h.subset _ hmem)⟩
    · exact ⟨List.mem_append_left _ (h.owed w' x hx).1, (h.owed w' x hx).2⟩
  · intro w₁ w₂ x h₁ h₂
    rcases howed w₁ x h₁ with ⟨rfl, rfl⟩ | h₁
    · rcases howed w₂ _ h₂ with ⟨rfl, -⟩ | h₂
      · rfl
      · exact absurd (h.owed w₂ _ h₂).1 hfresh
    · rcases howed w₂ x h₂ with ⟨-, rfl⟩ | h₂
      · exact absurd (h.owed w₁ _ h₁).1 hfresh
      · exact h.unique w₁ w₂ x h₁ h₂
  · intro x hx
    rcases List.mem_append.mp hx with hx | hx
    · refine (h.queued x hx).imp_right fun ⟨w', hw'⟩ => ⟨w', ?_⟩
      have hw : w' ≠ w := by
        rintro rfl
        rw [hold] at hw'
        exact absurd hw' (by simp)
      rw [Function.update_of_ne hw, hw']
    · refine .inr ⟨w, ?_⟩
      rw [Function.update_self, hnew, List.mem_singleton.mp hx]

/-- A worker makes the entry that it owes. -/
theorem queue (h : Accounted phase fibers suspensions entries) {x : Suspension}
    {phaseOf : Phase} (hold : (phase w).owed = some x) (hnew : phaseOf.owed = none) :
    Accounted (Function.update phase w phaseOf) fibers suspensions (entries ++ [x]) := by
  obtain ⟨hmem, hnot⟩ := h.owed w x hold
  have howed : ∀ w' y, (Function.update phase w phaseOf w').owed = some y →
      y ≠ x ∧ (phase w').owed = some y := by
    intro w' y hy
    by_cases hw : w' = w
    · rw [hw, Function.update_self, hnew] at hy
      exact absurd hy (by simp)
    · rw [Function.update_of_ne hw] at hy
      exact ⟨fun heq => hw (h.unique w' w x (heq ▸ hy) hold), hy⟩
  constructor
  · exact h.bound
  · rw [List.nodup_append]
    refine ⟨h.nodup, by simp, fun y hy z hz => ?_⟩
    rintro rfl
    exact hnot (List.mem_singleton.mp hz ▸ hy)
  · intro y hy
    rcases List.mem_append.mp hy with hy | hy
    · exact h.subset y hy
    · exact List.mem_singleton.mp hy ▸ hmem
  · intro w' y hy
    obtain ⟨hne, hy⟩ := howed w' y hy
    refine ⟨(h.owed w' y hy).1, fun hmem => ?_⟩
    rcases List.mem_append.mp hmem with hmem | hmem
    · exact (h.owed w' y hy).2 hmem
    · exact hne (List.mem_singleton.mp hmem)
  · intro w₁ w₂ y h₁ h₂
    exact h.unique w₁ w₂ y (howed w₁ y h₁).2 (howed w₂ y h₂).2
  · intro y hy
    by_cases hyx : y = x
    · exact .inl (List.mem_append_right _ (List.mem_singleton.mpr hyx))
    · refine (h.queued y hy).imp (List.mem_append_left _) fun ⟨w', hw'⟩ => ⟨w', ?_⟩
      have hw : w' ≠ w := by
        rintro rfl
        rw [hold, Option.some_inj] at hw'
        exact hyx hw'.symm
      rw [Function.update_of_ne hw, hw']

/-- The fiber that changes keeps its suspension points. -/
theorem update_point {f : ℕ} {fiber : Fiber} (hpoint : (fibers f).point ≤ fiber.point) (g : ℕ) :
    (fibers g).point ≤ (Function.update fibers f fiber g).point := by
  by_cases hg : g = f
  · rw [hg, Function.update_self]
    exact hpoint
  · exact Nat.le_of_eq (by rw [Function.update_of_ne hg])

/-- The entries are accounted for after each step. -/
theorem step {s s' : RunState n} {action : RunAction n}
    (hinv : Inv s.phase s.fibers s.cbFiber)
    (h : Accounted s.phase s.fibers s.readySuspensions s.readyEntries)
    (hstep : Step s action s') :
    Accounted s'.phase s'.fibers s'.readySuspensions s'.readyEntries := by
  cases hstep with
  | create => exact h
  | schedule => exact h
  | cancelEvent => exact h
  | processEvent => exact h
  | trigger => exact h
  | goIdle hphase => exact h.keep (by rw [hphase]; rfl) fun _ => Nat.le_refl _
  | takeFiber hphase => exact h.keep (by rw [hphase]; rfl) fun _ => Nat.le_refl _
  | takeCallback hphase => exact h.keep (by rw [hphase]; rfl) fun _ => Nat.le_refl _
  | @leaveIdle w terminated hphase =>
    refine h.keep ?_ fun _ => Nat.le_refl _
    rw [hphase]
    cases terminated <;> rfl
  | reuse hphase => exact h.keep (by rw [hphase]; rfl) (update_point (Nat.le_succ _))
  | makeFiber hphase => exact h.keep (by rw [hphase]; rfl) fun _ => Nat.le_refl _
  | beginResume hphase => exact h.keep (by rw [hphase]; rfl) (update_point (Nat.le_refl _))
  | switchIn hphase => exact h.keep (by rw [hphase]; rfl) fun _ => Nat.le_refl _
  | addEvent => exact h
  | yieldTo hphase => exact h.keep (by rw [hphase]; rfl) (update_point (Nat.le_refl _))
  | finish hphase =>
    exact h.keep (by rw [hphase]; rfl) (update_point (Nat.le_of_eq (Fiber.finish_ctx_point _ _).2.symm))
  | @switchOut w f origin left hphase =>
    have hold : (s.phase w).owed = none := by rw [hphase]; rfl
    have hnew := Phase.owed_returned f origin ((s.fibers f).point + 1) left
    show Accounted (Function.update s.phase w _) (Function.update s.fibers f _)
      (if left = .ready then _ else _) s.readyEntries
    by_cases hleft : left = .ready
    · rw [if_pos hleft] at hnew ⊢
      exact h.suspend hold rfl hnew
    · rw [if_neg hleft] at hnew ⊢
      exact h.keep (hold.trans hnew.symm) (update_point (Nat.le_succ _))
  | storeContext hphase =>
    exact h.keep (by rw [hphase, Phase.owed_stored, Phase.owed_returned])
      (update_point (Nat.le_refl _))
  | @testState w f origin point left hphase =>
    obtain ⟨-, hstate, -, -⟩ := hinv.fields w f origin _ hphase
    refine h.keep ?_ fun _ => Nat.le_refl _
    rw [hphase, Phase.owed_stored, hstate]
    split <;> rfl
  | requeue hphase => exact h.queue (by rw [hphase]; rfl) rfl

end Accounted

/-! ### What a run keeps -/

/-- No two workers execute on the stack of one fiber. -/
def Exclusive (s : RunState n) : Prop :=
  ∀ w w' f, (s.phase w).onStack = some f → (s.phase w').onStack = some f → w = w'

/-- A worker that is about to switch to `ctx_` will be at the latest suspension. -/
def Latest (s : RunState n) : Prop :=
  ∀ w f origin, s.phase w = .holding f origin .switching → (s.fibers f).ctx = (s.fibers f).point

/-- A suspension as `READY` is queued once, unless the worker that resumed the fiber
is still on its way to do so; nothing else is queued in its place. -/
def QueuedOnce (s : RunState n) : Prop :=
  s.readyEntries.Nodup ∧ (∀ x ∈ s.readyEntries, x ∈ s.readySuspensions) ∧
    ∀ x ∈ s.readySuspensions, x ∈ s.readyEntries ∨ ∃ w, (s.phase w).owed = some x

/-- Fibers run on one worker at a time, from their latest suspension, and are queued
once for each suspension as `READY`. -/
structure Sound (s : RunState n) : Prop where
  exclusive : s.Exclusive
  latest : s.Latest
  queuedOnce : s.QueuedOnce

theorem Inv.sound (h : Inv s.phase s.fibers s.cbFiber)
    (haccounted : Accounted s.phase s.fibers s.readySuspensions s.readyEntries) : s.Sound where
  exclusive := fun w w' f hw hw' =>
    h.unique w w' f (Phase.resumed_of_onStack hw) (Phase.resumed_of_onStack hw')
  latest := fun w f origin hphase => (h.fields w f origin .switching hphase).2
  queuedOnce := ⟨haccounted.nodup, haccounted.subset, haccounted.queued⟩

/-- A worker takes a new fiber, which waits for a descriptor. -/
def waitActions : List (RunAction 2) :=
  [.create, .schedule ⟨.fiber 0, none⟩, .getNextTask 0, .beginResume 0, .switchIn 0,
   .addEvent 0 3 .read true, .yieldTo 0 false]

end RunState

end Scheduler

/-
The fibers that a single worker resumes.

`run` takes from the queue whatever is not `EXEC` at that moment and resumes it, and
`resume` asserts that its fiber has not ended.  An entry of the queue is a reference
and nothing more: it can have been made when its fiber had ended, or its fiber can end
while it waits, after another entry for the same fiber has resumed it.  With one worker
these are the only ways to come upon a fiber that must not be resumed.

* `QueuesLive` — the step makes no entry for an ended fiber, and ends no fiber that
  has an entry;
* `resumesLive_of_queuesLive` — then `run` resumes nothing but fibers in `INIT`, `HOLD`
  or `READY`;
* `not_resumesLive` — a fiber that was queued twice is resumed after its end.
-/
import Droplet.Scheduler.Base

open Transition Transition.System

namespace Scheduler

/-- A single worker with the `idle_fiber` of its `run`. -/
structure SoloState where
  run : RunState 1
  idleFiber : Fiber.State

namespace RunState

variable {n : ℕ}

/-- The fiber of a task has not ended. -/
def Live (s : RunState n) (work : Work) : Prop :=
  ∀ f, work = .fiber f → ¬(s.fibers f).state.Ended

instance (s : RunState n) (work : Work) : Decidable (s.Live work) :=
  match work with
  | .fiber f => decidable_of_iff (¬(s.fibers f).state.Ended)
      ⟨fun h _ hf => Work.fiber.inj hf ▸ h, fun h => h f rfl⟩
  | .callback _ => .isTrue fun _ h => Work.noConfusion h

/-- An entry of the queue, or a handler that is about to be queued, is the fiber. -/
def Queued (s : RunState n) (f : ℕ) : Prop :=
  (∃ task ∈ s.tasks, task.work = .fiber f) ∨ Work.fiber f ∈ s.triggered

instance (s : RunState n) (f : ℕ) : Decidable (s.Queued f) := inferInstanceAs (Decidable (_ ∨ _))

end RunState

namespace SoloState

/-- The state of `idle_fiber` after a step of the worker: it is resumed when there is no
task, and yields as `HOLD` or ends. -/
def idleAfter (s : SoloState) (run : RunState 1) : RunAction 1 → Fiber.State
  | .getNextTask w => if run.phase w = .idle then .exec else s.idleFiber
  | .leaveIdle _ terminated => if terminated then .term else .hold
  | _ => s.idleFiber

def step (s : SoloState) (action : RunAction 1) : Option SoloState :=
  (s.run.step action).map fun run => ⟨run, s.idleAfter run action⟩

/-- The worker enters `run`; `idle_fiber` was just made. -/
def start : SoloState where
  run := RunState.start 1
  idleFiber := .init

/-- All interleavings of the worker with the other threads. -/
def system : System SoloState (RunAction 1) where
  init s := s = start
  step := step

/-- Every fiber that the worker is about to resume is one that can be resumed: that of a
task, its `cb_fiber`, and the `idle_fiber` for when there is no task. -/
def ResumesLive (s : SoloState) : Prop :=
  (∀ w f origin, s.run.phase w = .holding f origin .taken → (s.run.fibers f).state.Waiting) ∧
    ∀ w, s.run.phase w = .loop → s.idleFiber.Waiting

/-- The step makes no entry of the queue for a fiber that has ended, and no fiber ends
while an entry or a detached handler names it. -/
def QueuesLive (s : SoloState) : RunAction 1 → Prop
  | .schedule task => s.run.Live task.work
  | .cancelEvent fd mask _ => ∀ work ∈ ((s.run.contexts fd).detach mask).2, s.run.Live work
  | .processEvent fd ready => ∀ work ∈ ((s.run.contexts fd).detach ready).2, s.run.Live work
  | .finish w _ => ∀ f ∈ (s.run.phase w).onStack, ¬s.run.Queued f
  | _ => True

instance : (s : SoloState) → (action : RunAction 1) → Decidable (s.QueuesLive action)
  | s, .schedule task => inferInstanceAs (Decidable (s.run.Live task.work))
  | s, .cancelEvent fd mask _ =>
    inferInstanceAs (Decidable (∀ work ∈ ((s.run.contexts fd).detach mask).2, s.run.Live work))
  | s, .processEvent fd ready =>
    inferInstanceAs (Decidable (∀ work ∈ ((s.run.contexts fd).detach ready).2, s.run.Live work))
  | s, .finish w _ =>
    inferInstanceAs (Decidable (∀ f ∈ (s.run.phase w).onStack, ¬s.run.Queued f))
  | _, .create | _, .trigger _ | _, .getNextTask _ | _, .leaveIdle _ _ | _, .wrap _
  | _, .beginResume _ | _, .switchIn _ | _, .addEvent _ _ _ _ | _, .yieldTo _ _
  | _, .switchOut _ | _, .storeContext _ | _, .testState _ | _, .requeue _ => .isTrue trivial

end SoloState

/-- What is not running and has not ended waits. -/
theorem Fiber.State.waiting_of_not_ended {state : Fiber.State} (hexec : state ≠ .exec)
    (hended : ¬state.Ended) : state.Waiting := by
  cases state with
  | init => exact .inl rfl
  | hold => exact .inr (.inl rfl)
  | exec => exact absurd rfl hexec
  | term => exact absurd (.inl rfl) hended
  | ready => exact .inr (.inr rfl)
  | except => exact absurd (.inr rfl) hended

theorem Fiber.State.not_ended_of_waiting {state : Fiber.State} (h : state.Waiting) :
    ¬state.Ended := by
  rcases h with rfl | rfl | rfl
  · decide
  · decide
  · decide

theorem Fiber.State.not_ended_exec : ¬Fiber.State.exec.Ended := by decide

/-! ### What the queue refers to -/

namespace RunState

variable {s s' : RunState 1} {action : RunAction 1} {v w : Fin 1} {f : ℕ}

/-- Nothing that is queued, or about to be, has ended. -/
structure LiveQueue (s : RunState 1) : Prop where
  tasks : ∀ task ∈ s.tasks, s.Live task.work
  triggered : ∀ work ∈ s.triggered, s.Live work

/-- A fiber that is about to be resumed waits, and one that is about to be queued again
has not ended. -/
def PhaseLive (s : RunState 1) : Phase → Prop
  | .holding f _ .taken => (s.fibers f).state.Waiting
  | .requeueing f _ _ => ¬(s.fibers f).state.Ended
  | _ => True

/-- Whatever the queue and the worker refer to can still be resumed. -/
structure LiveEntries (s : RunState 1) : Prop where
  queue : s.LiveQueue
  phase : ∀ w, s.PhaseLive (s.phase w)

namespace LiveQueue

theorem push (h : s.LiveQueue) {task : ScheduleTask} (hlive : s.Live task.work) :
    (s.push task).LiveQueue := by
  refine ⟨fun other hmem => ?_, h.triggered⟩
  rcases List.mem_append.mp hmem with hmem | hmem
  · exact h.tasks other hmem
  · exact List.mem_singleton.mp hmem ▸ hlive

theorem detach (h : s.LiveQueue) {fd : ℕ} {result : FdContext × List Work}
    (hlive : ∀ work ∈ result.2, s.Live work) : (s.detach fd result).LiveQueue := by
  refine ⟨h.tasks, fun work hmem => ?_⟩
  rcases List.mem_append.mp hmem with hmem | hmem
  · exact h.triggered work hmem
  · exact hlive work hmem

/-- A detached handler comes to the end of the queue. -/
theorem trigger (h : s.LiveQueue) {index : ℕ} {work : Work}
    (hwork : s.triggered[index]? = some work) :
    ({ s.push ⟨work, none⟩ with triggered := s.triggered.eraseIdx index } : RunState 1).LiveQueue := by
  have hlive : s.Live work := h.triggered work (List.mem_of_getElem? hwork)
  refine ⟨(h.push hlive).tasks, fun other hmem => ?_⟩
  exact h.triggered other (List.mem_of_mem_eraseIdx hmem)

/-- The queue after `getNextTask`. -/
theorem setTasks (h : s.LiveQueue) {rest : List ScheduleTask}
    (hrest : ∀ task ∈ rest, task ∈ s.tasks) : ({ s with tasks := rest } : RunState 1).LiveQueue :=
  ⟨fun task hmem => h.tasks task (hrest task hmem), h.triggered⟩

/-- A fiber that ends with the write is named by no entry. -/
theorem setFiber (h : s.LiveQueue) {fiber : Fiber}
    (hfiber : fiber.state.Ended → (s.fibers f).state.Ended ∨ ¬s.Queued f) :
    (s.setFiber f fiber).LiveQueue := by
  have hlive : ∀ work, s.Live work → (work = .fiber f → s.Queued f) →
      (s.setFiber f fiber).Live work := by
    intro work hwork hqueued f' hf'
    by_cases heq : f' = f
    · subst heq
      rw [setFiber_fibers, Function.update_self]
      intro hended
      rcases hfiber hended with hbefore | hno
      · exact hwork f' hf' hbefore
      · exact hno (hqueued hf')
    · rw [setFiber_fibers, Function.update_of_ne heq]
      exact hwork f' hf'
  constructor
  · intro task hmem
    exact hlive task.work (h.tasks task hmem) fun heq => .inl ⟨task, hmem, heq⟩
  · intro work hmem
    exact hlive work (h.triggered work hmem) fun heq => .inr (heq ▸ hmem)

end LiveQueue

namespace LiveEntries

/-- It is enough to look at one worker, since there is no other. -/
theorem of_worker (w : Fin 1) (h : s.LiveQueue) (hphase : s.PhaseLive (s.phase w)) :
    s.LiveEntries :=
  ⟨h, fun v => Subsingleton.elim v w ▸ hphase⟩

/-- The worker comes to another place of its loop. -/
theorem of_setPhase (h : s.LiveQueue) {phase : Phase} (hphase : s.PhaseLive phase) :
    (s.setPhase w phase).LiveEntries :=
  of_worker w ⟨h.tasks, h.triggered⟩ (by rwa [setPhase_phase, Function.update_self])

/-- The worker goes on with its fiber. -/
theorem move (h : s.LiveEntries) {fiber : Fiber} {phase : Phase}
    (hfiber : fiber.state.Ended → (s.fibers f).state.Ended ∨ ¬s.Queued f)
    (hphase : (s.setFiber f fiber).PhaseLive phase) :
    ((s.setFiber f fiber).setPhase w phase).LiveEntries :=
  of_setPhase (h.queue.setFiber hfiber) hphase

end LiveEntries

/-- A step that meets the condition leaves nothing in the queue that has ended. -/
theorem liveEntries_of_step {s : SoloState} {run : RunState 1} (hknown : s.run.Known)
    (h : s.run.LiveEntries) (hcond : s.QueuesLive action) (hstep : Step s.run action run) :
    run.LiveEntries := by
  cases hstep with
  | create => exact ⟨⟨h.queue.tasks, h.queue.triggered⟩, h.phase⟩
  | schedule hcreated => exact ⟨h.queue.push hcond, h.phase⟩
  | cancelEvent hdetach =>
    subst hdetach
    exact ⟨h.queue.detach hcond, h.phase⟩
  | processEvent hdetach =>
    subst hdetach
    exact ⟨h.queue.detach hcond, h.phase⟩
  | trigger hwork => exact ⟨h.queue.trigger hwork, h.phase⟩
  | goIdle hphase => exact .of_setPhase h.queue trivial
  | @takeFiber w f threadId rest hphase hnext =>
    obtain ⟨hmem, hrunnable⟩ := getNextTask_eq_some hnext
    refine .of_setPhase (h.queue.setTasks fun _ => mem_of_getNextTask hnext) ?_
    -- `getNextTask` skips what is in `EXEC`, and nothing in the queue has ended
    have hexec : (s.run.fibers f).state ≠ .exec := by
      intro hexec
      simp [ScheduleTask.RunnableOn, ScheduleTask.Executing, hexec] at hrunnable
    exact Fiber.State.waiting_of_not_ended hexec (h.queue.tasks _ hmem f rfl)
  | takeCallback hphase hnext =>
    exact .of_setPhase (h.queue.setTasks fun _ => mem_of_getNextTask hnext) trivial
  | @leaveIdle w terminated hphase =>
    cases terminated with
    | false => exact .of_setPhase h.queue trivial
    | true => exact .of_setPhase h.queue trivial
  | @reuse w callback f hphase hcb hterm =>
    -- a fiber that is reset begins anew
    have hwaiting : (s.run.fibers f).reset.state.Waiting := .inl rfl
    refine h.move (fun hended => absurd hended (Fiber.State.not_ended_of_waiting hwaiting)) ?_
    rw [PhaseLive, setFiber_fibers, Function.update_self]
    exact hwaiting
  | @makeFiber w callback hphase =>
    have hqueue : (s.run.createFiber.setCbFiber w (some s.run.fiberCount)).LiveQueue :=
      ⟨h.queue.tasks, h.queue.triggered⟩
    refine .of_setPhase hqueue (.inl ?_)
    exact congrArg Fiber.state (hknown.untouched s.run.fiberCount (Nat.le_refl _))
  | beginResume hphase hresumable =>
    exact h.move (fun hended => absurd hended Fiber.State.not_ended_exec) trivial
  | switchIn hphase => exact .of_setPhase h.queue trivial
  | addEvent hphase => exact ⟨⟨h.queue.tasks, h.queue.triggered⟩, h.phase⟩
  | @yieldTo w f origin ready hphase =>
    refine h.move (fun hended => absurd hended (Fiber.State.not_ended_of_waiting ?_)) trivial
    cases ready with
    | false => exact .inr (.inl rfl)
    | true => exact .inr (.inr rfl)
  | @finish w f origin threw hphase =>
    refine h.move (fun _ => .inr ?_) trivial
    exact hcond f (by rw [hphase]; rfl)
  | @switchOut w f origin left hphase =>
    -- the state was written before the switch
    have hqueue : (s.run.setFiber f (s.run.fibers f).suspend).LiveQueue := h.queue.setFiber .inl
    refine .of_worker w ⟨hqueue.tasks, hqueue.triggered⟩ ?_
    have hnext : (s.run.switchOut w f origin left).phase w =
        .holding f origin (.returned ((s.run.fibers f).point + 1) left) :=
      Function.update_self ..
    rw [hnext]
    exact trivial
  | storeContext hphase => exact h.move .inl trivial
  | @testState w f origin point left hphase =>
    refine .of_worker w ⟨h.queue.tasks, h.queue.triggered⟩ ?_
    have hnext : (s.run.testState w f origin point).phase w =
        if (s.run.fibers f).state = .ready then .requeueing f origin point else .loop :=
      Function.update_self ..
    rw [hnext]
    split
    · next hready => exact Fiber.State.not_ended_of_waiting (.inr (.inr hready))
    · exact trivial
  | @requeue w f origin point hphase =>
    -- what the phase says of the fiber is what the queue asks of its entry
    have hlive : s.run.Live (.fiber f) := by
      intro f' hf'
      have hrequeueing := h.phase w
      rw [hphase] at hrequeueing
      exact Work.fiber.inj hf' ▸ hrequeueing
    have hqueue : (s.run.requeue w f origin point).LiveQueue :=
      ⟨(h.queue.push hlive).tasks, h.queue.triggered⟩
    refine .of_worker w hqueue ?_
    have hnext : (s.run.requeue w f origin point).phase w = .loop := Function.update_self ..
    rw [hnext]
    exact trivial

end RunState

/-! ### The idle fiber -/

/-- The worker has resumed its idle fiber and has not come back from it, or has left
`run`. -/
def Phase.OnIdle (phase : Phase) : Prop := phase = .idle ∨ phase = .exited

namespace RunState

variable {s s' : RunState 1} {action : RunAction 1} {w : Fin 1}

/-- The worker comes back from its idle fiber only when that yields. -/
theorem onIdle_of_step (hidle : (s.phase w).OnIdle) (hstep : Step s action s') :
    (s'.phase w).OnIdle ∨ action = .leaveIdle w false := by
  -- the other steps of the worker start at other places of its loop
  have hother : ∀ {v phase}, s.phase v = phase → ¬phase.OnIdle → False := by
    intro v phase hphase hno
    exact hno (hphase ▸ Subsingleton.elim v w ▸ hidle)
  cases hstep with
  | create => exact .inl hidle
  | schedule => exact .inl hidle
  | cancelEvent => exact .inl hidle
  | processEvent => exact .inl hidle
  | trigger => exact .inl hidle
  | goIdle hphase => exact (hother hphase (by simp [Phase.OnIdle])).elim
  | takeFiber hphase => exact (hother hphase (by simp [Phase.OnIdle])).elim
  | takeCallback hphase => exact (hother hphase (by simp [Phase.OnIdle])).elim
  | @leaveIdle v terminated hphase =>
    obtain rfl := Subsingleton.elim v w
    cases terminated with
    | false => exact .inr rfl
    | true => exact .inl (.inr (Function.update_self ..))
  | reuse hphase => exact (hother hphase (by simp [Phase.OnIdle])).elim
  | makeFiber hphase => exact (hother hphase (by simp [Phase.OnIdle])).elim
  | beginResume hphase => exact (hother hphase (by simp [Phase.OnIdle])).elim
  | switchIn hphase => exact (hother hphase (by simp [Phase.OnIdle])).elim
  | addEvent => exact .inl hidle
  | yieldTo hphase => exact (hother hphase (by simp [Phase.OnIdle])).elim
  | finish hphase => exact (hother hphase (by simp [Phase.OnIdle])).elim
  | switchOut hphase => exact (hother hphase (by simp [Phase.OnIdle])).elim
  | storeContext hphase => exact (hother hphase (by simp [Phase.OnIdle])).elim
  | testState hphase => exact (hother hphase (by simp [Phase.OnIdle])).elim
  | requeue hphase => exact (hother hphase (by simp [Phase.OnIdle])).elim

end RunState

namespace SoloState

variable {s s' : SoloState} {action : RunAction 1}

/-- What holds of a worker whose queue stays live. -/
structure Sound (s : SoloState) : Prop where
  known : s.run.Known
  entries : s.run.LiveEntries
  idle : ∀ w, ¬(s.run.phase w).OnIdle → s.idleFiber.Waiting

theorem sound_start : start.Sound where
  known := RunState.known_start
  entries := ⟨⟨fun _ hmem => absurd hmem List.not_mem_nil, fun _ hmem => absurd hmem
    List.not_mem_nil⟩, fun _ => trivial⟩
  idle := fun _ _ => .inl rfl

theorem sound_of_step (h : s.Sound) (hcond : s.QueuesLive action)
    (hstep : s.step action = some s') : s'.Sound := by
  obtain ⟨run, hrun, rfl⟩ := Option.map_eq_some_iff.mp hstep
  have hbranch := RunState.step_cases hrun
  refine ⟨RunState.known_of_step h.known hbranch,
    RunState.liveEntries_of_step h.known h.entries hcond hbranch, fun w hnot => ?_⟩
  -- the worker was at its idle fiber if and only if it is still there, or just left it
  have hbefore : action ≠ .leaveIdle w false → s.idleFiber.Waiting := by
    intro hne
    refine h.idle w fun hidle => ?_
    rcases RunState.onIdle_of_step hidle hbranch with hafter | hleave
    · exact hnot hafter
    · exact hne hleave
  show (s.idleAfter run action).Waiting
  unfold idleAfter
  split
  · next v =>
    obtain rfl := Subsingleton.elim v w
    rw [if_neg fun hidle => hnot (.inl hidle)]
    exact hbefore (by simp)
  · next v terminated =>
    obtain rfl := Subsingleton.elim v w
    cases terminated with
    | false => exact .inr (.inl rfl)
    | true =>
      have hexited : run.phase v = .exited := by
        cases hbranch
        exact Function.update_self ..
      exact absurd (.inr hexited) hnot
  · next _ hne => exact hbefore fun heq => hne _ _ heq

theorem sound_of_queuesLive (h : system.ReachableWhile QueuesLive s) : s.Sound := by
  refine h.invariant ?_ fun s action s' hsound hcond hstep => sound_of_step hsound hcond hstep
  rintro s rfl
  exact sound_start

/-- **`run` resumes resumable fibers**, in every run in which no step makes an entry for a
fiber that has ended and no fiber ends while an entry names it. -/
theorem resumesLive_of_queuesLive (h : system.ReachableWhile QueuesLive s) : s.ResumesLive := by
  have hsound := sound_of_queuesLive h
  constructor
  · intro w f origin hphase
    have hlive := hsound.entries.phase w
    rw [hphase] at hlive
    exact hlive
  · intro w hphase
    refine hsound.idle w fun hidle => ?_
    rw [Phase.OnIdle, hphase] at hidle
    exact absurd hidle (by simp)

variable {n : ℕ}

/-- A fiber is queued twice and registers itself for both directions of a descriptor; a
hang-up queues it twice more while it runs for the second time. -/
def hangUpActions (w : Fin n) : List (RunAction n) :=
  [.create, .schedule ⟨.fiber 0, none⟩, .schedule ⟨.fiber 0, none⟩,
    .getNextTask w, .beginResume w, .switchIn w, .addEvent w 3 .read true,
    .addEvent w 3 .write true, .yieldTo w false, .switchOut w, .storeContext w, .testState w,
    .getNextTask w, .beginResume w, .switchIn w, .processEvent 3 (.ofEpoll false false true),
    .yieldTo w false, .trigger 0, .trigger 0, .switchOut w, .storeContext w, .testState w,
    .getNextTask w, .beginResume w, .switchIn w, .yieldTo w true, .switchOut w,
    .storeContext w, .testState w, .requeue w, .getNextTask w]

theorem resumesLive_of_queuesLive_run :
    ∃ s, system.exec start (hangUpActions 0) = some s ∧
      s.run.phase 0 = .holding 0 (.task none) .taken ∧ s.ResumesLive := by
  obtain ⟨s, hs, hphase⟩ : ∃ s, system.exec start (hangUpActions 0) = some s ∧
      s.run.phase 0 = .holding 0 (.task none) .taken :=
    ⟨_, rfl, by decide +kernel⟩
  have hmeets : system.Meets QueuesLive start (hangUpActions 0) := by decide +kernel
  exact ⟨s, hs, hphase, resumesLive_of_queuesLive ((ReachableWhile.init rfl).exec hmeets hs)⟩

/-- A fiber is queued twice and ends when it is resumed for the first time. -/
def twiceActions (w : Fin n) : List (RunAction n) :=
  [.create, .schedule ⟨.fiber 0, none⟩, .schedule ⟨.fiber 0, none⟩,
    .getNextTask w, .beginResume w, .switchIn w, .finish w false, .switchOut w,
    .storeContext w, .testState w, .getNextTask w]

theorem not_resumesLive : ¬∀ s, system.Reachable s → s.ResumesLive := by
  intro hall
  obtain ⟨s, hs, hphase, hstate⟩ : ∃ s, system.exec start (twiceActions 0) = some s ∧
      s.run.phase 0 = .holding 0 (.task none) .taken ∧ (s.run.fibers 0).state = .term :=
    ⟨_, rfl, by decide +kernel, by decide +kernel⟩
  have hreach : system.Reachable s := (ReachableWhile.init rfl).exec (meets_true _ _ _) hs
  have hwaiting := (hall s hreach).1 0 0 _ hphase
  rw [hstate] at hwaiting
  exact absurd hwaiting (by decide)

end SoloState

end Scheduler

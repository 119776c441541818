/-
The scheduler on its condition variable.

The loops of any number of workers on one task queue, with the idle fiber that decides
when a worker leaves, interleaved with the calls of `start`, `schedule` and `stop`.  A
running task may yield any number of times, end or throw, and the calls that it makes
are steps as those of other threads.  A fiber that has yielded as `HOLD` is let go;
when its holder schedules it again, that is a new task.

An accepted task is named by its number in the order of the calls.  A fiber that is
scheduled is one that its caller may resume and that no earlier task still runs; it gets
its number then.  Some fields are records of the run: `pinOf` is the `thread_id` with
which a task was accepted, `segments` says which worker has resumed which task,
`entered` and `finished` are the tasks whose body has been entered by a worker or has
ended, `begun` those entered before they were accepted, and `suspended` those that have
yielded as `HOLD`; `tested` is how many had been accepted when a worker found the queue
empty for the last time.

* `BaseState.Step`, `BaseState.step_cases` — everything that one step can do.
-/
import Droplet.Scheduler.Run

open Transition Transition.System

namespace Scheduler

namespace Fiber.State

/-- The fiber can be resumed and is not running. -/
def Waiting (state : State) : Prop := state = .init ∨ state = .hold ∨ state = .ready

/-- The callback of the fiber has returned or thrown. -/
def Ended (state : State) : Prop := state = .term ∨ state = .except

instance (state : State) : Decidable state.Waiting := inferInstanceAs (Decidable (_ ∨ _))
instance (state : State) : Decidable state.Ended := inferInstanceAs (Decidable (_ ∨ _))

end Fiber.State

/-- What a caller passes to `schedule`: a fiber in some state, or a function. -/
inductive NewWork
  | fiber (state : Fiber.State)
  | function
  deriving DecidableEq

/-- A fiber is one that its caller may resume. -/
def NewWork.Valid : NewWork → Prop
  | .fiber state => state.Waiting
  | .function => True

instance : (work : NewWork) → Decidable work.Valid
  | .fiber state => inferInstanceAs (Decidable state.Waiting)
  | .function => .isTrue trivial

/-- Where a worker is between `getNextTask` and its test of the state after
`resume`. -/
inductive HoldStep
  | taken
  | running
  | returned
  deriving DecidableEq

/-- Where a worker is: before `run`, in its loop, or on its idle fiber (at the wait,
before the test that follows, or ended). -/
inductive BasePhase
  | created
  | loop
  | idle
  | testing
  | leaving
  | exited
  | wrapping (callback : ℕ)
  | holding (fiber : ℕ) (origin : Origin) (step : HoldStep)
  | requeueing (fiber : ℕ) (origin : Origin)
  deriving DecidableEq

/-- A worker with its local variable `cb_fiber`.  `tested` is the number of the tasks
accepted before its last test. -/
structure BaseWorker where
  phase : BasePhase
  cbFiber : Option ℕ
  tested : ℕ
  deriving DecidableEq

/-- The scheduler and its workers. -/
structure BaseState where
  started : Bool
  stopping : Bool
  tasks : List ScheduleTask
  state : ℕ → Fiber.State
  taskOf : ℕ → ℕ
  fiberCount : ℕ
  workers : List BaseWorker
  accepted : ℕ
  pinOf : ℕ → Option ℕ
  segments : List (ℕ × ℕ)
  entered : List ℕ
  begun : List ℕ
  finished : List ℕ
  suspended : List ℕ

/-- One atomic step of a caller or of a worker. -/
inductive BaseAction
  | start
  | schedule (work : NewWork) (threadId : Option ℕ)
  | scheduleBatch (works : List NewWork)
  | stop
  | enter (w : ℕ)
  | getNextTask (w : ℕ)
  | wake (w : ℕ)
  | testIdle (w : ℕ)
  | exit (w : ℕ)
  | wrap (w : ℕ)
  | resume (w : ℕ)
  | yieldToReady (w : ℕ)
  | yieldToHold (w : ℕ)
  | finish (w : ℕ) (threw : Bool)
  | testState (w : ℕ)
  | requeue (w : ℕ)
  deriving DecidableEq

/-- The worker that makes the step, if it is one of `run`. -/
def BaseAction.worker : BaseAction → Option ℕ
  | .enter w | .getNextTask w | .wake w | .testIdle w | .exit w | .wrap w | .resume w
  | .yieldToReady w | .yieldToHold w | .finish w _ | .testState w | .requeue w => some w
  | _ => none

namespace BaseState

/-- The constructor: no task, and workers that are not running. -/
def new (n : ℕ) : BaseState where
  started := false
  stopping := false
  tasks := []
  state := fun _ => .init
  taskOf := fun _ => 0
  fiberCount := 0
  workers := List.replicate n ⟨.created, none, 0⟩
  accepted := 0
  pinOf := fun _ => none
  segments := []
  entered := []
  begun := []
  finished := []
  suspended := []

def setWorker (s : BaseState) (w : ℕ) (worker : BaseWorker) : BaseState :=
  { s with workers := s.workers.set w worker }

/-- A fiber is given a state and a task. -/
def setFiber (s : BaseState) (f : ℕ) (state : Fiber.State) (task : ℕ) : BaseState :=
  { s with
    state := Function.update s.state f state
    taskOf := Function.update s.taskOf f task }

/-- The `push_back` of `schedule`. -/
def push (s : BaseState) (work : Work) (threadId : Option ℕ) : BaseState :=
  { s with tasks := s.tasks ++ [⟨work, threadId⟩] }

/-- The number of a new task. -/
def accept (s : BaseState) (threadId : Option ℕ) : BaseState :=
  { s with
    accepted := s.accepted + 1
    pinOf := Function.update s.pinOf s.accepted threadId }

/-- `schedule`, for a fiber and for a function. -/
def schedule (s : BaseState) (work : NewWork) (threadId : Option ℕ) : BaseState :=
  match work with
  | .fiber state =>
    { ((s.accept threadId).setFiber s.fiberCount state s.accepted).push (.fiber s.fiberCount)
        threadId with
      fiberCount := s.fiberCount + 1
      begun := if state = .init then s.begun else s.begun ++ [s.accepted] }
  | .function => (s.accept threadId).push (.callback s.accepted) threadId

/-- `schedule` of a range, under one lock. -/
def scheduleBatch (s : BaseState) (works : List NewWork) : BaseState :=
  works.foldl (fun s work => s.schedule work none) s

/-- `getNextTask`, and what `run` does with its result. -/
def takeNext (s : BaseState) (w : ℕ) (worker : BaseWorker) : BaseState :=
  match Scheduler.getNextTask s.state w s.tasks with
  | none => s.setWorker w { worker with phase := .idle }
  | some (task, rest) =>
    ({ s with tasks := rest } : BaseState).setWorker w
      { worker with
        phase := match task.work with
          | .fiber f => .holding f (.task task.threadId) .taken
          | .callback callback => .wrapping callback }

/-- The test of `idle` after its wait. -/
def testIdle (s : BaseState) (w : ℕ) (worker : BaseWorker) : BaseState :=
  if s.stopping = true ∧ s.tasks = [] then
    s.setWorker w { worker with phase := .leaving, tested := s.accepted }
  else s.setWorker w { worker with phase := .loop }

/-- The function is wrapped into the fiber, by `reset` or `Create`. -/
def wrapInto (s : BaseState) (w : ℕ) (worker : BaseWorker) (callback f : ℕ) : BaseState :=
  (s.setFiber f .init callback).setWorker w
    { worker with phase := .holding f .cbFiber .taken, cbFiber := some f }

/-- Reuse of `cb_fiber`, or a new fiber in its place. -/
def wrap (s : BaseState) (w : ℕ) (worker : BaseWorker) (callback : ℕ) : BaseState :=
  match worker.cbFiber.filter fun f => s.state f = .term with
  | some f => s.wrapInto w worker callback f
  | none =>
    ({ s with fiberCount := s.fiberCount + 1 } : BaseState).wrapInto w worker callback s.fiberCount

/-- The fiber of the worker in another state, at another step of `resume`. -/
def setHeld (s : BaseState) (w : ℕ) (worker : BaseWorker) (f : ℕ) (origin : Origin)
    (step : HoldStep) (state : Fiber.State) : BaseState :=
  (s.setFiber f state (s.taskOf f)).setWorker w { worker with phase := .holding f origin step }

/-- `Fiber::resume` up to the entry of the body or its last `yield_to`. -/
def resume (s : BaseState) (w : ℕ) (worker : BaseWorker) (f : ℕ) (origin : Origin) : BaseState :=
  { s.setHeld w worker f origin .running .exec with
    segments := s.segments ++ [(s.taskOf f, w)]
    entered := if s.state f = .init then s.entered ++ [s.taskOf f] else s.entered }

/-- `Fiber::yield_to_ready`, back to `resume`. -/
def yieldToReady (s : BaseState) (w : ℕ) (worker : BaseWorker) (f : ℕ) (origin : Origin) :
    BaseState :=
  s.setHeld w worker f origin .returned .ready

/-- `Fiber::yield_to_hold`, back to `resume`. -/
def yieldToHold (s : BaseState) (w : ℕ) (worker : BaseWorker) (f : ℕ) (origin : Origin) :
    BaseState :=
  { s.setHeld w worker f origin .returned .hold with
    suspended := s.suspended ++ [s.taskOf f] }

/-- The end of `Fiber::run`, back to `resume`. -/
def finish (s : BaseState) (w : ℕ) (worker : BaseWorker) (f : ℕ) (origin : Origin)
    (threw : Bool) : BaseState :=
  { s.setHeld w worker f origin .returned (if threw then .except else .term) with
    finished := s.finished ++ [s.taskOf f] }

/-- The test of the state after `resume`.  A `READY` fiber is moved into the call of
`schedule`, so that `cb_fiber` is empty from then on. -/
def testState (s : BaseState) (w : ℕ) (worker : BaseWorker) (f : ℕ) (origin : Origin) :
    BaseState :=
  let cbFiber := match origin with
    | .task _ => worker.cbFiber
    | .cbFiber => if s.state f = .ready ∨ s.state f = .hold then none else worker.cbFiber
  s.setWorker w { worker with
    phase := if s.state f = .ready then .requeueing f origin else .loop
    cbFiber := cbFiber }

/-- The call of `schedule` for a fiber that is `READY`. -/
def requeue (s : BaseState) (w : ℕ) (worker : BaseWorker) (f : ℕ) (origin : Origin) :
    BaseState :=
  let threadId := match origin with
    | .task threadId => threadId
    | .cbFiber => none
  (s.push (.fiber f) threadId).setWorker w { worker with phase := .loop }

/-- The steps of a worker. -/
def onWorker (s : BaseState) (w : ℕ) (worker : BaseWorker) (action : BaseAction) :
    Option BaseState :=
  match worker.phase, action with
  | .created, .enter _ =>
    if s.started then some (s.setWorker w { worker with phase := .loop }) else none
  | .loop, .getNextTask _ => some (s.takeNext w worker)
  | .idle, .wake _ =>
    if s.stopping = true ∨ s.tasks ≠ [] then
      some (s.setWorker w { worker with phase := .testing })
    else none
  | .testing, .testIdle _ => some (s.testIdle w worker)
  | .leaving, .exit _ => some (s.setWorker w { worker with phase := .exited })
  | .wrapping callback, .wrap _ => some (s.wrap w worker callback)
  | .holding f origin .taken, .resume _ =>
    -- `resume` asserts this
    if (s.state f).Waiting then some (s.resume w worker f origin) else none
  | .holding f origin .running, .yieldToReady _ => some (s.yieldToReady w worker f origin)
  | .holding f origin .running, .yieldToHold _ => some (s.yieldToHold w worker f origin)
  | .holding f origin .running, .finish _ threw => some (s.finish w worker f origin threw)
  | .holding f origin .returned, .testState _ => some (s.testState w worker f origin)
  | .requeueing f origin, .requeue _ => some (s.requeue w worker f origin)
  | _, _ => none

def step (s : BaseState) (action : BaseAction) : Option BaseState :=
  match action with
  | .start =>
    -- `start` asserts that it is not called twice
    if s.started then none else some { s with started := true, stopping := false }
  | .schedule work threadId => if work.Valid then some (s.schedule work threadId) else none
  | .scheduleBatch works =>
    if ∀ work ∈ works, work.Valid then some (s.scheduleBatch works) else none
  | .stop => some { s with stopping := true }
  | action => action.worker.bind fun w =>
    (s.workers[w]?).bind fun worker => s.onWorker w worker action

/-- All interleavings of `n` workers with their callers. -/
def system (n : ℕ) : System BaseState BaseAction where
  init s := s = new n
  step := step

/-! ### What a step can do -/

/-- The steps of a worker, one constructor for each branch. -/
inductive WorkerStep (s : BaseState) (w : ℕ) (worker : BaseWorker) : BaseAction → BaseState → Prop
  | enter (hphase : worker.phase = .created) (hstarted : s.started = true) :
      WorkerStep s w worker (.enter w) (s.setWorker w { worker with phase := .loop })
  | goIdle (hphase : worker.phase = .loop)
      (hnext : Scheduler.getNextTask s.state w s.tasks = none) :
      WorkerStep s w worker (.getNextTask w) (s.setWorker w { worker with phase := .idle })
  | takeFiber {f : ℕ} {threadId : Option ℕ} {rest : List ScheduleTask}
      (hphase : worker.phase = .loop)
      (hnext : Scheduler.getNextTask s.state w s.tasks = some (⟨.fiber f, threadId⟩, rest)) :
      WorkerStep s w worker (.getNextTask w) (({ s with tasks := rest } : BaseState).setWorker w
        { worker with phase := .holding f (.task threadId) .taken })
  | takeCallback {callback : ℕ} {threadId : Option ℕ} {rest : List ScheduleTask}
      (hphase : worker.phase = .loop)
      (hnext : Scheduler.getNextTask s.state w s.tasks =
        some (⟨.callback callback, threadId⟩, rest)) :
      WorkerStep s w worker (.getNextTask w) (({ s with tasks := rest } : BaseState).setWorker w
        { worker with phase := .wrapping callback })
  | wake (hphase : worker.phase = .idle) (hready : s.stopping = true ∨ s.tasks ≠ []) :
      WorkerStep s w worker (.wake w) (s.setWorker w { worker with phase := .testing })
  | leave (hphase : worker.phase = .testing) (hstopping : s.stopping = true)
      (hempty : s.tasks = []) :
      WorkerStep s w worker (.testIdle w)
        (s.setWorker w { worker with phase := .leaving, tested := s.accepted })
  | backToLoop (hphase : worker.phase = .testing)
      (htest : ¬(s.stopping = true ∧ s.tasks = [])) :
      WorkerStep s w worker (.testIdle w) (s.setWorker w { worker with phase := .loop })
  | exit (hphase : worker.phase = .leaving) :
      WorkerStep s w worker (.exit w) (s.setWorker w { worker with phase := .exited })
  | reuse {callback f : ℕ} (hphase : worker.phase = .wrapping callback)
      (hcb : worker.cbFiber = some f) (hterm : s.state f = .term) :
      WorkerStep s w worker (.wrap w) (s.wrapInto w worker callback f)
  | makeFiber {callback : ℕ} (hphase : worker.phase = .wrapping callback) :
      WorkerStep s w worker (.wrap w)
        (({ s with fiberCount := s.fiberCount + 1 } : BaseState).wrapInto w worker callback
          s.fiberCount)
  | resume {f : ℕ} {origin : Origin} (hphase : worker.phase = .holding f origin .taken)
      (hwaiting : (s.state f).Waiting) :
      WorkerStep s w worker (.resume w) (s.resume w worker f origin)
  | yieldToReady {f : ℕ} {origin : Origin} (hphase : worker.phase = .holding f origin .running) :
      WorkerStep s w worker (.yieldToReady w) (s.yieldToReady w worker f origin)
  | yieldToHold {f : ℕ} {origin : Origin} (hphase : worker.phase = .holding f origin .running) :
      WorkerStep s w worker (.yieldToHold w) (s.yieldToHold w worker f origin)
  | finish {f : ℕ} {origin : Origin} {threw : Bool}
      (hphase : worker.phase = .holding f origin .running) :
      WorkerStep s w worker (.finish w threw) (s.finish w worker f origin threw)
  | testState {f : ℕ} {origin : Origin} (hphase : worker.phase = .holding f origin .returned) :
      WorkerStep s w worker (.testState w) (s.testState w worker f origin)
  | requeue {f : ℕ} {origin : Origin} (hphase : worker.phase = .requeueing f origin) :
      WorkerStep s w worker (.requeue w) (s.requeue w worker f origin)

/-- The steps. -/
inductive Step (s : BaseState) : BaseAction → BaseState → Prop
  | start (hstarted : s.started = false) : Step s .start { s with started := true, stopping := false }
  | schedule {work : NewWork} {threadId : Option ℕ} (hvalid : work.Valid) :
      Step s (.schedule work threadId) (s.schedule work threadId)
  | scheduleBatch {works : List NewWork} (hvalid : ∀ work ∈ works, work.Valid) :
      Step s (.scheduleBatch works) (s.scheduleBatch works)
  | stop : Step s .stop { s with stopping := true }
  | worker {w : ℕ} {worker : BaseWorker} {action : BaseAction} {s' : BaseState}
      (hworker : s.workers[w]? = some worker) (hstep : WorkerStep s w worker action s') :
      Step s action s'

variable {s s' : BaseState} {w : ℕ} {worker : BaseWorker} {action : BaseAction}

/-- The branches of `getNextTask`. -/
theorem step_takeNext (hphase : worker.phase = .loop) :
    WorkerStep s w worker (.getNextTask w) (s.takeNext w worker) := by
  unfold takeNext
  split
  · next hnext => exact .goIdle hphase hnext
  · next task rest hnext =>
    obtain ⟨work, threadId⟩ := task
    cases work with
    | fiber f => exact .takeFiber hphase hnext
    | callback callback => exact .takeCallback hphase hnext

/-- The branches of the test of `idle`. -/
theorem step_testIdle (hphase : worker.phase = .testing) :
    WorkerStep s w worker (.testIdle w) (s.testIdle w worker) := by
  unfold testIdle
  split
  · next htest => exact .leave hphase htest.1 htest.2
  · next htest => exact .backToLoop hphase htest

/-- The branches of wrapping a function. -/
theorem step_wrap {callback : ℕ} (hphase : worker.phase = .wrapping callback) :
    WorkerStep s w worker (.wrap w) (s.wrap w worker callback) := by
  unfold wrap
  split
  · next f hfilter =>
    rw [Option.filter_eq_some_iff] at hfilter
    exact .reuse hphase hfilter.1 (of_decide_eq_true hfilter.2)
  · exact .makeFiber hphase

/-- The branches of a worker. -/
theorem step_onWorker (hself : action.worker = some w)
    (h : s.onWorker w worker action = some s') : WorkerStep s w worker action s' := by
  unfold onWorker at h
  split at h
  · next hphase =>
    obtain rfl := Option.some_inj.mp hself
    split at h
    · next hstarted =>
      obtain rfl := Option.some_inj.mp h
      exact .enter hphase hstarted
    · exact absurd h (by simp)
  · next hphase =>
    obtain rfl := Option.some_inj.mp hself
    obtain rfl := Option.some_inj.mp h
    exact step_takeNext hphase
  · next hphase =>
    obtain rfl := Option.some_inj.mp hself
    split at h
    · next hready =>
      obtain rfl := Option.some_inj.mp h
      exact .wake hphase hready
    · exact absurd h (by simp)
  · next hphase =>
    obtain rfl := Option.some_inj.mp hself
    obtain rfl := Option.some_inj.mp h
    exact step_testIdle hphase
  · next hphase =>
    obtain rfl := Option.some_inj.mp hself
    obtain rfl := Option.some_inj.mp h
    exact .exit hphase
  · next hphase =>
    obtain rfl := Option.some_inj.mp hself
    obtain rfl := Option.some_inj.mp h
    exact step_wrap hphase
  · next hphase =>
    obtain rfl := Option.some_inj.mp hself
    split at h
    · next hwaiting =>
      obtain rfl := Option.some_inj.mp h
      exact .resume hphase hwaiting
    · exact absurd h (by simp)
  · next hphase =>
    obtain rfl := Option.some_inj.mp hself
    obtain rfl := Option.some_inj.mp h
    exact .yieldToReady hphase
  · next hphase =>
    obtain rfl := Option.some_inj.mp hself
    obtain rfl := Option.some_inj.mp h
    exact .yieldToHold hphase
  · next hphase =>
    obtain rfl := Option.some_inj.mp hself
    obtain rfl := Option.some_inj.mp h
    exact .finish hphase
  · next hphase =>
    obtain rfl := Option.some_inj.mp hself
    obtain rfl := Option.some_inj.mp h
    exact .testState hphase
  · next hphase =>
    obtain rfl := Option.some_inj.mp hself
    obtain rfl := Option.some_inj.mp h
    exact .requeue hphase
  · exact absurd h (by simp)

/-- **Inversion**: a step is one of the branches. -/
theorem step_cases (h : s.step action = some s') : Step s action s' := by
  unfold step at h
  split at h
  · split at h
    · exact absurd h (by simp)
    · next hstarted =>
      obtain rfl := Option.some_inj.mp h
      exact .start (Bool.eq_false_iff.mpr hstarted)
  · split at h
    · next hvalid =>
      obtain rfl := Option.some_inj.mp h
      exact .schedule hvalid
    · exact absurd h (by simp)
  · split at h
    · next hvalid =>
      obtain rfl := Option.some_inj.mp h
      exact .scheduleBatch hvalid
    · exact absurd h (by simp)
  · obtain rfl := Option.some_inj.mp h
    exact .stop
  · obtain ⟨w, hself, hw⟩ := Option.bind_eq_some_iff.mp h
    obtain ⟨worker, hworker, hstep⟩ := Option.bind_eq_some_iff.mp hw
    exact .worker hworker (step_onWorker hself hstep)

end BaseState

end Scheduler

/-
Workers that run fibers.

The loop of `Scheduler::run` on any number of workers, with `resume` and `yield_to`
split at their writes and switches, is one system with the calls of `schedule` and
with the events that detach a waiting fiber and queue it.  A fiber runs any program:
it may register itself, yield, throw or end at any time.  `readySuspensions` and
`readyEntries` record what the third property is about.

* `Step`, `step_cases` — everything that one step can do;
* `Known`, `known_of_reachable` — no fiber is named before it is made.
-/
import Droplet.Scheduler.FdContext
import Droplet.Lib.Transition

open Transition Transition.System

namespace Scheduler

/-! ### The loop of a worker -/

/-- How a worker came to the fiber: as a task with its `thread_id`, or by wrapping a
function into its `cb_fiber`. -/
inductive Origin
  | task (threadId : Option ℕ)
  | cbFiber
  deriving DecidableEq

/-- Where a worker is between `getNextTask` and its test of the state after
`resume`.  `left` is the state in which the fiber left its stack, `point` the
suspension point that it left there. -/
inductive ResumeStep
  | taken
  | switching
  | running
  | leaving (left : Fiber.State)
  | returned (point : ℕ) (left : Fiber.State)
  | stored (point : ℕ) (left : Fiber.State)
  deriving DecidableEq

/-- Where a worker is in `run`. -/
inductive Phase
  | loop
  | idle
  | wrapping (callback : ℕ)
  | holding (fiber : ℕ) (origin : Origin) (step : ResumeStep)
  | requeueing (fiber : ℕ) (origin : Origin) (point : ℕ)
  | exited
  deriving DecidableEq

/-- A suspension of a fiber, by the suspension point it makes. -/
structure Suspension where
  fiber : ℕ
  point : ℕ
  deriving DecidableEq

namespace Phase

/-- The fiber on whose stack the worker executes. -/
def onStack : Phase → Option ℕ
  | .holding f _ .running => some f
  | .holding f _ (.leaving _) => some f
  | _ => none

/-- The fiber that the worker has begun to resume and whose state it has not tested
since. -/
def resumed : Phase → Option ℕ
  | .holding _ _ .taken => none
  | .holding f _ _ => some f
  | _ => none

/-- The suspension as `READY` that the worker has still to queue. -/
def owed : Phase → Option Suspension
  | .holding f _ (.returned point .ready) => some ⟨f, point⟩
  | .holding f _ (.stored point .ready) => some ⟨f, point⟩
  | .requeueing f _ point => some ⟨f, point⟩
  | _ => none

/-- The fiber in the hands of the worker. -/
def held : Phase → Option ℕ
  | .holding f _ _ => some f
  | .requeueing f _ _ => some f
  | _ => none

/-- The worker is resuming its `cb_fiber`. -/
def OnCbFiber (phase : Phase) (f : ℕ) : Prop := ∃ step, phase = .holding f .cbFiber step

end Phase

/-- The workers of a scheduler, the task queue and the event table.  Handlers that a
call has detached and has still to schedule are in `triggered`. -/
structure RunState (n : ℕ) where
  tasks : List ScheduleTask
  fibers : ℕ → Fiber
  fiberCount : ℕ
  contexts : ℕ → FdContext
  triggered : List Work
  phase : Fin n → Phase
  cbFiber : Fin n → Option ℕ
  readySuspensions : List Suspension
  readyEntries : List Suspension

/-- One atomic step of a worker or of another thread. -/
inductive RunAction (n : ℕ)
  | create
  | schedule (task : ScheduleTask)
  | cancelEvent (fd : ℕ) (mask : EventMask) (epollCtl : Bool)
  | processEvent (fd : ℕ) (ready : EventMask)
  | trigger (index : ℕ)
  | getNextTask (w : Fin n)
  | leaveIdle (w : Fin n) (terminated : Bool)
  | wrap (w : Fin n)
  | beginResume (w : Fin n)
  | switchIn (w : Fin n)
  | addEvent (w : Fin n) (fd : ℕ) (event : Event) (epollCtl : Bool)
  | yieldTo (w : Fin n) (ready : Bool)
  | finish (w : Fin n) (threw : Bool)
  | switchOut (w : Fin n)
  | storeContext (w : Fin n)
  | testState (w : Fin n)
  | requeue (w : Fin n)
  deriving DecidableEq

/-- The worker that makes the step, if it is one of `run`. -/
def RunAction.worker {n : ℕ} : RunAction n → Option (Fin n)
  | .getNextTask w | .leaveIdle w _ | .wrap w | .beginResume w | .switchIn w | .addEvent w _ _ _
  | .yieldTo w _ | .finish w _ | .switchOut w | .storeContext w | .testState w | .requeue w =>
    some w
  | _ => none

namespace RunState

variable {n : ℕ}

/-- Workers at the top of their loops; a fiber that does not exist yet is as
`Fiber::Create` will make it. -/
def start (n : ℕ) : RunState n where
  tasks := []
  fibers := fun _ => Fiber.create
  fiberCount := 0
  contexts := fun _ => FdContext.new
  triggered := []
  phase := fun _ => .loop
  cbFiber := fun _ => none
  readySuspensions := []
  readyEntries := []

/-- The fiber of a task exists. -/
def Created (s : RunState n) (work : Work) : Prop := ∀ f, work = .fiber f → f < s.fiberCount

instance (s : RunState n) (work : Work) : Decidable (s.Created work) :=
  match work with
  | .fiber f => decidable_of_iff (f < s.fiberCount)
      ⟨fun h _ hf => Work.fiber.inj hf ▸ h, fun h => h f rfl⟩
  | .callback _ => .isTrue fun _ h => Work.noConfusion h

def setPhase (s : RunState n) (w : Fin n) (phase : Phase) : RunState n :=
  { s with phase := Function.update s.phase w phase }

def setFiber (s : RunState n) (f : ℕ) (fiber : Fiber) : RunState n :=
  { s with fibers := Function.update s.fibers f fiber }

def setContext (s : RunState n) (fd : ℕ) (context : FdContext) : RunState n :=
  { s with contexts := Function.update s.contexts fd context }

def setCbFiber (s : RunState n) (w : Fin n) (cbFiber : Option ℕ) : RunState n :=
  { s with cbFiber := Function.update s.cbFiber w cbFiber }

/-- `Fiber::Create`; the new fiber is that with the number `fiberCount`. -/
def createFiber (s : RunState n) : RunState n := { s with fiberCount := s.fiberCount + 1 }

/-- The locked part of `schedule`. -/
def push (s : RunState n) (task : ScheduleTask) : RunState n :=
  { s with tasks := s.tasks ++ [task] }

/-- `getNextTask`, and what `run` does with its result. -/
def takeNext (s : RunState n) (w : Fin n) : RunState n :=
  match Scheduler.getNextTask (fun f => (s.fibers f).state) w s.tasks with
  | none => s.setPhase w .idle
  | some (task, rest) =>
    ({ s with tasks := rest } : RunState n).setPhase w
      (match task.work with
        | .fiber f => .holding f (.task task.threadId) .taken
        | .callback callback => .wrapping callback)

/-- Reuse of `cb_fiber`, or a new fiber in its place. -/
def wrap (s : RunState n) (w : Fin n) : RunState n :=
  match (s.cbFiber w).filter fun f => (s.fibers f).state = .term with
  | some f => (s.setFiber f (s.fibers f).reset).setPhase w (.holding f .cbFiber .taken)
  | none =>
    (s.createFiber.setCbFiber w (some s.fiberCount)).setPhase w
      (.holding s.fiberCount .cbFiber .taken)

/-- The test of the state after `resume`.  A `READY` fiber is moved into the call of
`schedule`, so that `cb_fiber` is empty from then on. -/
def testState (s : RunState n) (w : Fin n) (f : ℕ) (origin : Origin) (point : ℕ) : RunState n :=
  let cbFiber := match origin with
    | .task _ => s.cbFiber w
    | .cbFiber =>
      if (s.fibers f).state = .ready ∨ (s.fibers f).state = .hold then none else s.cbFiber w
  (s.setCbFiber w cbFiber).setPhase w
    (if (s.fibers f).state = .ready then .requeueing f origin point else .loop)

/-- The call of `schedule` for a fiber that is `READY`. -/
def requeue (s : RunState n) (w : Fin n) (f : ℕ) (origin : Origin) (point : ℕ) : RunState n :=
  let threadId := match origin with
    | .task threadId => threadId
    | .cbFiber => none
  { (s.push ⟨.fiber f, threadId⟩).setPhase w .loop with
    readyEntries := s.readyEntries ++ [⟨f, point⟩] }

/-- The switch from the stack of the fiber back to `resume`. -/
def switchOut (s : RunState n) (w : Fin n) (f : ℕ) (origin : Origin) (left : Fiber.State) :
    RunState n :=
  let point := (s.fibers f).point + 1
  let suspensions :=
    if left = .ready then s.readySuspensions ++ [⟨f, point⟩] else s.readySuspensions
  (({ s with readySuspensions := suspensions } : RunState n).setFiber f
    (s.fibers f).suspend).setPhase w (.holding f origin (.returned point left))

/-- The steps of a worker that has a fiber in its hands. -/
def onHeld (s : RunState n) (w : Fin n) (f : ℕ) (origin : Origin) :
    ResumeStep → RunAction n → Option (RunState n)
  | .taken, .beginResume _ =>
    -- the stack of an ended fiber leads to `abort`
    if (s.fibers f).Resumable then
      some ((s.setFiber f (s.fibers f).beginResume).setPhase w (.holding f origin .switching))
    else none
  | .switching, .switchIn _ => some (s.setPhase w (.holding f origin .running))
  | .running, .addEvent _ fd event epollCtl =>
    ((s.contexts fd).addEvent event (.fiber f) epollCtl).map (s.setContext fd)
  | .running, .yieldTo _ ready =>
    let left := if ready then .ready else .hold
    some ((s.setFiber f ((s.fibers f).beginYield left)).setPhase w
      (.holding f origin (.leaving left)))
  | .running, .finish _ threw =>
    let fiber := (s.fibers f).finish threw
    some ((s.setFiber f fiber).setPhase w (.holding f origin (.leaving fiber.state)))
  | .leaving left, .switchOut _ => some (s.switchOut w f origin left)
  | .returned point left, .storeContext _ =>
    some ((s.setFiber f ((s.fibers f).storeContext point)).setPhase w
      (.holding f origin (.stored point left)))
  | .stored point _, .testState _ => some (s.testState w f origin point)
  | _, _ => none

/-- The steps of a worker. -/
def onWorker (s : RunState n) (w : Fin n) (action : RunAction n) : Option (RunState n) :=
  match s.phase w, action with
  | .loop, .getNextTask _ => some (s.takeNext w)
  | .idle, .leaveIdle _ terminated => some (s.setPhase w (if terminated then .exited else .loop))
  | .wrapping _, .wrap _ => some (s.wrap w)
  | .holding f origin step, action => s.onHeld w f origin step action
  | .requeueing f origin point, .requeue _ => some (s.requeue w f origin point)
  | _, _ => none

/-- Handlers are detached from a context, to be scheduled later. -/
def detach (s : RunState n) (fd : ℕ) (result : FdContext × List Work) : RunState n :=
  { s.setContext fd result.1 with triggered := s.triggered ++ result.2 }

def step (s : RunState n) (action : RunAction n) : Option (RunState n) :=
  match action with
  | .create => some s.createFiber
  | .schedule task => if s.Created task.work then some (s.push task) else none
  | .cancelEvent fd mask epollCtl =>
    ((s.contexts fd).cancelEvent mask epollCtl).map (s.detach fd)
  | .processEvent fd ready => ((s.contexts fd).processEvent ready).map (s.detach fd)
  | .trigger index =>
    s.triggered[index]?.map fun work =>
      { s.push ⟨work, none⟩ with triggered := s.triggered.eraseIdx index }
  | action => action.worker.bind fun w => s.onWorker w action

/-- All interleavings of `n` workers with the other threads. -/
def system (n : ℕ) : System (RunState n) (RunAction n) where
  init s := s = start n
  step := step

section fields

variable (s : RunState n)

@[simp] theorem setPhase_phase (w : Fin n) (phase : Phase) :
    (s.setPhase w phase).phase = Function.update s.phase w phase := rfl
@[simp] theorem setFiber_fibers (f : ℕ) (fiber : Fiber) :
    (s.setFiber f fiber).fibers = Function.update s.fibers f fiber := rfl
@[simp] theorem setCbFiber_cbFiber (w : Fin n) (cbFiber : Option ℕ) :
    (s.setCbFiber w cbFiber).cbFiber = Function.update s.cbFiber w cbFiber := rfl
@[simp] theorem setContext_contexts (fd : ℕ) (context : FdContext) :
    (s.setContext fd context).contexts = Function.update s.contexts fd context := rfl
@[simp] theorem detach_contexts (fd : ℕ) (result : FdContext × List Work) :
    (s.detach fd result).contexts = Function.update s.contexts fd result.1 := rfl

end fields

/-! ### What a step can do -/

/-- The steps, one constructor for each branch. -/
inductive Step (s : RunState n) : RunAction n → RunState n → Prop
  | create : Step s .create s.createFiber
  | schedule {task : ScheduleTask} (hcreated : s.Created task.work) :
      Step s (.schedule task) (s.push task)
  | cancelEvent {fd : ℕ} {mask : EventMask} {epollCtl : Bool} {result : FdContext × List Work}
      (hdetach : (s.contexts fd).detach mask = result) :
      Step s (.cancelEvent fd mask epollCtl) (s.detach fd result)
  | processEvent {fd : ℕ} {ready : EventMask} {result : FdContext × List Work}
      (hdetach : (s.contexts fd).detach ready = result) :
      Step s (.processEvent fd ready) (s.detach fd result)
  | trigger {index : ℕ} {work : Work} (hwork : s.triggered[index]? = some work) :
      Step s (.trigger index)
        { s.push ⟨work, none⟩ with triggered := s.triggered.eraseIdx index }
  | goIdle {w : Fin n} (hphase : s.phase w = .loop) : Step s (.getNextTask w) (s.setPhase w .idle)
  | takeFiber {w : Fin n} {f : ℕ} {threadId : Option ℕ} {rest : List ScheduleTask}
      (hphase : s.phase w = .loop)
      (hnext : Scheduler.getNextTask (fun f => (s.fibers f).state) w s.tasks =
        some (⟨.fiber f, threadId⟩, rest)) :
      Step s (.getNextTask w)
        (({ s with tasks := rest } : RunState n).setPhase w (.holding f (.task threadId) .taken))
  | takeCallback {w : Fin n} {callback : ℕ} {threadId : Option ℕ} {rest : List ScheduleTask}
      (hphase : s.phase w = .loop)
      (hnext : Scheduler.getNextTask (fun f => (s.fibers f).state) w s.tasks =
        some (⟨.callback callback, threadId⟩, rest)) :
      Step s (.getNextTask w)
        (({ s with tasks := rest } : RunState n).setPhase w (.wrapping callback))
  | leaveIdle {w : Fin n} {terminated : Bool} (hphase : s.phase w = .idle) :
      Step s (.leaveIdle w terminated) (s.setPhase w (if terminated then .exited else .loop))
  | reuse {w : Fin n} {callback f : ℕ} (hphase : s.phase w = .wrapping callback)
      (hcb : s.cbFiber w = some f) (hterm : (s.fibers f).state = .term) :
      Step s (.wrap w)
        ((s.setFiber f (s.fibers f).reset).setPhase w (.holding f .cbFiber .taken))
  | makeFiber {w : Fin n} {callback : ℕ} (hphase : s.phase w = .wrapping callback) :
      Step s (.wrap w)
        ((s.createFiber.setCbFiber w (some s.fiberCount)).setPhase w
          (.holding s.fiberCount .cbFiber .taken))
  | beginResume {w : Fin n} {f : ℕ} {origin : Origin}
      (hphase : s.phase w = .holding f origin .taken) (hresumable : (s.fibers f).Resumable) :
      Step s (.beginResume w)
        ((s.setFiber f (s.fibers f).beginResume).setPhase w (.holding f origin .switching))
  | switchIn {w : Fin n} {f : ℕ} {origin : Origin}
      (hphase : s.phase w = .holding f origin .switching) :
      Step s (.switchIn w) (s.setPhase w (.holding f origin .running))
  | addEvent {w : Fin n} {f : ℕ} {origin : Origin} {fd : ℕ} {event : Event} {epollCtl : Bool}
      (hphase : s.phase w = .holding f origin .running) :
      Step s (.addEvent w fd event epollCtl)
        (s.setContext fd ((s.contexts fd).attach event (.fiber f)))
  | yieldTo {w : Fin n} {f : ℕ} {origin : Origin} {ready : Bool}
      (hphase : s.phase w = .holding f origin .running) :
      Step s (.yieldTo w ready)
        ((s.setFiber f ((s.fibers f).beginYield (if ready then .ready else .hold))).setPhase w
          (.holding f origin (.leaving (if ready then .ready else .hold))))
  | finish {w : Fin n} {f : ℕ} {origin : Origin} {threw : Bool}
      (hphase : s.phase w = .holding f origin .running) :
      Step s (.finish w threw)
        ((s.setFiber f ((s.fibers f).finish threw)).setPhase w
          (.holding f origin (.leaving ((s.fibers f).finish threw).state)))
  | switchOut {w : Fin n} {f : ℕ} {origin : Origin} {left : Fiber.State}
      (hphase : s.phase w = .holding f origin (.leaving left)) :
      Step s (.switchOut w) (s.switchOut w f origin left)
  | storeContext {w : Fin n} {f : ℕ} {origin : Origin} {point : ℕ} {left : Fiber.State}
      (hphase : s.phase w = .holding f origin (.returned point left)) :
      Step s (.storeContext w)
        ((s.setFiber f ((s.fibers f).storeContext point)).setPhase w
          (.holding f origin (.stored point left)))
  | testState {w : Fin n} {f : ℕ} {origin : Origin} {point : ℕ} {left : Fiber.State}
      (hphase : s.phase w = .holding f origin (.stored point left)) :
      Step s (.testState w) (s.testState w f origin point)
  | requeue {w : Fin n} {f : ℕ} {origin : Origin} {point : ℕ}
      (hphase : s.phase w = .requeueing f origin point) :
      Step s (.requeue w) (s.requeue w f origin point)

variable {s s' : RunState n} {w : Fin n} {action : RunAction n}

/-- The branches of `getNextTask`. -/
theorem step_takeNext (hphase : s.phase w = .loop) : Step s (.getNextTask w) (s.takeNext w) := by
  unfold takeNext
  split
  · exact .goIdle hphase
  · next task rest hnext =>
    obtain ⟨work, threadId⟩ := task
    cases work with
    | fiber f => exact .takeFiber hphase hnext
    | callback callback => exact .takeCallback hphase hnext

/-- The branches of wrapping a function. -/
theorem step_wrap {callback : ℕ} (hphase : s.phase w = .wrapping callback) :
    Step s (.wrap w) (s.wrap w) := by
  unfold wrap
  split
  · next f hfilter =>
    rw [Option.filter_eq_some_iff] at hfilter
    exact .reuse hphase hfilter.1 (of_decide_eq_true hfilter.2)
  · exact .makeFiber hphase

/-- The branches of a worker that has a fiber in its hands. -/
theorem step_onHeld {f : ℕ} {origin : Origin} {step : ResumeStep}
    (hphase : s.phase w = .holding f origin step) (hworker : action.worker = some w)
    (h : s.onHeld w f origin step action = some s') : Step s action s' := by
  unfold onHeld at h
  split at h
  · obtain rfl := Option.some_inj.mp hworker
    split at h
    · next hresumable =>
      obtain rfl := Option.some_inj.mp h
      exact .beginResume hphase hresumable
    · exact absurd h (by simp)
  · obtain rfl := Option.some_inj.mp hworker
    obtain rfl := Option.some_inj.mp h
    exact .switchIn hphase
  · obtain rfl := Option.some_inj.mp hworker
    obtain ⟨c, hc, rfl⟩ := Option.map_eq_some_iff.mp h
    obtain ⟨-, -, rfl⟩ := FdContext.addEvent_eq_some_iff.mp hc
    exact .addEvent hphase
  · obtain rfl := Option.some_inj.mp hworker
    obtain rfl := Option.some_inj.mp h
    exact .yieldTo hphase
  · obtain rfl := Option.some_inj.mp hworker
    obtain rfl := Option.some_inj.mp h
    exact .finish hphase
  · obtain rfl := Option.some_inj.mp hworker
    obtain rfl := Option.some_inj.mp h
    exact .switchOut hphase
  · obtain rfl := Option.some_inj.mp hworker
    obtain rfl := Option.some_inj.mp h
    exact .storeContext hphase
  · obtain rfl := Option.some_inj.mp hworker
    obtain rfl := Option.some_inj.mp h
    exact .testState hphase
  · exact absurd h (by simp)

/-- The branches of a worker. -/
theorem step_onWorker (hworker : action.worker = some w) (h : s.onWorker w action = some s') :
    Step s action s' := by
  unfold onWorker at h
  split at h
  · next hphase =>
    obtain rfl := Option.some_inj.mp hworker
    obtain rfl := Option.some_inj.mp h
    exact step_takeNext hphase
  · next hphase =>
    obtain rfl := Option.some_inj.mp hworker
    obtain rfl := Option.some_inj.mp h
    exact .leaveIdle hphase
  · next hphase =>
    obtain rfl := Option.some_inj.mp hworker
    obtain rfl := Option.some_inj.mp h
    exact step_wrap hphase
  · next hphase => exact step_onHeld hphase hworker h
  · next hphase =>
    obtain rfl := Option.some_inj.mp hworker
    obtain rfl := Option.some_inj.mp h
    exact .requeue hphase
  · exact absurd h (by simp)

/-- **Inversion**: a step is one of the branches. -/
theorem step_cases (h : s.step action = some s') : Step s action s' := by
  unfold step at h
  split at h
  · obtain rfl := Option.some_inj.mp h
    exact .create
  · split at h
    · next hcreated =>
      obtain rfl := Option.some_inj.mp h
      exact .schedule hcreated
    · exact absurd h (by simp)
  · obtain ⟨result, hresult, rfl⟩ := Option.map_eq_some_iff.mp h
    exact .cancelEvent (FdContext.cancelEvent_eq_some_iff.mp hresult).2.2
  · obtain ⟨result, hresult, rfl⟩ := Option.map_eq_some_iff.mp h
    exact .processEvent (FdContext.processEvent_eq_some_iff.mp hresult).2
  · obtain ⟨work, hwork, rfl⟩ := Option.map_eq_some_iff.mp h
    exact .trigger hwork
  · obtain ⟨w, hworker, hw⟩ := Option.bind_eq_some_iff.mp h
    exact step_onWorker hworker hw

/-! ### Fibers are made before they are named -/

/-- Every fiber that something names exists. -/
structure Known (s : RunState n) : Prop where
  tasks : ∀ task ∈ s.tasks, s.Created task.work
  registered : ∀ fd, ∀ work ∈ (s.contexts fd).handlers, s.Created work
  triggered : ∀ work ∈ s.triggered, s.Created work
  held : ∀ w f, (s.phase w).held = some f → f < s.fiberCount
  cbFiber : ∀ w f, s.cbFiber w = some f → f < s.fiberCount
  untouched : ∀ f, s.fiberCount ≤ f → s.fibers f = Fiber.create

theorem known_start : (start n).Known where
  tasks := fun _ hmem => absurd hmem List.not_mem_nil
  registered := fun _ _ hmem => absurd hmem List.not_mem_nil
  triggered := fun _ hmem => absurd hmem List.not_mem_nil
  held := fun _ _ h => absurd h (by simp [start, Phase.held])
  cbFiber := fun _ _ h => absurd h (by simp [start])
  untouched := fun _ _ => rfl

theorem Created.mono {work : Work} (h : s.Created work) (hcount : s.fiberCount ≤ s'.fiberCount) :
    s'.Created work :=
  fun f hf => Nat.lt_of_lt_of_le (h f hf) hcount

namespace Known

variable {f : ℕ}

/-- A worker takes up a known fiber, or puts its fiber down. -/
theorem setPhase (h : s.Known) {phase : Phase}
    (hheld : ∀ f, phase.held = some f → f < s.fiberCount) : (s.setPhase w phase).Known := by
  refine { h with held := fun w' f hf => ?_ }
  by_cases hw : w' = w
  · subst hw
    rw [setPhase_phase, Function.update_self] at hf
    exact hheld f hf
  · rw [setPhase_phase, Function.update_of_ne hw] at hf
    exact h.held w' f hf

/-- Only fibers that exist are written to. -/
theorem setFiber (h : s.Known) {fiber : Fiber} (hf : f < s.fiberCount) :
    (s.setFiber f fiber).Known := by
  refine { h with untouched := fun f' hf' => ?_ }
  have hne : f' ≠ f := fun heq => absurd hf (Nat.not_lt.mpr (heq ▸ hf'))
  exact (Function.update_of_ne hne _ _).trans (h.untouched f' hf')

/-- A worker changes its `cb_fiber` to a known one, or to none. -/
theorem setCbFiber (h : s.Known) {cbFiber : Option ℕ}
    (hcb : ∀ f, cbFiber = some f → f < s.fiberCount) : (s.setCbFiber w cbFiber).Known := by
  refine { h with cbFiber := fun w' f hf => ?_ }
  by_cases hw : w' = w
  · subst hw
    rw [setCbFiber_cbFiber, Function.update_self] at hf
    exact hcb f hf
  · rw [setCbFiber_cbFiber, Function.update_of_ne hw] at hf
    exact h.cbFiber w' f hf

theorem createFiber (h : s.Known) : s.createFiber.Known := by
  have hcount : s.fiberCount ≤ s.createFiber.fiberCount := Nat.le_succ _
  exact {
    tasks := fun task hmem => (h.tasks task hmem).mono hcount
    registered := fun fd work hmem => (h.registered fd work hmem).mono hcount
    triggered := fun work hmem => (h.triggered work hmem).mono hcount
    held := fun w f hf => Nat.lt_of_lt_of_le (h.held w f hf) hcount
    cbFiber := fun w f hf => Nat.lt_of_lt_of_le (h.cbFiber w f hf) hcount
    untouched := fun f hf => h.untouched f (Nat.le_trans hcount hf) }

/-- The queue after `getNextTask`. -/
theorem setTasks (h : s.Known) {rest : List ScheduleTask}
    (hrest : ∀ task ∈ rest, task ∈ s.tasks) : ({ s with tasks := rest } : RunState n).Known :=
  { h with tasks := fun task hmem => h.tasks task (hrest task hmem) }

theorem push (h : s.Known) {task : ScheduleTask} (hcreated : s.Created task.work) :
    (s.push task).Known := by
  refine { h with tasks := fun other hmem => ?_ }
  rcases List.mem_append.mp hmem with hmem | hmem
  · exact h.tasks other hmem
  · exact List.mem_singleton.mp hmem ▸ hcreated

theorem detach (h : s.Known) {fd : ℕ} {mask : EventMask} {result : FdContext × List Work}
    (hdetach : (s.contexts fd).detach mask = result) : (s.detach fd result).Known := by
  obtain ⟨hstays, hgoes⟩ := FdContext.mem_handlers_detach hdetach
  refine { h with registered := fun fd' work hmem => ?_, triggered := fun work hmem => ?_ }
  · by_cases hfd : fd' = fd
    · subst hfd
      rw [detach_contexts, Function.update_self] at hmem
      exact h.registered fd' work (hstays work hmem)
    · rw [detach_contexts, Function.update_of_ne hfd] at hmem
      exact h.registered fd' work hmem
  · rcases List.mem_append.mp hmem with hmem | hmem
    · exact h.triggered work hmem
    · exact h.registered fd work (hgoes work hmem)

theorem attach (h : s.Known) {fd : ℕ} {event : Event} (hf : f < s.fiberCount) :
    (s.setContext fd ((s.contexts fd).attach event (.fiber f))).Known := by
  refine { h with registered := fun fd' work hmem => ?_ }
  by_cases hfd : fd' = fd
  · subst hfd
    rw [setContext_contexts, Function.update_self] at hmem
    rcases FdContext.mem_handlers_attach hmem with rfl | hmem
    · intro f' hf'
      exact Work.fiber.inj hf' ▸ hf
    · exact h.registered fd' work hmem
  · rw [setContext_contexts, Function.update_of_ne hfd] at hmem
    exact h.registered fd' work hmem

/-- The fiber of a worker that resumes it exists. -/
theorem lt_of_holding (h : s.Known) {origin : Origin} {step : ResumeStep}
    (hphase : s.phase w = .holding f origin step) : f < s.fiberCount :=
  h.held w f (by rw [hphase, Phase.held])

/-- A worker goes on with its fiber, and writes to nothing else. -/
theorem move (h : s.Known) {origin : Origin} {step step' : ResumeStep} {fiber : Fiber}
    (hphase : s.phase w = .holding f origin step) :
    ((s.setFiber f fiber).setPhase w (.holding f origin step')).Known := by
  refine (h.setFiber (h.lt_of_holding hphase)).setPhase fun f' hf' => ?_
  exact Option.some_inj.mp hf' ▸ h.lt_of_holding hphase

end Known

theorem known_of_step (h : s.Known) (hstep : Step s action s') : s'.Known := by
  cases hstep with
  | create => exact h.createFiber
  | schedule hcreated => exact h.push hcreated
  | cancelEvent hdetach => exact h.detach hdetach
  | processEvent hdetach => exact h.detach hdetach
  | trigger hwork =>
    have hmem := List.mem_of_getElem? hwork
    exact { h.push (h.triggered _ hmem) with
      triggered := fun work hwork => h.triggered work (List.mem_of_mem_eraseIdx hwork) }
  | goIdle hphase => exact h.setPhase fun f hf => absurd hf (by simp [Phase.held])
  | takeFiber hphase hnext =>
    refine (h.setTasks fun _ => mem_of_getNextTask hnext).setPhase fun f hf => ?_
    exact h.tasks _ (getNextTask_eq_some hnext).1 f (congrArg Work.fiber (Option.some_inj.mp hf))
  | takeCallback hphase hnext =>
    refine (h.setTasks fun _ => mem_of_getNextTask hnext).setPhase fun f hf => ?_
    exact absurd hf (by simp [Phase.held])
  | @leaveIdle w terminated hphase =>
    refine h.setPhase fun f hf => absurd hf ?_
    cases terminated with
    | false => simp [Phase.held]
    | true => simp [Phase.held]
  | @reuse w callback f hphase hcb hterm =>
    have hf := h.cbFiber _ f hcb
    exact (h.setFiber hf).setPhase fun f' hf' => Option.some_inj.mp hf' ▸ hf
  | @makeFiber w callback hphase =>
    refine (h.createFiber.setCbFiber fun f hf => ?_).setPhase fun f hf => ?_
    · exact Option.some_inj.mp hf ▸ Nat.lt_succ_self _
    · exact Option.some_inj.mp hf ▸ Nat.lt_succ_self _
  | beginResume hphase hresumable => exact h.move hphase
  | switchIn hphase =>
    exact h.setPhase fun f hf => Option.some_inj.mp hf ▸ h.lt_of_holding hphase
  | addEvent hphase => exact h.attach (h.lt_of_holding hphase)
  | yieldTo hphase => exact h.move hphase
  | finish hphase => exact h.move hphase
  | switchOut hphase => exact { h.move hphase with }
  | storeContext hphase => exact h.move hphase
  | @testState w f origin point left hphase =>
    refine (h.setCbFiber fun f' hf' => ?_).setPhase fun f' hf' => ?_
    · cases origin with
      | task => exact h.cbFiber w f' hf'
      | cbFiber =>
        exact h.cbFiber w f' (Option.ite_none_left_eq_some.mp hf').2
    · split at hf'
      · exact Option.some_inj.mp hf' ▸ h.lt_of_holding hphase
      · exact absurd hf' (by simp [Phase.held])
  | @requeue w f origin point hphase =>
    have hf : f < s.fiberCount := h.held w f (by rw [hphase, Phase.held])
    have hcreated : ∀ threadId, s.Created (ScheduleTask.mk (.fiber f) threadId).work := by
      intro threadId f' hf'
      exact Work.fiber.inj hf' ▸ hf
    exact { (h.push (hcreated _)).setPhase fun f' hf' => absurd hf' (by simp [Phase.held]) with }

/-- No fiber is named before it is made. -/
theorem known_of_reachable {C : RunState n → RunAction n → Prop}
    (h : (system n).ReachableWhile C s) : s.Known := by
  refine h.invariant ?_ fun s action s' hknown _ hstep => ?_
  · rintro s rfl
    exact known_start
  · exact known_of_step hknown (step_cases hstep)

end RunState

end Scheduler

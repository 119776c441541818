/-
Who owns a fiber.

An `IOManager` with its workers, its event table and its timers, and the references to
fibers that they have: tasks, handlers, handlers that were detached and callbacks that
expired, timers, the local variables of `run`, the current fiber of a thread and what
users hold.  Functions are named by numbers; `wakes` gives the fiber that a function has
captured and calls `schedule` for, as the callback of a hooked `sleep` does for the fiber
that waits.  It has its reference until then, from the fiber into which it was wrapped
(`pending`).

A fiber that yields has one more owner: `yield_to` holds the current fiber in `curr`, in
its frame on the stack of that fiber, until the jump returns.  `frames` counts these
references; a jump to the context that `make_fcontext` made (`entry`) returns from none.
The idle fiber of a worker is a local variable of `run`, which returns only after it has
ended.  `idle` may end at any time here, since `epoll_wait` may fail.

* `ownsItself_of_step`, `secure_of_step` — what one step does to the owners of a fiber;
* `suspended_owned` — a suspended fiber always owns itself, and of the other owners only
  `delEvent`, `Timer::cancel` and the destructor can take the last;
* `not_referenced` — `delEvent` takes the last one of a function task that waits.
-/
import Droplet.Scheduler.Run

open Transition Transition.System

namespace Scheduler

/-- The fiber that a task or a handler has a reference to. -/
def Work.named (wakes : ℕ → Option ℕ) : Work → Option ℕ
  | .fiber f => some f
  | .callback c => wakes c

namespace Phase

/-- The fibers that a worker is going to resume, to queue again or to schedule. -/
def carries (wakes pending : ℕ → Option ℕ) : Phase → List ℕ
  | .wrapping callback => (wakes callback).toList
  | .holding f _ .taken => f :: (pending f).toList
  | .holding f _ .switching => (pending f).toList
  | .holding f _ .running => (pending f).toList
  | .requeueing f _ _ => [f]
  | _ => []

/-- The fiber that has left the worker, which will test its state. -/
def returning : Phase → Option ℕ
  | .holding f _ (.leaving _) => some f
  | .holding f _ (.returned _ _) => some f
  | .holding f _ (.stored _ _) => some f
  | _ => none

end Phase

/-- A timer in the set of the manager; `handle` tells whether the caller of `addTimer`
has kept the pointer. -/
structure OwnedTimer where
  callback : ℕ
  recurring : Bool
  handle : Bool
  deriving DecidableEq

/-- The manager and the references to fibers.  `user` counts those that users hold. -/
structure ManagerState (n : ℕ) where
  run : RunState n
  fdCount : ℕ
  timers : List OwnedTimer
  pending : ℕ → Option ℕ
  user : ℕ → ℕ
  entry : ℕ → ℕ
  frames : ℕ → ℕ
  stopping : Bool
  destroyed : Bool

/-- One atomic step of a worker, of a running fiber or of another thread. -/
inductive ManagerAction (n : ℕ)
  | run (action : RunAction n)
  | listen (fd : ℕ) (event : Event) (callback : ℕ) (epollCtl : Bool)
  | delEvent (fd : ℕ) (mask : EventMask) (epollCtl : Bool)
  | sleep (w : Fin n) (callback : ℕ)
  | addTimer (callback : ℕ) (recurring : Bool)
  | expire (index : ℕ)
  | cancelTimer (index : ℕ)
  | callSchedule (w : Fin n)
  | acquire (f : ℕ)
  | release (f : ℕ)
  | stop
  | destroy
  deriving DecidableEq

namespace ManagerState

variable {n : ℕ}

/-- No task, no timer and nothing registered. -/
def start (n : ℕ) : ManagerState n where
  run := RunState.start n
  fdCount := 0
  timers := []
  pending := fun _ => none
  user := fun _ => 0
  entry := fun _ => Fiber.create.ctx
  frames := fun _ => 0
  stopping := false
  destroyed := false

/-! ### Owners -/

/-- The fiber has yielded and not been resumed since; `~Fiber` asserts that it is not
called then. -/
def Suspended (s : ManagerState n) (f : ℕ) : Prop :=
  (s.run.fibers f).state = .hold ∨ (s.run.fibers f).state = .ready

/-- The frame of `yield_to` on the stack of the fiber refers to the fiber. -/
def OwnsItself (s : ManagerState n) (f : ℕ) : Prop := 0 < s.frames f

section owners

variable (wakes : ℕ → Option ℕ)

/-- A task has a reference to the fiber. -/
def Queued (s : ManagerState n) (f : ℕ) : Prop :=
  ∃ task ∈ s.run.tasks, task.work.named wakes = some f

/-- A registered handler has a reference to the fiber. -/
def Registered (s : ManagerState n) (f : ℕ) : Prop :=
  ∃ fd < s.fdCount, ∃ work ∈ (s.run.contexts fd).handlers, work.named wakes = some f

/-- A detached handler or an expired callback has a reference to the fiber. -/
def Detached (s : ManagerState n) (f : ℕ) : Prop :=
  ∃ work ∈ s.run.triggered, work.named wakes = some f

/-- The callback of a timer has a reference to the fiber. -/
def Timed (s : ManagerState n) (f : ℕ) : Prop :=
  ∃ timer ∈ s.timers, wakes timer.callback = some f

/-- A worker has a reference to the fiber that it will pass on. -/
def Carried (s : ManagerState n) (f : ℕ) : Prop :=
  ∃ w, f ∈ (s.run.phase w).carries wakes s.pending

/-- A reference to the fiber that does not go away unless it is passed on or the fiber
is resumed. -/
def Kept (s : ManagerState n) (f : ℕ) : Prop :=
  s.Queued wakes f ∨ s.Registered wakes f ∨ s.Detached wakes f ∨ s.Timed wakes f ∨
    0 < s.user f ∨ s.Carried wakes f

/-- A reference to the fiber anywhere but on its own stack: one that is kept, or a local
variable of `run` together with the current fiber of the thread. -/
def Referenced (s : ManagerState n) (f : ℕ) : Prop :=
  s.Kept wakes f ∨ ∃ w, (s.run.phase w).held = some f ∨
    s.run.phase w ≠ .exited ∧ s.run.cbFiber w = some f

/-- The worker on which the fiber has yielded will find out what became of it. -/
def Returning (s : ManagerState n) (f : ℕ) : Prop :=
  ∃ w, (s.run.phase w).returning = some f

/-- If the fiber is suspended, then something keeps it, or it is `READY` and will be
queued again. -/
def Secure (s : ManagerState n) (f : ℕ) : Prop :=
  s.Suspended f → s.Kept wakes f ∨ (s.run.fibers f).state = .ready ∧ s.Returning f

instance (s : ManagerState n) (f : ℕ) : Decidable (s.Suspended f) :=
  inferInstanceAs (Decidable (_ ∨ _))
instance (s : ManagerState n) (f : ℕ) : Decidable (s.OwnsItself f) :=
  inferInstanceAs (Decidable (0 < s.frames f))
instance (s : ManagerState n) (f : ℕ) : Decidable (s.Queued wakes f) :=
  inferInstanceAs (Decidable (∃ task ∈ s.run.tasks, _))
instance (s : ManagerState n) (f : ℕ) : Decidable (s.Registered wakes f) :=
  inferInstanceAs (Decidable (∃ fd < s.fdCount, ∃ work ∈ (s.run.contexts fd).handlers, _))
instance (s : ManagerState n) (f : ℕ) : Decidable (s.Detached wakes f) :=
  inferInstanceAs (Decidable (∃ work ∈ s.run.triggered, _))
instance (s : ManagerState n) (f : ℕ) : Decidable (s.Timed wakes f) :=
  inferInstanceAs (Decidable (∃ timer ∈ s.timers, _))
instance (s : ManagerState n) (f : ℕ) : Decidable (s.Carried wakes f) :=
  inferInstanceAs (Decidable (∃ w, f ∈ (s.run.phase w).carries wakes s.pending))
instance (s : ManagerState n) (f : ℕ) : Decidable (s.Kept wakes f) :=
  inferInstanceAs (Decidable (_ ∨ _))
instance (s : ManagerState n) (f : ℕ) : Decidable (s.Referenced wakes f) :=
  inferInstanceAs (Decidable (_ ∨ ∃ w, (s.run.phase w).held = some f ∨ _))
instance (s : ManagerState n) (f : ℕ) : Decidable (s.Returning f) :=
  inferInstanceAs (Decidable (∃ w, (s.run.phase w).returning = some f))
instance (s : ManagerState n) (f : ℕ) : Decidable (s.Secure wakes f) :=
  inferInstanceAs (Decidable (_ → _))

end owners

/-! ### The operations -/

section operations

variable (wakes : ℕ → Option ℕ)

/-- The caller of `schedule` has a reference to what it passes, and a function with a
captured fiber schedules it before it yields or ends. -/
def Allowed (s : ManagerState n) : RunAction n → Prop
  | .schedule task => ∀ f ∈ task.work.named wakes, s.Referenced wakes f
  | .yieldTo w _ => ∀ f ∈ (s.run.phase w).onStack, s.pending f = none
  | .finish w _ => ∀ f ∈ (s.run.phase w).onStack, s.pending f = none
  | _ => True

instance : (s : ManagerState n) → (action : RunAction n) → Decidable (s.Allowed wakes action)
  | s, .schedule task =>
    inferInstanceAs (Decidable (∀ f ∈ task.work.named wakes, s.Referenced wakes f))
  | s, .yieldTo w _ =>
    inferInstanceAs (Decidable (∀ f ∈ (s.run.phase w).onStack, s.pending f = none))
  | s, .finish w _ =>
    inferInstanceAs (Decidable (∀ f ∈ (s.run.phase w).onStack, s.pending f = none))
  | _, .create | _, .cancelEvent _ _ _ | _, .processEvent _ _ | _, .trigger _
  | _, .getNextTask _ | _, .leaveIdle _ _ | _, .wrap _ | _, .beginResume _ | _, .switchIn _
  | _, .addEvent _ _ _ _ | _, .switchOut _ | _, .storeContext _ | _, .testState _
  | _, .requeue _ => .isTrue trivial

/-- What a step of a worker, to `run`, does to the references outside of it. -/
def after (s : ManagerState n) (run : RunState n) : RunAction n → ManagerState n
  | .create => { s with run := run, user := Function.update s.user s.run.fiberCount 1 }
  | .addEvent _ fd _ _ => { s with run := run, fdCount := max s.fdCount (fd + 1) }
  | .wrap w =>
    match s.run.phase w, run.phase w with
    | .wrapping callback, .holding f _ _ =>
      -- the function is moved into the fiber, with what it has captured
      { s with
        run := run
        pending := Function.update s.pending f (wakes callback)
        entry := Function.update s.entry f (run.fibers f).ctx }
    | _, _ => { s with run := run }
  | .switchIn w =>
    match s.run.phase w with
    | .holding f _ _ =>
      -- the jump in `yield_to` returns and `curr` is destroyed
      { s with
        run := run
        frames :=
          if (s.run.fibers f).ctx = s.entry f then s.frames
          else Function.update s.frames f (s.frames f - 1) }
    | _ => { s with run := run }
  | .yieldTo w _ =>
    match s.run.phase w with
    | .holding f _ _ =>
      { s with run := run, frames := Function.update s.frames f (s.frames f + 1) }
    | _ => { s with run := run }
  | _ => { s with run := run }

/-- A context after `addEvent`, which makes it where there is none. -/
def register (s : ManagerState n) (fd : ℕ) (context : FdContext) : ManagerState n :=
  { s with run := s.run.setContext fd context, fdCount := max s.fdCount (fd + 1) }

/-- A context after `delEvent`. -/
def delEvent (s : ManagerState n) (fd : ℕ) (context : FdContext) : ManagerState n :=
  { s with run := s.run.setContext fd context }

/-- A timer is added to the set. -/
def addTimer (s : ManagerState n) (timer : OwnedTimer) : ManagerState n :=
  { s with timers := s.timers ++ [timer] }

/-- A callback that has expired is to be scheduled; a recurring timer stays, with a copy
of it. -/
def expire (s : ManagerState n) (index : ℕ) (timer : OwnedTimer) : ManagerState n :=
  { s with
    run := { s.run with triggered := s.run.triggered ++ [.callback timer.callback] }
    timers := if timer.recurring then s.timers else s.timers.eraseIdx index }

/-- `Timer::cancel` drops the callback. -/
def cancelTimer (s : ManagerState n) (index : ℕ) : ManagerState n :=
  { s with timers := s.timers.eraseIdx index }

/-- The function that was wrapped into the fiber `g` schedules the fiber `f` and is done
with it. -/
def callSchedule (s : ManagerState n) (g f : ℕ) : ManagerState n :=
  { s with
    run := s.run.push ⟨.fiber f, none⟩
    pending := Function.update s.pending g none }

/-- A user has one more reference. -/
def acquire (s : ManagerState n) (f : ℕ) : ManagerState n :=
  { s with user := Function.update s.user f (s.user f + 1) }

/-- A user has one reference less. -/
def release (s : ManagerState n) (f : ℕ) : ManagerState n :=
  { s with user := Function.update s.user f (s.user f - 1) }

/-- The destructor after `Scheduler::stop`: `clearAllEventsWithoutResume`, `clearTimers`
and the members, the queue among them. -/
def destroy (s : ManagerState n) : ManagerState n :=
  { s with
    run := { s.run with tasks := [], contexts := fun _ => FdContext.new }
    fdCount := 0
    timers := []
    destroyed := true }

/-- The steps of a manager that exists. -/
def act (s : ManagerState n) : ManagerAction n → Option (ManagerState n)
  | .run action =>
    if s.Allowed wakes action then
      (s.run.step action).map fun run => s.after wakes run action
    else none
  | .listen fd event callback epollCtl =>
    if ∀ f ∈ wakes callback, s.Referenced wakes f then
      ((s.run.contexts fd).addEvent event (.callback callback) epollCtl).map (s.register fd)
    else none
  | .delEvent fd mask epollCtl =>
    ((s.run.contexts fd).delEvent mask epollCtl).map (s.delEvent fd)
  | .sleep w callback =>
    match s.run.phase w with
    | .holding f _ .running =>
      if wakes callback = some f then some (s.addTimer ⟨callback, false, false⟩) else none
    | _ => none
  | .addTimer callback recurring =>
    if ∀ f ∈ wakes callback, s.Referenced wakes f then
      some (s.addTimer ⟨callback, recurring, true⟩)
    else none
  | .expire index => s.timers[index]?.map (s.expire index)
  | .cancelTimer index =>
    (s.timers[index]?.filter OwnedTimer.handle).map fun _ => s.cancelTimer index
  | .callSchedule w =>
    match s.run.phase w with
    | .holding g _ .running =>
      ((s.pending g).filter (· < s.run.fiberCount)).map (s.callSchedule g)
    | _ => none
  | .acquire f =>
    if s.Referenced wakes f then some (s.acquire f) else none
  | .release f =>
    -- a user does not destroy a suspended fiber
    if 0 < s.user f ∧ (s.release f).Secure wakes f then some (s.release f) else none
  | .stop => some { s with stopping := true }
  | .destroy =>
    -- `stop` has joined the workers
    if s.stopping = true ∧ (∀ w, s.run.phase w = .exited) ∧ s.run.triggered = [] then
      some s.destroy
    else none

def step (s : ManagerState n) (action : ManagerAction n) : Option (ManagerState n) :=
  if s.destroyed then none else s.act wakes action

/-- All interleavings of `n` workers with the other threads. -/
def system (n : ℕ) : System (ManagerState n) (ManagerAction n) where
  init s := s = start n
  step := step wakes

end operations

/-! ### What a step can do -/

/-- The steps, one constructor for each operation. -/
inductive Step (wakes : ℕ → Option ℕ) (s : ManagerState n) :
    ManagerAction n → ManagerState n → Prop
  | run {action : RunAction n} {run : RunState n} (hallowed : s.Allowed wakes action)
      (hrun : s.run.step action = some run) : Step wakes s (.run action) (s.after wakes run action)
  | listen {fd : ℕ} {event : Event} {callback : ℕ} {epollCtl : Bool}
      (hfree : (s.run.contexts fd).events.has event = false) :
      Step wakes s (.listen fd event callback epollCtl)
        (s.register fd ((s.run.contexts fd).attach event (.callback callback)))
  | delEvent {fd : ℕ} {mask : EventMask} {epollCtl : Bool} :
      Step wakes s (.delEvent fd mask epollCtl)
        (s.delEvent fd ((s.run.contexts fd).detach mask).1)
  | sleep {w : Fin n} {callback : ℕ} :
      Step wakes s (.sleep w callback) (s.addTimer ⟨callback, false, false⟩)
  | addTimer {callback : ℕ} {recurring : Bool} :
      Step wakes s (.addTimer callback recurring) (s.addTimer ⟨callback, recurring, true⟩)
  | expire {index : ℕ} {timer : OwnedTimer} (htimer : s.timers[index]? = some timer) :
      Step wakes s (.expire index) (s.expire index timer)
  | cancelTimer {index : ℕ} {timer : OwnedTimer} (htimer : s.timers[index]? = some timer) :
      Step wakes s (.cancelTimer index) (s.cancelTimer index)
  | callSchedule {w : Fin n} {g f : ℕ} (hpending : s.pending g = some f)
      (hf : f < s.run.fiberCount) : Step wakes s (.callSchedule w) (s.callSchedule g f)
  | acquire {f : ℕ} : Step wakes s (.acquire f) (s.acquire f)
  | release {f : ℕ} (hsecure : (s.release f).Secure wakes f) :
      Step wakes s (.release f) (s.release f)
  | stop : Step wakes s .stop { s with stopping := true }
  | destroy : Step wakes s .destroy s.destroy

/-- **Inversion**: a step is one of the operations. -/
theorem step_cases {wakes : ℕ → Option ℕ} {s s' : ManagerState n} {action : ManagerAction n}
    (h : s.step wakes action = some s') : Step wakes s action s' := by
  have hact : s.act wakes action = some s' := (Option.ite_none_left_eq_some.mp h).2
  cases action with
  | run action =>
    obtain ⟨hallowed, hmap⟩ := Option.ite_none_right_eq_some.mp hact
    obtain ⟨run, hrun, rfl⟩ := Option.map_eq_some_iff.mp hmap
    exact .run hallowed hrun
  | listen fd event callback epollCtl =>
    obtain ⟨c, hc, rfl⟩ := Option.map_eq_some_iff.mp (Option.ite_none_right_eq_some.mp hact).2
    obtain ⟨hfree, -, rfl⟩ := FdContext.addEvent_eq_some_iff.mp hc
    exact .listen hfree
  | delEvent fd mask epollCtl =>
    obtain ⟨c, hc, rfl⟩ := Option.map_eq_some_iff.mp hact
    obtain ⟨-, -, rfl⟩ := FdContext.delEvent_eq_some_iff.mp hc
    exact .delEvent
  | sleep w callback =>
    simp only [act] at hact
    split at hact
    · obtain rfl := Option.some_inj.mp (Option.ite_none_right_eq_some.mp hact).2
      exact .sleep
    · exact absurd hact (by simp)
  | addTimer callback recurring =>
    obtain rfl := Option.some_inj.mp (Option.ite_none_right_eq_some.mp hact).2
    exact .addTimer
  | expire index =>
    obtain ⟨timer, htimer, rfl⟩ := Option.map_eq_some_iff.mp hact
    exact .expire htimer
  | cancelTimer index =>
    obtain ⟨timer, hfilter, rfl⟩ := Option.map_eq_some_iff.mp hact
    exact .cancelTimer (Option.filter_eq_some_iff.mp hfilter).1
  | callSchedule w =>
    simp only [act] at hact
    split at hact
    · obtain ⟨f, hfilter, rfl⟩ := Option.map_eq_some_iff.mp hact
      obtain ⟨hpending, hf⟩ := Option.filter_eq_some_iff.mp hfilter
      exact .callSchedule hpending (of_decide_eq_true hf)
    · exact absurd hact (by simp)
  | acquire f =>
    obtain rfl := Option.some_inj.mp (Option.ite_none_right_eq_some.mp hact).2
    exact .acquire
  | release f =>
    obtain ⟨⟨-, hsecure⟩, hsome⟩ := Option.ite_none_right_eq_some.mp hact
    obtain rfl := Option.some_inj.mp hsome
    exact .release hsecure
  | stop =>
    obtain rfl := Option.some_inj.mp hact
    exact .stop
  | destroy =>
    obtain rfl := Option.some_inj.mp (Option.ite_none_right_eq_some.mp hact).2
    exact .destroy

section after

variable {wakes : ℕ → Option ℕ} {s s' : ManagerState n} {run : RunState n} {w : Fin n} {f : ℕ}

@[simp] theorem after_run (s : ManagerState n) (run : RunState n) (action : RunAction n) :
    (s.after wakes run action).run = run := by
  unfold after
  split
  · rfl
  · rfl
  · split <;> rfl
  · split <;> rfl
  · split <;> rfl
  · rfl

theorem after_wrap {callback : ℕ} {origin : Origin} {step : ResumeStep}
    (hphase : s.run.phase w = .wrapping callback) (hrun : run.phase w = .holding f origin step) :
    s.after wakes run (.wrap w) =
      { s with
        run := run
        pending := Function.update s.pending f (wakes callback)
        entry := Function.update s.entry f (run.fibers f).ctx } := by
  simp only [after, hphase, hrun]

theorem after_switchIn {origin : Origin} {step : ResumeStep}
    (hphase : s.run.phase w = .holding f origin step) :
    s.after wakes run (.switchIn w) =
      { s with
        run := run
        frames :=
          if (s.run.fibers f).ctx = s.entry f then s.frames
          else Function.update s.frames f (s.frames f - 1) } := by
  simp only [after, hphase]

theorem after_yieldTo {origin : Origin} {step : ResumeStep} {ready : Bool}
    (hphase : s.run.phase w = .holding f origin step) :
    s.after wakes run (.yieldTo w ready) =
      { s with run := run, frames := Function.update s.frames f (s.frames f + 1) } := by
  simp only [after, hphase]

/-- Frames of `yield_to` are made and left in `yieldTo` and `switchIn`. -/
theorem after_frames {action : RunAction n} (hyield : ∀ w ready, action ≠ .yieldTo w ready)
    (hjump : ∀ w, action ≠ .switchIn w) : (s.after wakes run action).frames = s.frames := by
  unfold after
  split
  · rfl
  · rfl
  · split <;> rfl
  · next w => exact absurd rfl (hjump w)
  · next w ready => exact absurd rfl (hyield w ready)
  · rfl

end after

/-! ### The stack of a suspended fiber -/

/-- The jump of `resume` goes to a fiber that no other worker has resumed in the meantime:
its state is still `EXEC`, and the frame that it returns to is still there. -/
def JumpsAlone (s : ManagerState n) : ManagerAction n → Prop
  | .run (.switchIn w) =>
    ∀ f ∈ (s.run.phase w).held,
      ¬s.Suspended f ∧ ((s.run.fibers f).ctx = s.entry f ∨ s.OwnsItself f)
  | _ => True

instance : (s : ManagerState n) → (action : ManagerAction n) → Decidable (s.JumpsAlone action)
  | s, .run (.switchIn w) =>
    inferInstanceAs (Decidable (∀ f ∈ (s.run.phase w).held,
      ¬s.Suspended f ∧ ((s.run.fibers f).ctx = s.entry f ∨ s.OwnsItself f)))
  | _, .run .create | _, .run (.schedule _) | _, .run (.cancelEvent _ _ _)
  | _, .run (.processEvent _ _) | _, .run (.trigger _) | _, .run (.getNextTask _)
  | _, .run (.leaveIdle _ _) | _, .run (.wrap _) | _, .run (.beginResume _)
  | _, .run (.addEvent _ _ _ _) | _, .run (.yieldTo _ _) | _, .run (.finish _ _)
  | _, .run (.switchOut _) | _, .run (.storeContext _) | _, .run (.testState _)
  | _, .run (.requeue _) | _, .listen _ _ _ _ | _, .delEvent _ _ _ | _, .sleep _ _
  | _, .addTimer _ _ | _, .expire _ | _, .cancelTimer _ | _, .callSchedule _ | _, .acquire _
  | _, .release _ | _, .stop | _, .destroy => .isTrue trivial

section frames

variable {wakes : ℕ → Option ℕ} {s s' : ManagerState n} {action : ManagerAction n} {f g : ℕ}

/-- A fiber is written to. -/
theorem suspended_setFiber {fiber : Fiber} (hfiber : fiber.state = .hold ∨ fiber.state = .ready →
      s.Suspended g)
    (hf : ({ s with run := s.run.setFiber g fiber } : ManagerState n).Suspended f) :
    s.Suspended f := by
  by_cases heq : f = g
  · subst heq
    rw [Suspended, RunState.setFiber_fibers, Function.update_self] at hf
    exact hfiber hf
  · rwa [Suspended, RunState.setFiber_fibers, Function.update_of_ne heq] at hf

/-- The end of its function does not suspend a fiber. -/
theorem finish_suspended {fiber : Fiber} {threw : Bool}
    (h : (fiber.finish threw).state = .hold ∨ (fiber.finish threw).state = .ready) :
    fiber.state = .hold ∨ fiber.state = .ready := by
  unfold Fiber.finish at h
  cases threw with
  | true => exact absurd h (by simp)
  | false =>
    by_cases hexec : fiber.state = .exec
    · simp [hexec] at h
    · simpa [hexec] using h

/-- Only `yield_to` suspends a fiber, and it has made its frame before. -/
theorem suspended_of_runStep {run : RunState n} {step : RunAction n}
    (hstep : RunState.Step s.run step run) (hyield : ∀ w ready, step ≠ .yieldTo w ready)
    (hf : ({ s with run := run } : ManagerState n).Suspended f) : s.Suspended f := by
  cases hstep with
  | create => exact hf
  | schedule => exact hf
  | cancelEvent => exact hf
  | processEvent => exact hf
  | trigger => exact hf
  | goIdle => exact hf
  | takeFiber => exact hf
  | takeCallback => exact hf
  | leaveIdle => exact hf
  | reuse => exact suspended_setFiber (fun h => absurd h (by simp [Fiber.reset])) hf
  | makeFiber => exact hf
  | beginResume => exact suspended_setFiber (fun h => absurd h (by simp)) hf
  | switchIn => exact hf
  | addEvent => exact hf
  | @yieldTo w f origin ready => exact absurd rfl (hyield w ready)
  | finish => exact suspended_setFiber finish_suspended hf
  | @switchOut w g origin left hphase =>
    exact suspended_setFiber (fun h : (s.run.fibers g).suspend.state = _ ∨ _ => h) hf
  | @storeContext w g origin point left hphase =>
    exact suspended_setFiber (fun h : ((s.run.fibers g).storeContext point).state = _ ∨ _ => h) hf
  | testState => exact hf
  | requeue => exact hf

/-- A fiber that runs has written its state, made its frame and not left its stack when it
yields; a jump that no other worker comes in the way of finds the fiber in `EXEC`. -/
theorem ownsItself_of_step (h : ∀ f, s.Suspended f → s.OwnsItself f)
    (hcond : s.JumpsAlone action) (hstep : Step wakes s action s') :
    ∀ f, s'.Suspended f → s'.OwnsItself f := by
  intro f hf
  cases hstep with
  | @run step run hallowed hrun =>
    have hbranch := RunState.step_cases hrun
    rw [Suspended, after_run] at hf
    by_cases hyield : ∃ w ready, step = .yieldTo w ready
    · obtain ⟨w, ready, rfl⟩ := hyield
      cases hbranch with
      | @yieldTo w g origin ready hphase =>
        rw [after_yieldTo hphase]
        show 0 < Function.update s.frames g (s.frames g + 1) f
        by_cases heq : f = g
        · subst heq
          rw [Function.update_self]
          exact Nat.succ_pos _
        · rw [Function.update_of_ne heq]
          refine h f ?_
          rwa [RunState.setPhase, RunState.setFiber_fibers, Function.update_of_ne heq] at hf
    · have hbefore : s.OwnsItself f :=
        h f (suspended_of_runStep hbranch (fun w ready heq => hyield ⟨w, ready, heq⟩) hf)
      by_cases hjump : ∃ w, step = .switchIn w
      · obtain ⟨w, rfl⟩ := hjump
        cases hbranch with
        | @switchIn w g origin hphase =>
          rw [after_switchIn hphase]
          have hne : f ≠ g := by
            rintro rfl
            exact (hcond f (by rw [hphase]; rfl)).1 hf
          show 0 < (if (s.run.fibers g).ctx = s.entry g then s.frames
            else Function.update s.frames g (s.frames g - 1)) f
          split
          · exact hbefore
          · rw [Function.update_of_ne hne]
            exact hbefore
      · rw [OwnsItself, after_frames (fun w ready heq => hyield ⟨w, ready, heq⟩)
          fun w heq => hjump ⟨w, heq⟩]
        exact hbefore
  | listen => exact h f hf
  | delEvent => exact h f hf
  | sleep => exact h f hf
  | addTimer => exact h f hf
  | expire => exact h f hf
  | cancelTimer => exact h f hf
  | callSchedule => exact h f hf
  | acquire => exact h f hf
  | release => exact h f hf
  | stop => exact h f hf
  | destroy => exact h f hf

/-- **A suspended fiber owns itself**, in every run in which no two workers jump into a
fiber at once. -/
theorem ownsItself_of_jumpsAlone (h : (system wakes n).ReachableWhile JumpsAlone s) :
    ∀ f, s.Suspended f → s.OwnsItself f := by
  refine h.invariant (I := fun s => ∀ f, s.Suspended f → s.OwnsItself f) ?_ ?_
  · rintro s rfl f hf
    exact absurd hf (by simp [Suspended, start, RunState.start, Fiber.create])
  · intro s action s' howns hcond hstep
    exact ownsItself_of_step howns hcond (step_cases hstep)

end frames

/-! ### References that are kept -/

end ManagerState

/-- An event whose bit is clear has no handler. -/
def FdContext.Tidy (c : FdContext) : Prop :=
  ∀ event, c.events.has event = false → c.handler event = none

namespace FdContext

variable {c : FdContext} {event : Event} {handler h : Work}

theorem tidy_new : new.Tidy := fun event _ => by cases event <;> rfl

theorem Tidy.attach (hc : c.Tidy) (event : Event) (handler : Work) :
    (c.attach event handler).Tidy := by
  intro other hhas
  rw [has_attach, Bool.or_eq_false_iff, decide_eq_false_iff_not] at hhas
  rw [handler_attach, if_neg hhas.2]
  exact hc other hhas.1

theorem Tidy.detach (hc : c.Tidy) (mask : EventMask) : (c.detach mask).1.Tidy := by
  intro other hhas
  rw [has_detach] at hhas
  rw [handler_detach]
  split
  · rfl
  · next hbits =>
    refine hc other ?_
    cases hold : c.events.has other with
    | false => rfl
    | true => simp_all

/-- A handler is only replaced by `addEvent` if there is none. -/
theorem Tidy.mem_attach (hc : c.Tidy) (hfree : c.events.has event = false)
    (hmem : h ∈ c.handlers) : h ∈ (c.attach event handler).handlers := by
  obtain ⟨other, hother⟩ := mem_handlers_iff_handler.mp hmem
  refine mem_handlers_iff_handler.mpr ⟨other, ?_⟩
  rw [handler_attach, if_neg]
  · exact hother
  · rintro rfl
    exact absurd ((hc other hfree).symm.trans hother) (by simp)

end FdContext

namespace Phase

variable {wakes pending pending' : ℕ → Option ℕ} {phase : Phase} {f : ℕ} {P : Prop}

theorem held_of_returning (h : phase.returning = some f) : phase.held = some f := by
  cases phase with
  | holding g origin step =>
    cases step with
    | leaving => exact h
    | returned => exact h
    | stored => exact h
    | _ => exact absurd h (by simp [returning])
  | _ => exact absurd h (by simp [returning])

/-- What a worker carries stays where the captured fibers stay. -/
theorem carries_of_pending (hpending : ∀ g, pending g = some f → P ∨ pending' g = some f)
    (hmem : f ∈ phase.carries wakes pending) : P ∨ f ∈ phase.carries wakes pending' := by
  have hcaptured : ∀ g, f ∈ (pending g).toList → P ∨ f ∈ (pending' g).toList := by
    intro g hg
    exact (hpending g (Option.mem_toList.mp hg)).imp_right Option.mem_toList.mpr
  cases phase with
  | loop => exact .inr hmem
  | idle => exact .inr hmem
  | wrapping callback => exact .inr hmem
  | requeueing g origin point => exact .inr hmem
  | exited => exact .inr hmem
  | holding g origin step =>
    cases step with
    | taken =>
      rcases List.mem_cons.mp hmem with heq | hmem
      · exact .inr (List.mem_cons.mpr (.inl heq))
      · exact (hcaptured g hmem).imp_right (List.mem_cons_of_mem _)
    | switching => exact hcaptured g hmem
    | running => exact hcaptured g hmem
    | leaving left => exact .inr hmem
    | returned point left => exact .inr hmem
    | stored point left => exact .inr hmem

end Phase

/-- `addEvent` does not replace a registration. -/
theorem RunState.has_of_addEvent {n : ℕ} {s s' : RunState n} {w : Fin n} {fd : ℕ} {event : Event}
    {epollCtl : Bool} (h : s.step (.addEvent w fd event epollCtl) = some s') :
    (s.contexts fd).events.has event = false := by
  cases step_cases h with
  | @addEvent w f origin fd event epollCtl hphase =>
    simp only [step, RunAction.worker, Option.bind_some, onWorker, hphase, onHeld] at h
    obtain ⟨c, hc, -⟩ := Option.map_eq_some_iff.mp h
    exact (FdContext.addEvent_eq_some_iff.mp hc).1

namespace ManagerState

variable {n : ℕ} {wakes : ℕ → Option ℕ} {s s' : ManagerState n} {w : Fin n} {f g : ℕ}

theorem Queued.kept (h : s.Queued wakes f) : s.Kept wakes f := .inl h
theorem Registered.kept (h : s.Registered wakes f) : s.Kept wakes f := .inr (.inl h)
theorem Detached.kept (h : s.Detached wakes f) : s.Kept wakes f := .inr (.inr (.inl h))
theorem Timed.kept (h : s.Timed wakes f) : s.Kept wakes f := .inr (.inr (.inr (.inl h)))
theorem kept_of_user (h : 0 < s.user f) : s.Kept wakes f := .inr (.inr (.inr (.inr (.inl h))))
theorem Carried.kept (h : s.Carried wakes f) : s.Kept wakes f :=
  .inr (.inr (.inr (.inr (.inr h))))

namespace Kept

/-- A worker comes to another place of `run`. -/
theorem setPhase {phase : Phase} (h : s.Kept wakes f)
    (hw : f ∈ (s.run.phase w).carries wakes s.pending → f ∈ phase.carries wakes s.pending) :
    ({ s with run := s.run.setPhase w phase } : ManagerState n).Kept wakes f := by
  rcases h with h | h | h | h | h | ⟨v, hv⟩
  · exact Queued.kept h
  · exact Registered.kept h
  · exact Detached.kept h
  · exact Timed.kept h
  · exact kept_of_user h
  · refine Carried.kept ⟨v, ?_⟩
    rw [RunState.setPhase_phase]
    by_cases heq : v = w
    · subst heq
      rw [Function.update_self]
      exact hw hv
    · rwa [Function.update_of_ne heq]

/-- What a worker carries is carried on. -/
theorem of_phase {phase : Phase} (hmem : f ∈ phase.carries wakes s.pending) :
    ({ s with run := s.run.setPhase w phase } : ManagerState n).Kept wakes f :=
  Carried.kept ⟨w, by rwa [RunState.setPhase_phase, Function.update_self]⟩

/-- The queue grows. -/
theorem push (h : s.Kept wakes f) (task : ScheduleTask) :
    ({ s with run := s.run.push task } : ManagerState n).Kept wakes f := by
  rcases h with ⟨other, hmem, hnamed⟩ | h
  · exact Queued.kept ⟨other, List.mem_append_left _ hmem, hnamed⟩
  · exact .inr h

/-- A worker takes a task from the queue, and carries what it refers to. -/
theorem takeTask {task : ScheduleTask} {rest : List ScheduleTask} {phase : Phase}
    (h : s.Kept wakes f) (hrest : ∀ other ∈ s.run.tasks, other = task ∨ other ∈ rest)
    (hphase : s.run.phase w = .loop)
    (htask : task.work.named wakes = some f → f ∈ phase.carries wakes s.pending) :
    ({ s with run := ({ s.run with tasks := rest } : RunState n).setPhase w phase } :
      ManagerState n).Kept wakes f := by
  have hkept : ({ s with run := s.run.setPhase w phase } : ManagerState n).Kept wakes f :=
    h.setPhase fun hmem => absurd hmem (by simp [hphase, Phase.carries])
  rcases hkept with ⟨other, hmem, hnamed⟩ | hkept
  · rcases hrest other hmem with rfl | hmem
    · refine Carried.kept ⟨w, ?_⟩
      rw [RunState.setPhase_phase, Function.update_self]
      exact htask hnamed
    · exact Queued.kept ⟨other, hmem, hnamed⟩
  · exact .inr hkept

/-- Handlers go from a context to those that are to be scheduled. -/
theorem detach (h : s.Kept wakes f) (fd : ℕ) (mask : EventMask) :
    ({ s with run := s.run.detach fd ((s.run.contexts fd).detach mask) } :
      ManagerState n).Kept wakes f := by
  rcases h with h | ⟨fd', hfd', work, hmem, hnamed⟩ | ⟨work, hmem, hnamed⟩ | h | h | h
  · exact Queued.kept h
  · by_cases heq : fd' = fd
    · subst heq
      rcases FdContext.mem_handlers_or_detached mask hmem with hstays | hgoes
      · refine Registered.kept ⟨fd', hfd', work, ?_, hnamed⟩
        rwa [RunState.detach_contexts, Function.update_self]
      · exact Detached.kept ⟨work, List.mem_append_right _ hgoes, hnamed⟩
    · refine Registered.kept ⟨fd', hfd', work, ?_, hnamed⟩
      rwa [RunState.detach_contexts, Function.update_of_ne heq]
  · exact Detached.kept ⟨work, List.mem_append_left _ hmem, hnamed⟩
  · exact Timed.kept h
  · exact kept_of_user h
  · exact Carried.kept h

/-- A handler is registered where there was none. -/
theorem register (h : s.Kept wakes f) {fd : ℕ} {event : Event} (handler : Work)
    (htidy : (s.run.contexts fd).Tidy)
    (hfree : (s.run.contexts fd).events.has event = false) :
    (s.register fd ((s.run.contexts fd).attach event handler)).Kept wakes f := by
  rcases h with h | ⟨fd', hfd', work, hmem, hnamed⟩ | h | h | h | h
  · exact Queued.kept h
  · refine Registered.kept ⟨fd', Nat.lt_of_lt_of_le hfd' (Nat.le_max_left ..), work, ?_, hnamed⟩
    show work ∈ ((s.run.setContext fd _).contexts fd').handlers
    rw [RunState.setContext_contexts]
    by_cases heq : fd' = fd
    · subst heq
      rw [Function.update_self]
      exact htidy.mem_attach hfree hmem
    · rwa [Function.update_of_ne heq]
  · exact Detached.kept h
  · exact Timed.kept h
  · exact kept_of_user h
  · exact Carried.kept h

/-- A detached handler comes to the end of the queue. -/
theorem trigger (h : s.Kept wakes f) {index : ℕ} {work : Work}
    (hwork : s.run.triggered[index]? = some work) :
    ({ s with run := { s.run.push ⟨work, none⟩ with
        triggered := s.run.triggered.eraseIdx index } } : ManagerState n).Kept wakes f := by
  rcases h with ⟨other, hmem, hnamed⟩ | h | ⟨other, hmem, hnamed⟩ | h | h | h
  · exact Queued.kept ⟨other, List.mem_append_left _ hmem, hnamed⟩
  · exact Registered.kept h
  · obtain ⟨i, hi⟩ := List.mem_iff_getElem?.mp hmem
    by_cases heq : i = index
    · subst heq
      obtain rfl := Option.some_inj.mp (hi.symm.trans hwork)
      exact Queued.kept ⟨⟨other, none⟩, List.mem_append_right _ (List.mem_singleton.mpr rfl),
        hnamed⟩
    · exact Detached.kept ⟨other, List.mem_eraseIdx_iff_getElem?.mpr ⟨i, heq, hi⟩, hnamed⟩
  · exact Timed.kept h
  · exact kept_of_user h
  · exact Carried.kept h

/-- A callback goes from a timer to those that are to be scheduled. -/
theorem expire (h : s.Kept wakes f) {index : ℕ} {timer : OwnedTimer}
    (htimer : s.timers[index]? = some timer) : (s.expire index timer).Kept wakes f := by
  rcases h with h | h | ⟨work, hmem, hnamed⟩ | ⟨other, hmem, hnamed⟩ | h | h
  · exact Queued.kept h
  · exact Registered.kept h
  · exact Detached.kept ⟨work, List.mem_append_left _ hmem, hnamed⟩
  · obtain ⟨i, hi⟩ := List.mem_iff_getElem?.mp hmem
    by_cases heq : i = index
    · subst heq
      obtain rfl := Option.some_inj.mp (hi.symm.trans htimer)
      exact Detached.kept ⟨.callback other.callback,
        List.mem_append_right _ (List.mem_singleton.mpr rfl), hnamed⟩
    · refine Timed.kept ⟨other, ?_, hnamed⟩
      show other ∈ if timer.recurring then s.timers else s.timers.eraseIdx index
      split
      · exact hmem
      · exact List.mem_eraseIdx_iff_getElem?.mpr ⟨i, heq, hi⟩
  · exact kept_of_user h
  · exact Carried.kept h

/-- A timer is added. -/
theorem addTimer (h : s.Kept wakes f) (timer : OwnedTimer) :
    (s.addTimer timer).Kept wakes f := by
  rcases h with h | h | h | ⟨other, hmem, hnamed⟩ | h
  · exact Queued.kept h
  · exact Registered.kept h
  · exact Detached.kept h
  · exact Timed.kept ⟨other, List.mem_append_left _ hmem, hnamed⟩
  · exact .inr (.inr (.inr (.inr h)))

/-- A user gets or gives back references to one fiber. -/
theorem setUser (h : s.Kept wakes f) {count : ℕ} (hf : f = g → 0 < count) :
    ({ s with user := Function.update s.user g count } : ManagerState n).Kept wakes f := by
  by_cases heq : f = g
  · refine kept_of_user ?_
    show 0 < Function.update s.user g count f
    rw [heq, Function.update_self]
    exact hf heq
  · rcases h with h | h | h | h | h | h
    · exact Queued.kept h
    · exact Registered.kept h
    · exact Detached.kept h
    · exact Timed.kept h
    · refine kept_of_user ?_
      show 0 < Function.update s.user g count f
      rwa [Function.update_of_ne heq]
    · exact Carried.kept h

/-- A function schedules what it has captured. -/
theorem callSchedule (h : s.Kept wakes f) {g' : ℕ} (hpending : s.pending g = some g') :
    (s.callSchedule g g').Kept wakes f := by
  rcases h with ⟨other, hmem, hnamed⟩ | h | h | h | h | ⟨v, hv⟩
  · exact Queued.kept ⟨other, List.mem_append_left _ hmem, hnamed⟩
  · exact Registered.kept h
  · exact Detached.kept h
  · exact Timed.kept h
  · exact kept_of_user h
  · have hgoes : ∀ i, s.pending i = some f →
        f = g' ∨ Function.update s.pending g none i = some f := by
      intro i hi
      by_cases heq : i = g
      · subst heq
        exact .inl (Option.some_inj.mp (hi.symm.trans hpending))
      · exact .inr ((Function.update_of_ne heq ..).trans hi)
    rcases Phase.carries_of_pending hgoes hv with rfl | hv
    · exact Queued.kept ⟨_, List.mem_append_right _ (List.mem_singleton.mpr rfl), rfl⟩
    · exact Carried.kept ⟨v, hv⟩

end Kept

/-! ### Suspended fibers are secure -/

/-- The state of the fiber stays, and so do its owners. -/
theorem Secure.of_step (h : s.Secure wakes f)
    (hstate : (s'.run.fibers f).state = (s.run.fibers f).state)
    (hkept : s.Kept wakes f → s'.Kept wakes f)
    (hreturning : (s.run.fibers f).state = .ready → s.Returning f →
      s'.Kept wakes f ∨ s'.Returning f) : s'.Secure wakes f := by
  intro hsuspended
  rw [Suspended, hstate] at hsuspended
  rcases h hsuspended with hbefore | ⟨hready, hbefore⟩
  · exact .inl (hkept hbefore)
  · exact (hreturning hready hbefore).imp_right fun hafter => ⟨hstate.trans hready, hafter⟩

/-- A fiber that is not suspended needs no owner. -/
theorem secure_of_state {fiber : Fiber} (hfiber : s'.run.fibers f = fiber)
    (hhold : fiber.state ≠ .hold) (hready : fiber.state ≠ .ready) : s'.Secure wakes f := by
  rintro (hsuspended | hsuspended)
  · exact absurd (hfiber ▸ hsuspended) hhold
  · exact absurd (hfiber ▸ hsuspended) hready

/-- Only a reference moves. -/
theorem Secure.of_kept (h : s.Secure wakes f) (hfibers : s'.run.fibers = s.run.fibers)
    (hphase : s'.run.phase = s.run.phase) (hkept : s.Kept wakes f → s'.Kept wakes f) :
    s'.Secure wakes f := by
  refine h.of_step (by rw [hfibers]) hkept fun _ hreturning => .inr ?_
  rwa [Returning, hphase]

/-- A worker comes to another place of `run`. -/
theorem Secure.move {phase : Phase} (h : s.Secure wakes f)
    (hstate : (s'.run.fibers f).state = (s.run.fibers f).state)
    (hphase : s'.run.phase = Function.update s.run.phase w phase)
    (hkept : s.Kept wakes f → s'.Kept wakes f)
    (hreturning : (s.run.fibers f).state = .ready → (s.run.phase w).returning = some f →
      s'.Kept wakes f ∨ phase.returning = some f) : s'.Secure wakes f := by
  refine h.of_step hstate hkept ?_
  rintro hready ⟨v, hv⟩
  by_cases heq : v = w
  · subst heq
    refine (hreturning hready hv).imp_right fun hafter => ⟨v, ?_⟩
    rwa [hphase, Function.update_self]
  · refine .inr ⟨v, ?_⟩
    rwa [hphase, Function.update_of_ne heq]

/-- The fiber that a worker writes to is another one, or its state stays. -/
theorem setFiber_state {fiber : Fiber} (h : f = g → fiber.state = (s.run.fibers f).state) :
    ((s.run.setFiber g fiber).fibers f).state = (s.run.fibers f).state := by
  rw [RunState.setFiber_fibers]
  by_cases heq : f = g
  · rw [← h heq, heq, Function.update_self]
  · rw [Function.update_of_ne heq]

/-- The function that a worker wraps, and what it has captured, go into a fiber that has
captured nothing. -/
theorem Kept.wrap {callback : ℕ} {origin : Origin} (h : s.Kept wakes f)
    (hphase : s.run.phase w = .wrapping callback) (hnone : s.pending g = none) :
    ({ s with
      run := s.run.setPhase w (.holding g origin .taken)
      pending := Function.update s.pending g (wakes callback) } : ManagerState n).Kept wakes f := by
  rcases h with h | h | h | h | h | ⟨v, hv⟩
  · exact Queued.kept h
  · exact Registered.kept h
  · exact Detached.kept h
  · exact Timed.kept h
  · exact kept_of_user h
  · refine Carried.kept ⟨v, ?_⟩
    show f ∈ ((s.run.setPhase w _).phase v).carries wakes (Function.update s.pending g _)
    rw [RunState.setPhase_phase]
    by_cases heq : v = w
    · subst heq
      rw [hphase] at hv
      rw [Function.update_self, Phase.carries, Function.update_self]
      exact List.mem_cons_of_mem _ hv
    · rw [Function.update_of_ne heq]
      have hstays : ∀ i, s.pending i = some f →
          False ∨ Function.update s.pending g (wakes callback) i = some f := by
        intro i hi
        have hne : i ≠ g := by
          rintro rfl
          exact absurd (hnone.symm.trans hi) (by simp)
        exact .inr ((Function.update_of_ne hne ..).trans hi)
      exact (Phase.carries_of_pending hstays hv).resolve_left id

/-- Captured fibers belong to functions that were wrapped into fibers that exist and have
not yielded. -/
def Captures (pending : ℕ → Option ℕ) (run : RunState n) : Prop :=
  ∀ g f, pending g = some f →
    g < run.fiberCount ∧ ((run.fibers g).state = .init ∨ (run.fibers g).state = .exec)

/-- What holds of a manager whose steps give up no last owner. -/
structure Sound (wakes : ℕ → Option ℕ) (s : ManagerState n) : Prop where
  known : s.run.Known
  secure : ∀ f, s.Secure wakes f
  captured : Captures s.pending s.run
  tidy : ∀ fd, (s.run.contexts fd).Tidy

/-- What the operations give up leaves every suspended fiber with an owner, and a fiber
that yields as `HOLD` is referred to by something. -/
def KeepsOwners (wakes : ℕ → Option ℕ) (s : ManagerState n) : ManagerAction n → Prop
  | .run (.yieldTo w false) => ∀ f ∈ (s.run.phase w).onStack, s.Kept wakes f
  | .delEvent fd mask _ =>
    ∀ work ∈ ((s.run.contexts fd).detach mask).2, ∀ f ∈ work.named wakes,
      (s.delEvent fd ((s.run.contexts fd).detach mask).1).Secure wakes f
  | .cancelTimer index =>
    ∀ timer ∈ s.timers[index]?, ∀ f ∈ wakes timer.callback,
      (s.cancelTimer index).Secure wakes f
  | .destroy => ∀ f < s.run.fiberCount, s.Suspended f → 0 < s.user f
  | _ => True

instance (wakes : ℕ → Option ℕ) :
    (s : ManagerState n) → (action : ManagerAction n) → Decidable (s.KeepsOwners wakes action)
  | s, .run (.yieldTo w false) =>
    inferInstanceAs (Decidable (∀ f ∈ (s.run.phase w).onStack, s.Kept wakes f))
  | s, .delEvent fd mask _ =>
    inferInstanceAs (Decidable (∀ work ∈ ((s.run.contexts fd).detach mask).2,
      ∀ f ∈ work.named wakes,
        (s.delEvent fd ((s.run.contexts fd).detach mask).1).Secure wakes f))
  | s, .cancelTimer index =>
    inferInstanceAs (Decidable (∀ timer ∈ s.timers[index]?, ∀ f ∈ wakes timer.callback,
      (s.cancelTimer index).Secure wakes f))
  | s, .destroy =>
    inferInstanceAs (Decidable (∀ f < s.run.fiberCount, s.Suspended f → 0 < s.user f))
  | _, .run .create | _, .run (.schedule _) | _, .run (.cancelEvent _ _ _)
  | _, .run (.processEvent _ _) | _, .run (.trigger _) | _, .run (.getNextTask _)
  | _, .run (.leaveIdle _ _) | _, .run (.wrap _) | _, .run (.beginResume _)
  | _, .run (.switchIn _) | _, .run (.addEvent _ _ _ _) | _, .run (.yieldTo _ true)
  | _, .run (.finish _ _) | _, .run (.switchOut _) | _, .run (.storeContext _)
  | _, .run (.testState _) | _, .run (.requeue _) | _, .listen _ _ _ _ | _, .sleep _ _
  | _, .addTimer _ _ | _, .expire _ | _, .callSchedule _ | _, .acquire _
  | _, .release _ | _, .stop => .isTrue trivial

/-- A suspended fiber whose function has ended was suspended before. -/
theorem finish_state_of_suspended {fiber : Fiber} {threw : Bool}
    (h : (fiber.finish threw).state = .hold ∨ (fiber.finish threw).state = .ready) :
    (fiber.finish threw).state = fiber.state := by
  unfold Fiber.finish at h ⊢
  cases threw with
  | true => exact absurd h (by simp)
  | false =>
    by_cases hexec : fiber.state = .exec
    · simp [hexec] at h
    · simp [hexec]

/-- **The workers** hand every reference on, or resume the fiber. -/
theorem secure_of_runStep {step : RunAction n} {run : RunState n} (h : s.Sound wakes)
    (hallowed : s.Allowed wakes step) (hcond : s.KeepsOwners wakes (.run step))
    (hrun : s.run.step step = some run) : ∀ f, (s.after wakes run step).Secure wakes f := by
  intro f
  have hf := h.secure f
  have hbranch := RunState.step_cases hrun
  cases hbranch with
  | create => exact hf.of_kept rfl rfl fun hkept => hkept.setUser fun _ => Nat.one_pos
  | schedule hcreated => exact hf.of_kept rfl rfl fun hkept => hkept.push _
  | @cancelEvent fd mask epollCtl result hdetach =>
    subst hdetach
    exact hf.of_kept rfl rfl fun hkept => hkept.detach fd mask
  | @processEvent fd ready result hdetach =>
    subst hdetach
    exact hf.of_kept rfl rfl fun hkept => hkept.detach fd ready
  | trigger hwork => exact hf.of_kept rfl rfl fun hkept => hkept.trigger hwork
  | goIdle hphase =>
    refine hf.move rfl rfl (fun hkept => hkept.setPhase ?_) ?_
    · simp [hphase, Phase.carries]
    · simp [hphase, Phase.returning]
  | takeFiber hphase hnext =>
    refine hf.move rfl rfl (fun hkept => hkept.takeTask (fun _ => eq_or_mem_of_getNextTask hnext)
      hphase fun hnamed => ?_) ?_
    · exact List.mem_cons.mpr (.inl (Option.some_inj.mp hnamed).symm)
    · simp [hphase, Phase.returning]
  | takeCallback hphase hnext =>
    refine hf.move rfl rfl (fun hkept => hkept.takeTask (fun _ => eq_or_mem_of_getNextTask hnext)
      hphase fun hnamed => ?_) ?_
    · exact Option.mem_toList.mpr hnamed
    · simp [hphase, Phase.returning]
  | leaveIdle hphase =>
    refine hf.move rfl rfl (fun hkept => hkept.setPhase ?_) ?_
    · simp [hphase, Phase.carries]
    · simp [hphase, Phase.returning]
  | @reuse w callback g hphase hcb hterm =>
    rw [after_wrap hphase (Function.update_self ..)]
    -- the fiber has ended, and so the function that it has run is gone
    have hnone : s.pending g = none := by
      by_contra hsome
      obtain ⟨i, hi⟩ := Option.ne_none_iff_exists'.mp hsome
      have hstate := (h.captured g i hi).2
      rw [hterm] at hstate
      exact absurd hstate (by simp)
    by_cases heq : f = g
    · subst heq
      exact secure_of_state (Function.update_self ..) (by simp [Fiber.reset])
        (by simp [Fiber.reset])
    · refine hf.move (setFiber_state fun h => absurd h heq) rfl
        (fun hkept => hkept.wrap hphase hnone) ?_
      simp [hphase, Phase.returning]
  | @makeFiber w callback hphase =>
    rw [after_wrap hphase (Function.update_self ..)]
    have hnone : s.pending s.run.fiberCount = none := by
      by_contra hsome
      obtain ⟨i, hi⟩ := Option.ne_none_iff_exists'.mp hsome
      exact Nat.lt_irrefl _ (h.captured _ i hi).1
    refine hf.move rfl rfl (fun hkept => hkept.wrap hphase hnone) ?_
    simp [hphase, Phase.returning]
  | @beginResume w g origin hphase hresumable =>
    by_cases heq : f = g
    · subst heq
      exact secure_of_state (Function.update_self ..) (by simp) (by simp)
    · refine hf.move (setFiber_state fun h => absurd h heq) rfl
        (fun hkept => hkept.setPhase fun hmem => ?_) ?_
      · rw [hphase] at hmem
        exact (List.mem_cons.mp hmem).resolve_left heq
      · simp [hphase, Phase.returning]
  | @switchIn w g origin hphase =>
    rw [after_switchIn hphase]
    refine hf.move rfl rfl (fun hkept => hkept.setPhase fun hmem => ?_) ?_
    · rwa [hphase] at hmem
    · simp [hphase, Phase.returning]
  | @addEvent w g origin fd event epollCtl hphase =>
    have hfree := RunState.has_of_addEvent hrun
    exact hf.of_kept rfl rfl fun hkept => hkept.register _ (h.tidy fd) hfree
  | @yieldTo w g origin ready hphase =>
    rw [after_yieldTo hphase]
    have hnone : s.pending g = none := hallowed g (by rw [hphase]; rfl)
    have hcarries : f ∉ (s.run.phase w).carries wakes s.pending := by
      simp [hphase, Phase.carries, hnone]
    by_cases heq : f = g
    · subst heq
      intro hsuspended
      cases ready with
      | false =>
        have hkept : s.Kept wakes f := hcond f (by rw [hphase]; rfl)
        exact .inl (hkept.setPhase fun hmem => absurd hmem hcarries)
      | true =>
        refine .inr ⟨?_, w, ?_⟩
        · show (Function.update s.run.fibers f _ f).state = _
          rw [Function.update_self]
          rfl
        · show (Function.update s.run.phase w _ w).returning = _
          rw [Function.update_self]
          rfl
    · refine hf.move (setFiber_state fun h => absurd h heq) rfl
        (fun hkept => hkept.setPhase fun hmem => absurd hmem hcarries) ?_
      simp [hphase, Phase.returning]
  | @finish w g origin threw hphase =>
    have hnone : s.pending g = none := hallowed g (by rw [hphase]; rfl)
    intro hsuspended
    refine hf.move (setFiber_state fun heq => ?_) rfl (fun hkept => hkept.setPhase ?_) ?_
      hsuspended
    · subst heq
      have hstate : (((s.run.setFiber f ((s.run.fibers f).finish threw)).fibers f).state) = _ :=
        congrArg Fiber.state (Function.update_self ..)
      exact finish_state_of_suspended (hstate ▸ hsuspended)
    · simp [hphase, Phase.carries, hnone]
    · simp [hphase, Phase.returning]
  | @switchOut w g origin left hphase =>
    refine hf.move (setFiber_state fun heq => ?_) rfl (fun hkept => hkept.setPhase ?_) ?_
    · exact heq ▸ rfl
    · simp [hphase, Phase.carries]
    · simp only [hphase, Phase.returning]
      exact fun _ hreturning => .inr hreturning
  | @storeContext w g origin point left hphase =>
    refine hf.move (setFiber_state fun heq => ?_) rfl (fun hkept => hkept.setPhase ?_) ?_
    · exact heq ▸ rfl
    · simp [hphase, Phase.carries]
    · simp only [hphase, Phase.returning]
      exact fun _ hreturning => .inr hreturning
  | @testState w g origin point left hphase =>
    refine hf.move rfl rfl (fun hkept => hkept.setPhase ?_) fun hready hreturning => ?_
    · simp [hphase, Phase.carries]
    · -- the call of `schedule` gets the reference of `task` or `cb_fiber`
      obtain rfl : g = f := by simpa [hphase, Phase.returning] using hreturning
      refine .inl (Kept.of_phase ?_)
      rw [if_pos hready]
      exact List.mem_singleton.mpr rfl
  | @requeue w g origin point hphase =>
    refine hf.move rfl rfl (fun hkept => ?_) ?_
    · by_cases heq : f = g
      · subst heq
        exact Queued.kept ⟨_, List.mem_append_right _ (List.mem_singleton.mpr rfl), rfl⟩
      · refine (hkept.push _).setPhase fun hmem => ?_
        have hmem : f ∈ (s.run.phase w).carries wakes s.pending := hmem
        simp [hphase, Phase.carries, heq] at hmem
    · simp [hphase, Phase.returning]

/-! ### What the functions have captured -/

/-- The fiber that is written to has captured nothing, or goes on. -/
theorem Captures.setFiber {pending : ℕ → Option ℕ} {run : RunState n} {fiber : Fiber}
    (h : Captures pending run)
    (hg : ∀ f, pending g = some f → fiber.state = .init ∨ fiber.state = .exec) :
    Captures pending (run.setFiber g fiber) := by
  intro i f hi
  refine ⟨(h i f hi).1, ?_⟩
  rw [RunState.setFiber_fibers]
  by_cases heq : i = g
  · subst heq
    rw [Function.update_self]
    exact hg f hi
  · rw [Function.update_of_ne heq]
    exact (h i f hi).2

/-- A worker moves a function into a fiber. -/
theorem Captures.wrap {pending : ℕ → Option ℕ} {run : RunState n} {captured : Option ℕ}
    (h : Captures pending run) (hg : g < run.fiberCount) (hinit : (run.fibers g).state = .init) :
    Captures (Function.update pending g captured) run := by
  intro i f hi
  by_cases heq : i = g
  · subst heq
    exact ⟨hg, .inl hinit⟩
  · rw [Function.update_of_ne heq] at hi
    exact h i f hi

theorem captures_of_runStep {step : RunAction n} {run : RunState n} (h : s.Sound wakes)
    (hallowed : s.Allowed wakes step) (hstep : RunState.Step s.run step run) :
    Captures (s.after wakes run step).pending run := by
  have hbefore : Captures s.pending s.run := h.captured
  cases hstep with
  | create => exact fun g f hg => ⟨Nat.lt_succ_of_lt (hbefore g f hg).1, (hbefore g f hg).2⟩
  | schedule => exact hbefore
  | cancelEvent => exact hbefore
  | processEvent => exact hbefore
  | trigger => exact hbefore
  | goIdle => exact hbefore
  | takeFiber => exact hbefore
  | takeCallback => exact hbefore
  | leaveIdle => exact hbefore
  | @reuse w callback g hphase hcb hterm =>
    rw [after_wrap hphase (Function.update_self ..)]
    have hafter : Captures s.pending (s.run.setFiber g (s.run.fibers g).reset) :=
      hbefore.setFiber fun _ _ => .inl rfl
    exact hafter.wrap (h.known.cbFiber w g hcb)
      (by rw [RunState.setFiber_fibers, Function.update_self]; rfl)
  | @makeFiber w callback hphase =>
    rw [after_wrap hphase (Function.update_self ..)]
    have hafter : Captures s.pending s.run.createFiber :=
      fun g f hg => ⟨Nat.lt_succ_of_lt (hbefore g f hg).1, (hbefore g f hg).2⟩
    exact hafter.wrap (Nat.lt_succ_self _)
      (congrArg Fiber.state (h.known.untouched _ (Nat.le_refl _)))
  | beginResume => exact hbefore.setFiber fun _ _ => .inr rfl
  | @switchIn w g origin hphase =>
    rw [after_switchIn hphase]
    exact hbefore
  | addEvent => exact hbefore
  | @yieldTo w g origin ready hphase =>
    rw [after_yieldTo hphase]
    have hnone : s.pending g = none := hallowed g (by rw [hphase]; rfl)
    exact hbefore.setFiber fun f hf => absurd (hnone.symm.trans hf) (by simp)
  | @finish w g origin threw hphase =>
    have hnone : s.pending g = none := hallowed g (by rw [hphase]; rfl)
    exact hbefore.setFiber fun f hf => absurd (hnone.symm.trans hf) (by simp)
  | @switchOut w g origin left hphase =>
    exact hbefore.setFiber fun f hf => (hbefore g f hf).2
  | @storeContext w g origin point left hphase =>
    exact hbefore.setFiber fun f hf => (hbefore g f hf).2
  | testState => exact hbefore
  | requeue => exact hbefore

/-- Registrations are made where there is none, and taken out with their bits. -/
theorem tidy_of_runStep {run run' : RunState n} {step : RunAction n}
    (h : ∀ fd, (run.contexts fd).Tidy) (hstep : RunState.Step run step run') :
    ∀ fd, (run'.contexts fd).Tidy := by
  have hset : ∀ {fd : ℕ} {context : FdContext}, context.Tidy →
      ∀ fd', (Function.update run.contexts fd context fd').Tidy := by
    intro fd context hcontext fd'
    rw [Function.update_apply]
    split
    · exact hcontext
    · exact h fd'
  cases hstep with
  | @cancelEvent fd mask epollCtl result hdetach =>
    subst hdetach
    exact hset ((h fd).detach mask)
  | @processEvent fd ready result hdetach =>
    subst hdetach
    exact hset ((h fd).detach ready)
  | @addEvent w f origin fd event epollCtl hphase => exact hset ((h fd).attach event _)
  | _ => exact h

/-! ### Runs -/

/-- A handler is registered by a caller. -/
theorem known_register (h : s.run.Known) (fd : ℕ) (event : Event) (callback : ℕ) :
    (s.register fd ((s.run.contexts fd).attach event (.callback callback))).run.Known := by
  refine { h with registered := fun fd' work hmem => ?_ }
  have hmem : work ∈ (Function.update s.run.contexts fd _ fd').handlers := hmem
  by_cases heq : fd' = fd
  · subst heq
    rw [Function.update_self] at hmem
    rcases FdContext.mem_handlers_attach hmem with rfl | hmem
    · exact fun f hf => Work.noConfusion hf
    · exact h.registered fd' work hmem
  · rw [Function.update_of_ne heq] at hmem
    exact h.registered fd' work hmem

theorem known_delEvent (h : s.run.Known) (fd : ℕ) (mask : EventMask) :
    (s.delEvent fd ((s.run.contexts fd).detach mask).1).run.Known := by
  refine { h with registered := fun fd' work hmem => ?_ }
  have hmem : work ∈ (Function.update s.run.contexts fd _ fd').handlers := hmem
  by_cases heq : fd' = fd
  · subst heq
    rw [Function.update_self] at hmem
    exact h.registered fd' work ((FdContext.mem_handlers_detach rfl).1 work hmem)
  · rw [Function.update_of_ne heq] at hmem
    exact h.registered fd' work hmem

/-- A reference that `delEvent` does not drop stays. -/
theorem Kept.delEvent {fd : ℕ} {mask : EventMask} (h : s.Kept wakes f)
    (hdropped : ∀ work ∈ ((s.run.contexts fd).detach mask).2, work.named wakes ≠ some f) :
    (s.delEvent fd ((s.run.contexts fd).detach mask).1).Kept wakes f := by
  rcases h with h | ⟨fd', hfd', work, hmem, hnamed⟩ | h | h | h | h
  · exact Queued.kept h
  · refine Registered.kept ⟨fd', hfd', work, ?_, hnamed⟩
    show work ∈ (Function.update s.run.contexts fd _ fd').handlers
    by_cases heq : fd' = fd
    · subst heq
      rw [Function.update_self]
      refine (FdContext.mem_handlers_or_detached mask hmem).resolve_right fun hgoes => ?_
      exact hdropped work hgoes hnamed
    · rwa [Function.update_of_ne heq]
  · exact Detached.kept h
  · exact Timed.kept h
  · exact kept_of_user h
  · exact Carried.kept h

/-- A reference that `Timer::cancel` does not drop stays. -/
theorem Kept.cancelTimer {index : ℕ} {timer : OwnedTimer} (h : s.Kept wakes f)
    (htimer : s.timers[index]? = some timer) (hdropped : wakes timer.callback ≠ some f) :
    (s.cancelTimer index).Kept wakes f := by
  rcases h with h | h | h | ⟨other, hmem, hnamed⟩ | h
  · exact Queued.kept h
  · exact Registered.kept h
  · exact Detached.kept h
  · obtain ⟨i, hi⟩ := List.mem_iff_getElem?.mp hmem
    refine Timed.kept ⟨other, List.mem_eraseIdx_iff_getElem?.mpr ⟨i, ?_, hi⟩, hnamed⟩
    rintro rfl
    obtain rfl := Option.some_inj.mp (hi.symm.trans htimer)
    exact hdropped hnamed
  · exact .inr (.inr (.inr (.inr h)))

/-- A reference of a user to another fiber is not concerned. -/
theorem Secure.release (h : s.Secure wakes f) (hne : f ≠ g) : (s.release g).Secure wakes f :=
  h.of_kept rfl rfl fun hkept => hkept.setUser fun heq => absurd heq hne

/-- What a worker or a caller does, and what the manager gives up under the condition,
leaves every suspended fiber with an owner. -/
theorem secure_of_step {action : ManagerAction n} (h : s.Sound wakes)
    (hcond : s.KeepsOwners wakes action) (hstep : Step wakes s action s') :
    ∀ f, s'.Secure wakes f := by
  intro f
  have hf := h.secure f
  cases hstep with
  | run hallowed hrun => exact secure_of_runStep h hallowed hcond hrun f
  | @listen fd event callback epollCtl hfree =>
    exact hf.of_kept rfl rfl fun hkept => hkept.register _ (h.tidy fd) hfree
  | @delEvent fd mask epollCtl =>
    by_cases hdropped : ∃ work ∈ ((s.run.contexts fd).detach mask).2, work.named wakes = some f
    · obtain ⟨work, hmem, hnamed⟩ := hdropped
      exact hcond work hmem f hnamed
    · refine hf.of_kept rfl rfl fun hkept => hkept.delEvent fun work hmem hnamed => ?_
      exact hdropped ⟨work, hmem, hnamed⟩
  | sleep => exact hf.of_kept rfl rfl fun hkept => hkept.addTimer _
  | addTimer => exact hf.of_kept rfl rfl fun hkept => hkept.addTimer _
  | expire htimer => exact hf.of_kept rfl rfl fun hkept => hkept.expire htimer
  | @cancelTimer index timer htimer =>
    by_cases hdropped : wakes timer.callback = some f
    · exact hcond timer htimer f hdropped
    · exact hf.of_kept rfl rfl fun hkept => hkept.cancelTimer htimer hdropped
  | callSchedule hpending => exact hf.of_kept rfl rfl fun hkept => hkept.callSchedule hpending
  | acquire => exact hf.of_kept rfl rfl fun hkept => hkept.setUser fun _ => Nat.succ_pos _
  | @release g hsecure =>
    by_cases heq : f = g
    · exact heq ▸ hsecure
    · exact hf.release heq
  | stop => exact hf.of_kept rfl rfl id
  | destroy =>
    intro hsuspended
    have hsuspended : s.Suspended f := hsuspended
    have hlt : f < s.run.fiberCount := by
      by_contra hge
      rw [Suspended, h.known.untouched f (Nat.not_lt.mp hge)] at hsuspended
      exact absurd hsuspended (by simp [Fiber.create])
    exact .inl (kept_of_user (hcond f hlt hsuspended))

theorem sound_of_step {action : ManagerAction n} (h : s.Sound wakes)
    (hcond : s.KeepsOwners wakes action) (hstep : Step wakes s action s') : s'.Sound wakes := by
  have hsecure := secure_of_step h hcond hstep
  have hset : ∀ {fd : ℕ} {context : FdContext}, context.Tidy →
      ∀ fd', (Function.update s.run.contexts fd context fd').Tidy := by
    intro fd context hcontext fd'
    rw [Function.update_apply]
    split
    · exact hcontext
    · exact h.tidy fd'
  cases hstep with
  | @run action run hallowed hrun =>
    have hbranch := RunState.step_cases hrun
    refine ⟨?_, hsecure, ?_, fun fd => ?_⟩
    · rw [after_run]
      exact RunState.known_of_step h.known hbranch
    · rw [after_run]
      exact captures_of_runStep h hallowed hbranch
    · rw [after_run]
      exact tidy_of_runStep h.tidy hbranch fd
  | @listen fd event callback epollCtl hfree =>
    exact ⟨known_register h.known fd event callback, hsecure, h.captured,
      hset ((h.tidy fd).attach event _)⟩
  | @delEvent fd mask epollCtl =>
    exact ⟨known_delEvent h.known fd mask, hsecure, h.captured, hset ((h.tidy fd).detach mask)⟩
  | sleep => exact ⟨h.known, hsecure, h.captured, h.tidy⟩
  | addTimer => exact ⟨h.known, hsecure, h.captured, h.tidy⟩
  | expire htimer =>
    refine ⟨{ h.known with triggered := fun work hmem => ?_ }, hsecure, h.captured, h.tidy⟩
    rcases List.mem_append.mp hmem with hmem | hmem
    · exact h.known.triggered work hmem
    · obtain rfl := List.mem_singleton.mp hmem
      exact fun f hf => Work.noConfusion hf
  | cancelTimer => exact ⟨h.known, hsecure, h.captured, h.tidy⟩
  | @callSchedule w g f hpending hf =>
    refine ⟨h.known.push fun f' hf' => Work.fiber.inj hf' ▸ hf, hsecure, ?_, h.tidy⟩
    intro i f' hi
    have hi : Function.update s.pending g none i = some f' := hi
    by_cases heq : i = g
    · subst heq
      rw [Function.update_self] at hi
      exact absurd hi (by simp)
    · rw [Function.update_of_ne heq] at hi
      exact h.captured i f' hi
  | acquire => exact ⟨h.known, hsecure, h.captured, h.tidy⟩
  | release => exact ⟨h.known, hsecure, h.captured, h.tidy⟩
  | stop => exact ⟨h.known, hsecure, h.captured, h.tidy⟩
  | destroy =>
    refine ⟨{ h.known with tasks := ?_, registered := ?_ }, hsecure, h.captured, ?_⟩
    · exact fun _ hmem => absurd hmem List.not_mem_nil
    · exact fun _ _ hmem => absurd hmem List.not_mem_nil
    · exact fun _ => FdContext.tidy_new

theorem sound_start : (start n).Sound wakes where
  known := RunState.known_start
  secure := fun f => secure_of_state (rfl : _ = Fiber.create) (by decide) (by decide)
  captured := fun g f hg => absurd hg (by simp [start])
  tidy := fun _ => FdContext.tidy_new

/-- **A suspended fiber is referred to** by more than its own stack, in every run in which
`delEvent`, `Timer::cancel` and the destructor leave it an owner. -/
theorem referenced_of_keepsOwners
    (h : (system wakes n).ReachableWhile (KeepsOwners wakes) s) :
    ∀ f, s.Suspended f → s.Referenced wakes f := by
  have hsound : s.Sound wakes := by
    refine h.invariant ?_ fun s action s' hsound hcond hstep => ?_
    · rintro s rfl
      exact sound_start
    · exact sound_of_step hsound hcond (step_cases hstep)
  intro f hsuspended
  rcases hsound.secure f hsuspended with hkept | ⟨-, w, hw⟩
  · exact .inl hkept
  · exact .inr ⟨w, .inl (Phase.held_of_returning hw)⟩

/-- **Owners of suspended fibers.**  Each of them owns itself, whatever is given up, if no
two workers jump into a fiber at once; and the other owners go only if `delEvent`,
`Timer::cancel` or the destructor takes the last of them. -/
theorem suspended_owned (wakes : ℕ → Option ℕ) (n : ℕ) :
    (∀ s, (system wakes n).ReachableWhile JumpsAlone s → ∀ f, s.Suspended f → s.OwnsItself f) ∧
      ∀ s, (system wakes n).ReachableWhile (KeepsOwners wakes) s →
        ∀ f, s.Suspended f → s.Referenced wakes f :=
  ⟨fun _ => ownsItself_of_jumpsAlone, fun _ => referenced_of_keepsOwners⟩

/-- A function task waits for a descriptor. -/
def waitActions (w : Fin n) : List (ManagerAction n) :=
  [.run (.schedule ⟨.callback 1, none⟩), .run (.getNextTask w), .run (.wrap w),
    .run (.beginResume w), .run (.switchIn w), .run (.addEvent w 3 .read true),
    .run (.yieldTo w false), .run (.switchOut w), .run (.storeContext w), .run (.testState w)]

/-- The descriptor gets ready; the fiber sleeps, and the callback of its timer, a function
task in another fiber, schedules it. -/
def sleepActions (w : Fin n) : List (ManagerAction n) :=
  [.run (.processEvent 3 (.single .read)), .run (.trigger 0), .run (.getNextTask w),
    .run (.beginResume w), .run (.switchIn w), .sleep w 5, .run (.yieldTo w false),
    .run (.switchOut w), .run (.storeContext w), .run (.testState w), .expire 0,
    .run (.trigger 0), .run (.getNextTask w), .run (.wrap w), .run (.beginResume w),
    .run (.switchIn w), .callSchedule w, .run (.finish w false), .run (.switchOut w),
    .run (.storeContext w), .run (.testState w)]

/-- The function 5 has captured the first fiber. -/
def sleeper (callback : ℕ) : Option ℕ := if callback = 5 then some 0 else none

theorem suspended_owned_run :
    ∃ s, (system sleeper 1).exec (start 1) (waitActions 0 ++ sleepActions 0) = some s ∧
      s.Suspended 0 ∧ s.OwnsItself 0 ∧ s.Referenced sleeper 0 := by
  obtain ⟨s, hs, hsuspended⟩ : ∃ s, (system sleeper 1).exec (start 1)
      (waitActions 0 ++ sleepActions 0) = some s ∧ s.Suspended 0 :=
    ⟨_, rfl, by decide +kernel⟩
  have hjumps : (system sleeper 1).Meets JumpsAlone (start 1)
      (waitActions 0 ++ sleepActions 0) := by decide +kernel
  have hkeeps : (system sleeper 1).Meets (KeepsOwners sleeper) (start 1)
      (waitActions 0 ++ sleepActions 0) := by decide +kernel
  obtain ⟨howns, hreferenced⟩ := suspended_owned sleeper 1
  exact ⟨s, hs, hsuspended, howns s ((ReachableWhile.init rfl).exec hjumps hs) 0 hsuspended,
    hreferenced s ((ReachableWhile.init rfl).exec hkeeps hs) 0 hsuspended⟩

/-- The event for which a function task waits is deleted. -/
theorem not_referenced :
    ¬∀ (wakes : ℕ → Option ℕ) (n : ℕ) (s : ManagerState n), (system wakes n).Reachable s →
      ∀ f, s.Suspended f → s.Referenced wakes f := by
  intro hall
  obtain ⟨s, hs, hsuspended, hno⟩ : ∃ s, (system sleeper 1).exec (start 1)
      (waitActions 0 ++ [.delEvent 3 (.single .read) true]) = some s ∧
        s.Suspended 0 ∧ ¬s.Referenced sleeper 0 :=
    ⟨_, rfl, by decide +kernel, by decide +kernel⟩
  exact hno (hall _ _ s ((ReachableWhile.init rfl).exec (meets_true _ _ _) hs) 0 hsuspended)

end ManagerState

end Scheduler

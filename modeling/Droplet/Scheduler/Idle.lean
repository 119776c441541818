/-
Workers that wait in `epoll_wait`.

The loop of `IOManager` on any number of workers, with the semaphore eventfd that
wakes them: `schedule` queues a task and then owes a tickle, a tickle writes tokens,
and a worker that is woken drains one token, tests `stopping()` and looks at the
queue before it waits again.  There are no descriptors and no timers, so that
`epoll_wait` returns for tokens only.  The tickles that calls of `schedule` and
`stop` still owe are counted; they may come as late as they like.

* `Step`, `step_cases` — everything that one step can do;
* `executed_of_reachable` — a fiber in `EXEC` is run by some worker.
-/
import Droplet.Scheduler.Fiber
import Droplet.Lib.Transition
import Mathlib.Data.Fintype.BigOperators

open Transition Transition.System

namespace Scheduler

/-- `IOManager::stopping`. -/
def stopping (stopFlag forceStop hasTimer : Bool) (pendingEventCount : ℕ)
    (tasks : List ScheduleTask) : Bool :=
  if !stopFlag then false
  else if forceStop then true
  else if pendingEventCount ≠ 0 || hasTimer then false
  else tasks.isEmpty

/-- Where a worker is in `run` and `idle`. -/
inductive IdlePhase
  | loop
  | taken (work : Work) (threadId : Option ℕ)
  | running (fiber : ℕ) (threadId : Option ℕ)
  | waiting
  | woken
  | drained
  | exited
  deriving DecidableEq

/-- The workers of an IOManager, its queue and its eventfd.  `owed` counts the calls
of `schedule` and `stop` that have still to perform their tickle. -/
structure IdleState (n : ℕ) where
  tasks : List ScheduleTask
  state : ℕ → Fiber.State
  counter : ℕ
  owed : ℕ
  stopFlag : Bool
  phase : Fin n → IdlePhase

/-- One atomic step of a worker or of another thread. -/
inductive IdleAction (n : ℕ)
  | schedule (task : ScheduleTask)
  | stop
  | tickle
  | getNextTask (w : Fin n)
  | beginTask (w : Fin n) (fiber : ℕ)
  | endTask (w : Fin n) (left : Fiber.State)
  | epollWait (w : Fin n)
  | drainTickle (w : Fin n)
  | testStopping (w : Fin n)
  deriving DecidableEq

/-- The worker that makes the step, if it is one of the loop. -/
def IdleAction.worker {n : ℕ} : IdleAction n → Option (Fin n)
  | .getNextTask w | .beginTask w _ | .endTask w _ | .epollWait w | .drainTickle w
  | .testStopping w => some w
  | _ => none

namespace IdleState

variable {n : ℕ}

/-- Workers at the top of their loops. -/
def start (n : ℕ) : IdleState n where
  tasks := []
  state := fun _ => .init
  counter := 0
  owed := 0
  stopFlag := false
  phase := fun _ => .loop

/-- A task is pinned to a registered worker, or to none. -/
def Registered (n : ℕ) (task : ScheduleTask) : Prop := ∀ t ∈ task.threadId, t < n

instance (n : ℕ) (task : ScheduleTask) : Decidable (Registered n task) :=
  match h : task.threadId with
  | none => .isTrue fun t ht => absurd (h ▸ ht) (by simp)
  | some t => decidable_of_iff (t < n)
      ⟨fun hlt u hu => by rw [h, Option.mem_some_iff] at hu; exact hu ▸ hlt, fun hall => hall t h⟩

/-- `stopping()`, where no event is pending and no timer is set. -/
def isStopping (s : IdleState n) : Bool := Scheduler.stopping s.stopFlag false false 0 s.tasks

def setPhase (s : IdleState n) (w : Fin n) (phase : IdlePhase) : IdleState n :=
  { s with phase := Function.update s.phase w phase }

def setState (s : IdleState n) (f : ℕ) (state : Fiber.State) : IdleState n :=
  { s with state := Function.update s.state f state }

/-- The locked part of `schedule`; its tickle is still owed. -/
def push (s : IdleState n) (task : ScheduleTask) : IdleState n :=
  { s with tasks := s.tasks ++ [task], owed := s.owed + 1 }

/-- `wake_count_`. -/
def wakeCount (n : ℕ) : ℕ := max n 1

/-- `IOManager::tickle`. -/
def tickle (s : IdleState n) : IdleState n :=
  { s with
    counter := s.counter + (if s.stopFlag then wakeCount n else 1)
    owed := s.owed - 1 }

/-- `getNextTask`, and what `run` does with its result: a worker without a task goes
to `epoll_wait`. -/
def takeNext (s : IdleState n) (w : Fin n) : IdleState n :=
  match Scheduler.getNextTask s.state w s.tasks with
  | none => s.setPhase w .waiting
  | some (task, rest) =>
    ({ s with tasks := rest } : IdleState n).setPhase w (.taken task.work task.threadId)

/-- A fiber that the worker has resumed comes back in the state `left`; one that is
`READY` is queued again. -/
def endTask (s : IdleState n) (w : Fin n) (f : ℕ) (threadId : Option ℕ) (left : Fiber.State) :
    IdleState n :=
  let s := (s.setState f left).setPhase w .loop
  if left = .ready then s.push ⟨.fiber f, threadId⟩ else s

/-- The fiber that a worker resumes for a task; a function is wrapped into one that
nobody executes. -/
def RunsOn (s : IdleState n) (work : Work) (f : ℕ) : Bool :=
  match work with
  | .fiber g => g = f
  | .callback _ => s.state f ≠ .exec

/-- The `thread_id` with which the fiber of a task is queued again: a wrapped function
loses its pin. -/
def keptPin (work : Work) (threadId : Option ℕ) : Option ℕ :=
  match work with
  | .fiber _ => threadId
  | .callback _ => none

/-- The steps of a worker. -/
def onWorker (s : IdleState n) (w : Fin n) (action : IdleAction n) : Option (IdleState n) :=
  match s.phase w, action with
  | .loop, .getNextTask _ => some (s.takeNext w)
  | .taken work threadId, .beginTask _ f =>
    if s.RunsOn work f then
      some ((s.setState f .exec).setPhase w (.running f (keptPin work threadId)))
    else none
  | .running f threadId, .endTask _ left =>
    if left = .exec then none else some (s.endTask w f threadId left)
  | .waiting, .epollWait _ => if s.counter = 0 then none else some (s.setPhase w .woken)
  | .woken, .drainTickle _ =>
    some (({ s with counter := s.counter - 1 } : IdleState n).setPhase w .drained)
  | .drained, .testStopping _ =>
    some (s.setPhase w (if s.isStopping then .exited else .loop))
  | _, _ => none

/-- One step; `stop()` takes effect once. -/
def step (s : IdleState n) (action : IdleAction n) : Option (IdleState n) :=
  match action with
  | .schedule task => if Registered n task then some (s.push task) else none
  | .stop => if s.stopFlag then none else some { s with stopFlag := true, owed := s.owed + 1 }
  | .tickle => if s.owed = 0 then none else some s.tickle
  | action => action.worker.bind fun w => s.onWorker w action

/-- All interleavings of `n` workers with the other threads. -/
def system (n : ℕ) : System (IdleState n) (IdleAction n) where
  init s := s = start n
  step := step

section fields

variable (s : IdleState n)

@[simp] theorem setPhase_phase (w : Fin n) (phase : IdlePhase) :
    (s.setPhase w phase).phase = Function.update s.phase w phase := rfl

/-- `stopping()` holds when `stop` has set its flag and the queue is empty. -/
theorem isStopping_iff : s.isStopping = true ↔ s.stopFlag = true ∧ s.tasks = [] := by
  unfold isStopping Scheduler.stopping
  cases s.stopFlag with
  | false => simp
  | true => simp [List.isEmpty_iff]

end fields

/-! ### What a step can do -/

/-- The steps, one constructor for each branch. -/
inductive Step (s : IdleState n) : IdleAction n → IdleState n → Prop
  | schedule {task : ScheduleTask} (hregistered : Registered n task) :
      Step s (.schedule task) (s.push task)
  | stop (hflag : s.stopFlag = false) : Step s .stop { s with stopFlag := true, owed := s.owed + 1 }
  | tickle (howed : s.owed ≠ 0) : Step s .tickle s.tickle
  | wait {w : Fin n} (hphase : s.phase w = .loop)
      (hnext : Scheduler.getNextTask s.state w s.tasks = none) :
      Step s (.getNextTask w) (s.setPhase w .waiting)
  | take {w : Fin n} {task : ScheduleTask} {rest : List ScheduleTask} (hphase : s.phase w = .loop)
      (hnext : Scheduler.getNextTask s.state w s.tasks = some (task, rest)) :
      Step s (.getNextTask w)
        (({ s with tasks := rest } : IdleState n).setPhase w (.taken task.work task.threadId))
  | beginTask {w : Fin n} {work : Work} {threadId : Option ℕ} {f : ℕ}
      (hphase : s.phase w = .taken work threadId) :
      Step s (.beginTask w f)
        ((s.setState f .exec).setPhase w (.running f (keptPin work threadId)))
  | endTask {w : Fin n} {f : ℕ} {threadId : Option ℕ} {left : Fiber.State}
      (hphase : s.phase w = .running f threadId) (hleft : left ≠ .exec) :
      Step s (.endTask w left) (s.endTask w f threadId left)
  | epollWait {w : Fin n} (hphase : s.phase w = .waiting) (hcounter : s.counter ≠ 0) :
      Step s (.epollWait w) (s.setPhase w .woken)
  | drainTickle {w : Fin n} (hphase : s.phase w = .woken) :
      Step s (.drainTickle w)
        (({ s with counter := s.counter - 1 } : IdleState n).setPhase w .drained)
  | exit {w : Fin n} (hphase : s.phase w = .drained) (hstopping : s.isStopping = true) :
      Step s (.testStopping w) (s.setPhase w .exited)
  | goOn {w : Fin n} (hphase : s.phase w = .drained) (hstopping : s.isStopping = false) :
      Step s (.testStopping w) (s.setPhase w .loop)

variable {s s' : IdleState n} {w : Fin n} {action : IdleAction n}

/-- A fiber keeps its pin or loses it. -/
theorem mem_of_mem_keptPin {work : Work} {threadId : Option ℕ} {t : ℕ}
    (ht : t ∈ keptPin work threadId) : t ∈ threadId := by
  cases work with
  | fiber => exact ht
  | callback => exact absurd ht (by simp [keptPin])

/-- The branches of a worker. -/
theorem step_onWorker (hworker : action.worker = some w) (h : s.onWorker w action = some s') :
    Step s action s' := by
  unfold onWorker at h
  split at h
  · next hphase =>
    obtain rfl := Option.some_inj.mp hworker
    obtain rfl := Option.some_inj.mp h
    unfold takeNext
    split
    · next hnext => exact .wait hphase hnext
    · next task rest hnext => exact .take hphase hnext
  · next work threadId w' f hphase =>
    obtain rfl := Option.some_inj.mp hworker
    split at h
    · obtain rfl := Option.some_inj.mp h
      exact .beginTask hphase
    · exact absurd h (by simp)
  · next hphase =>
    obtain rfl := Option.some_inj.mp hworker
    split at h
    · exact absurd h (by simp)
    · next hleft =>
      obtain rfl := Option.some_inj.mp h
      exact .endTask hphase hleft
  · next hphase =>
    obtain rfl := Option.some_inj.mp hworker
    split at h
    · exact absurd h (by simp)
    · next hcounter =>
      obtain rfl := Option.some_inj.mp h
      exact .epollWait hphase hcounter
  · next hphase =>
    obtain rfl := Option.some_inj.mp hworker
    obtain rfl := Option.some_inj.mp h
    exact .drainTickle hphase
  · next hphase =>
    obtain rfl := Option.some_inj.mp hworker
    obtain rfl := Option.some_inj.mp h
    cases hstopping : s.isStopping with
    | true => exact .exit hphase hstopping
    | false => exact .goOn hphase hstopping
  · exact absurd h (by simp)

/-- **Inversion**: a step is one of the branches. -/
theorem step_cases (h : s.step action = some s') : Step s action s' := by
  unfold step at h
  split at h
  · split at h
    · next hregistered =>
      obtain rfl := Option.some_inj.mp h
      exact .schedule hregistered
    · exact absurd h (by simp)
  · split at h
    · exact absurd h (by simp)
    · next hflag =>
      obtain rfl := Option.some_inj.mp h
      exact .stop (by simpa using hflag)
  · split at h
    · exact absurd h (by simp)
    · next howed =>
      obtain rfl := Option.some_inj.mp h
      exact .tickle howed
  · obtain ⟨w, hworker, hw⟩ := Option.bind_eq_some_iff.mp h
    exact step_onWorker hworker hw

/-! ### Fibers in `EXEC` -/

/-- A fiber in `EXEC` is run by some worker. -/
def Executed (s : IdleState n) : Prop :=
  ∀ f, s.state f = .exec → ∃ w threadId, s.phase w = .running f threadId

namespace Executed

/-- A worker that runs nothing takes up something else. -/
theorem setPhase (h : s.Executed) {phase : IdlePhase}
    (hphase : ∀ f threadId, s.phase w ≠ .running f threadId) : (s.setPhase w phase).Executed := by
  intro f hf
  obtain ⟨w', threadId, hw'⟩ := h f hf
  refine ⟨w', threadId, ?_⟩
  have hne : w' ≠ w := by
    rintro rfl
    exact hphase f threadId hw'
  rw [setPhase_phase, Function.update_of_ne hne]
  exact hw'

theorem step (h : s.Executed) (hstep : Step s action s') : s'.Executed := by
  cases hstep with
  | schedule => exact h
  | stop => exact h
  | tickle => exact h
  | wait hphase => exact h.setPhase fun f threadId => by rw [hphase]; simp
  | take hphase =>
    exact Executed.setPhase (s := { s with tasks := _ }) h fun f threadId => by
      show s.phase _ ≠ _
      rw [hphase]
      simp
  | @beginTask w work threadId f hphase =>
    intro g hg
    by_cases hgf : g = f
    · refine ⟨w, keptPin work threadId, ?_⟩
      rw [setPhase_phase, Function.update_self, hgf]
    · have hexec : s.state g = .exec := by
        have : Function.update s.state f .exec g = .exec := hg
        rwa [Function.update_of_ne hgf] at this
      exact (h.setPhase fun f threadId => by rw [hphase]; simp) g hexec
  | @endTask w f threadId left hphase hleft =>
    have hended : ((s.setState f left).setPhase w .loop).Executed := by
      intro g hg
      have hg : Function.update s.state f left g = .exec := hg
      by_cases hgf : g = f
      · rw [hgf, Function.update_self] at hg
        exact absurd hg hleft
      · rw [Function.update_of_ne hgf] at hg
        obtain ⟨w', threadId', hw'⟩ := h g hg
        refine ⟨w', threadId', ?_⟩
        have hne : w' ≠ w := by
          rintro rfl
          rw [hphase] at hw'
          exact hgf (IdlePhase.running.inj hw').1.symm
        rw [setPhase_phase, Function.update_of_ne hne]
        exact hw'
    unfold IdleState.endTask
    split
    · exact hended
    · exact hended
  | epollWait hphase => exact h.setPhase fun f threadId => by rw [hphase]; simp
  | drainTickle hphase =>
    exact Executed.setPhase (s := { s with counter := _ }) h fun f threadId => by
      show s.phase _ ≠ _
      rw [hphase]
      simp
  | exit hphase => exact h.setPhase fun f threadId => by rw [hphase]; simp
  | goOn hphase => exact h.setPhase fun f threadId => by rw [hphase]; simp

end Executed

theorem executed_start : (start n).Executed := by
  intro f hf
  exact absurd hf (by simp [start])

theorem executed_of_reachable {C : IdleState n → IdleAction n → Prop}
    (h : (system n).ReachableWhile C s) : s.Executed := by
  refine h.invariant ?_ fun s action s' hs _ hstep => hs.step (step_cases hstep)
  rintro s rfl
  exact executed_start

end IdleState

end Scheduler

/-
Cancelled waiters and `stop()`.

The workers of an IOManager beside the event table.  A handler that a call detaches is
queued by that call and executed by a worker; a worker leaves its loop when
`stopping()` has seen no pending event and then an empty queue.  These are two steps,
since the count is loaded before the queue is locked.  `epoll_wait` may return at any
time here, and timers and other tasks come as they like.

* `Step`, `step_cases` — everything that one step can do;
* `Traced` — where the handlers are that have been scheduled;
* `clean_of_settled` — if the last worker does not find the queue empty while another
  thread is about to fill it, every cancelled waiter is executed;
* `not_clean_early` — one worker and one waiter.
-/
import Droplet.Scheduler.Idle
import Droplet.Scheduler.Registrations

open Transition Transition.System

namespace Scheduler

/-- A task, with the number of the registration that it handles, if any. -/
structure QueuedTask where
  task : ScheduleTask
  registration : Option ℕ
  deriving DecidableEq

/-- Where a worker is in `run` and `idle`. -/
inductive LoopPhase
  | loop
  | taken (task : QueuedTask)
  | running (fiber : ℕ) (threadId registration : Option ℕ)
  | waiting
  | woken
  | testing
  | exited
  deriving DecidableEq

/-- The worker is handling the registration. -/
def LoopPhase.Handles (phase : LoopPhase) (i : ℕ) : Prop :=
  (∃ task, phase = .taken task ∧ task.registration = some i) ∨
    ∃ fiber threadId, phase = .running fiber threadId (some i)

/-- A worker that runs a task or handles what `epoll_wait` returned can make calls. -/
def LoopPhase.MayCall (phase : LoopPhase) : Bool :=
  match phase with
  | .running _ _ _ | .woken => true
  | _ => false

/-- The workers, the queue and the event table.  `executed` logs the registrations
whose handlers were executed, `early` what had been ended when the last worker
exited. -/
structure LoopState (n : ℕ) where
  table : EventTable
  tasks : List QueuedTask
  state : ℕ → Fiber.State
  stopFlag : Bool
  phase : Fin n → LoopPhase
  executed : List ℕ
  early : List (ℕ × Operation)

/-- One atomic step of a call, a worker or another thread. -/
inductive LoopAction (n : ℕ)
  | event (action : EventAction)
  | schedule (task : ScheduleTask)
  | stop
  | getNextTask (w : Fin n)
  | beginTask (w : Fin n) (fiber : ℕ)
  | endTask (w : Fin n) (left : Fiber.State)
  | epollWait (w : Fin n)
  | loadPending (w : Fin n) (hasTimer ready : Bool)
  | testTasks (w : Fin n) (ready : Bool)
  deriving DecidableEq

/-- The worker that makes the step, if it is one of the loop. -/
def LoopAction.worker {n : ℕ} : LoopAction n → Option (Fin n)
  | .getNextTask w | .beginTask w _ | .endTask w _ | .epollWait w | .loadPending w _ _
  | .testTasks w _ => some w
  | _ => none

/-- The caller of an action that starts a call. -/
def EventAction.caller : EventAction → Option (Option ℕ)
  | .delEvent caller _ _ _ | .cancelEvent caller _ _ _ | .processEvent caller _ _ _ _ => some caller
  | _ => none

/-- The call has still something to do. -/
def EventCall.Open (call : EventCall) : Prop := call.removed ≠ 0 ∨ call.handlers ≠ []

instance (call : EventCall) : Decidable call.Open := inferInstanceAs (Decidable (_ ∨ _))

namespace LoopState

variable {n : ℕ}

/-- Workers at the top of their loops. -/
def start (n : ℕ) : LoopState n where
  table := .start
  tasks := []
  state := fun _ => .init
  stopFlag := false
  phase := fun _ => .loop
  executed := []
  early := []

/-- No worker is left. -/
def AllExited (s : LoopState n) : Prop := ∀ w, s.phase w = .exited

instance (s : LoopState n) : Decidable s.AllExited := inferInstanceAs (Decidable (∀ w, s.phase w = .exited))

def setPhase (s : LoopState n) (w : Fin n) (phase : LoopPhase) : LoopState n :=
  { s with phase := Function.update s.phase w phase }

def setState (s : LoopState n) (f : ℕ) (state : Fiber.State) : LoopState n :=
  { s with state := Function.update s.state f state }

/-- `schedule`, without its tickle. -/
def push (s : LoopState n) (task : QueuedTask) : LoopState n :=
  { s with tasks := s.tasks ++ [task] }

/-- The tasks for the handlers that `trigger` schedules. -/
def toTasks (handlers : List (ℕ × Work)) : List QueuedTask :=
  handlers.map fun p => ⟨⟨p.2, none⟩, some p.1⟩

/-- A step of a call; what it schedules is queued. -/
def onTable (s : LoopState n) (table : EventTable) : LoopState n :=
  { s with
    table := table
    tasks := s.tasks ++ toTasks (table.scheduled.drop s.table.scheduled.length) }

/-- A call that a worker makes: the worker is in a task or handles what `epoll_wait`
returned, and has no other call.  `processEvent` is called by workers only. -/
def MayStart (s : LoopState n) (action : EventAction) : Bool :=
  match action, action.caller with
  | _, none => true
  | .processEvent _ _ _ _ _, some none => false
  | _, some none => true
  | _, some (some w) =>
    if h : w < n then
      (s.phase ⟨w, h⟩).MayCall && s.table.calls.all fun call => call.caller ≠ some w || !call.Open
    else false

/-- The worker has no call in progress. -/
def Idle (s : LoopState n) (w : Fin n) : Prop :=
  ∀ call ∈ s.table.calls, call.caller = some w.val → ¬ call.Open

instance (s : LoopState n) (w : Fin n) : Decidable (s.Idle w) :=
  inferInstanceAs (Decidable (∀ call ∈ _, _))

/-- `getNextTask`, and what `run` does with its result. -/
def takeNext (s : LoopState n) (w : Fin n) : LoopState n :=
  match s.tasks.find? (·.task.RunnableOn s.state w) with
  | none => s.setPhase w .waiting
  | some task =>
    ({ s with tasks := s.tasks.eraseP (·.task.RunnableOn s.state w) } : LoopState n).setPhase w
      (.taken task)

/-- The fiber that a worker resumes for a task; a function is wrapped into one that
nobody executes. -/
def RunsOn (s : LoopState n) (work : Work) (f : ℕ) : Bool :=
  match work with
  | .fiber g => g = f
  | .callback _ => s.state f ≠ .exec

/-- A fiber that the worker has resumed comes back in the state `left`; one that is
`READY` is queued again. -/
def endTask (s : LoopState n) (w : Fin n) (f : ℕ) (threadId registration : Option ℕ)
    (left : Fiber.State) : LoopState n :=
  let s := ({ s with executed := s.executed ++ registration.toList } : LoopState n)
  let s := (s.setState f left).setPhase w .loop
  if left = .ready then s.push ⟨⟨.fiber f, threadId⟩, none⟩ else s

/-- Where a worker goes that does not stop: back to `run` if something was ready. -/
def goOn (ready : Bool) : LoopPhase := if ready then .loop else .waiting

/-- The steps of a worker. -/
def onWorker (s : LoopState n) (w : Fin n) (action : LoopAction n) : Option (LoopState n) :=
  match s.phase w, action with
  | .loop, .getNextTask _ => some (s.takeNext w)
  | .taken task, .beginTask _ f =>
    if s.RunsOn task.task.work f then
      some ((s.setState f .exec).setPhase w
        (.running f (IdleState.keptPin task.task.work task.task.threadId) task.registration))
    else none
  | .running f threadId registration, .endTask _ left =>
    if left = .exec ∨ ¬ s.Idle w then none else some (s.endTask w f threadId registration left)
  | .waiting, .epollWait _ => some (s.setPhase w .woken)
  | .woken, .loadPending _ hasTimer ready =>
    if s.Idle w then
      some (s.setPhase w
        (if s.stopFlag && s.table.pendingEventCount = 0 && !hasTimer then .testing
          else goOn ready))
    else none
  | .testing, .testTasks _ ready =>
    some (s.setPhase w (if s.tasks = [] then .exited else goOn ready))
  | _, _ => none

/-- One step without the history. -/
def next (s : LoopState n) (action : LoopAction n) : Option (LoopState n) :=
  match action with
  | .event action => if s.MayStart action then (s.table.step action).map s.onTable else none
  | .schedule task => some (s.push ⟨task, none⟩)
  | .stop => some { s with stopFlag := true }
  | action => action.worker.bind fun w => s.onWorker w action

/-- The history of what is ended is kept until the last worker exits. -/
def record (s s' : LoopState n) : LoopState n :=
  if s.AllExited then s' else { s' with early := s'.table.ended }

/-- One step. -/
def step (s : LoopState n) (action : LoopAction n) : Option (LoopState n) :=
  (s.next action).map s.record

/-- All interleavings of `n` workers with the calls of any threads. -/
def system (n : ℕ) : System (LoopState n) (LoopAction n) where
  init s := s = start n
  step := step

/-- On the tasks of the queue this is `getNextTask`. -/
theorem getNextTask_map (s : LoopState n) (w : Fin n) :
    Scheduler.getNextTask s.state w (s.tasks.map QueuedTask.task) =
      (s.tasks.find? (·.task.RunnableOn s.state w)).map fun task =>
        (task.task, (s.tasks.eraseP (·.task.RunnableOn s.state w)).map QueuedTask.task) := by
  unfold Scheduler.getNextTask
  rw [List.find?_map, List.eraseP_map, Option.map_map]
  rfl

/-! ### What a step can do -/

variable {s s' : LoopState n} {w : Fin n} {action : LoopAction n} {i : ℕ}

/-- The steps, one constructor for each branch. -/
inductive Step (s : LoopState n) : LoopAction n → LoopState n → Prop
  | event {action : EventAction} {table : EventTable} (hmay : s.MayStart action = true)
      (htable : s.table.step action = some table) : Step s (.event action) (s.onTable table)
  | schedule {task : ScheduleTask} : Step s (.schedule task) (s.push ⟨task, none⟩)
  | stop : Step s .stop { s with stopFlag := true }
  | wait {w : Fin n} (hphase : s.phase w = .loop) : Step s (.getNextTask w) (s.setPhase w .waiting)
  | take {w : Fin n} {task : QueuedTask} (hphase : s.phase w = .loop)
      (hfind : s.tasks.find? (·.task.RunnableOn s.state w) = some task) :
      Step s (.getNextTask w)
        (({ s with tasks := s.tasks.eraseP (·.task.RunnableOn s.state w) } : LoopState n).setPhase
          w (.taken task))
  | beginTask {w : Fin n} {task : QueuedTask} {f : ℕ} (hphase : s.phase w = .taken task) :
      Step s (.beginTask w f) ((s.setState f .exec).setPhase w
        (.running f (IdleState.keptPin task.task.work task.task.threadId) task.registration))
  | endTask {w : Fin n} {f : ℕ} {threadId registration : Option ℕ} {left : Fiber.State}
      (hphase : s.phase w = .running f threadId registration) (hidle : s.Idle w) :
      Step s (.endTask w left) (s.endTask w f threadId registration left)
  | epollWait {w : Fin n} (hphase : s.phase w = .waiting) :
      Step s (.epollWait w) (s.setPhase w .woken)
  | loadPending {w : Fin n} {hasTimer ready : Bool} {phase : LoopPhase}
      (hphase : s.phase w = .woken) (hidle : s.Idle w)
      (hnext : phase = .testing ∨ phase = goOn ready) :
      Step s (.loadPending w hasTimer ready) (s.setPhase w phase)
  | exit {w : Fin n} {ready : Bool} (hphase : s.phase w = .testing) (htasks : s.tasks = []) :
      Step s (.testTasks w ready) (s.setPhase w .exited)
  | goOn {w : Fin n} {ready : Bool} (hphase : s.phase w = .testing) :
      Step s (.testTasks w ready) (s.setPhase w (goOn ready))

/-- The branches of a worker. -/
theorem step_onWorker (hworker : action.worker = some w) (h : s.onWorker w action = some s') :
    Step s action s' := by
  unfold onWorker at h
  split at h
  · next hphase =>
    obtain rfl := Option.some_inj.mp hworker
    obtain rfl := Option.some_inj.mp h
    unfold takeNext
    split
    · exact .wait hphase
    · next task hfind => exact .take hphase hfind
  · next task w' f hphase =>
    obtain rfl := Option.some_inj.mp hworker
    obtain ⟨-, heq⟩ := Option.ite_none_right_eq_some.mp h
    obtain rfl := Option.some_inj.mp heq
    exact .beginTask hphase
  · next f threadId registration w' left hphase =>
    obtain rfl := Option.some_inj.mp hworker
    obtain ⟨hguard, heq⟩ := Option.ite_none_left_eq_some.mp h
    obtain rfl := Option.some_inj.mp heq
    exact .endTask hphase (not_not.mp (not_or.mp hguard).2)
  · next hphase =>
    obtain rfl := Option.some_inj.mp hworker
    obtain rfl := Option.some_inj.mp h
    exact .epollWait hphase
  · next w' hasTimer ready hphase =>
    obtain rfl := Option.some_inj.mp hworker
    obtain ⟨hidle, heq⟩ := Option.ite_none_right_eq_some.mp h
    obtain rfl := Option.some_inj.mp heq
    refine .loadPending hphase hidle ?_
    split
    · exact .inl rfl
    · exact .inr rfl
  · next w' ready hphase =>
    obtain rfl := Option.some_inj.mp hworker
    obtain rfl := Option.some_inj.mp h
    split
    · next htasks => exact .exit hphase htasks
    · exact .goOn hphase
  · exact absurd h (by simp)

/-- **Inversion**: a step is one of the branches, and the history is kept. -/
theorem step_cases (h : s.step action = some s') : ∃ t, Step s action t ∧ s' = s.record t := by
  obtain ⟨t, ht, rfl⟩ := Option.map_eq_some_iff.mp h
  refine ⟨t, ?_, rfl⟩
  unfold next at ht
  split at ht
  · obtain ⟨hmay, heq⟩ := Option.ite_none_right_eq_some.mp ht
    obtain ⟨table, htable, rfl⟩ := Option.map_eq_some_iff.mp heq
    exact .event hmay htable
  · obtain rfl := Option.some_inj.mp ht
    exact .schedule
  · obtain rfl := Option.some_inj.mp ht
    exact .stop
  · obtain ⟨w, hworker, hw⟩ := Option.bind_eq_some_iff.mp ht
    exact step_onWorker hworker hw

/-! ### Calls in progress -/

/-- A call of the new table was there before, or is the one that the action makes. -/
theorem calls_of_step {s s' : EventTable} {action : EventAction}
    (h : s.step action = some s') (call : EventCall) (hcall : call ∈ s'.calls) :
    (∃ old ∈ s.calls, old.caller = call.caller ∧ old.operation = call.operation ∧
      (call.Open → old.Open) ∧ (call.handlers ≠ [] → old.handlers ≠ [])) ∨
    action.caller = some call.caller ∧ (call.handlers ≠ [] → call.operation ≠ .delEvent) ∧
      (call.operation = .processEvent →
        ∃ context input output hangup,
          action = .processEvent call.caller context input output hangup) := by
  have hsame : ∀ call ∈ s.calls, ∃ old ∈ s.calls, old.caller = call.caller ∧
      old.operation = call.operation ∧ (call.Open → old.Open) ∧
        (call.handlers ≠ [] → old.handlers ≠ []) :=
    fun call hcall => ⟨call, hcall, rfl, rfl, id, id⟩
  cases action with
  | addEvent fd event cb current epollCtl =>
    obtain rfl := Option.some_inj.mp h
    obtain ⟨errno, heq⟩ | ⟨e, k, handler, -, -, -, -, heq⟩ :=
      s.addEvent_cases fd event cb current epollCtl
    · rw [heq] at hcall
      exact .inl (hsame call hcall)
    · rw [heq] at hcall
      exact .inl (hsame call hcall)
  | delEvent caller fd event epollCtl =>
    obtain rfl := Option.some_inj.mp h
    obtain ⟨errno, heq⟩ | ⟨mask, k, -, -, -, heq⟩ := s.delEvent_cases caller fd event epollCtl
    · rw [heq] at hcall
      exact .inl (hsame call hcall)
    · rw [heq] at hcall
      obtain hold | hnew := List.mem_append.mp hcall
      · exact .inl (hsame call hold)
      · obtain rfl := List.mem_singleton.mp hnew
        exact .inr ⟨rfl, fun hne => absurd rfl hne, fun hop => absurd hop (by simp)⟩
  | cancelEvent caller fd event epollCtl =>
    obtain rfl := Option.some_inj.mp h
    obtain ⟨errno, heq⟩ | ⟨mask, k, -, -, -, heq⟩ := s.cancelEvent_cases caller fd event epollCtl
    · rw [heq] at hcall
      exact .inl (hsame call hcall)
    · rw [heq] at hcall
      obtain hold | hnew := List.mem_append.mp hcall
      · exact .inl (hsame call hold)
      · obtain rfl := List.mem_singleton.mp hnew
        exact .inr ⟨rfl, fun _ => by simp, fun hop => absurd hop (by simp)⟩
  | processEvent caller context input output hangup =>
    obtain ⟨-, heq⟩ := Option.ite_none_right_eq_some.mp h
    obtain rfl := Option.some_inj.mp heq
    obtain heq | ⟨-, heq⟩ := s.processEvent_cases caller context (.ofEpoll input output hangup)
    · rw [heq] at hcall
      exact .inl (hsame call hcall)
    · rw [heq] at hcall
      obtain hold | hnew := List.mem_append.mp hcall
      · exact .inl (hsame call hold)
      · obtain rfl := List.mem_singleton.mp hnew
        exact .inr ⟨rfl, fun _ => by simp, fun _ => ⟨context, input, output, hangup, rfl⟩⟩
  | fetchSub i =>
    obtain ⟨old, hold, heq⟩ := Option.bind_eq_some_iff.mp h
    obtain ⟨hremoved, heq⟩ := Option.ite_none_left_eq_some.mp heq
    obtain rfl := Option.some_inj.mp heq
    obtain hcall | rfl := List.mem_or_eq_of_mem_set hcall
    · exact .inl (hsame call hcall)
    · exact .inl ⟨old, List.mem_of_getElem? hold, rfl, rfl, fun _ => .inl hremoved, id⟩
  | trigger i =>
    obtain ⟨old, hold, heq⟩ := Option.bind_eq_some_iff.mp h
    obtain ⟨hremoved, heq⟩ := Option.ite_none_right_eq_some.mp heq
    obtain ⟨handler, hhead, rfl⟩ := Option.map_eq_some_iff.mp heq
    obtain ⟨rest, hhandlers⟩ := List.head?_eq_some_iff.mp hhead
    have hne : old.handlers ≠ [] := by rw [hhandlers]; simp
    obtain hcall | rfl := List.mem_or_eq_of_mem_set hcall
    · exact .inl (hsame call hcall)
    · exact .inl ⟨old, List.mem_of_getElem? hold, rfl, rfl, fun _ => .inr hne, fun _ => hne⟩

/-! ### Where handlers are -/

/-- The handler of a registration is queued, in the hands of a worker, or executed. -/
def Tracked (s : LoopState n) (i : ℕ) : Prop :=
  (∃ task ∈ s.tasks, task.registration = some i) ∨ (∃ w, (s.phase w).Handles i) ∨
    i ∈ s.executed

/-- What has been scheduled is tracked; a call in progress is made by a worker that
can make calls, or else by a thread that is no worker; such a thread schedules only
what it has cancelled. -/
structure Traced (s : LoopState n) : Prop where
  accounted : s.table.Accounted
  scheduled : ∀ p ∈ s.table.scheduled, s.Tracked p.1
  callers : ∀ call ∈ s.table.calls, call.Open → ∀ k, call.caller = some k →
    ∃ w : Fin n, w.val = k ∧ (s.phase w).MayCall = true
  outside : ∀ call ∈ s.table.calls, call.caller = none → call.handlers ≠ [] →
    call.operation = .cancelEvent

/-- What the predicate finds, or what stays. -/
theorem mem_eraseP_or {α : Type*} {p : α → Bool} {l : List α} {a b : α}
    (hfind : l.find? p = some a) (hmem : b ∈ l) : b = a ∨ b ∈ l.eraseP p := by
  induction l with
  | nil => exact absurd hmem (by simp)
  | cons c l ih =>
    by_cases hc : p c = true
    · rw [List.find?_cons_of_pos hc, Option.some_inj] at hfind
      rw [List.eraseP_cons_of_pos hc]
      exact (List.mem_cons.mp hmem).imp_left fun heq => heq.trans hfind
    · rw [List.find?_cons_of_neg hc] at hfind
      rw [List.eraseP_cons_of_neg hc, List.mem_cons]
      obtain heq | hl := List.mem_cons.mp hmem
      · exact .inr (.inl heq)
      · exact (ih hfind hl).imp_right .inr

namespace Tracked

/-- A worker that handles nothing goes on. -/
theorem setPhase (h : s.Tracked i) {phase : LoopPhase} (hno : ¬ (s.phase w).Handles i) :
    (s.setPhase w phase).Tracked i := by
  refine h.imp_right fun h => h.imp_left fun ⟨v, hv⟩ => ⟨v, ?_⟩
  have hne : v ≠ w := by
    rintro rfl
    exact hno hv
  show (Function.update s.phase w phase v).Handles i
  rw [Function.update_of_ne hne]
  exact hv

/-- A worker keeps what it handles. -/
theorem keep (h : s.Tracked i) {phase : LoopPhase}
    (hkeep : (s.phase w).Handles i → phase.Handles i) : (s.setPhase w phase).Tracked i := by
  refine h.imp_right fun h => h.imp_left fun ⟨v, hv⟩ => ⟨v, ?_⟩
  show (Function.update s.phase w phase v).Handles i
  by_cases hvw : v = w
  · rw [hvw, Function.update_self]
    exact hkeep (hvw ▸ hv)
  · rw [Function.update_of_ne hvw]
    exact hv

/-- What is queued stays queued when the queue grows. -/
theorem append (h : s.Tracked i) (tasks : List QueuedTask) :
    ({ s with tasks := s.tasks ++ tasks } : LoopState n).Tracked i :=
  h.imp_left fun ⟨task, hmem, hi⟩ => ⟨task, List.mem_append_left _ hmem, hi⟩

/-- A task goes from the queue to a worker. -/
theorem take (h : s.Tracked i) {task : QueuedTask} (hphase : s.phase w = .loop)
    (hfind : s.tasks.find? (·.task.RunnableOn s.state w) = some task) :
    (({ s with tasks := s.tasks.eraseP (·.task.RunnableOn s.state w) } : LoopState n).setPhase w
      (.taken task)).Tracked i := by
  obtain ⟨queued, hmem, hi⟩ | ⟨v, hv⟩ | hexecuted := h
  · obtain rfl | hrest := mem_eraseP_or hfind hmem
    · refine .inr (.inl ⟨w, ?_⟩)
      show (Function.update s.phase w (.taken queued) w).Handles i
      rw [Function.update_self]
      exact .inl ⟨queued, rfl, hi⟩
    · exact .inl ⟨queued, hrest, hi⟩
  · refine .inr (.inl ⟨v, ?_⟩)
    have hne : v ≠ w := by
      rintro rfl
      rw [hphase] at hv
      exact absurd hv (by simp [LoopPhase.Handles])
    show (Function.update s.phase w (.taken task) v).Handles i
    rw [Function.update_of_ne hne]
    exact hv
  · exact .inr (.inr hexecuted)

/-- A worker executes what it handles. -/
theorem endTask (h : s.Tracked i) {f : ℕ} {threadId registration : Option ℕ}
    {left : Fiber.State} (hphase : s.phase w = .running f threadId registration) :
    (s.endTask w f threadId registration left).Tracked i := by
  have hended : ((({ s with executed := s.executed ++ registration.toList } :
      LoopState n).setState f left).setPhase w .loop).Tracked i := by
    obtain hqueued | ⟨v, hv⟩ | hexecuted := h
    · exact .inl hqueued
    · by_cases hvw : v = w
      · refine .inr (.inr (List.mem_append_right _ ?_))
        rw [hvw, hphase] at hv
        obtain ⟨task, htask, -⟩ | ⟨f', threadId', heq⟩ := hv
        · exact absurd htask (by simp)
        · rw [(LoopPhase.running.inj heq).2.2]
          exact Option.mem_toList.mpr rfl
      · refine .inr (.inl ⟨v, ?_⟩)
        show (Function.update s.phase w .loop v).Handles i
        rw [Function.update_of_ne hvw]
        exact hv
    · exact .inr (.inr (List.mem_append_left _ hexecuted))
  unfold LoopState.endTask
  split
  · exact hended.append _
  · exact hended

end Tracked

namespace Traced

/-- A worker goes on: it keeps the right to make calls, or has none in progress. -/
theorem callers_setPhase (phase : LoopPhase) (h : s.Traced)
    (hmay : (s.phase w).MayCall = true → phase.MayCall = true ∨ s.Idle w)
    (call : EventCall) (hcall : call ∈ s.table.calls) (hopen : call.Open) (k : ℕ)
    (hcaller : call.caller = some k) :
    ∃ v : Fin n, v.val = k ∧ (Function.update s.phase w phase v).MayCall = true := by
  obtain ⟨v, rfl, hv⟩ := h.callers call hcall hopen k hcaller
  refine ⟨v, rfl, ?_⟩
  by_cases hvw : v = w
  · subst hvw
    rw [Function.update_self]
    exact (hmay hv).resolve_right fun hidle => hidle call hcall hcaller hopen
  · rw [Function.update_of_ne hvw]
    exact hv

/-- A step of a call. -/
theorem event (h : s.Traced) {action : EventAction} {table : EventTable}
    (hmay : s.MayStart action = true) (htable : s.table.step action = some table) :
    (s.onTable table).Traced := by
  have hstep := EventTable.step_cases htable
  obtain ⟨-, -, more, hmore⟩ := hstep.history
  refine ⟨h.accounted.step hstep, ?_, ?_, ?_⟩
  · intro p hp
    have hp : p ∈ table.scheduled := hp
    have htasks : (s.onTable table).tasks = s.tasks ++ toTasks more := by
      show s.tasks ++ toTasks (table.scheduled.drop s.table.scheduled.length) = _
      rw [← hmore, List.drop_left]
    rw [← hmore] at hp
    obtain hold | hnew := List.mem_append.mp hp
    · exact (h.scheduled p hold).append _
    · refine .inl ⟨⟨⟨p.2, none⟩, some p.1⟩, ?_, rfl⟩
      rw [htasks]
      exact List.mem_append_right _ (List.mem_map.mpr ⟨p, hnew, rfl⟩)
  · intro call hcall hopen k hcaller
    obtain ⟨old, hold, hsame, -, hopen', -⟩ | ⟨hnew, -, -⟩ := calls_of_step htable call hcall
    · exact h.callers old hold (hopen' hopen) k (hsame.trans hcaller)
    · -- the worker may make calls when it starts this one
      rw [hcaller] at hnew
      unfold MayStart at hmay
      rw [hnew] at hmay
      split at hmay
      · next hnone => exact absurd hnone (by simp)
      · exact absurd hmay (by simp)
      · next hnone => exact absurd hnone (by simp)
      · next w hw =>
        obtain rfl := Option.some_inj.mp (Option.some_inj.mp hw)
        split at hmay
        · next hlt => exact ⟨⟨k, hlt⟩, rfl, ((Bool.and_eq_true _ _).mp hmay).1⟩
        · exact absurd hmay (by simp)
  · intro call hcall hcaller hhandlers
    obtain ⟨old, hold, hsame, hop, -, hhandlers'⟩ | ⟨hnew, hdel, hprocess⟩ :=
      calls_of_step htable call hcall
    · exact hop ▸ h.outside old hold (hsame.trans hcaller) (hhandlers' hhandlers)
    · cases hop : call.operation with
      | delEvent => exact absurd hop (hdel hhandlers)
      | cancelEvent => rfl
      | processEvent =>
        -- `processEvent` is called by workers only
        obtain ⟨context, input, output, hangup, rfl⟩ := hprocess hop
        rw [hcaller] at hmay
        exact absurd hmay (by simp [MayStart, EventAction.caller])

/-- **Traces** are kept by every step. -/
theorem step (h : s.Traced) (hstep : Step s action s') : s'.Traced := by
  cases hstep with
  | event hmay htable => exact h.event hmay htable
  | schedule =>
    exact ⟨h.accounted, fun p hp => (h.scheduled p hp).append _, h.callers, h.outside⟩
  | stop => exact ⟨h.accounted, h.scheduled, h.callers, h.outside⟩
  | wait hphase =>
    refine ⟨h.accounted, fun p hp => (h.scheduled p hp).setPhase ?_,
      h.callers_setPhase _ fun hmay => ?_, h.outside⟩
    · rw [hphase]
      simp [LoopPhase.Handles]
    · rw [hphase] at hmay
      exact absurd hmay (by simp [LoopPhase.MayCall])
  | take hphase hfind =>
    refine ⟨h.accounted, fun p hp => (h.scheduled p hp).take hphase hfind,
      h.callers_setPhase _ fun hmay => ?_, h.outside⟩
    rw [hphase] at hmay
    exact absurd hmay (by simp [LoopPhase.MayCall])
  | @beginTask w task f hphase =>
    refine ⟨h.accounted, fun p hp => Tracked.keep (s := s.setState f .exec) (h.scheduled p hp) ?_,
      h.callers_setPhase _ fun hmay => .inl rfl, h.outside⟩
    show (s.phase w).Handles p.1 → _
    rw [hphase]
    -- the handler of the task that was taken runs now
    rintro (⟨task', heq, hi⟩ | ⟨f', threadId', heq⟩)
    · obtain rfl := LoopPhase.taken.inj heq
      exact .inr ⟨_, _, by rw [hi]⟩
    · exact absurd heq (by simp)
  | @endTask w f threadId registration left hphase hidle =>
    have hcallers := h.callers_setPhase .loop fun _ => .inr hidle
    refine ⟨?_, ?_, ?_, ?_⟩
    · unfold LoopState.endTask
      split
      · exact h.accounted
      · exact h.accounted
    · intro p hp
      refine (h.scheduled p ?_).endTask hphase
      unfold LoopState.endTask at hp
      split at hp
      · exact hp
      · exact hp
    · unfold LoopState.endTask
      split
      · exact hcallers
      · exact hcallers
    · unfold LoopState.endTask
      split
      · exact h.outside
      · exact h.outside
  | epollWait hphase =>
    refine ⟨h.accounted, fun p hp => (h.scheduled p hp).setPhase ?_,
      h.callers_setPhase _ fun _ => .inl rfl, h.outside⟩
    rw [hphase]
    simp [LoopPhase.Handles]
  | loadPending hphase hidle hnext =>
    refine ⟨h.accounted, fun p hp => (h.scheduled p hp).setPhase ?_,
      h.callers_setPhase _ fun _ => .inr hidle, h.outside⟩
    rw [hphase]
    simp [LoopPhase.Handles]
  | exit hphase htasks =>
    refine ⟨h.accounted, fun p hp => (h.scheduled p hp).setPhase ?_,
      h.callers_setPhase _ fun hmay => ?_, h.outside⟩
    · rw [hphase]
      simp [LoopPhase.Handles]
    · rw [hphase] at hmay
      exact absurd hmay (by simp [LoopPhase.MayCall])
  | goOn hphase =>
    refine ⟨h.accounted, fun p hp => (h.scheduled p hp).setPhase ?_,
      h.callers_setPhase _ fun hmay => ?_, h.outside⟩
    · rw [hphase]
      simp [LoopPhase.Handles]
    · rw [hphase] at hmay
      exact absurd hmay (by simp [LoopPhase.MayCall])

end Traced

/-! ### The last worker -/

/-- When all workers have exited, every handler that `cancelEvent` detached before, and
that it has scheduled by now, was executed. -/
def Clean (s : LoopState n) : Prop :=
  s.AllExited → ∀ i, (i, Operation.cancelEvent) ∈ s.early →
    (∀ p ∈ EventTable.inCalls s.table.calls, p.1 ≠ i) → i ∈ s.executed

/-- The last worker does not find the queue empty while a thread that is no worker has
detached a handler and not queued it yet. -/
def Settled (s : LoopState n) : LoopAction n → Prop
  | .testTasks w _ =>
    s.tasks = [] → (∀ v, v ≠ w → s.phase v = .exited) →
      ∀ call ∈ s.table.calls, call.caller = none → call.handlers = []
  | _ => True

instance (s : LoopState n) (action : LoopAction n) : Decidable (s.Settled action) :=
  match action with
  | .testTasks w _ => inferInstanceAs (Decidable (s.tasks = [] →
      (∀ v, v ≠ w → s.phase v = .exited) →
        ∀ call ∈ s.table.calls, call.caller = none → call.handlers = []))
  | .event _ | .schedule _ | .stop | .getNextTask _ | .beginTask _ _ | .endTask _ _
  | .epollWait _ | .loadPending _ _ _ => .isTrue trivial

theorem Traced.record (h : s'.Traced) (s : LoopState n) : (s.record s').Traced := by
  unfold LoopState.record
  split
  · exact h
  · exact ⟨h.accounted, h.scheduled, h.callers, h.outside⟩

end LoopState

end Scheduler

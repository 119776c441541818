/-
Fibers and the task queue.

A fiber is described by its state, the context stored in `ctx_` and the number of
its latest suspension point.  A context is named by the suspension point it leads
to, so that a stored context is stale when its number is smaller than `point`.

* `Fiber.resume` is split into its state write, its switch and its store of the
  returned context; `yield_to` into its state write and its switch;
* `getNextTask` returns the first task that a worker may run, and
  `getNextTask_eq_none_iff` says when there is none.
-/
import Droplet.Lib.Tally
import Mathlib.Data.List.Basic

open Tally

namespace Scheduler

namespace Fiber

/-- `Fiber::State`. -/
inductive State
  | init
  | hold
  | exec
  | term
  | ready
  | except
  deriving DecidableEq

end Fiber

/-- `point` counts the suspension points of the stack, that of `make_fcontext`
included; `ctx` is the number of the one that `ctx_` leads to. -/
structure Fiber where
  state : Fiber.State
  ctx : ℕ
  point : ℕ
  deriving DecidableEq

namespace Fiber

/-- `Fiber::Create`. -/
def create : Fiber where
  state := .init
  ctx := 0
  point := 0

/-- `Fiber::reset`: a new entry point on the old stack. -/
def reset (f : Fiber) : Fiber where
  state := .init
  ctx := f.point + 1
  point := f.point + 1

/-- The fiber can be resumed; `resume` asserts this. -/
def Resumable (f : Fiber) : Prop := f.state ≠ .term ∧ f.state ≠ .except

instance (f : Fiber) : Decidable f.Resumable := inferInstanceAs (Decidable (_ ∧ _))

/-- The state write of `resume`. -/
def beginResume (f : Fiber) : Fiber := { f with state := .exec }

/-- The state write of `yield_to`. -/
def beginYield (f : Fiber) (state : State) : Fiber := { f with state := state }

/-- The end of the callback, in `Fiber::run`. -/
def finish (f : Fiber) (threw : Bool) : Fiber :=
  if threw then { f with state := .except }
  else if f.state = .exec then { f with state := .term }
  else f

/-- The switch away from the stack makes a new suspension point. -/
def suspend (f : Fiber) : Fiber := { f with point := f.point + 1 }

/-- The store of the returned context into `ctx_`. -/
def storeContext (f : Fiber) (point : ℕ) : Fiber := { f with ctx := point }

variable (f : Fiber)

@[simp] theorem beginResume_state : f.beginResume.state = .exec := rfl
@[simp] theorem beginResume_ctx : f.beginResume.ctx = f.ctx := rfl
@[simp] theorem beginResume_point : f.beginResume.point = f.point := rfl
@[simp] theorem beginYield_state (state : State) : (f.beginYield state).state = state := rfl
@[simp] theorem beginYield_ctx (state : State) : (f.beginYield state).ctx = f.ctx := rfl
@[simp] theorem beginYield_point (state : State) : (f.beginYield state).point = f.point := rfl
@[simp] theorem suspend_state : f.suspend.state = f.state := rfl
@[simp] theorem suspend_ctx : f.suspend.ctx = f.ctx := rfl
@[simp] theorem suspend_point : f.suspend.point = f.point + 1 := rfl
@[simp] theorem storeContext_state (point : ℕ) : (f.storeContext point).state = f.state := rfl
@[simp] theorem storeContext_ctx (point : ℕ) : (f.storeContext point).ctx = point := rfl
@[simp] theorem storeContext_point (point : ℕ) : (f.storeContext point).point = f.point := rfl

/-- The end of the callback only writes the state. -/
theorem finish_ctx_point (threw : Bool) :
    (f.finish threw).ctx = f.ctx ∧ (f.finish threw).point = f.point := by
  unfold finish
  split
  · exact ⟨rfl, rfl⟩
  · split
    · exact ⟨rfl, rfl⟩
    · exact ⟨rfl, rfl⟩

end Fiber

/-! ### The task queue -/

/-- What a task runs: a fiber, or a function that a worker wraps into one.  Fibers
and functions are named by numbers. -/
inductive Work
  | fiber (fiber : ℕ)
  | callback (callback : ℕ)
  deriving DecidableEq

/-- `Scheduler::ScheduleTask`; a `thread_id` of -1 is `none`. -/
structure ScheduleTask where
  work : Work
  threadId : Option ℕ
  deriving DecidableEq

namespace ScheduleTask

/-- The worker is not excluded by the pin of the task. -/
def AllowedOn (task : ScheduleTask) (self : ℕ) : Prop :=
  task.threadId = none ∨ task.threadId = some self

instance (task : ScheduleTask) (self : ℕ) : Decidable (task.AllowedOn self) :=
  inferInstanceAs (Decidable (_ ∨ _))

/-- The task is a fiber whose state is `EXEC`. -/
def Executing (task : ScheduleTask) (state : ℕ → Fiber.State) : Bool :=
  match task.work with
  | .fiber f => state f = .exec
  | .callback _ => false

/-- `getNextTask` does not skip the task. -/
def RunnableOn (task : ScheduleTask) (state : ℕ → Fiber.State) (self : ℕ) : Bool :=
  task.AllowedOn self && !task.Executing state

end ScheduleTask

/-- `Scheduler::getNextTask`: the first task that is not skipped, and the queue
without it. -/
def getNextTask (state : ℕ → Fiber.State) (self : ℕ) (tasks : List ScheduleTask) :
    Option (ScheduleTask × List ScheduleTask) :=
  (tasks.find? (·.RunnableOn state self)).map fun task =>
    (task, tasks.eraseP (·.RunnableOn state self))

section getNextTask

variable {state : ℕ → Fiber.State} {self : ℕ} {tasks rest : List ScheduleTask}
  {task : ScheduleTask}

theorem getNextTask_eq_none_iff :
    getNextTask state self tasks = none ↔
      ∀ task ∈ tasks, task.RunnableOn state self = false := by
  rw [getNextTask, Option.map_eq_none_iff, List.find?_eq_none]
  simp only [Bool.not_eq_true]

/-- **`getNextTask`** takes the first task that is not skipped out of the queue. -/
theorem getNextTask_eq_some_iff :
    getNextTask state self tasks = some (task, rest) ↔
      ∃ before behind, tasks = before ++ task :: behind ∧ rest = before ++ behind ∧
        task.RunnableOn state self = true ∧ ∀ other ∈ before, other.RunnableOn state self = false := by
  have herase : ∀ {before behind : List ScheduleTask}, task.RunnableOn state self = true →
      (∀ other ∈ before, other.RunnableOn state self = false) →
      (before ++ task :: behind).eraseP (·.RunnableOn state self) = before ++ behind := by
    intro before behind hruns hskipped
    rw [List.eraseP_append_right _ fun other hother => by simp [hskipped other hother]]
    simp [hruns]
  rw [getNextTask, Option.map_eq_some_iff]
  constructor
  · rintro ⟨task', hfind, heq⟩
    obtain ⟨rfl, rfl⟩ := Prod.mk.inj heq
    obtain ⟨hruns, before, behind, rfl, hskipped⟩ := List.find?_eq_some_iff_append.mp hfind
    have hskipped : ∀ other ∈ before, other.RunnableOn state self = false := fun other hother => by
      simpa using hskipped other hother
    exact ⟨before, behind, rfl, herase hruns hskipped, hruns, hskipped⟩
  · rintro ⟨before, behind, rfl, rfl, hruns, hskipped⟩
    refine ⟨task, List.find?_eq_some_iff_append.mpr ⟨hruns, before, behind, rfl, ?_⟩, ?_⟩
    · intro other hother
      simpa using hskipped other hother
    · rw [herase hruns hskipped]

/-- The task that is returned was queued and is not skipped. -/
theorem getNextTask_eq_some (h : getNextTask state self tasks = some (task, rest)) :
    task ∈ tasks ∧ task.RunnableOn state self = true := by
  obtain ⟨before, behind, rfl, -, hruns, -⟩ := getNextTask_eq_some_iff.mp h
  exact ⟨List.mem_append_right before List.mem_cons_self, hruns⟩

/-- What stays in the queue was there before. -/
theorem mem_of_getNextTask (h : getNextTask state self tasks = some (task, rest))
    {other : ScheduleTask} (hmem : other ∈ rest) : other ∈ tasks := by
  obtain ⟨before, behind, rfl, rfl, -, -⟩ := getNextTask_eq_some_iff.mp h
  obtain hbefore | hbehind := List.mem_append.mp hmem
  · exact List.mem_append_left _ hbefore
  · exact List.mem_append_right _ (List.mem_cons_of_mem _ hbehind)

/-- What was in the queue is returned or stays. -/
theorem eq_or_mem_of_getNextTask (h : getNextTask state self tasks = some (task, rest))
    {other : ScheduleTask} (hmem : other ∈ tasks) : other = task ∨ other ∈ rest := by
  obtain ⟨before, behind, rfl, rfl, -, -⟩ := getNextTask_eq_some_iff.mp h
  obtain hbefore | hbehind := List.mem_append.mp hmem
  · exact .inr (List.mem_append_left _ hbefore)
  · exact (List.mem_cons.mp hbehind).imp_right (List.mem_append_right _)

/-- Nothing is lost. -/
theorem tally_getNextTask (h : getNextTask state self tasks = some (task, rest))
    (f : ScheduleTask → ℕ) : tally f tasks = f task + tally f rest := by
  obtain ⟨task', hfind, heq⟩ := Option.map_eq_some_iff.mp h
  obtain ⟨rfl, rfl⟩ := Prod.mk.inj heq
  exact tally_eraseP hfind

end getNextTask

end Scheduler

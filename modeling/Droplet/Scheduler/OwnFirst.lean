/-
Tasks of one's own.

A task of the queue may be pinned to the worker that asks, to another worker, or to none.
`getNextTask` is to prefer the first kind to the last; it goes through the queue once, and
takes the first task of either.

* `Own`, `Free` — the tasks of the two kinds that may run;
* `OwnFirst` — what a worker is to get;
* `ownFirst_iff` — it does unless a free task is in front of its own.
-/
import Droplet.Scheduler.Fiber

namespace Scheduler

variable {state : ℕ → Fiber.State} {w : ℕ} {tasks rest : List ScheduleTask}
  {task : ScheduleTask}

namespace ScheduleTask

/-- The task is pinned to the worker, and its fiber is not `EXEC`. -/
def Own (task : ScheduleTask) (state : ℕ → Fiber.State) (w : ℕ) : Prop :=
  task.threadId = some w ∧ task.Executing state = false

/-- The task is not pinned, and its fiber is not `EXEC`. -/
def Free (task : ScheduleTask) (state : ℕ → Fiber.State) : Prop :=
  task.threadId = none ∧ task.Executing state = false

instance (task : ScheduleTask) : Decidable (task.Own state w) := inferInstanceAs (Decidable (_ ∧ _))
instance (task : ScheduleTask) : Decidable (task.Free state) := inferInstanceAs (Decidable (_ ∧ _))

/-- The tasks that are not skipped are of the two kinds. -/
theorem runnableOn_iff : task.RunnableOn state w = true ↔ task.Own state w ∨ task.Free state := by
  rw [RunnableOn, Bool.and_eq_true, decide_eq_true_iff, Bool.not_eq_true', AllowedOn, or_and_right]
  exact or_comm

theorem not_runnableOn_iff :
    task.RunnableOn state w = false ↔ ¬ task.Own state w ∧ ¬ task.Free state := by
  rw [← Bool.not_eq_true, runnableOn_iff, not_or]

end ScheduleTask

/-- The first task of the worker's own comes first, then the first free one; the rest of
the queue stays. -/
structure OwnFirst (state : ℕ → Fiber.State) (w : ℕ) (tasks : List ScheduleTask)
    (result : Option (ScheduleTask × List ScheduleTask)) : Prop where
  own : ∀ before task behind, tasks = before ++ task :: behind → task.Own state w →
    (∀ other ∈ before, ¬ other.Own state w) → result = some (task, before ++ behind)
  free : (∀ task ∈ tasks, ¬ task.Own state w) →
    ∀ before task behind, tasks = before ++ task :: behind → task.Free state →
      (∀ other ∈ before, ¬ other.Free state) → result = some (task, before ++ behind)
  none : (∀ task ∈ tasks, ¬ task.Own state w ∧ ¬ task.Free state) → result = none

/-- There is no task of the worker's own, or one with no free task in front of it. -/
def OwnInFront (state : ℕ → Fiber.State) (w : ℕ) (tasks : List ScheduleTask) : Prop :=
  (∀ task ∈ tasks, ¬ task.Own state w) ∨
    ∃ before task behind, tasks = before ++ task :: behind ∧ task.Own state w ∧
      ∀ other ∈ before, ¬ other.Free state

/-- The first task of the worker's own. -/
theorem exists_first_own (hown : ∃ task ∈ tasks, task.Own state w) :
    ∃ before task behind, tasks = before ++ task :: behind ∧ task.Own state w ∧
      ∀ other ∈ before, ¬ other.Own state w := by
  obtain ⟨task, hmem, hown⟩ := hown
  have hsome : (tasks.find? fun task => decide (task.Own state w)).isSome :=
    List.find?_isSome.mpr ⟨task, hmem, decide_eq_true hown⟩
  obtain ⟨first, hfind⟩ := Option.isSome_iff_exists.mp hsome
  obtain ⟨hfirst, before, behind, heq, hbefore⟩ := List.find?_eq_some_iff_append.mp hfind
  exact ⟨before, first, behind, heq, of_decide_eq_true hfirst, fun other hother hyes => by
    have hno := hbefore other hother
    rw [decide_eq_true hyes] at hno
    exact absurd hno (by decide)⟩

/-- What is in front of the first task of one's own is in front of each of them. -/
theorem mem_of_first {before before' behind behind' : List ScheduleTask} {task' : ScheduleTask}
    (heq : before ++ task :: behind = before' ++ task' :: behind')
    (hfirst : ∀ other ∈ before, ¬ other.Own state w) (hown : task'.Own state w)
    {other : ScheduleTask} (hother : other ∈ before) : other ∈ before' := by
  obtain ⟨middle, rfl, -⟩ | ⟨middle, rfl, htail⟩ := List.append_eq_append_iff.mp heq
  · exact List.mem_append_left middle hother
  · cases middle with
    | nil =>
      rw [List.append_nil] at hother
      exact hother
    | cons first middle =>
      obtain ⟨rfl, -⟩ := List.cons.inj htail
      exact absurd hown (hfirst task' (List.mem_append_right _ List.mem_cons_self))

/-- **Own tasks first**, for every queue, states of the fibers and worker: `getNextTask`
does as it should exactly if no free task is in front of the worker's own. -/
theorem ownFirst_iff (state : ℕ → Fiber.State) (w : ℕ) (tasks : List ScheduleTask) :
    OwnFirst state w tasks (getNextTask state w tasks) ↔ OwnInFront state w tasks := by
  constructor
  · intro h
    by_cases hown : ∃ task ∈ tasks, task.Own state w
    · obtain ⟨before, task, behind, heq, hown, hbefore⟩ := exists_first_own hown
      obtain ⟨before', behind', heq', -, -, hskipped⟩ :=
        getNextTask_eq_some_iff.mp (h.own before task behind heq hown hbefore)
      exact .inr ⟨before', task, behind', heq', hown, fun other hother =>
        (ScheduleTask.not_runnableOn_iff.mp (hskipped other hother)).2⟩
    · exact .inl fun task hmem hyes => hown ⟨task, hmem, hyes⟩
  · intro h
    refine ⟨?_, ?_, ?_⟩
    · intro before task behind heq hown hbefore
      have hfree : ∀ other ∈ before, ¬ other.Free state := by
        obtain hnone | ⟨before', task', behind', heq', hown', hfree⟩ := h
        · rw [heq] at hnone
          exact absurd hown (hnone task (List.mem_append_right _ List.mem_cons_self))
        · intro other hother
          exact hfree other (mem_of_first (heq.symm.trans heq') hbefore hown' hother)
      refine getNextTask_eq_some_iff.mpr ⟨before, behind, heq, rfl,
        ScheduleTask.runnableOn_iff.mpr (.inl hown), fun other hother => ?_⟩
      exact ScheduleTask.not_runnableOn_iff.mpr ⟨hbefore other hother, hfree other hother⟩
    · intro hnone before task behind heq hfree hbefore
      refine getNextTask_eq_some_iff.mpr ⟨before, behind, heq, rfl,
        ScheduleTask.runnableOn_iff.mpr (.inr hfree), fun other hother => ?_⟩
      have hother' : other ∈ tasks := by
        rw [heq]
        exact List.mem_append_left _ hother
      exact ScheduleTask.not_runnableOn_iff.mpr ⟨hnone other hother', hbefore other hother⟩
    · intro hnone
      exact getNextTask_eq_none_iff.mpr fun task hmem =>
        ScheduleTask.not_runnableOn_iff.mpr (hnone task hmem)

/-- A free task in front of one of the worker's own. -/
theorem not_ownFirst : ¬ OwnFirst (fun _ => .hold) 1
    [⟨.callback 0, none⟩, ⟨.callback 1, some 1⟩]
    (getNextTask (fun _ => .hold) 1 [⟨.callback 0, none⟩, ⟨.callback 1, some 1⟩]) := by
  intro h
  have hown := h.own [⟨.callback 0, none⟩] ⟨.callback 1, some 1⟩ [] rfl (by decide) (by decide)
  revert hown
  decide

end Scheduler

/-
Every task is executed once, and the queue is drained.

The scheduler has at most one pointer to a fiber: in the queue, in the variable `task` of
a worker, or as its `cb_fiber`.  A step therefore changes only what its own worker
stands for, and the accepted tasks are counted over the places where they can be.

* `BaseState.Sound`, `sound_of_reachable` — one pointer to a fiber, and every accepted
  task in one place or finished, and not entered yet or entered once;
* `BaseState.Drained`, `drained_of_reachable` — what the last test of a worker implies;
* `BaseState.executed_once` — what holds of every run.
-/
import Droplet.Scheduler.Base
import Droplet.Lib.Tally

open Transition Transition.System Tally Function

namespace Scheduler

/-! ### Places of tasks and pointers to fibers -/

/-- An accepted task that has not ended, and whether its body has been entered. -/
structure Pending where
  task : ℕ
  entered : Bool
  deriving DecidableEq

namespace Pending

def isTask (k : ℕ) (v : Pending) : Bool := v.task = k

def isUnentered (k : ℕ) (v : Pending) : Bool := v.task = k && !v.entered

/-- One where the condition holds. -/
def weight (p : Pending → Bool) (v : Option Pending) : ℕ := if v.any p then 1 else 0

variable {p : Pending → Bool} {v : Pending}

@[simp] theorem weight_none : weight p none = 0 := rfl

@[simp] theorem weight_some : weight p (some v) = if p v then 1 else 0 := rfl

theorem weight_isUnentered_le (k : ℕ) (v : Option Pending) :
    weight (isUnentered k) v ≤ weight (isTask k) v := by
  cases v with
  | none => exact Nat.le_refl _
  | some v =>
    rw [weight_some, weight_some, isUnentered, isTask]
    by_cases htask : v.task = k
    · rw [if_pos (decide_eq_true htask)]
      split
      · exact Nat.le_refl _
      · exact Nat.zero_le _
    · simp only [decide_eq_false htask, Bool.false_and, Bool.false_eq_true, if_false, Nat.le_refl]

end Pending

open Pending

/-- One where the pointer leads to the fiber. -/
def pointer (o : Option ℕ) (f : ℕ) : ℕ := if o = some f then 1 else 0

@[simp] theorem pointer_self (f : ℕ) : pointer (some f) f = 1 := if_pos rfl

namespace Work

/-- The fiber of a task. -/
def fiber? : Work → Option ℕ
  | .fiber f => some f
  | .callback _ => none

end Work

namespace BasePhase

/-- The fiber that the worker works on. -/
def onFiber : BasePhase → Option ℕ
  | .holding f _ _ => some f
  | .requeueing f _ => some f
  | _ => none

/-- The pointer to it that is not `cb_fiber`. -/
def local? : BasePhase → Option ℕ
  | .holding f (.task _) _ => some f
  | .requeueing f _ => some f
  | _ => none

/-- The idle fiber has ended. -/
def Done (phase : BasePhase) : Prop := phase = .leaving ∨ phase = .exited

end BasePhase

namespace BaseWorker

/-- Pointers of a worker to a fiber. -/
def pointers (worker : BaseWorker) (f : ℕ) : ℕ :=
  pointer worker.phase.local? f + pointer worker.cbFiber f

end BaseWorker

namespace BaseState

/-- What a task in the queue stands for. -/
def pending (s : BaseState) : Work → Pending
  | .fiber f => ⟨s.taskOf f, !decide (s.state f = .init)⟩
  | .callback callback => ⟨callback, false⟩

/-- What a worker has in its hands. -/
def held (s : BaseState) : BasePhase → Option Pending
  | .wrapping callback => some (s.pending (.callback callback))
  | .holding f _ .taken => some (s.pending (.fiber f))
  | .holding f _ .running => some (s.pending (.fiber f))
  | .holding f _ .returned =>
    if (s.state f).Ended ∨ s.state f = .hold then none else some (s.pending (.fiber f))
  | .requeueing f _ => some (s.pending (.fiber f))
  | _ => none

/-- How many entries of the queue meet a condition. -/
def queued (s : BaseState) (p : Pending → Bool) : ℕ :=
  tally (fun task => weight p (some (s.pending task.work))) s.tasks

/-- How many workers have something in their hands that meets it. -/
def inHands (s : BaseState) (p : Pending → Bool) : ℕ :=
  tally (fun worker => weight p (s.held worker.phase)) s.workers

/-- Pointers of the queue to a fiber. -/
def queuePointers (s : BaseState) (f : ℕ) : ℕ :=
  tally (fun task => pointer task.work.fiber? f) s.tasks

/-- Pointers of the scheduler to a fiber. -/
def pointers (s : BaseState) (f : ℕ) : ℕ :=
  s.queuePointers f + tally (fun worker => worker.pointers f) s.workers

/-- One where the number is below the bound. -/
def below (k n : ℕ) : ℕ := if k < n then 1 else 0

variable {s s' : BaseState} {i j f : ℕ} {a b c : BaseWorker} {p : Pending → Bool}

/-! ### Steps that leave a fiber alone -/

/-- The states differ in the fiber at most, and nothing is taken back. -/
structure AgreeOff (s s' : BaseState) (f : ℕ) : Prop where
  state : ∀ g, g ≠ f → s'.state g = s.state g
  taskOf : ∀ g, g ≠ f → s'.taskOf g = s.taskOf g
  finished : s.finished ⊆ s'.finished

/-- The state of a fiber that a worker works on. -/
def PhaseOk (s : BaseState) : BasePhase → Prop
  | .holding f _ .taken => (s.state f).Waiting
  | .holding f _ .running => s.state f = .exec
  | .holding f _ .returned =>
    s.state f = .ready ∨ s.state f = .hold ∨ (s.state f).Ended ∧ s.taskOf f ∈ s.finished
  | .requeueing f _ => s.state f = .ready
  | _ => True

/-- A worker with its `cb_fiber`: it works on it, or the function of it has ended. -/
structure WorkerOk (s : BaseState) (worker : BaseWorker) : Prop where
  phase : s.PhaseOk worker.phase
  own : ∀ f step, worker.phase = .holding f .cbFiber step → worker.cbFiber = some f
  parked : ∀ f, worker.cbFiber = some f →
    (∃ step, worker.phase = .holding f .cbFiber step) ∨
      (s.state f).Ended ∧ s.taskOf f ∈ s.finished

theorem AgreeOff.pending (h : AgreeOff s s' f) {work : Work} (hwork : work.fiber? ≠ some f) :
    s'.pending work = s.pending work := by
  cases work with
  | fiber g =>
    have hg : g ≠ f := fun heq => hwork (congrArg some heq)
    rw [BaseState.pending, BaseState.pending, h.state g hg, h.taskOf g hg]
  | callback callback => rfl

theorem AgreeOff.held (h : AgreeOff s s' f) {phase : BasePhase}
    (hphase : phase.onFiber ≠ some f) : s'.held phase = s.held phase := by
  cases phase with
  | holding g origin step =>
    have hg : g ≠ f := fun heq => hphase (congrArg some heq)
    have hpending : s'.pending (.fiber g) = s.pending (.fiber g) :=
      h.pending fun heq => hg (Option.some_inj.mp heq)
    cases step with
    | taken => rw [BaseState.held, BaseState.held, hpending]
    | running => rw [BaseState.held, BaseState.held, hpending]
    | returned => rw [BaseState.held, BaseState.held, hpending, h.state g hg]
  | requeueing g origin => exact congrArg some (h.pending hphase)
  | _ => rfl

theorem AgreeOff.phaseOk (h : AgreeOff s s' f) {phase : BasePhase}
    (hphase : phase.onFiber ≠ some f) (hok : s.PhaseOk phase) : s'.PhaseOk phase := by
  cases phase with
  | holding g origin step =>
    have hg : g ≠ f := fun heq => hphase (congrArg some heq)
    cases step with
    | taken =>
      rw [PhaseOk, h.state g hg]
      exact hok
    | running =>
      rw [PhaseOk, h.state g hg]
      exact hok
    | returned =>
      rw [PhaseOk, h.state g hg, h.taskOf g hg]
      refine hok.imp_right fun hok => hok.imp_right fun hended => ?_
      exact ⟨hended.1, h.finished hended.2⟩
  | requeueing g origin =>
    have hg : g ≠ f := fun heq => hphase (congrArg some heq)
    rw [PhaseOk, h.state g hg]
    exact hok
  | _ => exact trivial

/-- A worker without a pointer to the fiber does not work on it. -/
theorem WorkerOk.onFiber_ne (h : WorkerOk s c) (hpointers : c.pointers f = 0) :
    c.phase.onFiber ≠ some f := by
  obtain ⟨hlocal, hcb⟩ := Nat.add_eq_zero_iff.mp hpointers
  intro hon
  cases hphase : c.phase with
  | holding g origin step =>
    obtain rfl : g = f := by
      rw [hphase] at hon
      exact Option.some_inj.mp hon
    cases origin with
    | task threadId =>
      rw [hphase, BasePhase.local?, pointer_self] at hlocal
      exact absurd hlocal Nat.one_ne_zero
    | cbFiber =>
      rw [h.own g step hphase, pointer_self] at hcb
      exact absurd hcb Nat.one_ne_zero
  | requeueing g origin =>
    obtain rfl : g = f := by
      rw [hphase] at hon
      exact Option.some_inj.mp hon
    rw [hphase, BasePhase.local?, pointer_self] at hlocal
    exact absurd hlocal Nat.one_ne_zero
  | _ =>
    rw [hphase] at hon
    exact absurd hon (by simp [BasePhase.onFiber])

/-- The step leaves such a worker as it is. -/
theorem WorkerOk.agree (h : WorkerOk s c) (hagree : AgreeOff s s' f)
    (hpointers : c.pointers f = 0) : WorkerOk s' c where
  phase := hagree.phaseOk (h.onFiber_ne hpointers) h.phase
  own := h.own
  parked := by
    intro g hg
    have hne : g ≠ f := by
      intro heq
      have hcb := (Nat.add_eq_zero_iff.mp hpointers).2
      rw [hg, heq, pointer_self] at hcb
      exact Nat.one_ne_zero hcb
    rw [hagree.state g hne, hagree.taskOf g hne]
    exact (h.parked g hg).imp_right fun hended => ⟨hended.1, hagree.finished hended.2⟩

/-! ### The invariant -/

/-- One pointer to a fiber; tasks in one place, finished or let go; bodies not entered
yet or entered once. -/
structure Sound (s : BaseState) : Prop where
  pointers : ∀ f, s.pointers f ≤ below f s.fiberCount
  queue : ∀ task ∈ s.tasks, ∀ f, task.work.fiber? = some f → (s.state f).Waiting
  workers : ∀ worker ∈ s.workers, WorkerOk s worker
  tasks : ∀ k, s.queued (isTask k) + s.inHands (isTask k) + s.finished.count k +
    s.suspended.count k = below k s.accepted
  entries : ∀ k, s.queued (isUnentered k) + s.inHands (isUnentered k) + s.entered.count k +
    s.begun.count k = below k s.accepted

theorem below_le_one (k n : ℕ) : below k n ≤ 1 := by
  unfold below
  split
  · exact Nat.le_refl _
  · exact Nat.zero_le _

theorem below_eq_zero {k n : ℕ} (h : n ≤ k) : below k n = 0 := if_neg (Nat.not_lt.mpr h)

theorem below_eq_one {k n : ℕ} (h : k < n) : below k n = 1 := if_pos h

theorem below_succ (k n : ℕ) : below k (n + 1) = below k n + if n = k then 1 else 0 := by
  unfold below
  split
  · split
    · rw [if_neg (by omega)]
    · rw [if_pos (by omega)]
  · rw [if_neg (by omega), if_neg (by omega)]

/-- A fiber in the queue. -/
theorem queuePointers_pos {task : ScheduleTask} (hmem : task ∈ s.tasks)
    (hwork : task.work.fiber? = some f) : 0 < s.queuePointers f := by
  obtain ⟨k, hk⟩ := List.mem_iff_getElem?.mp hmem
  have hle : pointer task.work.fiber? f ≤ s.queuePointers f :=
    le_tally (f := fun task => pointer task.work.fiber? f) hk
  rw [hwork, pointer_self] at hle
  exact hle

/-- No other worker has a pointer to the fiber of a worker, nor to a new one. -/
theorem Sound.alone (h : Sound s) (hi : s.workers[i]? = some a)
    (hf : 0 < a.pointers f ∨ s.fiberCount ≤ f) :
    (∀ task ∈ s.tasks, task.work.fiber? ≠ some f) ∧
      ∀ (j : ℕ) (c : BaseWorker), j ≠ i → s.workers[j]? = some c → c.pointers f = 0 := by
  have hbound := h.pointers f
  rw [BaseState.pointers] at hbound
  have hown : a.pointers f ≤ tally (fun worker => worker.pointers f) s.workers :=
    le_tally (f := fun worker => worker.pointers f) hi
  constructor
  · intro task hmem hwork
    have hqueued := queuePointers_pos hmem hwork
    have hone := below_le_one f s.fiberCount
    rcases hf with hpos | hnew
    · omega
    · have hzero := below_eq_zero hnew
      omega
  · intro j c hj hc
    have hle : c.pointers f ≤ tally (fun worker => worker.pointers f) s.workers :=
      le_tally (f := fun worker => worker.pointers f) hc
    rcases hf with hpos | hnew
    · have hboth : c.pointers f + a.pointers f ≤ tally (fun worker => worker.pointers f) s.workers :=
        add_le_tally (f := fun worker => worker.pointers f) hj hc hi
      have hone := below_le_one f s.fiberCount
      omega
    · have hzero := below_eq_zero hnew
      omega

/-! ### One worker acts -/

/-- A worker changes, and with it a fiber that is its own or new. -/
structure Acts (s s' : BaseState) (i : ℕ) (a b : BaseWorker) (f : ℕ) : Prop where
  worker : s.workers[i]? = some a
  workers : s'.workers = s.workers.set i b
  agree : AgreeOff s s' f
  own : 0 < a.pointers f ∨ s.fiberCount ≤ f

theorem Acts.inHands (hacts : Acts s s' i a b f) (h : Sound s) (p : Pending → Bool) :
    s'.inHands p + weight p (s.held a.phase) = s.inHands p + weight p (s'.held b.phase) := by
  obtain ⟨-, halone⟩ := h.alone hacts.worker hacts.own
  rw [BaseState.inHands, hacts.workers]
  refine tally_set_congr (f := fun worker => weight p (s.held worker.phase))
    (g := fun worker => weight p (s'.held worker.phase)) hacts.worker b fun j c hj hc => ?_
  have hok := h.workers c (List.mem_of_getElem? hc)
  rw [hacts.agree.held (hok.onFiber_ne (halone j c hj hc))]

/-- The queue does not lead to the fiber. -/
theorem Acts.queued (hacts : Acts s s' i a b f) (h : Sound s) (htasks : s'.tasks = s.tasks)
    (p : Pending → Bool) : s'.queued p = s.queued p := by
  obtain ⟨halone, -⟩ := h.alone hacts.worker hacts.own
  rw [BaseState.queued, htasks]
  refine tally_congr fun task hmem => ?_
  rw [hacts.agree.pending (halone task hmem)]

theorem Acts.queue_waiting (hacts : Acts s s' i a b f) (h : Sound s)
    (htasks : s'.tasks = s.tasks) :
    ∀ task ∈ s'.tasks, ∀ g, task.work.fiber? = some g → (s'.state g).Waiting := by
  obtain ⟨halone, -⟩ := h.alone hacts.worker hacts.own
  intro task hmem g hwork
  rw [htasks] at hmem
  have hg : g ≠ f := fun heq => halone task hmem (heq ▸ hwork)
  rw [hacts.agree.state g hg]
  exact h.queue task hmem g hwork

theorem Acts.workerOk (hacts : Acts s s' i a b f) (h : Sound s) (hb : WorkerOk s' b) :
    ∀ worker ∈ s'.workers, WorkerOk s' worker := by
  obtain ⟨-, halone⟩ := h.alone hacts.worker hacts.own
  intro worker hmem
  rw [hacts.workers] at hmem
  rcases mem_set hmem with rfl | ⟨j, hj, hworker⟩
  · exact hb
  · have hok := h.workers worker (List.mem_of_getElem? hworker)
    exact hok.agree hacts.agree (halone j worker hj hworker)

/-- What the worker gives up is in the queue or recorded, and conversely. -/
theorem Acts.sound (hacts : Acts s s' i a b f) (h : Sound s)
    (hqueue : ∀ task ∈ s'.tasks, ∀ g, task.work.fiber? = some g → (s'.state g).Waiting)
    (hb : WorkerOk s' b) (haccepted : s'.accepted = s.accepted)
    (hpointers : ∀ g, s'.queuePointers g + b.pointers g + below g s.fiberCount ≤
      s.queuePointers g + a.pointers g + below g s'.fiberCount)
    (htasks : ∀ k, s'.queued (isTask k) + weight (isTask k) (s'.held b.phase) +
      s'.finished.count k + s'.suspended.count k =
        s.queued (isTask k) + weight (isTask k) (s.held a.phase) + s.finished.count k +
          s.suspended.count k)
    (hentries : ∀ k, s'.queued (isUnentered k) + weight (isUnentered k) (s'.held b.phase) +
      s'.entered.count k + s'.begun.count k =
        s.queued (isUnentered k) + weight (isUnentered k) (s.held a.phase) + s.entered.count k +
          s.begun.count k) :
    Sound s' where
  pointers := by
    intro g
    have hset := tally_set (f := fun worker => worker.pointers g) hacts.worker b
    have hbound := h.pointers g
    have hstep := hpointers g
    rw [BaseState.pointers] at hbound
    rw [BaseState.pointers, hacts.workers]
    omega
  queue := hqueue
  workers := hacts.workerOk h hb
  tasks := by
    intro k
    have hhands := hacts.inHands h (isTask k)
    have htotal := h.tasks k
    have hstep := htasks k
    rw [haccepted]
    omega
  entries := by
    intro k
    have hhands := hacts.inHands h (isUnentered k)
    have htotal := h.entries k
    have hstep := hentries k
    rw [haccepted]
    omega

/-- The queue stays as it is. -/
theorem Acts.sound_of_tasks_eq (hacts : Acts s s' i a b f) (h : Sound s)
    (htasks : s'.tasks = s.tasks) (hbegun : s'.begun = s.begun)
    (haccepted : s'.accepted = s.accepted) (hb : WorkerOk s' b)
    (hpointers : ∀ g, b.pointers g + below g s.fiberCount ≤ a.pointers g + below g s'.fiberCount)
    (hfinished : ∀ k, weight (isTask k) (s'.held b.phase) + s'.finished.count k +
      s'.suspended.count k =
        weight (isTask k) (s.held a.phase) + s.finished.count k + s.suspended.count k)
    (hentered : ∀ k, weight (isUnentered k) (s'.held b.phase) + s'.entered.count k =
      weight (isUnentered k) (s.held a.phase) + s.entered.count k) :
    Sound s' := by
  refine hacts.sound h (hacts.queue_waiting h htasks) hb haccepted ?_ ?_ ?_
  · intro g
    have hstep := hpointers g
    have hsame : s'.queuePointers g = s.queuePointers g := by
      rw [queuePointers, htasks, queuePointers]
    omega
  · intro k
    have hstep := hfinished k
    rw [hacts.queued h htasks]
    omega
  · intro k
    have hstep := hentered k
    rw [hacts.queued h htasks, hbegun]
    omega

/-- Only the variables of a worker change. -/
theorem Sound.setWorker (h : Sound s) (hi : s.workers[i]? = some a) (hb : WorkerOk s b)
    (hheld : s.held b.phase = s.held a.phase) (hpointers : ∀ g, b.pointers g ≤ a.pointers g) :
    Sound (s.setWorker i b) := by
  have hacts : Acts s (s.setWorker i b) i a b s.fiberCount :=
    ⟨hi, rfl, ⟨fun _ _ => rfl, fun _ _ => rfl, fun _ hk => hk⟩, .inr (Nat.le_refl _)⟩
  refine hacts.sound_of_tasks_eq h rfl rfl rfl ⟨hb.phase, hb.own, hb.parked⟩ ?_ ?_ ?_
  · intro g
    exact Nat.add_le_add_right (hpointers g) _
  · intro k
    rw [← hheld]
    rfl
  · intro k
    rw [← hheld]
    rfl

/-! ### The steps of a worker -/

theorem phaseOk_of_onFiber {phase : BasePhase} (h : phase.onFiber = none) : s.PhaseOk phase := by
  cases phase with
  | holding g origin step => exact absurd h (by simp [BasePhase.onFiber])
  | requeueing g origin => exact absurd h (by simp [BasePhase.onFiber])
  | _ => exact trivial

theorem local?_of_onFiber {phase : BasePhase} (h : phase.onFiber = none) :
    phase.local? = none := by
  cases phase with
  | holding g origin step => exact absurd h (by simp [BasePhase.onFiber])
  | requeueing g origin => exact absurd h (by simp [BasePhase.onFiber])
  | _ => rfl

theorem ne_holding_of_onFiber {phase : BasePhase} (h : phase.onFiber = none) (f : ℕ)
    (origin : Origin) (step : HoldStep) : phase ≠ .holding f origin step := by
  rintro rfl
  exact absurd h (by simp [BasePhase.onFiber])

/-- A worker that works on no fiber. -/
theorem WorkerOk.of_onFiber {phase : BasePhase} (h : phase.onFiber = none) {cbFiber : Option ℕ}
    (hparked : ∀ f, cbFiber = some f → (s.state f).Ended ∧ s.taskOf f ∈ s.finished)
    (tested : ℕ) : WorkerOk s ⟨phase, cbFiber, tested⟩ where
  phase := phaseOk_of_onFiber h
  own := fun f step hphase => absurd hphase (ne_holding_of_onFiber h f .cbFiber step)
  parked := fun f hf => .inr (hparked f hf)

/-- A `cb_fiber` that the worker does not work on has ended. -/
theorem WorkerOk.ended (h : WorkerOk s a)
    (hphase : ∀ step, a.phase ≠ .holding f .cbFiber step) (hcb : a.cbFiber = some f) :
    (s.state f).Ended ∧ s.taskOf f ∈ s.finished := by
  refine (h.parked f hcb).resolve_left fun hstep => ?_
  obtain ⟨step, hstep⟩ := hstep
  exact hphase step hstep

/-- A worker moves between the top of its loop and its idle fiber. -/
theorem Sound.move (h : Sound s) (hi : s.workers[i]? = some a) {phase : BasePhase} (tested : ℕ)
    (hphase : a.phase.onFiber = none) (hphase' : phase.onFiber = none)
    (hheld : s.held phase = s.held a.phase) :
    Sound (s.setWorker i { a with phase := phase, tested := tested }) := by
  have hok := h.workers a (List.mem_of_getElem? hi)
  refine h.setWorker hi (.of_onFiber hphase' (fun f => hok.ended ?_) tested) hheld ?_
  · exact ne_holding_of_onFiber hphase f .cbFiber
  · intro g
    refine Nat.le_of_eq ?_
    rw [BaseWorker.pointers, BaseWorker.pointers, local?_of_onFiber hphase',
      local?_of_onFiber hphase]

/-- A task moves from the queue to a worker. -/
theorem Sound.take (h : Sound s) (hi : s.workers[i]? = some a) (hloop : a.phase = .loop)
    {task : ScheduleTask} {rest : List ScheduleTask} {phase : BasePhase}
    (hnext : Scheduler.getNextTask s.state i s.tasks = some (task, rest))
    (hheld : s.held phase = some (s.pending task.work)) (hlocal : phase.local? = task.work.fiber?)
    (hok : s.PhaseOk phase) (horigin : ∀ f step, phase ≠ .holding f .cbFiber step) :
    Sound (({ s with tasks := rest } : BaseState).setWorker i { a with phase := phase }) := by
  have hacts : Acts s (({ s with tasks := rest } : BaseState).setWorker i { a with phase := phase })
      i a { a with phase := phase } s.fiberCount :=
    ⟨hi, rfl, ⟨fun _ _ => rfl, fun _ _ => rfl, fun _ hk => hk⟩, .inr (Nat.le_refl _)⟩
  have haok := h.workers a (List.mem_of_getElem? hi)
  have hempty : a.phase.onFiber = none := by rw [hloop]; rfl
  have hnone : s.held a.phase = none := by rw [hloop]; rfl
  have hqueued : ∀ p, s.queued p = weight p (s.held phase) +
      (({ s with tasks := rest } : BaseState).setWorker i { a with phase := phase }).queued p := by
    intro p
    rw [hheld]
    exact tally_getNextTask hnext fun task => weight p (some (s.pending task.work))
  refine hacts.sound h ?_ ⟨hok, ?_, ?_⟩ rfl ?_ ?_ ?_
  · intro other hmem g hwork
    exact h.queue other (mem_of_getNextTask hnext hmem) g hwork
  · intro f step hphase
    exact absurd hphase (horigin f step)
  · intro f hf
    exact .inr (haok.ended (ne_holding_of_onFiber hempty f .cbFiber) hf)
  · intro g
    have hsplit := tally_getNextTask hnext fun task => pointer task.work.fiber? g
    rw [BaseWorker.pointers, BaseWorker.pointers, local?_of_onFiber hempty, hlocal,
      queuePointers, queuePointers, hsplit]
    show tally _ rest + (_ + pointer a.cbFiber g) + below g s.fiberCount ≤
      _ + tally _ rest + (0 + pointer a.cbFiber g) + below g s.fiberCount
    omega
  · intro k
    have hsplit := hqueued (isTask k)
    rw [hnone, weight_none]
    show _ + weight (isTask k) (s.held phase) + s.finished.count k + s.suspended.count k = _
    omega
  · intro k
    have hsplit := hqueued (isUnentered k)
    rw [hnone, weight_none]
    show _ + weight (isUnentered k) (s.held phase) + s.entered.count k + s.begun.count k = _
    omega

/-- A fiber that is `READY` moves from a worker to the queue. -/
theorem Sound.requeue (h : Sound s) (hi : s.workers[i]? = some a) {origin : Origin}
    (hphase : a.phase = .requeueing f origin) : Sound (s.requeue i a f origin) := by
  have hacts : Acts s (s.requeue i a f origin) i a { a with phase := .loop } s.fiberCount :=
    ⟨hi, rfl, ⟨fun _ _ => rfl, fun _ _ => rfl, fun _ hk => hk⟩, .inr (Nat.le_refl _)⟩
  have haok := h.workers a (List.mem_of_getElem? hi)
  have hready : s.state f = .ready := by
    have hok := haok.phase
    rw [hphase] at hok
    exact hok
  have hheld : s.held a.phase = some (s.pending (.fiber f)) := by rw [hphase]; rfl
  have hqueued : ∀ p, (s.requeue i a f origin).queued p =
      s.queued p + weight p (some (s.pending (.fiber f))) :=
    fun p => tally_concat s.tasks _
  have hb : WorkerOk s { a with phase := .loop } := by
    refine .of_onFiber rfl (fun g => haok.ended fun step hholding => ?_) _
    rw [hphase] at hholding
    exact BasePhase.noConfusion hholding
  refine hacts.sound h ?_ ⟨hb.phase, hb.own, hb.parked⟩ rfl ?_ ?_ ?_
  · intro task hmem g hwork
    rcases List.mem_append.mp hmem with hmem | hmem
    · exact h.queue task hmem g hwork
    · obtain rfl := List.mem_singleton.mp hmem
      obtain rfl := Option.some_inj.mp hwork
      exact .inr (.inr hready)
  · intro g
    have hqueue : (s.requeue i a f origin).queuePointers g =
        s.queuePointers g + pointer (some f) g := tally_concat s.tasks _
    rw [hqueue, BaseWorker.pointers, BaseWorker.pointers, hphase]
    show _ + (0 + pointer a.cbFiber g) + below g s.fiberCount ≤
      _ + (pointer (some f) g + pointer a.cbFiber g) + below g s.fiberCount
    omega
  · intro k
    rw [hqueued, hheld]
    show _ + weight (isTask k) none + s.finished.count k + s.suspended.count k = _
    rw [weight_none]
    omega
  · intro k
    rw [hqueued, hheld]
    show _ + weight (isUnentered k) none + s.entered.count k + s.begun.count k = _
    rw [weight_none]
    omega

/-- A function gets a fiber that is the worker's own or new. -/
theorem Sound.wrapInto (h : Sound s) (hi : s.workers[i]? = some a) {callback n : ℕ}
    (hphase : a.phase = .wrapping callback) (hown : 0 < a.pointers f ∨ s.fiberCount ≤ f)
    (hpointers : ∀ g, pointer (some f) g + below g s.fiberCount ≤
      pointer a.cbFiber g + below g n) :
    Sound (({ s with fiberCount := n } : BaseState).wrapInto i a callback f) := by
  obtain ⟨s', hs'⟩ : ∃ s', s' = ({ s with fiberCount := n } : BaseState).wrapInto i a callback f :=
    ⟨_, rfl⟩
  have hagree : AgreeOff s s' f := by
    refine ⟨fun g hg => ?_, fun g hg => ?_, fun _ hk => ?_⟩
    · rw [hs']
      exact update_of_ne hg _ _
    · rw [hs']
      exact update_of_ne hg _ _
    · rw [hs']
      exact hk
  have hacts : Acts s s' i a
      { a with phase := .holding f .cbFiber .taken, cbFiber := some f } f := by
    refine ⟨hi, ?_, hagree, hown⟩
    rw [hs']
    rfl
  have hstate : s'.state f = .init := by
    rw [hs']
    exact update_self _ _ _
  have htask : s'.taskOf f = callback := by
    rw [hs']
    exact update_self _ _ _
  have hheld : s.held a.phase = some ⟨callback, false⟩ := by rw [hphase]; rfl
  have hheld' : s'.held (.holding f .cbFiber .taken) = some ⟨callback, false⟩ := by
    rw [held, pending, hstate, htask]
    rfl
  rw [← hs']
  refine hacts.sound_of_tasks_eq h ?_ ?_ ?_ ⟨.inl hstate, ?_, ?_⟩ ?_ ?_ ?_
  · rw [hs']
    rfl
  · rw [hs']
    rfl
  · rw [hs']
    rfl
  · intro g step hg
    injection hg with hg
    exact congrArg some hg
  · intro g hg
    obtain rfl := Option.some_inj.mp hg
    exact .inl ⟨.taken, rfl⟩
  · intro g
    have hstep := hpointers g
    rw [BaseWorker.pointers, BaseWorker.pointers, hphase, hs']
    show 0 + pointer (some f) g + below g s.fiberCount ≤
      0 + pointer a.cbFiber g + below g n
    omega
  · intro k
    rw [hheld, hheld', hs']
    rfl
  · intro k
    rw [hheld, hheld', hs']
    rfl

/-- A worker with a fiber in its hands has a pointer to it. -/
theorem WorkerOk.pointers_pos (h : WorkerOk s a) (hon : a.phase.onFiber = some f) :
    0 < a.pointers f := by
  refine Nat.pos_of_ne_zero fun hzero => ?_
  exact h.onFiber_ne hzero hon

/-- The fiber in the hands of a worker changes its state. -/
theorem Sound.setHeld (h : Sound s) (hi : s.workers[i]? = some a) {origin : Origin}
    {step step' : HoldStep} {state : Fiber.State} {segments : List (ℕ × ℕ)}
    {entered finished suspended : List ℕ} (hphase : a.phase = .holding f origin step)
    (hnot : ¬(s.state f).Ended)
    (hs' : s' = { s.setHeld i a f origin step' state with
      segments := segments, entered := entered, finished := finished, suspended := suspended })
    (hfinished : s.finished ⊆ s'.finished) (hok : s'.PhaseOk (.holding f origin step'))
    (htasks : ∀ k, weight (isTask k) (s'.held (.holding f origin step')) + s'.finished.count k +
      s'.suspended.count k =
        weight (isTask k) (s.held a.phase) + s.finished.count k + s.suspended.count k)
    (hentries : ∀ k, weight (isUnentered k) (s'.held (.holding f origin step')) +
      s'.entered.count k = weight (isUnentered k) (s.held a.phase) + s.entered.count k) :
    Sound s' := by
  have haok := h.workers a (List.mem_of_getElem? hi)
  have hagree : AgreeOff s s' f := by
    refine ⟨fun g hg => ?_, fun g hg => ?_, hfinished⟩
    · rw [hs']
      exact update_of_ne hg _ _
    · rw [hs']
      exact update_of_ne hg _ _
  have hacts : Acts s s' i a { a with phase := .holding f origin step' } f := by
    refine ⟨hi, ?_, hagree, .inl (haok.pointers_pos ?_)⟩
    · rw [hs']
      rfl
    · rw [hphase]
      rfl
  have hb : WorkerOk s' { a with phase := .holding f origin step' } := by
    refine ⟨hok, ?_, ?_⟩
    · intro g step hg
      injection hg with hg horigin
      subst hg horigin
      exact haok.own f _ hphase
    · intro g hg
      by_cases hheld : g = f ∧ origin = .cbFiber
      · obtain ⟨rfl, rfl⟩ := hheld
        exact .inl ⟨step', rfl⟩
      · have hended := haok.ended (f := g) ?_ hg
        · have hne : g ≠ f := fun heq => hnot (heq ▸ hended.1)
          rw [hagree.state g hne, hagree.taskOf g hne]
          exact .inr ⟨hended.1, hagree.finished hended.2⟩
        · intro step hstep
          rw [hphase] at hstep
          injection hstep with hg horigin
          exact hheld ⟨hg.symm, horigin⟩
  refine hacts.sound_of_tasks_eq h ?_ ?_ ?_ hb ?_ ?_ ?_
  · rw [hs']
    rfl
  · rw [hs']
    rfl
  · rw [hs']
    rfl
  · intro g
    have hsame : (BasePhase.holding f origin step').local? = a.phase.local? := by
      rw [hphase]
      cases origin with
      | task threadId => rfl
      | cbFiber => rfl
    rw [BaseWorker.pointers, BaseWorker.pointers, hsame, hs']
    exact Nat.le_refl _
  · exact htasks
  · exact hentries

/-- The fiber in the hands of a worker, when it does not end or wait. -/
theorem held_holding (hnot : ¬((s.state f).Ended ∨ s.state f = .hold)) (origin : Origin)
    (step : HoldStep) :
    s.held (.holding f origin step) = some (s.pending (.fiber f)) := by
  cases step with
  | taken => rfl
  | running => rfl
  | returned => exact if_neg hnot

theorem Sound.resume (h : Sound s) (hi : s.workers[i]? = some a) {origin : Origin}
    (hphase : a.phase = .holding f origin .taken) (hwaiting : (s.state f).Waiting) :
    Sound (s.resume i a f origin) := by
  obtain ⟨s', hs'⟩ : ∃ s', s' = s.resume i a f origin := ⟨_, rfl⟩
  have hstate : s'.state f = .exec := by
    rw [hs']
    exact update_self _ _ _
  have htask : s'.taskOf f = s.taskOf f := by
    rw [hs']
    exact update_self _ _ _
  have hfinished : s'.finished = s.finished := by rw [hs']; rfl
  have hsuspended : s'.suspended = s.suspended := by rw [hs']; rfl
  have hentered : s'.entered =
      if s.state f = .init then s.entered ++ [s.taskOf f] else s.entered := by
    rw [hs']
    rfl
  have hpending : s'.held (.holding f origin .running) = some ⟨s.taskOf f, true⟩ := by
    rw [held, pending, hstate, htask]
    rfl
  have hheld : s.held a.phase = some ⟨s.taskOf f, !decide (s.state f = .init)⟩ := by
    rw [hphase]
    rfl
  have hnot : ¬(s.state f).Ended := by
    intro hended
    rcases hwaiting with hw | hw | hw
    · exact absurd (hw ▸ hended) (by decide)
    · exact absurd (hw ▸ hended) (by decide)
    · exact absurd (hw ▸ hended) (by decide)
  rw [← hs']
  refine h.setHeld hi hphase hnot hs' (hfinished ▸ List.Subset.refl _) hstate ?_ ?_
  · intro k
    rw [hpending, hheld, hfinished, hsuspended]
    rfl
  · intro k
    rw [hpending, hheld, hentered, weight_some, weight_some, isUnentered, isUnentered]
    by_cases hinit : s.state f = .init
    · rw [if_pos hinit, List.count_append, List.count_singleton, hinit]
      simp only [Bool.not_true, Bool.and_false, Bool.false_eq_true, if_false, decide_true,
        Bool.not_true, Bool.not_false, Bool.and_true, decide_eq_true_eq, beq_iff_eq]
      omega
    · rw [if_neg hinit, decide_eq_false hinit]
      rfl

/-- The fiber of a worker is executing on it. -/
theorem Sound.running (h : Sound s) (hi : s.workers[i]? = some a) {origin : Origin}
    (hphase : a.phase = .holding f origin .running) :
    s.state f = .exec ∧ s.held a.phase = some ⟨s.taskOf f, true⟩ := by
  have hok := (h.workers a (List.mem_of_getElem? hi)).phase
  rw [hphase] at hok
  have hexec : s.state f = .exec := hok
  refine ⟨hexec, ?_⟩
  rw [hphase, held, pending, hexec]
  rfl

theorem Sound.yieldToReady (h : Sound s) (hi : s.workers[i]? = some a) {origin : Origin}
    (hphase : a.phase = .holding f origin .running) : Sound (s.yieldToReady i a f origin) := by
  obtain ⟨hexec, hheld⟩ := h.running hi hphase
  obtain ⟨s', hs'⟩ : ∃ s', s' = s.yieldToReady i a f origin := ⟨_, rfl⟩
  have hstate : s'.state f = .ready := by
    rw [hs']
    exact update_self _ _ _
  have htask : s'.taskOf f = s.taskOf f := by
    rw [hs']
    exact update_self _ _ _
  have hheld' : s'.held (.holding f origin .returned) = some ⟨s.taskOf f, true⟩ := by
    rw [held_holding (by rw [hstate]; decide), pending, hstate, htask]
    rfl
  have hfinished : s'.finished = s.finished := by rw [hs']; rfl
  have hsuspended : s'.suspended = s.suspended := by rw [hs']; rfl
  have hentered : s'.entered = s.entered := by rw [hs']; rfl
  rw [← hs']
  refine h.setHeld hi hphase (by rw [hexec]; decide) hs' (hfinished ▸ List.Subset.refl _)
    (.inl hstate) ?_ ?_
  · intro k
    rw [hheld, hheld', hfinished, hsuspended]
  · intro k
    rw [hheld, hheld', hentered]

/-- The task leaves the hands of the worker, and one record gets its number. -/
theorem Sound.letGo (h : Sound s) (hi : s.workers[i]? = some a) {origin : Origin}
    {state : Fiber.State} {entered finished suspended : List ℕ}
    (hphase : a.phase = .holding f origin .running)
    (hs' : s' = { s.setHeld i a f origin .returned state with
      entered := entered, finished := finished, suspended := suspended })
    (hstate : state.Ended ∧ s.taskOf f ∈ finished ∨ state = .hold)
    (hentered : entered = s.entered) (hfinished : s.finished ⊆ finished)
    (hcount : ∀ k, finished.count k + suspended.count k =
      s.finished.count k + s.suspended.count k + if s.taskOf f = k then 1 else 0) : Sound s' := by
  obtain ⟨hexec, hheld⟩ := h.running hi hphase
  have hst : s'.state f = state := by
    rw [hs']
    exact update_self _ _ _
  have htask : s'.taskOf f = s.taskOf f := by
    rw [hs']
    exact update_self _ _ _
  have hfinished' : s'.finished = finished := by rw [hs']
  have hsuspended' : s'.suspended = suspended := by rw [hs']
  have hentered' : s'.entered = s.entered := by rw [hs', hentered]
  have hleft : (s'.state f).Ended ∨ s'.state f = .hold := by
    rw [hst]
    exact hstate.imp_left And.left
  have hheld' : s'.held (.holding f origin .returned) = none := if_pos hleft
  refine h.setHeld hi hphase (by rw [hexec]; decide) hs' (hfinished'.symm ▸ hfinished) ?_ ?_ ?_
  · rw [PhaseOk, hst, htask, hfinished']
    exact .inr hstate.symm
  · intro k
    have hone := hcount k
    rw [hheld, hheld', hfinished', hsuspended', weight_none, weight_some, isTask]
    simp only [decide_eq_true_eq]
    omega
  · intro k
    rw [hheld, hheld', hentered', weight_none, weight_some, isUnentered, Bool.not_true,
      Bool.and_false]
    rfl

theorem Sound.yieldToHold (h : Sound s) (hi : s.workers[i]? = some a) {origin : Origin}
    (hphase : a.phase = .holding f origin .running) : Sound (s.yieldToHold i a f origin) := by
  refine h.letGo hi hphase rfl (.inr rfl) rfl (List.Subset.refl _) fun k => ?_
  rw [List.count_append, List.count_singleton]
  simp only [beq_iff_eq]
  show s.finished.count k + (s.suspended.count k + _) = _
  omega

theorem Sound.finish (h : Sound s) (hi : s.workers[i]? = some a) {origin : Origin} {threw : Bool}
    (hphase : a.phase = .holding f origin .running) : Sound (s.finish i a f origin threw) := by
  refine h.letGo hi hphase rfl (.inl ⟨?_, ?_⟩) rfl (List.subset_append_left _ _) fun k => ?_
  · cases threw with
    | false => exact .inl rfl
    | true => exact .inr rfl
  · exact List.mem_append_right _ (List.mem_singleton.mpr rfl)
  · rw [List.count_append, List.count_singleton]
    simp only [beq_iff_eq]
    show _ + s.suspended.count k = _
    omega

/-- The test of the state after `resume`. -/
theorem Sound.testState (h : Sound s) (hi : s.workers[i]? = some a) {origin : Origin}
    (hphase : a.phase = .holding f origin .returned) : Sound (s.testState i a f origin) := by
  have haok := h.workers a (List.mem_of_getElem? hi)
  have hok := haok.phase
  rw [hphase] at hok
  -- of the pointers only that of the worker to this fiber matters
  have hother : ∀ g, a.cbFiber = some g → ¬(g = f ∧ origin = .cbFiber) →
      (s.state g).Ended ∧ s.taskOf g ∈ s.finished := by
    intro g hg hne
    refine haok.ended (fun step hstep => ?_) hg
    rw [hphase] at hstep
    injection hstep with hgf horigin
    exact hne ⟨hgf.symm, horigin⟩
  -- the state that the fiber was left in says what becomes of it
  rcases hok with hready | hhold | ⟨hended, hmem⟩
  · have hnot : ¬((s.state f).Ended ∨ s.state f = .hold) := by
      rw [hready]
      decide
    have hheld : s.held (.requeueing f origin) = s.held a.phase := by
      rw [hphase, held_holding hnot]
      rfl
    unfold BaseState.testState
    rw [if_pos hready]
    cases origin with
    | task threadId =>
      refine h.setWorker hi ⟨hready, fun g step hg => BasePhase.noConfusion hg, ?_⟩ hheld ?_
      · intro g hg
        exact .inr (hother g hg fun hand => Origin.noConfusion hand.2)
      · intro g
        rw [BaseWorker.pointers, BaseWorker.pointers, hphase]
        exact Nat.le_refl _
    | cbFiber =>
      show Sound (s.setWorker i { a with
        phase := .requeueing f .cbFiber
        cbFiber := if s.state f = .ready ∨ s.state f = .hold then none else a.cbFiber })
      rw [if_pos (.inl hready)]
      refine h.setWorker hi ⟨hready, fun g step hg => BasePhase.noConfusion hg, ?_⟩ hheld ?_
      · intro g hg
        exact absurd hg (by simp)
      · intro g
        rw [BaseWorker.pointers, BaseWorker.pointers, hphase, haok.own f _ hphase]
        show pointer (some f) g + 0 ≤ 0 + pointer (some f) g
        omega
  · have hheld : s.held .loop = s.held a.phase := by
      rw [hphase]
      exact (if_pos (.inr hhold)).symm
    have hnot : ¬s.state f = .ready := by
      rw [hhold]
      decide
    unfold BaseState.testState
    rw [if_neg hnot]
    cases origin with
    | task threadId =>
      refine h.setWorker hi (.of_onFiber rfl (fun g hg => ?_) a.tested) hheld fun g => ?_
      · exact hother g hg fun hand => Origin.noConfusion hand.2
      · show 0 + pointer a.cbFiber g ≤ pointer _ g + pointer a.cbFiber g
        omega
    | cbFiber =>
      show Sound (s.setWorker i { a with
        phase := .loop
        cbFiber := if s.state f = .ready ∨ s.state f = .hold then none else a.cbFiber })
      rw [if_pos (.inr hhold)]
      refine h.setWorker hi (.of_onFiber rfl (fun g hg => ?_) a.tested) hheld fun g => ?_
      · exact absurd hg (by simp)
      · exact Nat.zero_le _
  · have hnot : ¬(s.state f = .ready ∨ s.state f = .hold) := by
      intro hstate
      rcases hstate with hst | hst
      · exact absurd (hst ▸ hended) (by decide)
      · exact absurd (hst ▸ hended) (by decide)
    -- a fiber that has ended is dropped, and `cb_fiber` keeps it
    have hsame : s.testState i a f origin = s.setWorker i { a with phase := .loop } := by
      unfold BaseState.testState
      rw [if_neg fun hst => hnot (.inl hst)]
      cases origin with
      | task threadId => rfl
      | cbFiber =>
        show s.setWorker i { a with
          phase := .loop
          cbFiber := if s.state f = .ready ∨ s.state f = .hold then none else a.cbFiber } = _
        rw [if_neg hnot]
    have hheld : s.held .loop = s.held a.phase := by
      rw [hphase]
      exact (if_pos (.inl hended)).symm
    rw [hsame]
    refine h.setWorker hi (.of_onFiber rfl (fun g hg => ?_) a.tested) hheld ?_
    · by_cases hgf : g = f
      · rw [hgf]
        exact ⟨hended, hmem⟩
      · exact hother g hg fun hand => hgf hand.1
    · intro g
      rw [BaseWorker.pointers, BaseWorker.pointers]
      show 0 + pointer a.cbFiber g ≤ _
      omega

/-! ### The steps of a caller -/

/-- Nothing leads to a fiber that does not exist yet. -/
theorem Sound.fresh (h : Sound s) :
    (∀ task ∈ s.tasks, task.work.fiber? ≠ some s.fiberCount) ∧
      ∀ worker ∈ s.workers, worker.pointers s.fiberCount = 0 := by
  have hbound := h.pointers s.fiberCount
  rw [below_eq_zero (Nat.le_refl _), BaseState.pointers] at hbound
  constructor
  · intro task hmem hwork
    have hqueued := queuePointers_pos hmem hwork
    omega
  · intro worker hmem
    obtain ⟨j, hj⟩ := List.mem_iff_getElem?.mp hmem
    have hle : worker.pointers s.fiberCount ≤
        tally (fun worker => worker.pointers s.fiberCount) s.workers :=
      le_tally (f := fun worker => worker.pointers s.fiberCount) hj
    omega

/-- A task more in the queue, for the next number. -/
theorem Sound.accept (h : Sound s) (work : Work) (threadId : Option ℕ)
    (hagree : AgreeOff s s' s.fiberCount) (htasks : s'.tasks = s.tasks ++ [⟨work, threadId⟩])
    (hworkers : s'.workers = s.workers) (haccepted : s'.accepted = s.accepted + 1)
    (hentered : s'.entered = s.entered) (hfinished : s'.finished = s.finished)
    (hsuspended : s'.suspended = s.suspended)
    (hpointers : ∀ g, pointer work.fiber? g + below g s.fiberCount ≤ below g s'.fiberCount)
    (hwaiting : ∀ g, work.fiber? = some g → (s'.state g).Waiting)
    (htask : (s'.pending work).task = s.accepted)
    (hbegun : ∀ k, weight (isUnentered k) (some (s'.pending work)) + s'.begun.count k =
      (if s.accepted = k then 1 else 0) + s.begun.count k) : Sound s' := by
  obtain ⟨hqueue, hhands⟩ := h.fresh
  have hqueued : ∀ p, s'.queued p = s.queued p + weight p (some (s'.pending work)) := by
    intro p
    rw [queued, htasks, tally_concat, queued]
    refine congrArg (· + _) (tally_congr fun task hmem => ?_)
    rw [hagree.pending (hqueue task hmem)]
  have hheld : ∀ p, s'.inHands p = s.inHands p := by
    intro p
    rw [inHands, hworkers]
    refine tally_congr fun worker hmem => ?_
    rw [hagree.held ((h.workers worker hmem).onFiber_ne (hhands worker hmem))]
  refine ⟨?_, ?_, ?_, ?_, ?_⟩
  · intro g
    have hbound := h.pointers g
    have hstep := hpointers g
    rw [BaseState.pointers] at hbound
    rw [BaseState.pointers, queuePointers, htasks, tally_concat, hworkers]
    rw [queuePointers] at hbound
    show _ + pointer work.fiber? g + _ ≤ _
    omega
  · intro task hmem g hg
    rw [htasks] at hmem
    rcases List.mem_append.mp hmem with hmem | hmem
    · have hne : g ≠ s.fiberCount := fun heq => hqueue task hmem (heq ▸ hg)
      rw [hagree.state g hne]
      exact h.queue task hmem g hg
    · obtain rfl := List.mem_singleton.mp hmem
      exact hwaiting g hg
  · intro worker hmem
    rw [hworkers] at hmem
    exact (h.workers worker hmem).agree hagree (hhands worker hmem)
  · intro k
    have htotal := h.tasks k
    have hlast : weight (isTask k) (some (s'.pending work)) = if s.accepted = k then 1 else 0 := by
      rw [weight_some, isTask, htask]
      simp only [decide_eq_true_eq]
    rw [hqueued, hheld, hfinished, hsuspended, haccepted, below_succ, hlast]
    omega
  · intro k
    have htotal := h.entries k
    have hstep := hbegun k
    rw [hqueued, hheld, hentered, haccepted, below_succ]
    omega

/-- `schedule`. -/
theorem Sound.schedule (h : Sound s) {work : NewWork} (threadId : Option ℕ)
    (hvalid : work.Valid) : Sound (s.schedule work threadId) := by
  cases work with
  | fiber state =>
    obtain ⟨s', hs'⟩ : ∃ s', s' = s.schedule (.fiber state) threadId := ⟨_, rfl⟩
    have hstate : s'.state s.fiberCount = state := by
      rw [hs']
      exact update_self _ _ _
    have htask : s'.taskOf s.fiberCount = s.accepted := by
      rw [hs']
      exact update_self _ _ _
    have hagree : AgreeOff s s' s.fiberCount := by
      refine ⟨fun g hg => ?_, fun g hg => ?_, fun _ hk => ?_⟩
      · rw [hs']
        exact update_of_ne hg _ _
      · rw [hs']
        exact update_of_ne hg _ _
      · rw [hs']
        exact hk
    have hcount : s'.fiberCount = s.fiberCount + 1 := by
      rw [hs']
      rfl
    have hbegun : s'.begun = if state = .init then s.begun else s.begun ++ [s.accepted] := by
      rw [hs']
      rfl
    rw [← hs']
    refine h.accept (.fiber s.fiberCount) threadId hagree ?_ ?_ ?_ ?_ ?_ ?_ ?_ ?_ ?_ ?_
    · rw [hs']
      rfl
    · rw [hs']
      rfl
    · rw [hs']
      rfl
    · rw [hs']
      rfl
    · rw [hs']
      rfl
    · rw [hs']
      rfl
    · intro g
      rw [hcount, below_succ, Work.fiber?, pointer]
      simp only [Option.some_inj]
      omega
    · intro g hg
      obtain rfl := Option.some_inj.mp hg
      rw [hstate]
      exact hvalid
    · exact htask
    · intro k
      rw [pending, htask, hstate, weight_some, isUnentered, hbegun]
      by_cases hinit : state = .init
      · rw [if_pos hinit, hinit]
        simp only [decide_true, Bool.not_true, Bool.not_false, Bool.and_true, decide_eq_true_eq]
      · rw [if_neg hinit, decide_eq_false hinit, List.count_append, List.count_singleton]
        simp only [Bool.not_false, Bool.not_true, Bool.and_false, Bool.false_eq_true, if_false,
          beq_iff_eq]
        omega
  | function =>
    refine h.accept (.callback s.accepted) threadId
      ⟨fun _ _ => rfl, fun _ _ => rfl, fun _ hk => hk⟩ rfl rfl rfl rfl rfl rfl ?_ ?_ rfl ?_
    · intro g
      exact Nat.le_of_eq (Nat.zero_add _)
    · intro g hg
      exact absurd hg (by simp [Work.fiber?])
    · intro k
      rw [pending, weight_some, isUnentered]
      simp only [Bool.not_false, Bool.and_true, decide_eq_true_eq]
      rfl

/-- `schedule` of a range is a sequence of calls. -/
theorem Sound.scheduleBatch (h : Sound s) {works : List NewWork}
    (hvalid : ∀ work ∈ works, work.Valid) : Sound (s.scheduleBatch works) := by
  unfold BaseState.scheduleBatch
  induction works generalizing s with
  | nil => exact h
  | cons work works ih =>
    have hfirst := h.schedule none (hvalid work List.mem_cons_self)
    exact ih hfirst fun work hmem => hvalid work (List.mem_cons_of_mem _ hmem)

/-- `start` and `stop` only write flags. -/
theorem Sound.setFlags (h : Sound s) (started stopping : Bool) :
    Sound { s with started := started, stopping := stopping } where
  pointers := h.pointers
  queue := h.queue
  workers := by
    intro worker hmem
    have hok := h.workers worker hmem
    exact ⟨hok.phase, hok.own, hok.parked⟩
  tasks := h.tasks
  entries := h.entries

/-! ### Every run -/

theorem sound_new (n : ℕ) : Sound (new n) := by
  have hworkers : ∀ worker ∈ (new n).workers, worker = ⟨.created, none, 0⟩ :=
    fun worker hmem => List.eq_of_mem_replicate hmem
  have hnone : ∀ p, (new n).inHands p = 0 := by
    intro p
    refine tally_eq_zero fun worker hmem => ?_
    rw [hworkers worker hmem]
    rfl
  refine ⟨?_, fun task hmem => absurd hmem (by simp [new]), ?_, ?_, ?_⟩
  · intro f
    have hzero : tally (fun worker => worker.pointers f) (new n).workers = 0 := by
      refine tally_eq_zero fun worker hmem => ?_
      rw [hworkers worker hmem]
      rfl
    rw [pointers, hzero]
    exact Nat.zero_le _
  · intro worker hmem
    rw [hworkers worker hmem]
    exact .of_onFiber rfl (fun f hf => absurd hf (by simp)) 0
  · intro k
    rw [hnone]
    rfl
  · intro k
    rw [hnone]
    rfl

/-- A step of a worker keeps the invariant. -/
theorem Sound.workerStep (h : Sound s) (hi : s.workers[i]? = some a)
    {action : BaseAction}
    (hstep : WorkerStep s i a action s') : Sound s' := by
  cases hstep with
  | enter hphase hstarted => exact h.move hi a.tested (by rw [hphase]; rfl) rfl (by rw [hphase]; rfl)
  | goIdle hphase hnext => exact h.move hi a.tested (by rw [hphase]; rfl) rfl (by rw [hphase]; rfl)
  | takeFiber hphase hnext =>
    have hmem := (getNextTask_eq_some hnext).1
    exact h.take hi hphase hnext rfl rfl (h.queue _ hmem _ rfl) fun g step hg => by
      injection hg with _ horigin
      exact Origin.noConfusion horigin
  | takeCallback hphase hnext =>
    exact h.take hi hphase hnext rfl rfl trivial fun g step hg => BasePhase.noConfusion hg
  | wake hphase hready => exact h.move hi a.tested (by rw [hphase]; rfl) rfl (by rw [hphase]; rfl)
  | leave hphase hstopping hempty =>
    exact h.move hi s.accepted (by rw [hphase]; rfl) rfl (by rw [hphase]; rfl)
  | backToLoop hphase htest =>
    exact h.move hi a.tested (by rw [hphase]; rfl) rfl (by rw [hphase]; rfl)
  | exit hphase => exact h.move hi a.tested (by rw [hphase]; rfl) rfl (by rw [hphase]; rfl)
  | reuse hphase hcb hterm =>
    refine h.wrapInto hi (n := s.fiberCount) hphase (.inl ?_) fun g => ?_
    · rw [BaseWorker.pointers, hcb, pointer_self]
      exact Nat.succ_pos _
    · exact Nat.le_of_eq (by rw [hcb])
  | makeFiber hphase =>
    refine h.wrapInto hi hphase (.inr (Nat.le_refl _)) fun g => ?_
    rw [below_succ, pointer]
    simp only [Option.some_inj]
    omega
  | resume hphase hwaiting => exact h.resume hi hphase hwaiting
  | yieldToReady hphase => exact h.yieldToReady hi hphase
  | yieldToHold hphase => exact h.yieldToHold hi hphase
  | finish hphase => exact h.finish hi hphase
  | testState hphase => exact h.testState hi hphase
  | requeue hphase => exact h.requeue hi hphase

/-- **The invariant of every run.** -/
theorem sound_of_reachable {n : ℕ} (h : (system n).Reachable s) : Sound s := by
  refine h.invariant ?_ ?_
  · rintro s rfl
    exact sound_new n
  · intro s action s' hs _ hstep
    cases step_cases hstep with
    | start hstarted => exact hs.setFlags true false
    | schedule hvalid => exact hs.schedule _ hvalid
    | scheduleBatch hvalid => exact hs.scheduleBatch hvalid
    | stop => exact hs.setFlags s.started true
    | worker hworker hstep => exact hs.workerStep hworker hstep

/-! ### The last test -/

/-- If all workers are done, what one of them left behind has been finished. -/
structure Drained (s : BaseState) : Prop where
  tested : ∀ worker ∈ s.workers, worker.tested ≤ s.accepted
  drained : (∀ worker ∈ s.workers, worker.phase.Done) →
    ∀ worker ∈ s.workers, ∀ k < worker.tested, k ∈ s.finished ∨ k ∈ s.suspended

/-- A worker that is done has nothing in its hands. -/
theorem held_of_done {phase : BasePhase} (h : phase.Done) : s.held phase = none := by
  rcases h with rfl | rfl
  · rfl
  · rfl

/-- A step after which the worker is done only if it was before. -/
theorem Drained.keep (h : Drained s) (hi : s.workers[i]? = some a)
    (hworkers : s'.workers = s.workers.set i b) (htested : b.tested = a.tested)
    (hdone : b.phase.Done → a.phase.Done) (haccepted : s'.accepted = s.accepted)
    (hfinished : s.finished ⊆ s'.finished) (hsuspended : s.suspended ⊆ s'.suspended) :
    Drained s' := by
  have hold : ∀ worker ∈ s'.workers, ∃ old ∈ s.workers, old.tested = worker.tested := by
    intro worker hmem
    rw [hworkers] at hmem
    rcases mem_set hmem with rfl | ⟨j, -, hj⟩
    · exact ⟨a, List.mem_of_getElem? hi, htested.symm⟩
    · exact ⟨worker, List.mem_of_getElem? hj, rfl⟩
  constructor
  · intro worker hmem
    obtain ⟨old, hold, heq⟩ := hold worker hmem
    rw [haccepted, ← heq]
    exact h.tested old hold
  · intro hall worker hmem k hk
    have hbefore : ∀ old ∈ s.workers, old.phase.Done := by
      intro old hmem
      obtain ⟨j, hj⟩ := List.mem_iff_getElem?.mp hmem
      by_cases hij : i = j
      · subst hij
        rw [hi] at hj
        obtain rfl := Option.some_inj.mp hj
        refine hdone (hall b ?_)
        rw [hworkers]
        exact List.mem_set (List.getElem?_eq_some_iff.mp hi).1 b
      · refine hall old ?_
        rw [hworkers]
        exact List.mem_of_getElem? (List.getElem?_set_ne hij ▸ hj)
    obtain ⟨old, hold, heq⟩ := hold worker hmem
    have hleft := h.drained hbefore old hold k (heq ▸ hk)
    exact hleft.imp (fun hmem => hfinished hmem) fun hmem => hsuspended hmem

/-- The queue is empty and nobody else has a task. -/
theorem Drained.leave (h : Drained s) (hsound : Sound s) (hi : s.workers[i]? = some a)
    (hphase : a.phase = .testing) (hempty : s.tasks = []) :
    Drained (s.setWorker i { a with phase := .leaving, tested := s.accepted }) := by
  constructor
  · intro worker hmem
    rcases mem_set hmem with rfl | ⟨j, -, hj⟩
    · exact Nat.le_refl _
    · exact h.tested worker (List.mem_of_getElem? hj)
  · intro hall
    have hhands : ∀ worker ∈ s.workers, s.held worker.phase = none := by
      intro worker hmem
      obtain ⟨j, hj⟩ := List.mem_iff_getElem?.mp hmem
      by_cases hij : i = j
      · subst hij
        rw [hi] at hj
        obtain rfl := Option.some_inj.mp hj
        rw [hphase]
        rfl
      · exact held_of_done (hall worker (List.mem_of_getElem? (List.getElem?_set_ne hij ▸ hj)))
    have hfinished : ∀ k < s.accepted, k ∈ s.finished ∨ k ∈ s.suspended := by
      intro k hk
      have htotal := hsound.tasks k
      have hnone : s.inHands (isTask k) = 0 := by
        refine tally_eq_zero fun worker hmem => ?_
        rw [hhands worker hmem, weight_none]
      rw [queued, hempty, tally_nil, hnone, below_eq_one hk] at htotal
      by_cases hmem : k ∈ s.finished
      · exact .inl hmem
      · rw [List.count_eq_zero_of_not_mem hmem] at htotal
        exact .inr (List.count_pos_iff.mp (by omega))
    intro worker hmem k hk
    rcases mem_set hmem with rfl | ⟨j, -, hj⟩
    · exact hfinished k hk
    · have htested := h.tested worker (List.mem_of_getElem? hj)
      exact hfinished k (Nat.lt_of_lt_of_le hk htested)

theorem Drained.workerStep (h : Drained s) (hsound : Sound s) (hi : s.workers[i]? = some a)
    {action : BaseAction}
    (hstep : WorkerStep s i a action s') : Drained s' := by
  -- after all but two of the steps the worker is not done
  have hkeep : ∀ (s' : BaseState) (b : BaseWorker), s'.workers = s.workers.set i b →
      b.tested = a.tested → ¬b.phase.Done → s'.accepted = s.accepted →
      s.finished ⊆ s'.finished → s.suspended ⊆ s'.suspended → Drained s' :=
    fun s' b hworkers htested hnot => h.keep hi hworkers htested fun hdone => absurd hdone hnot
  cases hstep with
  | leave hphase hstopping hempty => exact h.leave hsound hi hphase hempty
  | exit hphase =>
    exact h.keep hi rfl rfl (fun _ => .inl hphase) rfl (List.Subset.refl _)
      (List.Subset.refl _)
  | finish hphase =>
    exact hkeep _ _ rfl rfl (by simp [BasePhase.Done]) rfl (List.subset_append_left _ _)
      (List.Subset.refl _)
  | yieldToHold hphase =>
    exact hkeep _ _ rfl rfl (by simp [BasePhase.Done]) rfl (List.Subset.refl _)
      (List.subset_append_left _ _)
  | @testState f origin hphase =>
    refine hkeep _ _ rfl rfl ?_ rfl (List.Subset.refl _) (List.Subset.refl _)
    show ¬(if s.state f = .ready then BasePhase.requeueing f origin else .loop).Done
    split
    · simp [BasePhase.Done]
    · simp [BasePhase.Done]
  | _ =>
    exact hkeep _ _ rfl rfl (by simp [BasePhase.Done]) rfl (List.Subset.refl _)
      (List.Subset.refl _)

theorem Drained.setFlags (h : Drained s) (started stopping : Bool) :
    Drained { s with started := started, stopping := stopping } :=
  ⟨h.tested, h.drained⟩

theorem Drained.schedule (h : Drained s) (work : NewWork) (threadId : Option ℕ) :
    Drained (s.schedule work threadId) := by
  cases work with
  | fiber state =>
    exact ⟨fun worker hmem => Nat.le_succ_of_le (h.tested worker hmem), h.drained⟩
  | function =>
    exact ⟨fun worker hmem => Nat.le_succ_of_le (h.tested worker hmem), h.drained⟩

theorem Drained.scheduleBatch (h : Drained s) (works : List NewWork) :
    Drained (s.scheduleBatch works) := by
  unfold BaseState.scheduleBatch
  induction works generalizing s with
  | nil => exact h
  | cons work works ih => exact ih (h.schedule work none)

theorem drained_of_reachable {n : ℕ} (h : (system n).Reachable s) : Drained s := by
  induction h with
  | init h =>
    obtain rfl := h
    have hworkers : ∀ worker ∈ (new n).workers, worker = ⟨.created, none, 0⟩ :=
      fun worker hmem => List.eq_of_mem_replicate hmem
    constructor
    · intro worker hmem
      rw [hworkers worker hmem]
      exact Nat.le_refl _
    · intro _ worker hmem k hk
      rw [hworkers worker hmem] at hk
      exact absurd hk (Nat.not_lt_zero k)
  | step h _ hstep ih =>
    cases step_cases hstep with
    | start hstarted => exact ih.setFlags true false
    | schedule hvalid => exact ih.schedule _ _
    | scheduleBatch hvalid => exact ih.scheduleBatch _
    | stop => exact ih.setFlags _ true
    | worker hworker hstep => exact ih.workerStep (sound_of_reachable h) hworker hstep

/-! ### The scheduler -/

/-- The assertions of `resume` hold. -/
theorem step_resume {n : ℕ} (h : (system n).Reachable s) (hi : s.workers[i]? = some a)
    {origin : Origin} (hphase : a.phase = .holding f origin .taken) :
    s.step (.resume i) = some (s.resume i a f origin) := by
  have hok := ((sound_of_reachable h).workers a (List.mem_of_getElem? hi)).phase
  rw [hphase] at hok
  have hwaiting : (s.state f).Waiting := hok
  have hworker : s.onWorker i a (.resume i) = some (s.resume i a f origin) := by
    obtain ⟨phase, cbFiber, tested⟩ := a
    obtain rfl : phase = .holding f origin .taken := hphase
    exact if_pos hwaiting
  show (s.workers[i]?.bind fun worker => s.onWorker i worker (.resume i)) = _
  rw [hi, Option.bind_some, hworker]

/-- A task that has ended is nowhere. -/
theorem Sound.count_finished (h : Sound s) {k : ℕ} (hk : k ∈ s.finished) :
    s.entered.count k + s.begun.count k = 1 := by
  have htasks := h.tasks k
  have hentries := h.entries k
  have hpos : 0 < s.finished.count k := List.count_pos_iff.mpr hk
  have hbound := below_le_one k s.accepted
  have hqueued : s.queued (isUnentered k) ≤ s.queued (isTask k) :=
    tally_mono fun task _ => weight_isUnentered_le k _
  have hhands : s.inHands (isUnentered k) ≤ s.inHands (isTask k) :=
    tally_mono fun worker _ => weight_isUnentered_le k _
  omega

/-- Where an accepted task is: how many entries of the queue stand for it, and how many
workers have it in their hands. -/
def places (s : BaseState) (k : ℕ) : ℕ × ℕ := (s.queued (isTask k), s.inHands (isTask k))

/-- No task yields as `HOLD`. -/
def NeverHolds (_ : BaseState) : BaseAction → Prop
  | .yieldToHold _ => False
  | _ => True

instance (s : BaseState) : (action : BaseAction) → Decidable (NeverHolds s action)
  | .yieldToHold _ => .isFalse id
  | .start | .schedule _ _ | .scheduleBatch _ | .stop | .enter _ | .getNextTask _ | .wake _
  | .testIdle _ | .exit _ | .wrap _ | .resume _ | .yieldToReady _ | .finish _ _ | .testState _
  | .requeue _ => .isTrue trivial

theorem suspended_schedule (s : BaseState) (work : NewWork) (threadId : Option ℕ) :
    (s.schedule work threadId).suspended = s.suspended := by
  cases work with
  | fiber state => rfl
  | function => rfl

theorem suspended_scheduleBatch (s : BaseState) (works : List NewWork) :
    (s.scheduleBatch works).suspended = s.suspended := by
  unfold scheduleBatch
  induction works generalizing s with
  | nil => rfl
  | cons work works ih => exact (ih _).trans (suspended_schedule s work none)

/-- Then no task is let go. -/
theorem suspended_eq_nil {n : ℕ} (h : (system n).ReachableWhile NeverHolds s) :
    s.suspended = [] := by
  induction h with
  | init h =>
    obtain rfl := h
    rfl
  | step h hcond hstep ih =>
    cases step_cases hstep with
    | start hstarted => exact ih
    | schedule hvalid => exact (suspended_schedule _ _ _).trans ih
    | scheduleBatch hvalid => exact (suspended_scheduleBatch _ _).trans ih
    | stop => exact ih
    | worker hworker hstep =>
      cases hstep with
      | yieldToHold hphase => exact absurd hcond id
      | _ => exact ih

/-- **Every task is executed once, and the queue is drained**, for any number of
workers and in every run in which no task yields as `HOLD`: no body is entered twice, an
accepted task that has not ended is in exactly one place, what has ended had been
entered, `cb_fiber` is given to another function only after its own has ended, and when
all workers have exited the tasks accepted before the last test of any of them have
ended. -/
theorem executed_once {n : ℕ} (h : (system n).ReachableWhile NeverHolds s) :
    s.entered.Nodup ∧ s.finished.Nodup ∧
    (∀ k ∈ s.finished, k ∈ s.entered ∨ k ∈ s.begun) ∧
    (∀ k < s.accepted, k ∉ s.finished → s.places k = (1, 0) ∨ s.places k = (0, 1)) ∧
    (∀ worker ∈ s.workers, ∀ callback f, worker.phase = .wrapping callback →
      worker.cbFiber = some f → s.taskOf f ∈ s.finished) ∧
    ((∀ worker ∈ s.workers, worker.phase = .exited) →
      ∀ worker ∈ s.workers, ∀ k < worker.tested, k ∈ s.finished) := by
  have hreach : (system n).Reachable s := h.mono fun _ _ _ => trivial
  have hsound := sound_of_reachable hreach
  have hdrained := drained_of_reachable hreach
  have hnone := suspended_eq_nil h
  refine ⟨?_, ?_, ?_, ?_, ?_, ?_⟩
  · refine List.nodup_iff_count.mpr fun k => ?_
    have hentries := hsound.entries k
    have hbound := below_le_one k s.accepted
    omega
  · refine List.nodup_iff_count.mpr fun k => ?_
    have htasks := hsound.tasks k
    have hbound := below_le_one k s.accepted
    omega
  · intro k hk
    have hcount := hsound.count_finished hk
    by_cases hentered : k ∈ s.entered
    · exact .inl hentered
    · rw [List.count_eq_zero_of_not_mem hentered, Nat.zero_add] at hcount
      exact .inr (List.count_pos_iff.mp (by omega))
  · intro k hk hnot
    have htasks := hsound.tasks k
    rw [List.count_eq_zero_of_not_mem hnot, below_eq_one hk, hnone, List.count_nil] at htasks
    rw [places, Prod.mk.injEq, Prod.mk.injEq]
    omega
  · intro worker hmem callback f hphase hcb
    refine ((hsound.workers worker hmem).ended (fun step hstep => ?_) hcb).2
    rw [hphase] at hstep
    exact BasePhase.noConfusion hstep
  · intro hall worker hmem k hk
    have hleft := hdrained.drained (fun worker hmem => .inr (hall worker hmem)) worker hmem k hk
    rw [hnone] at hleft
    exact hleft.resolve_right List.not_mem_nil

/-- A function pinned to the second worker throws after it has scheduled another one; a
function of a batch yields and goes back to the queue, whose `cb_fiber` is a new one for
the function that follows; a waiting fiber ends; both workers leave. -/
def drainActions : List BaseAction :=
  [.schedule .function (some 1), .scheduleBatch [.function, .fiber .hold], .start, .enter 0,
    .enter 1, .getNextTask 0, .wrap 0, .resume 0, .yieldToReady 0, .getNextTask 1, .wrap 1,
    .resume 1, .schedule .function none, .finish 1 true, .testState 1, .testState 0, .requeue 0,
    .stop, .getNextTask 1, .resume 1, .finish 1 false, .testState 1, .getNextTask 0, .wrap 0,
    .resume 0, .finish 0 false, .testState 0, .getNextTask 0, .resume 0, .finish 0 false,
    .testState 0, .getNextTask 0, .wake 0, .testIdle 0, .exit 0, .getNextTask 1, .wake 1,
    .testIdle 1, .exit 1]

theorem executed_once_run :
    ∃ s, (system 2).exec (new 2) drainActions = some s ∧
      s.workers = [⟨.exited, some 3, 4⟩, ⟨.exited, some 2, 4⟩] ∧ s.entered = [1, 0, 3] ∧
      s.begun = [2] ∧ s.finished = [0, 2, 3, 1] ∧ s.entered.Nodup ∧
      ∀ worker ∈ s.workers, ∀ k < worker.tested, k ∈ s.finished := by
  obtain ⟨s, hs, hworkers, hentered, hbegun, hfinished⟩ :
      ∃ s, (system 2).exec (new 2) drainActions = some s ∧
        s.workers = [⟨.exited, some 3, 4⟩, ⟨.exited, some 2, 4⟩] ∧ s.entered = [1, 0, 3] ∧
        s.begun = [2] ∧ s.finished = [0, 2, 3, 1] :=
    ⟨_, rfl, by decide +kernel, by decide +kernel, by decide +kernel, by decide +kernel⟩
  have hmeets : (system 2).Meets NeverHolds (new 2) drainActions := by decide +kernel
  have hreach : (system 2).ReachableWhile NeverHolds s := (ReachableWhile.init rfl).exec hmeets hs
  obtain ⟨hnodup, -, -, -, -, hdrained⟩ := executed_once hreach
  refine ⟨s, hs, hworkers, hentered, hbegun, hfinished, hnodup, hdrained ?_⟩
  rw [hworkers]
  simp only [List.mem_cons, List.not_mem_nil, or_false, forall_eq_or_imp, forall_eq, and_self]

end BaseState

end Scheduler

/-
Pins.

The `thread_id` of a task travels with its entry in the queue.  A fiber that yields as
`READY` is put back with it.  A function is put back as the `cb_fiber` into which it was
wrapped, and without it.

* `Pinned` — every segment of a pinned task has been run by its worker;
* `pinned_of_keepsPins` — this holds as long as no pinned function yields as `READY`, or
  there is one worker only;
* `not_pinned` — two workers and one function.
-/
import Droplet.Scheduler.Conservation

open Transition Transition.System Tally Function

namespace Scheduler

namespace BasePhase

/-- The fiber of a function that is executing. -/
def function? : BasePhase → Option ℕ
  | .holding f .cbFiber .running => some f
  | _ => none

/-- The `thread_id` with which the worker will put its fiber back. -/
def carries : BasePhase → Option (Option ℕ)
  | .holding _ (.task threadId) _ => some threadId
  | .holding _ .cbFiber .returned => some none
  | .requeueing _ (.task threadId) => some threadId
  | .requeueing _ .cbFiber => some none
  | _ => none

end BasePhase

namespace BaseState

variable {s s' : BaseState} {i f k : ℕ} {a b : BaseWorker} {threadId : Option ℕ}

/-- Every segment of a task that was scheduled with a `thread_id` has been run there. -/
def Pinned (s : BaseState) : Prop :=
  ∀ segment ∈ s.segments, ∀ t, s.pinOf segment.1 = some t → segment.2 = t

/-- A function that was scheduled with a `thread_id` does not yield as `READY`, unless
there is only one worker. -/
def KeepsPins (s : BaseState) : BaseAction → Prop
  | .yieldToReady w => s.workers.length ≤ 1 ∨
      ∀ worker ∈ s.workers[w]?, ∀ f ∈ worker.phase.function?, s.pinOf (s.taskOf f) = none
  | _ => True

instance (s : BaseState) : (action : BaseAction) → Decidable (KeepsPins s action)
  | .yieldToReady w => inferInstanceAs (Decidable (s.workers.length ≤ 1 ∨
      ∀ worker ∈ s.workers[w]?, ∀ f ∈ worker.phase.function?, s.pinOf (s.taskOf f) = none))
  | .start | .schedule _ _ | .scheduleBatch _ | .stop | .enter _ | .getNextTask _ | .wake _
  | .testIdle _ | .exit _ | .wrap _ | .resume _ | .yieldToHold _ | .finish _ _ | .testState _
  | .requeue _ => .isTrue trivial

/-! ### The pins of queued and running tasks -/

/-- The worker may run the task. -/
def Here (s : BaseState) (k w : ℕ) : Prop := ∀ t, s.pinOf k = some t → w = t

/-- The entry has the pin of its task, or none where there is one worker only. -/
def Carried (s : BaseState) (k : ℕ) (threadId : Option ℕ) : Prop :=
  s.pinOf k = threadId ∨ s.workers.length ≤ 1 ∧ threadId = none ∧ Here s k 0

/-- What a worker has in its hands may run there, and will be put back with its pin. -/
def PinHeld (s : BaseState) (w : ℕ) (phase : BasePhase) (v : Pending) : Prop :=
  Here s v.task w ∧ ∀ threadId, phase.carries = some threadId → Carried s v.task threadId

structure PinsOk (s : BaseState) : Prop where
  queue : ∀ task ∈ s.tasks, Carried s (s.pending task.work).task task.threadId
  workers : ∀ w worker, s.workers[w]? = some worker →
    ∀ v, s.held worker.phase = some v → PinHeld s w worker.phase v
  segments : ∀ segment ∈ s.segments, Here s segment.1 segment.2 ∧ segment.1 < s.accepted

/-- A worker that `getNextTask` does not exclude may run the task. -/
theorem Carried.here (h : Carried s k threadId) (hi : s.workers[i]? = some a)
    (hallowed : threadId = none ∨ threadId = some i) : Here s k i := by
  intro t ht
  rcases h with hpin | ⟨hone, -, hzero⟩
  · rw [hpin] at ht
    rcases hallowed with hnone | hself
    · exact absurd (hnone.symm.trans ht) (by simp)
    · exact Option.some_inj.mp (hself.symm.trans ht)
  · obtain ⟨hlt, -⟩ := List.getElem?_eq_some_iff.mp hi
    obtain rfl : i = 0 := by omega
    exact hzero t ht

/-- A task that is counted somewhere has been accepted. -/
theorem Sound.lt_accepted (h : Sound s)
    (hpos : 0 < s.queued (Pending.isTask k) + s.inHands (Pending.isTask k)) : k < s.accepted := by
  by_contra hge
  have htotal := h.tasks k
  rw [below_eq_zero (Nat.not_lt.mp hge)] at htotal
  omega

theorem Sound.queued_lt (h : Sound s) {task : ScheduleTask} (hmem : task ∈ s.tasks) :
    (s.pending task.work).task < s.accepted := by
  obtain ⟨k, hk⟩ : ∃ k, k = (s.pending task.work).task := ⟨_, rfl⟩
  obtain ⟨j, hj⟩ := List.mem_iff_getElem?.mp hmem
  have hle : Pending.weight (Pending.isTask k) (some (s.pending task.work)) ≤
      s.queued (Pending.isTask k) :=
    le_tally (f := fun task => Pending.weight (Pending.isTask k) (some (s.pending task.work))) hj
  rw [Pending.weight_some, Pending.isTask, ← hk, decide_eq_true rfl, if_pos rfl] at hle
  rw [← hk]
  exact h.lt_accepted (by omega)

theorem Sound.held_lt (h : Sound s) (hi : s.workers[i]? = some a) {v : Pending}
    (hv : s.held a.phase = some v) : v.task < s.accepted := by
  obtain ⟨k, hk⟩ : ∃ k, k = v.task := ⟨_, rfl⟩
  have hle : Pending.weight (Pending.isTask k) (s.held a.phase) ≤ s.inHands (Pending.isTask k) :=
    le_tally (f := fun worker => Pending.weight (Pending.isTask k) (s.held worker.phase)) hi
  rw [hv, Pending.weight_some, Pending.isTask, ← hk, decide_eq_true rfl, if_pos rfl] at hle
  rw [← hk]
  exact h.lt_accepted (by omega)

/-! ### Steps of a worker -/

/-- What the other workers and the queue hold keeps its pins. -/
theorem PinsOk.acts (h : PinsOk s) (hsound : Sound s) (hacts : Acts s s' i a b f)
    (hpin : s'.pinOf = s.pinOf) (haccepted : s'.accepted = s.accepted)
    (hqueue : ∀ task ∈ s'.tasks, Carried s (s'.pending task.work).task task.threadId)
    (hb : ∀ v, s'.held b.phase = some v → PinHeld s i b.phase v)
    (hsegments : ∀ segment ∈ s'.segments, segment ∈ s.segments ∨
      Here s segment.1 segment.2 ∧ segment.1 < s.accepted) : PinsOk s' := by
  obtain ⟨-, halone⟩ := hsound.alone hacts.worker hacts.own
  have hlength : s'.workers.length = s.workers.length := by rw [hacts.workers, List.length_set]
  have hhere : ∀ k w, Here s k w → Here s' k w := by
    intro k w hk t ht
    rw [hpin] at ht
    exact hk t ht
  have hcarried : ∀ k threadId, Carried s k threadId → Carried s' k threadId := by
    intro k threadId hk
    rw [Carried, hpin, hlength]
    exact hk.imp_right fun hone => ⟨hone.1, hone.2.1, hhere k 0 hone.2.2⟩
  have hheld : ∀ w phase v, PinHeld s w phase v → PinHeld s' w phase v :=
    fun w phase v hv => ⟨hhere _ _ hv.1, fun threadId ht => hcarried _ _ (hv.2 threadId ht)⟩
  refine ⟨fun task hmem => hcarried _ _ (hqueue task hmem), ?_, ?_⟩
  · intro w worker hworker v hv
    rw [hacts.workers] at hworker
    by_cases hw : i = w
    · subst hw
      rw [List.getElem?_set_self (List.getElem?_eq_some_iff.mp hacts.worker).1] at hworker
      obtain rfl := Option.some_inj.mp hworker
      exact hheld _ _ _ (hb v hv)
    · rw [List.getElem?_set_ne hw] at hworker
      have hok := hsound.workers worker (List.mem_of_getElem? hworker)
      rw [hacts.agree.held (hok.onFiber_ne (halone w worker (Ne.symm hw) hworker))] at hv
      exact hheld _ _ _ (h.workers w worker hworker v hv)
  · intro segment hmem
    rw [haccepted]
    have hold : Here s segment.1 segment.2 ∧ segment.1 < s.accepted :=
      (hsegments segment hmem).elim (h.segments segment) id
    exact ⟨hhere _ _ hold.1, hold.2⟩

/-- The queue stays as it is. -/
theorem PinsOk.queue_eq (h : PinsOk s) (hsound : Sound s) (hacts : Acts s s' i a b f)
    (htasks : s'.tasks = s.tasks) :
    ∀ task ∈ s'.tasks, Carried s (s'.pending task.work).task task.threadId := by
  obtain ⟨halone, -⟩ := hsound.alone hacts.worker hacts.own
  intro task hmem
  rw [htasks] at hmem
  rw [hacts.agree.pending (halone task hmem)]
  exact h.queue task hmem

/-- Only the variables of a worker change. -/
theorem PinsOk.setWorker (h : PinsOk s) (hsound : Sound s) (hi : s.workers[i]? = some a)
    (hb : ∀ v, s.held b.phase = some v → PinHeld s i b.phase v) : PinsOk (s.setWorker i b) := by
  have hacts : Acts s (s.setWorker i b) i a b s.fiberCount :=
    ⟨hi, rfl, ⟨fun _ _ => rfl, fun _ _ => rfl, fun _ hk => hk⟩, .inr (Nat.le_refl _)⟩
  exact h.acts hsound hacts rfl rfl (h.queue_eq hsound hacts rfl) hb fun _ hmem => .inl hmem

/-- A worker moves between the top of its loop and its idle fiber. -/
theorem PinsOk.move (h : PinsOk s) (hsound : Sound s) (hi : s.workers[i]? = some a)
    (hb : s.held b.phase = none) : PinsOk (s.setWorker i b) := by
  refine h.setWorker hsound hi fun v hv => ?_
  rw [hb] at hv
  exact absurd hv (by simp)

/-- A task moves from the queue to a worker. -/
theorem PinsOk.take (h : PinsOk s) (hsound : Sound s) (hi : s.workers[i]? = some a)
    {task : ScheduleTask} {rest : List ScheduleTask} {phase : BasePhase}
    (hnext : Scheduler.getNextTask s.state i s.tasks = some (task, rest))
    (hheld : s.held phase = some (s.pending task.work))
    (hcarries : ∀ threadId, phase.carries = some threadId → threadId = task.threadId) :
    PinsOk (({ s with tasks := rest } : BaseState).setWorker i { a with phase := phase }) := by
  obtain ⟨hmem, hrunnable⟩ := getNextTask_eq_some hnext
  have hallowed : task.AllowedOn i := by
    rw [ScheduleTask.RunnableOn, Bool.and_eq_true, decide_eq_true_eq] at hrunnable
    exact hrunnable.1
  have hcarried := h.queue task hmem
  have hacts : Acts s (({ s with tasks := rest } : BaseState).setWorker i { a with phase := phase })
      i a { a with phase := phase } s.fiberCount :=
    ⟨hi, rfl, ⟨fun _ _ => rfl, fun _ _ => rfl, fun _ hk => hk⟩, .inr (Nat.le_refl _)⟩
  refine h.acts hsound hacts rfl rfl ?_ ?_ fun _ hmem => .inl hmem
  · intro other hother
    exact h.queue other (mem_of_getNextTask hnext hother)
  · intro v hv
    have hsame : s.held phase = some v := hv
    rw [hheld] at hsame
    obtain rfl := Option.some_inj.mp hsame
    refine ⟨hcarried.here hi hallowed, fun threadId ht => ?_⟩
    rw [hcarries threadId ht]
    exact hcarried

/-- A fiber that is `READY` moves from a worker to the queue. -/
theorem PinsOk.requeue (h : PinsOk s) (hsound : Sound s) (hi : s.workers[i]? = some a)
    {origin : Origin} (hphase : a.phase = .requeueing f origin) :
    PinsOk (s.requeue i a f origin) := by
  have hacts : Acts s (s.requeue i a f origin) i a { a with phase := .loop } s.fiberCount :=
    ⟨hi, rfl, ⟨fun _ _ => rfl, fun _ _ => rfl, fun _ hk => hk⟩, .inr (Nat.le_refl _)⟩
  have hpin := h.workers i a hi (s.pending (.fiber f)) (by rw [hphase]; rfl)
  refine h.acts hsound hacts rfl rfl ?_ (fun v hv => ?_) fun _ hmem => .inl hmem
  · intro task hmem
    rcases List.mem_append.mp hmem with hmem | hmem
    · exact h.queue task hmem
    · obtain rfl := List.mem_singleton.mp hmem
      refine hpin.2 _ ?_
      rw [hphase]
      cases origin with
      | task threadId => rfl
      | cbFiber => rfl
  · exact absurd hv (by simp [held])

/-- A function gets a fiber that is the worker's own or new. -/
theorem PinsOk.wrapInto (h : PinsOk s) (hsound : Sound s) (hi : s.workers[i]? = some a)
    {callback n : ℕ} (hphase : a.phase = .wrapping callback)
    (hown : 0 < a.pointers f ∨ s.fiberCount ≤ f) :
    PinsOk (({ s with fiberCount := n } : BaseState).wrapInto i a callback f) := by
  have hagree : AgreeOff s (({ s with fiberCount := n } : BaseState).wrapInto i a callback f) f :=
    ⟨fun g hg => update_of_ne hg _ _, fun g hg => update_of_ne hg _ _, fun _ hk => hk⟩
  have hacts : Acts s (({ s with fiberCount := n } : BaseState).wrapInto i a callback f) i a
      { a with phase := .holding f .cbFiber .taken, cbFiber := some f } f :=
    ⟨hi, rfl, hagree, hown⟩
  have hpin := h.workers i a hi ⟨callback, false⟩ (by rw [hphase]; rfl)
  refine h.acts hsound hacts rfl rfl (h.queue_eq hsound hacts rfl) ?_ fun _ hmem => .inl hmem
  intro v hv
  have htask : v.task = callback := by
    rw [← Option.some_inj.mp hv]
    exact update_self _ _ _
  refine ⟨htask ▸ hpin.1, fun threadId ht => ?_⟩
  exact absurd ht (by simp [BasePhase.carries])

/-- The fiber in the hands of a worker changes its state. -/
theorem PinsOk.setHeld (h : PinsOk s) (hsound : Sound s) (hi : s.workers[i]? = some a)
    {origin : Origin} {step step' : HoldStep} {state : Fiber.State} {segments : List (ℕ × ℕ)}
    {entered finished suspended : List ℕ} (hphase : a.phase = .holding f origin step)
    (hheld : s.held a.phase = some (s.pending (.fiber f)))
    (hs' : s' = { s.setHeld i a f origin step' state with
      segments := segments, entered := entered, finished := finished, suspended := suspended })
    (hfinished : s.finished ⊆ finished)
    (hsegments : ∀ segment ∈ segments, segment ∈ s.segments ∨ segment = (s.taskOf f, i))
    (hcarries : origin = .cbFiber → step' = .returned →
      (state.Ended ∨ state = .hold) ∨ Carried s (s.taskOf f) none) : PinsOk s' := by
  have haok := hsound.workers a (List.mem_of_getElem? hi)
  have hpos : 0 < a.pointers f := haok.pointers_pos (by rw [hphase]; rfl)
  have hagree : AgreeOff s s' f := by
    refine ⟨fun g hg => ?_, fun g hg => ?_, ?_⟩
    · rw [hs']
      exact update_of_ne hg _ _
    · rw [hs']
      exact update_of_ne hg _ _
    · rw [hs']
      exact hfinished
  have hacts : Acts s s' i a { a with phase := .holding f origin step' } f :=
    ⟨hi, by rw [hs']; rfl, hagree, .inl hpos⟩
  have htask : s'.taskOf f = s.taskOf f := by
    rw [hs']
    exact update_self _ _ _
  obtain ⟨hhere, hcarried⟩ := h.workers i a hi _ hheld
  refine h.acts hsound hacts (by rw [hs']; rfl) (by rw [hs']; rfl)
    (h.queue_eq hsound hacts (by rw [hs']; rfl)) ?_ ?_
  · intro v hv
    have hv' : s'.held (.holding f origin step') = some v := hv
    have hvtask : v.task = s.taskOf f := by
      rw [← htask]
      cases step' with
      | taken => rw [← Option.some_inj.mp hv', pending]
      | running => rw [← Option.some_inj.mp hv', pending]
      | returned =>
        rw [held] at hv'
        split at hv'
        · exact absurd hv' (by simp)
        · rw [← Option.some_inj.mp hv', pending]
    rw [PinHeld, hvtask]
    refine ⟨hhere, fun threadId ht => ?_⟩
    cases origin with
    | task threadId' =>
      refine hcarried threadId ?_
      rw [hphase]
      exact ht
    | cbFiber =>
      cases step' with
      | taken => exact absurd ht (by simp [BasePhase.carries])
      | running => exact absurd ht (by simp [BasePhase.carries])
      | returned =>
        obtain rfl : none = threadId := Option.some_inj.mp ht
        refine (hcarries rfl rfl).resolve_left fun hleft => ?_
        have hstate : s'.state f = state := by
          rw [hs']
          exact update_self _ _ _
        rw [held, hstate, if_pos hleft] at hv'
        exact absurd hv' (by simp)
  · intro segment hmem
    have hmem' : segment ∈ segments := by
      rw [hs'] at hmem
      exact hmem
    refine (hsegments segment hmem').imp_right fun heq => ?_
    rw [heq]
    exact ⟨hhere, hsound.held_lt hi hheld⟩

/-- What is in the hands of a worker before the fiber leaves its stack. -/
theorem held_of_phase {origin : Origin} {step : HoldStep} (hphase : a.phase = .holding f origin step)
    (hstep : step ≠ .returned) : s.held a.phase = some (s.pending (.fiber f)) := by
  rw [hphase]
  cases step with
  | taken => rfl
  | running => rfl
  | returned => exact absurd rfl hstep

/-- The test of the state after `resume`. -/
theorem PinsOk.testState (h : PinsOk s) (hsound : Sound s) (hi : s.workers[i]? = some a)
    {origin : Origin} (hphase : a.phase = .holding f origin .returned) :
    PinsOk (s.testState i a f origin) := by
  refine h.setWorker hsound hi fun v hv => ?_
  have hv' : s.held (if s.state f = .ready then .requeueing f origin else .loop) = some v := hv
  by_cases hready : s.state f = .ready
  · rw [if_pos hready] at hv'
    have hnot : ¬((s.state f).Ended ∨ s.state f = .hold) := by
      rw [hready]
      decide
    have hheld : s.held a.phase = some v := by
      rw [← hv', hphase, held_holding hnot]
      rfl
    obtain ⟨hhere, hcarried⟩ := h.workers i a hi v hheld
    refine ⟨hhere, fun threadId ht => hcarried threadId ?_⟩
    have ht' : (if s.state f = .ready then BasePhase.requeueing f origin else .loop).carries =
        some threadId := ht
    rw [if_pos hready] at ht'
    rw [hphase, ← ht']
    cases origin with
    | task threadId' => rfl
    | cbFiber => rfl
  · rw [if_neg hready] at hv'
    exact absurd hv' (by simp [held])

/-- A function that yields as `READY` under the condition is put back with its pin. -/
theorem carried_of_keepsPins {origin : Origin} (hi : s.workers[i]? = some a)
    (hphase : a.phase = .holding f origin .running) (hcond : KeepsPins s (.yieldToReady i))
    (hhere : Here s (s.taskOf f) i) (horigin : origin = .cbFiber) :
    Carried s (s.taskOf f) none := by
  subst horigin
  rcases hcond with hone | hnone
  · obtain ⟨hlt, -⟩ := List.getElem?_eq_some_iff.mp hi
    obtain rfl : i = 0 := by omega
    exact .inr ⟨hone, rfl, hhere⟩
  · refine .inl (hnone a hi f ?_)
    rw [hphase]
    rfl

/-- A step of a worker that meets the condition keeps the pins. -/
theorem PinsOk.workerStep (h : PinsOk s) (hsound : Sound s) (hi : s.workers[i]? = some a)
    {action : BaseAction} (hcond : KeepsPins s action) (hstep : WorkerStep s i a action s') :
    PinsOk s' := by
  cases hstep with
  | takeFiber hphase hnext =>
    refine h.take hsound hi hnext rfl fun threadId ht => ?_
    exact (Option.some_inj.mp ht).symm
  | takeCallback hphase hnext =>
    refine h.take hsound hi hnext rfl fun threadId ht => ?_
    exact absurd ht (by simp [BasePhase.carries])
  | reuse hphase hcb hterm =>
    refine h.wrapInto hsound hi (n := s.fiberCount) hphase (.inl ?_)
    rw [BaseWorker.pointers, hcb, pointer_self]
    exact Nat.succ_pos _
  | makeFiber hphase => exact h.wrapInto hsound hi hphase (.inr (Nat.le_refl _))
  | resume hphase hwaiting =>
    refine h.setHeld hsound hi hphase (held_of_phase hphase (by simp)) rfl (List.Subset.refl _)
      (fun segment hmem => ?_) fun _ hstep => absurd hstep (by simp)
    exact (List.mem_append.mp hmem).imp_right List.mem_singleton.mp
  | @yieldToReady f origin hphase =>
    have hheld := held_of_phase (s := s) hphase (by simp)
    refine h.setHeld hsound hi hphase hheld rfl (List.Subset.refl _) (fun _ hmem => .inl hmem) ?_
    intro horigin _
    exact .inr (carried_of_keepsPins hi hphase hcond (h.workers i a hi _ hheld).1 horigin)
  | yieldToHold hphase =>
    exact h.setHeld hsound hi hphase (held_of_phase hphase (by simp)) rfl (List.Subset.refl _)
      (fun _ hmem => .inl hmem) fun _ _ => .inl (.inr rfl)
  | @finish f origin threw hphase =>
    refine h.setHeld hsound hi hphase (held_of_phase hphase (by simp)) rfl
      (List.subset_append_left _ _) (fun _ hmem => .inl hmem) fun _ _ => .inl (.inl ?_)
    cases threw with
    | false => exact .inl rfl
    | true => exact .inr rfl
  | testState hphase => exact h.testState hsound hi hphase
  | requeue hphase => exact h.requeue hsound hi hphase
  | _ => exact h.move hsound hi rfl

/-! ### Every run -/

/-- The numbers that are in use keep their pins. -/
theorem PinsOk.accept (h : PinsOk s) (hsound : Sound s) (work : Work)
    (hagree : AgreeOff s s' s.fiberCount) (hworkers : s'.workers = s.workers)
    (htasks : s'.tasks = s.tasks ++ [⟨work, threadId⟩]) (haccepted : s'.accepted = s.accepted + 1)
    (hpin : s'.pinOf = update s.pinOf s.accepted threadId)
    (hsegments : s'.segments = s.segments) (htask : (s'.pending work).task = s.accepted) :
    PinsOk s' := by
  obtain ⟨hqueue, hhands⟩ := hsound.fresh
  have hold : ∀ k, k < s.accepted → s'.pinOf k = s.pinOf k := by
    intro k hk
    rw [hpin, update_of_ne (Nat.ne_of_lt hk)]
  have hhere : ∀ k w, k < s.accepted → Here s k w → Here s' k w := by
    intro k w hk hhere t ht
    rw [hold k hk] at ht
    exact hhere t ht
  have hcarried : ∀ k t, k < s.accepted → Carried s k t → Carried s' k t := by
    intro k t hk hcarried
    rw [Carried, hold k hk, hworkers]
    exact hcarried.imp_right fun hone => ⟨hone.1, hone.2.1, hhere k 0 hk hone.2.2⟩
  refine ⟨?_, ?_, ?_⟩
  · intro task hmem
    rw [htasks] at hmem
    rcases List.mem_append.mp hmem with hmem | hmem
    · rw [hagree.pending (hqueue task hmem)]
      exact hcarried _ _ (hsound.queued_lt hmem) (h.queue task hmem)
    · obtain rfl := List.mem_singleton.mp hmem
      refine .inl ?_
      rw [htask, hpin]
      exact update_self _ _ _
  · intro w worker hworker v hv
    rw [hworkers] at hworker
    have hmem := List.mem_of_getElem? hworker
    rw [hagree.held ((hsound.workers worker hmem).onFiber_ne (hhands worker hmem))] at hv
    have hlt := hsound.held_lt hworker hv
    obtain ⟨hv₁, hv₂⟩ := h.workers w worker hworker v hv
    exact ⟨hhere _ _ hlt hv₁, fun t ht => hcarried _ _ hlt (hv₂ t ht)⟩
  · intro segment hmem
    rw [hsegments] at hmem
    obtain ⟨hok, hlt⟩ := h.segments segment hmem
    rw [haccepted]
    exact ⟨hhere _ _ hlt hok, Nat.lt_succ_of_lt hlt⟩

theorem PinsOk.schedule (h : PinsOk s) (hsound : Sound s) (work : NewWork)
    (threadId : Option ℕ) : PinsOk (s.schedule work threadId) := by
  cases work with
  | fiber state =>
    refine h.accept hsound (.fiber s.fiberCount) ⟨fun g hg => update_of_ne hg _ _,
      fun g hg => update_of_ne hg _ _, fun _ hk => hk⟩ rfl rfl rfl rfl rfl ?_
    exact update_self _ _ _
  | function =>
    exact h.accept hsound (.callback s.accepted) ⟨fun _ _ => rfl, fun _ _ => rfl, fun _ hk => hk⟩
      rfl rfl rfl rfl rfl rfl

theorem PinsOk.scheduleBatch (h : PinsOk s) (hsound : Sound s) {works : List NewWork}
    (hvalid : ∀ work ∈ works, work.Valid) : PinsOk (s.scheduleBatch works) := by
  unfold BaseState.scheduleBatch
  induction works generalizing s with
  | nil => exact h
  | cons work works ih =>
    have hfirst := hsound.schedule none (hvalid work List.mem_cons_self)
    exact ih (h.schedule hsound work none) hfirst
      fun work hmem => hvalid work (List.mem_cons_of_mem _ hmem)

theorem PinsOk.setFlags (h : PinsOk s) (started stopping : Bool) :
    PinsOk { s with started := started, stopping := stopping } :=
  ⟨h.queue, h.workers, h.segments⟩

theorem pinsOk_of_keepsPins {n : ℕ} (h : (system n).ReachableWhile KeepsPins s) : PinsOk s := by
  induction h with
  | init h =>
    obtain rfl := h
    refine ⟨fun task hmem => absurd hmem (by simp [new]), ?_,
      fun segment hmem => absurd hmem (by simp [new])⟩
    intro w worker hworker v hv
    have hmem : worker ∈ (new n).workers := List.mem_of_getElem? hworker
    rw [List.eq_of_mem_replicate hmem] at hv
    exact absurd hv (by simp [held])
  | step h hcond hstep ih =>
    have hsound := sound_of_reachable (h.mono fun _ _ _ => trivial)
    cases step_cases hstep with
    | start hstarted => exact ih.setFlags true false
    | schedule hvalid => exact ih.schedule hsound _ _
    | scheduleBatch hvalid => exact ih.scheduleBatch hsound hvalid
    | stop => exact ih.setFlags _ true
    | worker hworker hstep => exact ih.workerStep hsound hworker hcond hstep

/-- **Pins hold**, for any number of workers, in every run in which no function that was
scheduled with a `thread_id` yields as `READY`, or with one worker. -/
theorem pinned_of_keepsPins {n : ℕ} (h : (system n).ReachableWhile KeepsPins s) : s.Pinned := by
  intro segment hmem t ht
  exact ((pinsOk_of_keepsPins h).segments segment hmem).1 t ht

/-- A fiber and a function with a pin; the fiber yields and comes back to its worker. -/
def pinnedActions : List BaseAction :=
  [.start, .enter 0, .enter 1, .schedule (.fiber .init) (some 1), .schedule .function (some 0),
    .getNextTask 0, .wrap 0, .resume 0, .getNextTask 1, .resume 1, .yieldToReady 1, .testState 1,
    .requeue 1, .finish 0 false, .testState 0, .getNextTask 0, .getNextTask 1, .resume 1]

theorem pinned_of_keepsPins_run :
    ∃ s, (system 2).exec (new 2) pinnedActions = some s ∧ s.segments = [(1, 0), (0, 1), (0, 1)] ∧
      s.Pinned := by
  obtain ⟨s, hs, hsegments⟩ : ∃ s, (system 2).exec (new 2) pinnedActions = some s ∧
      s.segments = [(1, 0), (0, 1), (0, 1)] :=
    ⟨_, rfl, by decide +kernel⟩
  have hmeets : (system 2).Meets KeepsPins (new 2) pinnedActions := by decide +kernel
  exact ⟨s, hs, hsegments, pinned_of_keepsPins ((ReachableWhile.init rfl).exec hmeets hs)⟩

/-- A function with a pin yields, and the other worker resumes it. -/
def movedActions : List BaseAction :=
  [.start, .enter 0, .enter 1, .schedule .function (some 0), .getNextTask 0, .wrap 0, .resume 0,
    .yieldToReady 0, .testState 0, .requeue 0, .getNextTask 1, .resume 1]

theorem not_pinned : ¬∀ s, (system 2).Reachable s → s.Pinned := by
  intro hall
  obtain ⟨s, hs, hsegments, hpin⟩ : ∃ s, (system 2).exec (new 2) movedActions = some s ∧
      s.segments = [(0, 0), (0, 1)] ∧ s.pinOf 0 = some 0 :=
    ⟨_, rfl, by decide +kernel, by decide +kernel⟩
  have hreach : (system 2).Reachable s := (ReachableWhile.init rfl).exec (meets_true _ _ _) hs
  have hmoved := hall s hreach (0, 1) (by rw [hsegments]; decide) 0 hpin
  exact absurd hmoved (by decide)

end BaseState

end Scheduler

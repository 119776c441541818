/-
Waits with a timeout.

A hooked call that would block arms a condition timer, registers its fiber for the
event and suspends it; the timer's callback exchanges `cancelled` and cancels the
event.  `DoIo` goes through these steps in a loop, `connect_with_timeout` once.  The
descriptor may get ready, and others may use it, at any time.

* `Inv` — what is kept of a callback whose exchange came in time, and of a fiber that
  waits: it is registered, or detached and on its way into the queue;
* `not_stuck_of_inTime` — if the exchange never succeeds before the event is
  registered, the end of the callback finds the fiber detached;
* `stuck_early` — a timer that expires before `addEvent`.
-/
import Droplet.Scheduler.FdContext
import Droplet.Lib.Transition
import Mathlib.Algebra.Group.Nat.Defs

open Transition Transition.System Scheduler

namespace Hook

/-- The hooked calls that wait with a timeout. -/
inductive Call
  | doIo (event : Event)
  | connectWithTimeout
  deriving DecidableEq

namespace Call

/-- The event that the call waits for. -/
def event : Call → Event
  | .doIo event => event
  | .connectWithTimeout => .write

/-- The timeout makes the call arm a timer. -/
def arms (call : Call) (timeout : UInt64) : Bool :=
  match call with
  | .doIo _ => timeout ≠ UInt64.ofNat (2 ^ 64 - 1) && timeout ≠ 0
  | .connectWithTimeout => timeout ≠ UInt64.ofNat (2 ^ 64 - 1)

end Call

/-- Where the fiber is in the call. -/
inductive WaitPhase
  | calling
  | blocked
  | armed
  | registered
  | held
  | resumed
  | loading
  | returned
  deriving DecidableEq

/-- The fiber has not registered itself in this turn of the loop. -/
def WaitPhase.Unregistered (phase : WaitPhase) : Prop :=
  phase = .calling ∨ phase = .blocked ∨ phase = .armed

instance (phase : WaitPhase) : Decidable phase.Unregistered :=
  inferInstanceAs (Decidable (_ ∨ _ ∨ _))

/-- The fiber has registered itself and not been resumed since. -/
def WaitPhase.Waits (phase : WaitPhase) : Prop := phase = .registered ∨ phase = .held

/-- Where the callback is whose exchange succeeded. -/
inductive CallbackPhase
  | none
  | cancelling
  | triggering (works : List Work)
  | finished
  deriving DecidableEq

/-- One call on one descriptor.  `expired` counts the callbacks of its timers that are
queued or running and have not come to the exchange; `triggered` holds the handlers
that were detached by others and are still to be scheduled. -/
structure WaitState where
  context : FdContext
  phase : WaitPhase
  cancelled : Bool
  timerArmed : Bool
  expired : ℕ
  callback : CallbackPhase
  triggered : List Work
  tasks : List Work
  deriving DecidableEq

/-- One atomic step of the fiber, of the callback or of others. -/
inductive WaitAction
  | callFunction (again : Bool)
  | addTimer
  | addEvent (epollCtl : Bool)
  | yieldToHold
  | resume
  | cancelTimer
  | loadCancelled
  | expire
  | exchange
  | cancelEvent
  | finishCallback
  | processEvent (ready : EventMask)
  | otherAdd (event : Event) (work : Work)
  | otherCancel (mask : EventMask)
  | trigger (index : ℕ)
  deriving DecidableEq

/-- The fiber that waits. -/
def waiter : Work := .fiber 0

namespace WaitState

/-- The call begins; nothing is registered on the descriptor. -/
def start : WaitState where
  context := FdContext.new
  phase := .calling
  cancelled := false
  timerArmed := false
  expired := 0
  callback := .none
  triggered := []
  tasks := []

/-- Handlers are detached by `processEvent` or by a call of `cancelEvent`. -/
def detach (s : WaitState) (result : FdContext × List Work) : WaitState :=
  { s with context := result.1, triggered := s.triggered ++ result.2 }

/-- The callback of the timer that expired: its exchange has no effect after the call
has returned or when another callback came first. -/
def exchange (s : WaitState) : WaitState :=
  let s := { s with expired := s.expired - 1 }
  if s.phase = .returned ∨ s.cancelled then s
  else { s with cancelled := true, callback := .cancelling }

/-- What the fiber does after `cancelled` was loaded: `DoIo` tries again,
`connect_with_timeout` looks at the socket and returns. -/
def loadCancelled (s : WaitState) (call : Call) : WaitState :=
  match call with
  | .doIo _ => { s with phase := if s.cancelled then .returned else .calling }
  | .connectWithTimeout => { s with phase := .returned }

/-- The steps of the fiber. -/
def onFiber (s : WaitState) (call : Call) (timeout : UInt64) :
    WaitPhase → WaitAction → Option WaitState
  | .calling, .callFunction again => some { s with phase := if again then .blocked else .returned }
  | .blocked, .addTimer =>
    some { s with phase := .armed, timerArmed := s.timerArmed || call.arms timeout }
  | .armed, .addEvent epollCtl =>
    match s.context.addEvent call.event waiter epollCtl with
    | some context => some { s with phase := .registered, context := context }
    | none => some { s with phase := .returned, timerArmed := false }
  | .registered, .yieldToHold => some { s with phase := .held }
  | .held, .resume =>
    if waiter ∈ s.tasks then some { s with phase := .resumed, tasks := s.tasks.erase waiter }
    else none
  | .resumed, .cancelTimer => some { s with phase := .loading, timerArmed := false }
  | .loading, .loadCancelled => some (s.loadCancelled call)
  | _, _ => none

/-- One step.  `epoll_ctl` succeeds on what is registered on an open descriptor. -/
def step (call : Call) (timeout : UInt64) (s : WaitState) (action : WaitAction) :
    Option WaitState :=
  match action with
  | .expire =>
    if s.timerArmed then some { s with timerArmed := false, expired := s.expired + 1 } else none
  | .exchange => if s.expired = 0 then none else some s.exchange
  | .cancelEvent =>
    if s.callback = .cancelling then
      match s.context.cancelEvent (.single call.event) true with
      | some result => some { s with context := result.1, callback := .triggering result.2 }
      | none => some { s with callback := .finished }
    else none
  | .finishCallback =>
    match s.callback with
    | .triggering works => some { s with tasks := s.tasks ++ works, callback := .finished }
    | _ => none
  | .processEvent ready => (s.context.processEvent ready).map s.detach
  | .otherAdd event work =>
    if work = waiter then none
    else (s.context.addEvent event work true).map fun context => { s with context := context }
  | .otherCancel mask => (s.context.cancelEvent mask true).map s.detach
  | .trigger index =>
    s.triggered[index]?.map fun work =>
      { s with tasks := s.tasks ++ [work], triggered := s.triggered.eraseIdx index }
  | action => s.onFiber call timeout s.phase action

/-- All interleavings of one call with its timers and with others. -/
def system (call : Call) (timeout : UInt64) : System WaitState WaitAction where
  init s := s = start
  step := step call timeout

/-- The fiber is registered for its event. -/
abbrev Registered (s : WaitState) (call : Call) : Prop := s.context.Holds call.event waiter

/-- The fiber is suspended and registered, its timeout has been reported and the
callback is over, and no task is queued for it. -/
def Stuck (s : WaitState) (call : Call) : Prop :=
  s.phase = .held ∧ s.Registered call ∧ s.cancelled = true ∧ s.callback = .finished ∧
    waiter ∉ s.tasks

instance (s : WaitState) (call : Call) : Decidable (s.Stuck call) :=
  inferInstanceAs (Decidable (_ ∧ _))

/-- The exchange does not succeed while the fiber has still to register itself. -/
def InTime (s : WaitState) : WaitAction → Prop
  | .exchange => s.phase.Unregistered → s.cancelled = true
  | _ => True

instance (s : WaitState) (action : WaitAction) : Decidable (s.InTime action) :=
  match action with
  | .exchange => inferInstanceAs (Decidable (s.phase.Unregistered → s.cancelled = true))
  | .callFunction _ | .addTimer | .addEvent _ | .yieldToHold | .resume | .cancelTimer
  | .loadCancelled | .expire | .cancelEvent | .finishCallback | .processEvent _ | .otherAdd _ _
  | .otherCancel _ | .trigger _ => .isTrue trivial

/-! ### What a step keeps -/

variable {call : Call} {timeout : UInt64} {s s' : WaitState} {action : WaitAction}

/-- A registered fiber that waits is registered still, or detached and on its way
into the queue, or there already. -/
def Awaited (call : Call) (s : WaitState) : Prop :=
  s.phase.Waits → s.Registered call ∨ waiter ∈ s.triggered ∨ waiter ∈ s.tasks ∨
    ∃ works, s.callback = .triggering works ∧ waiter ∈ works

/-- What is kept of a callback whose exchange came in time. -/
structure Inv (call : Call) (s : WaitState) : Prop where
  awaited : Awaited call s
  begun : s.callback ≠ .none → s.cancelled = true
  settled : s.cancelled = true → ¬ s.phase.Unregistered
  ended : s.callback ≠ .none → s.callback ≠ .cancelling → ¬ s.Registered call

namespace Inv

theorem start : (WaitState.start).Inv call where
  awaited := fun h => absurd h (by simp [WaitState.start, WaitPhase.Waits])
  begun := fun h => absurd rfl h
  settled := fun h => absurd h (by simp [WaitState.start])
  ended := fun h => absurd rfl h

/-- Others detach handlers. -/
theorem detach (h : s.Inv call) {mask : EventMask} {result : FdContext × List Work}
    (hdetach : s.context.detach mask = result) : (s.detach result).Inv call := by
  subst hdetach
  refine ⟨fun hwaits => ?_, h.begun, h.settled, fun hbegun hdone hregistered => ?_⟩
  · rcases h.awaited hwaits with hregistered | htriggered | htasks | hcallback
    · cases hmask : mask.has call.event with
      | true => exact .inr (.inl (List.mem_append_right _ (hregistered.mem_detached _ hmask)))
      | false => exact .inl (FdContext.holds_detach_iff.mpr ⟨hregistered, hmask⟩)
    · exact .inr (.inl (List.mem_append_left _ htriggered))
    · exact .inr (.inr (.inl htasks))
    · exact .inr (.inr (.inr hcallback))
  · exact h.ended hbegun hdone (FdContext.holds_detach_iff.mp hregistered).1

/-- The fiber goes on without touching the descriptor. -/
theorem setPhase (h : s.Inv call) {phase : WaitPhase} {armed : Bool} (hwaits : phase.Waits → s.phase.Waits)
    (hunregistered : phase.Unregistered → s.cancelled = false ∨ s.phase.Unregistered) :
    ({ s with phase := phase, timerArmed := armed } : WaitState).Inv call where
  awaited := fun hphase => h.awaited (hwaits hphase)
  begun := h.begun
  settled := fun hcancelled hphase => by
    rcases hunregistered hphase with hnot | hbefore
    · exact absurd (hcancelled.symm.trans hnot) (by simp)
    · exact h.settled hcancelled hbefore
  ended := h.ended

/-- The steps of the fiber: it registers itself only while no exchange has succeeded. -/
theorem onFiber (h : s.Inv call) (hstep : s.onFiber call timeout s.phase action = some s') :
    s'.Inv call := by
  unfold WaitState.onFiber at hstep
  split at hstep
  · next again hphase =>
    obtain rfl := Option.some_inj.mp hstep
    refine h.setPhase (fun hwaits => absurd hwaits ?_) fun _ => .inr (.inl hphase)
    cases again <;> simp [WaitPhase.Waits]
  · next hphase =>
    obtain rfl := Option.some_inj.mp hstep
    exact h.setPhase (fun hwaits => absurd hwaits (by simp [WaitPhase.Waits]))
      fun _ => .inr (.inr (.inl hphase))
  · next epollCtl hphase =>
    have hnot : s.cancelled = false := by
      rw [← Bool.not_eq_true]
      exact fun hcancelled => h.settled hcancelled (.inr (.inr hphase))
    split at hstep
    · next context hadd =>
      obtain rfl := Option.some_inj.mp hstep
      obtain ⟨-, -, rfl⟩ := FdContext.addEvent_eq_some_iff.mp hadd
      have hregistered : (s.context.attach call.event waiter).Holds call.event waiter :=
        FdContext.holds_attach_iff.mpr (.inl ⟨rfl, rfl⟩)
      refine ⟨fun _ => .inl hregistered, h.begun, fun hcancelled => ?_, fun hbegun => ?_⟩
      · exact absurd (hcancelled.symm.trans hnot) (by simp)
      · exact absurd ((h.begun hbegun).symm.trans hnot) (by simp)
    · obtain rfl := Option.some_inj.mp hstep
      exact h.setPhase (fun hwaits => absurd hwaits (by simp [WaitPhase.Waits]))
        fun hbefore => absurd hbefore (by simp [WaitPhase.Unregistered])
  · next hphase =>
    obtain rfl := Option.some_inj.mp hstep
    exact h.setPhase (fun _ => .inl hphase)
      fun hbefore => absurd hbefore (by simp [WaitPhase.Unregistered])
  · next hphase =>
    split at hstep
    · obtain rfl := Option.some_inj.mp hstep
      refine ⟨fun hwaits => absurd hwaits (by simp [WaitPhase.Waits]), h.begun,
        fun _ hbefore => absurd hbefore (by simp [WaitPhase.Unregistered]), h.ended⟩
    · exact absurd hstep (by simp)
  · next hphase =>
    obtain rfl := Option.some_inj.mp hstep
    exact h.setPhase (fun hwaits => absurd hwaits (by simp [WaitPhase.Waits]))
      fun hbefore => absurd hbefore (by simp [WaitPhase.Unregistered])
  · next hphase =>
    obtain rfl := Option.some_inj.mp hstep
    unfold WaitState.loadCancelled
    split
    · refine h.setPhase (fun hwaits => absurd hwaits ?_) fun hbefore => .inl ?_
      · split <;> simp [WaitPhase.Waits]
      · -- the loop goes on only when nothing was reported
        cases hcancelled : s.cancelled with
        | true =>
          rw [hcancelled, if_pos rfl] at hbefore
          exact absurd hbefore (by simp [WaitPhase.Unregistered])
        | false => rfl
    · exact h.setPhase (fun hwaits => absurd hwaits (by simp [WaitPhase.Waits]))
        fun hbefore => absurd hbefore (by simp [WaitPhase.Unregistered])
  · exact absurd hstep (by simp)

/-- **The invariant** is kept by the steps that meet the condition. -/
theorem step (h : s.Inv call) (hcond : s.InTime action)
    (hstep : WaitState.step call timeout s action = some s') : s'.Inv call := by
  cases action with
  | expire =>
    simp only [WaitState.step] at hstep
    split at hstep
    · obtain rfl := Option.some_inj.mp hstep
      exact ⟨h.awaited, h.begun, h.settled, h.ended⟩
    · exact absurd hstep (by simp)
  | exchange =>
    simp only [WaitState.step] at hstep
    split at hstep
    · exact absurd hstep (by simp)
    · obtain rfl := Option.some_inj.mp hstep
      unfold WaitState.exchange
      dsimp only
      split
      · exact ⟨h.awaited, h.begun, h.settled, h.ended⟩
      · next hfirst =>
        rw [not_or] at hfirst
        -- the callback begins here, so that nothing is in its hands yet
        refine ⟨fun hwaits => ?_, fun _ => rfl, fun _ hbefore => ?_, fun _ hdone => absurd rfl hdone⟩
        · rcases h.awaited hwaits with hregistered | htriggered | htasks | ⟨works, hworks, -⟩
          · exact .inl hregistered
          · exact .inr (.inl htriggered)
          · exact .inr (.inr (.inl htasks))
          · exact absurd (h.begun (by rw [hworks]; simp)) hfirst.2
        · exact hfirst.2 (hcond hbefore)
  | cancelEvent =>
    simp only [WaitState.step] at hstep
    split at hstep
    · next hcancelling =>
      have hcancelled := h.begun (by rw [hcancelling]; simp)
      split at hstep
      · next result hresult =>
        obtain rfl := Option.some_inj.mp hstep
        obtain ⟨-, -, hdetach⟩ := FdContext.cancelEvent_eq_some_iff.mp hresult
        refine ⟨fun hwaits => ?_, fun _ => hcancelled, h.settled, fun _ _ hregistered => ?_⟩
        · -- a registration moves into the hands of the callback, the rest stays where it is
          rcases h.awaited hwaits with hregistered | htriggered | htasks | ⟨works, hworks, -⟩
          · have hmem := hregistered.mem_detached (.single call.event) (by simp)
            exact .inr (.inr (.inr ⟨_, rfl, by rwa [hdetach] at hmem⟩))
          · exact .inr (.inl htriggered)
          · exact .inr (.inr (.inl htasks))
          · exact absurd (hcancelling.symm.trans hworks) (by simp)
        · have hholds : (s.context.detach (.single call.event)).1.Holds call.event waiter := by
            rw [hdetach]
            exact hregistered
          have := (FdContext.holds_detach_iff.mp hholds).2
          simp at this
      · next hnone =>
        obtain rfl := Option.some_inj.mp hstep
        -- nothing is registered for the event
        have hbit : s.context.events.has call.event = false := by
          unfold FdContext.cancelEvent at hnone
          split at hnone
          · next hinter => exact FdContext.inter_eq_none_iff.mp hinter _ (by simp)
          · exact absurd hnone (by simp)
        have hnot : ¬ s.Registered call := fun hregistered =>
          absurd (hregistered.1.symm.trans hbit) (by simp)
        refine ⟨fun hwaits => ?_, fun _ => hcancelled, h.settled, fun _ _ => hnot⟩
        rcases h.awaited hwaits with hregistered | htriggered | htasks | ⟨works, hworks, -⟩
        · exact absurd hregistered hnot
        · exact .inr (.inl htriggered)
        · exact .inr (.inr (.inl htasks))
        · exact absurd (hcancelling.symm.trans hworks) (by simp)
    · exact absurd hstep (by simp)
  | finishCallback =>
    simp only [WaitState.step] at hstep
    split at hstep
    · next works hworks =>
      obtain rfl := Option.some_inj.mp hstep
      have hbegun := h.begun (by rw [hworks]; simp)
      refine ⟨fun hwaits => ?_, fun _ => hbegun, h.settled,
        fun _ _ => h.ended (by rw [hworks]; simp) (by rw [hworks]; simp)⟩
      rcases h.awaited hwaits with hregistered | htriggered | htasks | ⟨works', hworks', hmem⟩
      · exact .inl hregistered
      · exact .inr (.inl htriggered)
      · exact .inr (.inr (.inl (List.mem_append_left _ htasks)))
      · obtain rfl := CallbackPhase.triggering.inj (hworks.symm.trans hworks')
        exact .inr (.inr (.inl (List.mem_append_right _ hmem)))
    · exact absurd hstep (by simp)
  | processEvent ready =>
    obtain ⟨result, hresult, rfl⟩ := Option.map_eq_some_iff.mp hstep
    exact h.detach (FdContext.processEvent_eq_some_iff.mp hresult).2
  | otherAdd event work =>
    simp only [WaitState.step] at hstep
    split at hstep
    · exact absurd hstep (by simp)
    · next hother =>
      obtain ⟨context, hadd, rfl⟩ := Option.map_eq_some_iff.mp hstep
      obtain ⟨hfree, -, rfl⟩ := FdContext.addEvent_eq_some_iff.mp hadd
      -- the event of another call is another one, or it would not have been free
      have hregistered : (s.context.attach event work).Holds call.event waiter ↔
          s.Registered call := by
        rw [FdContext.holds_attach_iff]
        constructor
        · rintro (⟨-, hwork⟩ | ⟨-, hholds⟩)
          · exact absurd hwork.symm hother
          · exact hholds
        · intro hholds
          refine .inr ⟨fun heq => ?_, hholds⟩
          exact absurd ((heq ▸ hholds.1).symm.trans hfree) (by simp)
      exact ⟨fun hwaits => (h.awaited hwaits).imp_left hregistered.mpr, h.begun, h.settled,
        fun hbegun hdone hholds => h.ended hbegun hdone (hregistered.mp hholds)⟩
  | otherCancel mask =>
    obtain ⟨result, hresult, rfl⟩ := Option.map_eq_some_iff.mp hstep
    exact h.detach (FdContext.cancelEvent_eq_some_iff.mp hresult).2.2
  | trigger index =>
    obtain ⟨work, hwork, rfl⟩ := Option.map_eq_some_iff.mp hstep
    refine ⟨fun hwaits => ?_, h.begun, h.settled, h.ended⟩
    rcases h.awaited hwaits with hregistered | htriggered | htasks | hcallback
    · exact .inl hregistered
    · -- the task that is taken out is scheduled, any other one stays
      by_cases heq : waiter = work
      · exact .inr (.inr (.inl (List.mem_append_right _ (List.mem_singleton.mpr heq))))
      · obtain ⟨i, hi⟩ := List.mem_iff_getElem?.mp htriggered
        refine .inr (.inl (List.mem_eraseIdx_iff_getElem?.mpr ⟨i, fun hindex => heq ?_, hi⟩))
        rw [hindex, hwork] at hi
        exact (Option.some_inj.mp hi).symm
    · exact .inr (.inr (.inl (List.mem_append_left _ htasks)))
    · exact .inr (.inr (.inr hcallback))
  | callFunction again => exact h.onFiber hstep
  | addTimer => exact h.onFiber hstep
  | addEvent epollCtl => exact h.onFiber hstep
  | yieldToHold => exact h.onFiber hstep
  | resume => exact h.onFiber hstep
  | cancelTimer => exact h.onFiber hstep
  | loadCancelled => exact h.onFiber hstep

/-- The end of the callback finds the fiber detached. -/
theorem not_stuck (h : s.Inv call) : ¬ s.Stuck call := by
  rintro ⟨-, hregistered, -, hfinished, -⟩
  exact h.ended (by rw [hfinished]; simp) (by rw [hfinished]; simp) hregistered

end Inv

/-- In every run in which the exchange never succeeds before the event is registered,
a finite timeout ends the wait. -/
theorem not_stuck_of_inTime (call : Call) (timeout : UInt64)
    (h : (system call timeout).ReachableWhile InTime s) : ¬ s.Stuck call := by
  refine Inv.not_stuck (h.invariant ?_ fun s action s' hs hcond hstep => hs.step hcond hstep)
  rintro s rfl
  exact Inv.start

/-- The call blocks and arms its timer. -/
def blockActions : List WaitAction := [.callFunction true, .addTimer]

/-- The timer expires and its callback runs to the exchange. -/
def expireActions : List WaitAction := [.expire, .exchange]

/-- The fiber registers itself and is suspended. -/
def suspendActions : List WaitAction := [.addEvent true, .yieldToHold]

/-- A read that times out: the callback cancels the event and the fiber returns. -/
theorem not_stuck_of_inTime_read :
    ∃ s, (system (.doIo .read) 100).exec start (blockActions ++ suspendActions ++ expireActions ++
        [.cancelEvent, .finishCallback, .resume, .cancelTimer, .loadCancelled]) = some s ∧
      s.phase = .returned ∧ s.cancelled = true ∧ ¬ s.Stuck (.doIo .read) := by
  have hrun : ((system (.doIo .read) 100).exec start (blockActions ++ suspendActions ++
      expireActions ++ [.cancelEvent, .finishCallback, .resume, .cancelTimer,
        .loadCancelled])).any (fun s => s.phase == .returned && s.cancelled) = true := by
    decide +kernel
  obtain ⟨s, hexec, hs⟩ := (Option.any_eq_true _ _).mp hrun
  rw [Bool.and_eq_true, beq_iff_eq] at hs
  refine ⟨s, hexec, hs.1, hs.2, not_stuck_of_inTime (.doIo .read) 100 (.exec (.init rfl) ?_ hexec)⟩
  decide +kernel

/-- The timer expires before `addEvent`: `cancelEvent` finds nothing to cancel, and
the fiber is suspended with nobody left to wake it. -/
theorem stuck_early :
    (¬ ∀ s, (system (.doIo .read) 100).Reachable s → ¬ s.Stuck (.doIo .read)) ∧
      ¬ ∀ s, (system .connectWithTimeout 100).Reachable s → ¬ s.Stuck .connectWithTimeout := by
  refine ⟨fun h => ?_, fun h => ?_⟩
  · have hrun : ((system (.doIo .read) 100).exec start (blockActions ++ expireActions ++
        [.cancelEvent] ++ suspendActions)).any (fun s => decide (s.Stuck (.doIo .read))) = true := by
      decide +kernel
    obtain ⟨s, hexec, hs⟩ := (Option.any_eq_true _ _).mp hrun
    exact h s (.exec (.init rfl) (System.meets_true _ _ _) hexec) (of_decide_eq_true hs)
  · have hrun : ((system .connectWithTimeout 100).exec start (blockActions ++ expireActions ++
        [.cancelEvent] ++ suspendActions)).any (fun s =>
          decide (s.Stuck .connectWithTimeout)) = true := by
      decide +kernel
    obtain ⟨s, hexec, hs⟩ := (Option.any_eq_true _ _).mp hrun
    exact h s (.exec (.init rfl) (System.meets_true _ _ _) hexec) (of_decide_eq_true hs)

end WaitState

end Hook

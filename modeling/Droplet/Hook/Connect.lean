/-
A connect that waits.

`connect_with_timeout` registers its fiber for `WRITE`, suspends it, and afterwards finds
out what woke it: its own timeout left `cancelled`, a `close` left the context closed, and
what remains is taken for the end of the attempt, whose error the kernel reports.  A call
of `cancelEvent` or `cancelAll` leaves nothing behind.

Any number of threads close the descriptor meanwhile.  The kernel reports the descriptor
writable only when the attempt has ended, and `SO_ERROR` reads 0 while it has not.

* `Inv` — a fiber on its way back has been woken for a reason that it will find;
* `reportsSuccess_of_undisturbed` — 0 is returned for an established connection only, as
  long as nobody else cancels the event of the fiber while the attempt is in progress;
* `not_reportsSuccess` — a call of `cancelAll` makes it return 0.
-/
import Droplet.Hook.Close
import Droplet.Hook.Timeout

open Transition Transition.System Scheduler

namespace Hook

/-- What has become of the attempt to connect. -/
inductive Attempt
  | none
  | inProgress
  | established
  | failed
  deriving DecidableEq

/-- The kernel has decided on the attempt. -/
def Attempt.Ended (attempt : Attempt) : Prop := attempt = .established ∨ attempt = .failed

instance (attempt : Attempt) : Decidable attempt.Ended := inferInstanceAs (Decidable (_ ∨ _))

/-- An attempt that has begun is in progress or has ended. -/
theorem Attempt.ended_of_ne {attempt : Attempt} (hnone : attempt ≠ .none)
    (hprogress : attempt ≠ .inProgress) : attempt.Ended := by
  cases attempt with
  | none => exact absurd rfl hnone
  | inProgress => exact absurd rfl hprogress
  | established => exact .inl rfl
  | failed => exact .inr rfl

/-- `EBADF`, `EEXIST`, `ETIMEDOUT` and `EINPROGRESS`. -/
def ebadf : ℕ := 9
def eexist : ℕ := 17
def etimedout : ℕ := 110
def einprogress : ℕ := 115

/-- What `connect_f` returns on an open descriptor. -/
inductive ConnectResult
  | connected
  | inProgress
  | error (errno : ℕ)
  deriving DecidableEq

/-- What `connect_with_timeout` asks of its thread and of the context of the descriptor;
`tracked` says that there is one. -/
structure ConnectCall where
  hookEnabled : Bool
  tracked : Bool
  socket : Bool
  userNonblock : Bool
  onFiber : Bool
  timeout : UInt64
  deriving DecidableEq

/-- The descriptor is one on which the call may suspend its fiber. -/
def ConnectCall.hooks (call : ConnectCall) : Bool :=
  call.hookEnabled && call.tracked && call.socket && !call.userNonblock

/-- Where the fiber is in `connect_with_timeout`; `errno` is `none` when it has returned
0. -/
inductive ConnectPhase
  | start
  | calling
  | blocked
  | armed
  | registered
  | held
  | resumed
  | loading
  | checking
  | probing
  | returned (errno : Option ℕ)
  deriving DecidableEq

/-- Where the condition timer of the call is, and its callback. -/
inductive ConnectTimer
  | unarmed
  | armed
  | expired
  | cancelling
  | triggering (works : List Work)
  | finished
  deriving DecidableEq

/-- The exchange of the callback has succeeded, and what it leads to is not over. -/
def ConnectTimer.Cancels (timer : ConnectTimer) : Prop :=
  timer = .cancelling ∨ ∃ works, timer = .triggering works

/-- One call on one descriptor, its entry in the table of `FdManager`, its events in the
IOManager of the fiber, and the threads that close it.  The context that the call has got
is that with the number 0. -/
structure ConnectState where
  attempt : Attempt
  soError : ℕ
  opened : Bool
  context : FdContext
  triggered : List Work
  tasks : List Work
  phase : ConnectPhase
  cancelled : Bool
  timer : ConnectTimer
  entry : Option ℕ
  closed : ℕ → Bool
  fdCtxCount : ℕ
  closer : ℕ → ClosePhase

/-- One atomic step of the fiber, of its timer, of a thread that closes, of the kernel or
of others. -/
inductive ConnectAction
  | testContext
  | connectF (result : ConnectResult)
  | addTimer
  | addEvent (epollCtl : Bool) (errno : ℕ)
  | yieldToHold
  | resume
  | cancelTimer
  | loadCancelled
  | checkClosed
  | getSockOpt
  | expire
  | exchange
  | timerCancel
  | finishCallback
  | getEntry (i : ℕ)
  | markClosed (i : ℕ)
  | closeCancel (i : ℕ)
  | deleteEntry (i : ℕ)
  | closeFd (i : ℕ)
  | renewEntry
  | endAttempt (error : ℕ)
  | breakConnection (error : ℕ)
  | processEvent (ready : EventMask)
  | otherAdd (event : Event) (work : Work)
  | cancelEvent (mask : EventMask)
  | trigger (index : ℕ)
  deriving DecidableEq

namespace ConnectState

/-- The call has got the context of an open descriptor. -/
def new : ConnectState where
  attempt := .none
  soError := 0
  opened := true
  context := FdContext.new
  triggered := []
  tasks := []
  phase := .start
  cancelled := false
  timer := .unarmed
  entry := some 0
  closed := fun _ => false
  fdCtxCount := 1
  closer := fun _ => .start

def setCloser (s : ConnectState) (i : ℕ) (phase : ClosePhase) : ConnectState :=
  { s with closer := Function.update s.closer i phase }

def markClosed (s : ConnectState) (c : ℕ) : ConnectState :=
  { s with closed := Function.update s.closed c true }

/-- Handlers are detached, to be scheduled later. -/
def detach (s : ConnectState) (result : FdContext × List Work) : ConnectState :=
  { s with context := result.1, triggered := s.triggered ++ result.2 }

/-- The result of `connect_f`, and whether the call waits for more. -/
def connectF (s : ConnectState) (call : ConnectCall) (result : ConnectResult) : ConnectState :=
  if s.opened = false then { s with phase := .returned (some ebadf) }
  else
    match result with
    | .connected => { s with attempt := .established, phase := .returned none }
    | .inProgress =>
      { s with
        attempt := .inProgress
        phase := if call.hooks && call.onFiber then .blocked else .returned (some einprogress) }
    | .error errno => { s with attempt := .failed, phase := .returned (some errno) }

/-- `addEvent` for the fiber; when it fails the timer is cancelled. -/
def addEvent (s : ConnectState) (epollCtl : Bool) (errno : ℕ) : ConnectState :=
  match s.context.addEvent .write waiter (epollCtl && s.opened) with
  | some context => { s with phase := .registered, context := context }
  | none =>
    { s with
      phase := .returned (some (if s.context.events.has .write then eexist else errno))
      timer := if s.timer = .armed then .finished else s.timer }

/-- The read of `SO_ERROR`, which clears it. -/
def getSockOpt (s : ConnectState) : ConnectState :=
  if s.opened = false then { s with phase := .returned (some ebadf) }
  else if s.soError ≠ 0 then { s with phase := .returned (some s.soError), soError := 0 }
  else { s with phase := .returned none }

/-- The steps of the fiber. -/
def onFiber (s : ConnectState) (call : ConnectCall) : ConnectPhase → ConnectAction →
    Option ConnectState
  | .start, .testContext =>
    some { s with
      phase := if call.hookEnabled && call.tracked && s.closed 0 then .returned (some ebadf)
        else .calling }
  | .calling, .connectF result => some (s.connectF call result)
  | .blocked, .addTimer =>
    some { s with
      phase := .armed
      timer := if Call.connectWithTimeout.arms call.timeout then .armed else .unarmed }
  | .armed, .addEvent epollCtl errno => some (s.addEvent epollCtl errno)
  | .registered, .yieldToHold => some { s with phase := .held }
  | .held, .resume =>
    if waiter ∈ s.tasks then some { s with phase := .resumed, tasks := s.tasks.erase waiter }
    else none
  | .resumed, .cancelTimer =>
    some { s with
      phase := .loading
      timer := if s.timer = .armed then .finished else s.timer }
  | .loading, .loadCancelled =>
    some { s with phase := if s.cancelled then .returned (some etimedout) else .checking }
  | .checking, .checkClosed =>
    some { s with phase := if s.closed 0 then .returned (some ebadf) else .probing }
  | .probing, .getSockOpt => some s.getSockOpt
  | _, _ => none

/-- The exchange of the callback has no effect after the call has returned. -/
def exchange (s : ConnectState) : ConnectState :=
  match s.phase with
  | .returned _ => { s with timer := .finished }
  | _ =>
    if s.cancelled then { s with timer := .finished }
    else { s with cancelled := true, timer := .cancelling }

/-- The steps of the timer and of its callback. -/
def onTimer (s : ConnectState) : ConnectTimer → ConnectAction → Option ConnectState
  | .armed, .expire => some { s with timer := .expired }
  | .expired, .exchange => some s.exchange
  | .cancelling, .timerCancel =>
    match s.context.cancelEvent (.single .write) s.opened with
    | some result => some { s with context := result.1, timer := .triggering result.2 }
    | none => some { s with timer := .finished }
  | .triggering works, .finishCallback =>
    some { s with tasks := s.tasks ++ works, timer := .finished }
  | _, _ => none

/-- The steps of `close`; `own` says whether the thread runs the IOManager of the
fiber. -/
def onCloser (s : ConnectState) (own : Bool) (i : ℕ) : ClosePhase → ConnectAction →
    Option ConnectState
  | .start, .getEntry _ =>
    some (s.setCloser i (match s.entry with
      | some c => .found c
      | none => .deleted))
  | .found c, .markClosed _ => some ((s.markClosed c).setCloser i .marked)
  | .marked, .closeCancel _ =>
    match s.context.cancelEvent .all s.opened with
    | some result =>
      if own then some ((s.detach result).setCloser i .cancelled)
      else some (s.setCloser i .cancelled)
    | none => some (s.setCloser i .cancelled)
  | .cancelled, .deleteEntry _ =>
    match s.entry with
    | some c => some ({ s.markClosed c with entry := none }.setCloser i .deleted)
    | none => some (s.setCloser i .deleted)
  | .deleted, .closeFd _ => some ({ s with opened := false }.setCloser i .returned)
  | _, _ => none

/-- One step. -/
def step (call : ConnectCall) (own : ℕ → Bool) (s : ConnectState) (action : ConnectAction) :
    Option ConnectState :=
  match action with
  | .expire | .exchange | .timerCancel | .finishCallback => s.onTimer s.timer action
  | .getEntry i | .markClosed i | .closeCancel i | .deleteEntry i | .closeFd i =>
    s.onCloser (own i) i (s.closer i) action
  | .renewEntry =>
    -- another hooked call on the descriptor
    if s.entry = none then
      some { s with entry := some s.fdCtxCount, fdCtxCount := s.fdCtxCount + 1 }
    else none
  | .endAttempt error =>
    if s.attempt = .inProgress then
      some { s with
        attempt := if error = 0 then .established else .failed
        soError := error }
    else none
  | .breakConnection error =>
    if s.attempt = .established then some { s with soError := error } else none
  | .processEvent ready =>
    -- an attempt in progress is not reported writable
    if ready.write = true ∧ s.attempt = .inProgress then none
    else (s.context.processEvent ready).map s.detach
  | .otherAdd event work =>
    if work = waiter then none
    else (s.context.addEvent event work s.opened).map fun context => { s with context := context }
  | .cancelEvent mask => (s.context.cancelEvent mask s.opened).map s.detach
  | .trigger index =>
    s.triggered[index]?.map fun work =>
      { s with tasks := s.tasks ++ [work], triggered := s.triggered.eraseIdx index }
  | action => s.onFiber call s.phase action

/-- All interleavings of one call with its timer, with threads that close the descriptor
and with others. -/
def system (call : ConnectCall) (own : ℕ → Bool) : System ConnectState ConnectAction where
  init s := s = new
  step := step call own

/-- The call has returned 0 only if the connection was established. -/
def ReportsSuccess (s : ConnectState) : Prop := s.phase = .returned none → s.attempt = .established

/-- A call of `cancelEvent` or `cancelAll` by others does not detach the handler of the
fiber while the attempt is in progress. -/
def Undisturbed (s : ConnectState) : ConnectAction → Prop
  | .cancelEvent mask => waiter ∈ (s.context.detach mask).2 → s.attempt ≠ .inProgress
  | _ => True

instance : (s : ConnectState) → (action : ConnectAction) → Decidable (s.Undisturbed action)
  | s, .cancelEvent mask =>
    inferInstanceAs (Decidable (waiter ∈ (s.context.detach mask).2 → s.attempt ≠ .inProgress))
  | _, .testContext | _, .connectF _ | _, .addTimer | _, .addEvent _ _ | _, .yieldToHold
  | _, .resume | _, .cancelTimer | _, .loadCancelled | _, .checkClosed | _, .getSockOpt
  | _, .expire | _, .exchange | _, .timerCancel | _, .finishCallback | _, .getEntry _
  | _, .markClosed _ | _, .closeCancel _ | _, .deleteEntry _ | _, .closeFd _ | _, .renewEntry
  | _, .endAttempt _ | _, .breakConnection _ | _, .processEvent _ | _, .otherAdd _ _
  | _, .trigger _ => .isTrue trivial

/-! ### What a step keeps -/

variable {call : ConnectCall} {own : ℕ → Bool} {s s' : ConnectState} {action : ConnectAction}

/-- The fiber will find that it was woken by the end of the attempt, by its timeout or by
a `close`. -/
def Reason (s : ConnectState) : Prop :=
  s.attempt.Ended ∨ s.cancelled = true ∨ s.closed 0 = true

/-- What the fiber has found when it comes to a phase, and what it has still to find
there. -/
def PhaseOk (s : ConnectState) : ConnectPhase → Prop
  | .start | .calling => s.attempt = .none
  | .blocked | .armed => s.attempt ≠ .none
  | .resumed | .loading => s.Reason
  | .checking => s.attempt.Ended ∨ s.closed 0 = true
  | .probing => s.attempt.Ended
  | .returned none => s.attempt = .established
  | _ => True

/-- A thread cancels the events in `close` only after the context of the call is marked,
be it by this thread or by one that came earlier. -/
structure CloseInv (s : ConnectState) : Prop where
  entry : s.entry ≠ some 0 → s.closed 0 = true
  found : ∀ i c, s.closer i = .found c → c ≠ 0 → s.closed 0 = true
  marked : ∀ i, s.closer i = .marked → s.closed 0 = true
  count : 0 < s.fdCtxCount

/-- A fiber that is queued will find the reason, and an attempt that failed has left an
error to be read. -/
structure WakeInv (s : ConnectState) : Prop where
  phase : s.PhaseOk s.phase
  registered : s.context.handler .write = some waiter → s.attempt ≠ .none
  read : s.context.handler .read ≠ some waiter
  timer : s.timer.Cancels → s.cancelled = true
  queued : waiter ∈ s.triggered ∨ waiter ∈ s.tasks → s.Reason
  failed : s.attempt = .failed → s.soError ≠ 0 ∨ ∃ errno, s.phase = .returned errno

/-- The context of the call is marked now, or was before. -/
theorem markClosed_closed {c : ℕ} (h : c ≠ 0 → s.closed 0 = true) :
    (s.markClosed c).closed 0 = true := by
  by_cases hc : c = 0
  · subst hc
    exact Function.update_self 0 true s.closed
  · exact (Function.update_of_ne (Ne.symm hc) true s.closed).trans (h hc)

theorem closeInv_new : new.CloseInv where
  entry := fun h => absurd rfl h
  found := fun _ _ h => absurd h (by simp [new])
  marked := fun _ h => absurd h (by simp [new])
  count := Nat.one_pos

theorem wakeInv_new : new.WakeInv where
  phase := rfl
  registered := fun h => absurd h (by simp [new, FdContext.handler, FdContext.new])
  read := fun h => absurd h (by simp [new, FdContext.handler, FdContext.new])
  timer := fun h => absurd h (by simp [new, ConnectTimer.Cancels])
  queued := fun h => absurd h (by simp [new])
  failed := fun h => absurd h (by simp [new])

/-- What a phase promises outlasts whatever lasts. -/
theorem PhaseOk.mono {phase : ConnectPhase} (h : s.PhaseOk phase)
    (hnone : s'.attempt = .none ↔ s.attempt = .none)
    (hended : s.attempt.Ended → s'.attempt = s.attempt)
    (hcancelled : s.cancelled = true → s'.cancelled = true)
    (hclosed : s.closed 0 = true → s'.closed 0 = true) : s'.PhaseOk phase := by
  have hended' : s.attempt.Ended → s'.attempt.Ended := fun h => hended h ▸ h
  cases phase with
  | blocked => exact fun hnot => h (hnone.mp hnot)
  | armed => exact fun hnot => h (hnone.mp hnot)
  | resumed => exact Or.imp hended' (Or.imp hcancelled hclosed) h
  | loading => exact Or.imp hended' (Or.imp hcancelled hclosed) h
  | checking => exact Or.imp hended' hclosed h
  | probing => exact hended' h
  | returned errno =>
    cases errno with
    | none => exact (hended (.inl h)).trans h
    | some errno => exact trivial
  | start => exact hnone.mpr h
  | calling => exact hnone.mpr h
  | registered => exact trivial
  | held => exact trivial

namespace WakeInv

/-- A fiber whose handler is detached waits for `WRITE`, in an attempt that has begun. -/
theorem of_mem_detached (h : s.WakeInv) {mask : EventMask}
    (hmem : waiter ∈ (s.context.detach mask).2) :
    mask.has .write = true ∧ s.attempt ≠ .none := by
  obtain ⟨event, -, hmask, hhandler⟩ := FdContext.mem_detached_iff.mp hmem
  cases event with
  | read => exact absurd hhandler h.read
  | write => exact ⟨hmask, h.registered hhandler⟩

/-- The threads that close leave the call alone, except that its context may be marked. -/
theorem setClosed (h : s.WakeInv) {closed : ℕ → Bool} {entry : Option ℕ} {opened : Bool}
    {fdCtxCount : ℕ} {closer : ℕ → ClosePhase} (hclosed : s.closed 0 = true → closed 0 = true) :
    ({ s with
        closed := closed
        entry := entry
        opened := opened
        fdCtxCount := fdCtxCount
        closer := closer } : ConnectState).WakeInv :=
  { h with
    phase := h.phase.mono Iff.rfl (fun _ => rfl) id hclosed
    queued := fun hqueued => (h.queued hqueued).imp_right (Or.imp_right hclosed) }

/-- Handlers are detached, that of the fiber for a reason. -/
theorem detach (h : s.WakeInv) {mask : EventMask} {result : FdContext × List Work}
    (hdetach : s.context.detach mask = result)
    (hreason : waiter ∈ (s.context.detach mask).2 → s.Reason) : (s.detach result).WakeInv := by
  subst hdetach
  refine { h with
    phase := h.phase.mono Iff.rfl (fun _ => rfl) id id
    registered := fun hwrite => h.registered (FdContext.handler_of_detach hwrite)
    read := fun hread => h.read (FdContext.handler_of_detach hread)
    queued := fun hqueued => ?_ }
  rcases hqueued with htriggered | htasks
  · rcases List.mem_append.mp htriggered with hbefore | hnow
    · exact h.queued (.inl hbefore)
    · exact hreason hnow
  · exact h.queued (.inr htasks)

/-- The fiber goes on in the call. -/
theorem setPhase (h : s.WakeInv) {phase : ConnectPhase} {timer : ConnectTimer}
    (hbefore : ∀ errno, s.phase ≠ .returned errno) (htimer : timer.Cancels → s.timer.Cancels)
    (hphase : s.PhaseOk phase) :
    ({ s with phase := phase, timer := timer } : ConnectState).WakeInv where
  phase := hphase.mono Iff.rfl (fun _ => rfl) id id
  registered := h.registered
  read := h.read
  timer := fun hcancels => h.timer (htimer hcancels)
  queued := h.queued
  failed := fun hfailed => .inl ((h.failed hfailed).resolve_right fun ⟨errno, heq⟩ =>
    hbefore errno heq)

/-- The result of `connect_f`: a fiber that nothing has woken goes into the wait. -/
theorem connectF (h : s.WakeInv) (hphase : s.phase = .calling) (result : ConnectResult) :
    (s.connectF call result).WakeInv := by
  have hnone : s.attempt = .none := by
    have hok := h.phase
    rwa [hphase] at hok
  have hreason : waiter ∈ s.triggered ∨ waiter ∈ s.tasks →
      s.cancelled = true ∨ s.closed 0 = true := by
    intro hqueued
    refine (h.queued hqueued).resolve_left fun hended => ?_
    rw [Attempt.Ended, hnone] at hended
    exact absurd hended (by simp)
  unfold ConnectState.connectF
  split
  · exact h.setPhase (by simp [hphase]) id trivial
  · cases result with
    | connected =>
      exact { h with
        phase := rfl
        registered := fun _ => by simp
        queued := fun hqueued => .inr (hreason hqueued)
        failed := fun hfailed => absurd hfailed (by simp) }
    | inProgress =>
      refine { h with
        phase := ?_
        registered := fun _ => by simp
        queued := fun hqueued => .inr (hreason hqueued)
        failed := fun hfailed => absurd hfailed (by simp) }
      dsimp only
      by_cases hwaits : (call.hooks && call.onFiber) = true
      · rw [if_pos hwaits]
        exact fun hnot => absurd hnot (by simp)
      · rw [if_neg hwaits]
        exact trivial
    | error errno =>
      exact { h with
        phase := trivial
        registered := fun _ => by simp
        queued := fun hqueued => .inr (hreason hqueued)
        failed := fun _ => .inr ⟨_, rfl⟩ }

/-- The registration of the fiber, in an attempt that has begun. -/
theorem addEvent (h : s.WakeInv) (hphase : s.phase = .armed) (epollCtl : Bool) (errno : ℕ) :
    (s.addEvent epollCtl errno).WakeInv := by
  have hbegun : s.attempt ≠ .none := by
    have hok := h.phase
    rwa [hphase] at hok
  have hrunning : ∀ errno, s.phase ≠ .returned errno := by simp [hphase]
  unfold ConnectState.addEvent
  split
  · next context hadd =>
    obtain ⟨-, -, rfl⟩ := FdContext.addEvent_eq_some_iff.mp hadd
    have hmoved : ({ s with phase := .registered } : ConnectState).WakeInv :=
      h.setPhase hrunning id trivial
    exact { hmoved with registered := fun _ => hbegun }
  · refine h.setPhase hrunning (fun hcancels => ?_) trivial
    split at hcancels
    · exact absurd hcancels (by simp [ConnectTimer.Cancels])
    · exact hcancels

/-- The read of `SO_ERROR` after the attempt has ended tells how. -/
theorem getSockOpt (h : s.WakeInv) (hphase : s.phase = .probing) : s.getSockOpt.WakeInv := by
  have hended : s.attempt.Ended := by
    have hok := h.phase
    rwa [hphase] at hok
  have hrunning : ∀ errno, s.phase ≠ .returned errno := by simp [hphase]
  unfold ConnectState.getSockOpt
  split
  · exact h.setPhase hrunning id trivial
  · split
    · exact { h with phase := trivial, failed := fun _ => .inr ⟨_, rfl⟩ }
    · next hzero =>
      rw [not_not] at hzero
      refine h.setPhase hrunning id (hended.resolve_right fun hfailed => ?_)
      rcases h.failed hfailed with herror | ⟨errno, hreturned⟩
      · exact herror hzero
      · exact hrunning errno hreturned

/-- The steps of the fiber. -/
theorem onFiber (h : s.WakeInv) (hstep : s.onFiber call s.phase action = some s') :
    s'.WakeInv := by
  have hok := h.phase
  unfold ConnectState.onFiber at hstep
  split at hstep
  · next hphase =>
    obtain rfl := Option.some_inj.mp hstep
    rw [hphase] at hok
    refine h.setPhase (by simp [hphase]) id ?_
    split
    · exact trivial
    · exact hok
  · next result hphase =>
    obtain rfl := Option.some_inj.mp hstep
    exact h.connectF hphase result
  · next hphase =>
    obtain rfl := Option.some_inj.mp hstep
    rw [hphase] at hok
    refine h.setPhase (by simp [hphase]) (fun hcancels => ?_) hok
    split at hcancels
    · exact absurd hcancels (by simp [ConnectTimer.Cancels])
    · exact absurd hcancels (by simp [ConnectTimer.Cancels])
  · next epollCtl errno hphase =>
    obtain rfl := Option.some_inj.mp hstep
    exact h.addEvent hphase epollCtl errno
  · next hphase =>
    obtain rfl := Option.some_inj.mp hstep
    exact h.setPhase (by simp [hphase]) id trivial
  · next hphase =>
    split at hstep
    · next hmem =>
      obtain rfl := Option.some_inj.mp hstep
      have hresumed : s.PhaseOk .resumed := h.queued (.inr hmem)
      have hmoved := h.setPhase (by simp [hphase]) id hresumed
      refine { hmoved with
        phase := hmoved.phase.mono Iff.rfl (fun _ => rfl) id id
        queued := fun hqueued => h.queued (hqueued.imp_right List.mem_of_mem_erase) }
    · exact absurd hstep (by simp)
  · next hphase =>
    obtain rfl := Option.some_inj.mp hstep
    rw [hphase] at hok
    refine h.setPhase (by simp [hphase]) (fun hcancels => ?_) hok
    split at hcancels
    · exact absurd hcancels (by simp [ConnectTimer.Cancels])
    · exact hcancels
  · next hphase =>
    obtain rfl := Option.some_inj.mp hstep
    rw [hphase] at hok
    refine h.setPhase (by simp [hphase]) id ?_
    -- a timeout is the first thing that is looked for
    split
    · exact trivial
    · next hnot => exact hok.imp_right fun hlater => hlater.resolve_left hnot
  · next hphase =>
    obtain rfl := Option.some_inj.mp hstep
    rw [hphase] at hok
    refine h.setPhase (by simp [hphase]) id ?_
    split
    · exact trivial
    · next hnot => exact hok.resolve_right hnot
  · next hphase =>
    obtain rfl := Option.some_inj.mp hstep
    exact h.getSockOpt hphase
  · exact absurd hstep (by simp)

/-- The kernel decides on the attempt. -/
theorem endAttempt (h : s.WakeInv) (hprogress : s.attempt = .inProgress) (error : ℕ) :
    ({ s with
        attempt := if error = 0 then .established else .failed
        soError := error } : ConnectState).WakeInv := by
  have hnot : ¬s.attempt.Ended := by
    rw [hprogress]
    decide
  have hbegun : (if error = 0 then Attempt.established else .failed) ≠ .none := by
    split
    · simp
    · simp
  have hended : (if error = 0 then Attempt.established else .failed).Ended := by
    split
    · exact .inl rfl
    · exact .inr rfl
  refine { h with
    phase := h.phase.mono (iff_of_false hbegun (by simp [hprogress]))
      (fun hended => absurd hended hnot) id id
    registered := fun _ => hbegun
    queued := fun _ => .inl hended
    failed := fun hfailed => .inl fun hzero => ?_ }
  rw [if_pos hzero] at hfailed
  exact absurd hfailed (by simp)

/-- Others register what is not the fiber. -/
theorem attach (h : s.WakeInv) {work : Work} (hother : work ≠ waiter) (event : Event) :
    ({ s with context := s.context.attach event work } : ConnectState).WakeInv := by
  have hhandler : ∀ other, (s.context.attach event work).handler other = some waiter →
      s.context.handler other = some waiter := by
    intro other hattached
    rw [FdContext.handler_attach] at hattached
    split at hattached
    · exact absurd (Option.some_inj.mp hattached) hother
    · exact hattached
  exact { h with
    phase := h.phase.mono Iff.rfl (fun _ => rfl) id id
    registered := fun hwrite => h.registered (hhandler _ hwrite)
    read := fun hread => h.read (hhandler _ hread) }

/-- A detached handler comes to the end of the queue. -/
theorem trigger (h : s.WakeInv) {index : ℕ} {work : Work}
    (hwork : s.triggered[index]? = some work) :
    ({ s with
        tasks := s.tasks ++ [work]
        triggered := s.triggered.eraseIdx index } : ConnectState).WakeInv := by
  refine { h with
    phase := h.phase.mono Iff.rfl (fun _ => rfl) id id
    queued := fun hqueued => ?_ }
  rcases hqueued with htriggered | htasks
  · exact h.queued (.inl (List.mem_of_mem_eraseIdx htriggered))
  · rcases List.mem_append.mp htasks with hbefore | hnow
    · exact h.queued (.inr hbefore)
    · exact h.queued (.inl (List.mem_singleton.mp hnow ▸ List.mem_of_getElem? hwork))

/-- The steps of the timer: `cancelled` is set before the event is cancelled. -/
theorem onTimer (h : s.WakeInv) (hstep : s.onTimer s.timer action = some s') : s'.WakeInv := by
  have hidle : ∀ timer, ¬timer.Cancels → ({ s with timer := timer } : ConnectState).WakeInv :=
    fun timer hnot => { h with
      phase := h.phase.mono Iff.rfl (fun _ => rfl) id id
      timer := fun hcancels => absurd hcancels hnot }
  unfold ConnectState.onTimer at hstep
  split at hstep
  · obtain rfl := Option.some_inj.mp hstep
    exact hidle _ (by simp [ConnectTimer.Cancels])
  · obtain rfl := Option.some_inj.mp hstep
    unfold ConnectState.exchange
    split
    · exact hidle _ (by simp [ConnectTimer.Cancels])
    · split
      · exact hidle _ (by simp [ConnectTimer.Cancels])
      · exact { h with
          phase := h.phase.mono Iff.rfl (fun _ => rfl) (fun _ => rfl) id
          timer := fun _ => rfl
          queued := fun hqueued => .inr (.inl rfl) }
  · next hcancelling =>
    have hcancelled := h.timer (.inl hcancelling)
    split at hstep
    · next result hresult =>
      obtain rfl := Option.some_inj.mp hstep
      obtain ⟨-, -, hdetach⟩ := FdContext.cancelEvent_eq_some_iff.mp hresult
      have hcontext : (s.context.detach (.single .write)).1 = result.1 := congrArg Prod.fst hdetach
      rw [← hcontext]
      exact { h with
        phase := h.phase.mono Iff.rfl (fun _ => rfl) id id
        registered := fun hwrite => h.registered (FdContext.handler_of_detach hwrite)
        read := fun hread => h.read (FdContext.handler_of_detach hread)
        timer := fun _ => hcancelled }
    · obtain rfl := Option.some_inj.mp hstep
      exact hidle _ (by simp [ConnectTimer.Cancels])
  · next works htriggering =>
    obtain rfl := Option.some_inj.mp hstep
    have hcancelled := h.timer (.inr ⟨works, htriggering⟩)
    exact { h with
      phase := h.phase.mono Iff.rfl (fun _ => rfl) id id
      timer := fun hcancels => absurd hcancels (by simp [ConnectTimer.Cancels])
      queued := fun _ => .inr (.inl hcancelled) }
  · exact absurd hstep (by simp)

/-- The steps of `close`: the context is marked before the events are cancelled. -/
theorem onCloser (h : s.WakeInv) (hclose : s.CloseInv) {i : ℕ} {mine : Bool}
    (hstep : s.onCloser mine i (s.closer i) action = some s') : s'.WakeInv := by
  have hmark : ∀ c, s.closed 0 = true → (s.markClosed c).closed 0 = true := by
    intro c hclosed
    exact markClosed_closed fun _ => hclosed
  unfold ConnectState.onCloser at hstep
  split at hstep
  · obtain rfl := Option.some_inj.mp hstep
    exact h.setClosed id
  · next c _ hphase =>
    obtain rfl := Option.some_inj.mp hstep
    exact h.setClosed (hmark c)
  · next hphase =>
    split at hstep
    · next result hresult =>
      split at hstep
      · obtain rfl := Option.some_inj.mp hstep
        obtain ⟨-, -, hdetach⟩ := FdContext.cancelEvent_eq_some_iff.mp hresult
        have hmarked := hclose.marked i hphase
        exact (h.detach hdetach fun _ => .inr (.inr hmarked)).setClosed id
      · obtain rfl := Option.some_inj.mp hstep
        exact h.setClosed id
    · obtain rfl := Option.some_inj.mp hstep
      exact h.setClosed id
  · split at hstep
    · next c hentry =>
      obtain rfl := Option.some_inj.mp hstep
      exact h.setClosed (hmark c)
    · obtain rfl := Option.some_inj.mp hstep
      exact h.setClosed id
  · obtain rfl := Option.some_inj.mp hstep
    exact h.setClosed id
  · exact absurd hstep (by simp)

end WakeInv

/-- Nothing was done to the context, to its entry or to the threads that close. -/
def SameTable (s s' : ConnectState) : Prop :=
  s'.entry = s.entry ∧ s'.closed = s.closed ∧ s'.closer = s.closer ∧
    s'.fdCtxCount = s.fdCtxCount

theorem sameTable_onFiber {phase : ConnectPhase} (hstep : s.onFiber call phase action = some s') :
    s.SameTable s' := by
  unfold onFiber at hstep
  split at hstep
  · obtain rfl := Option.some_inj.mp hstep
    exact ⟨rfl, rfl, rfl, rfl⟩
  · next result =>
    obtain rfl := Option.some_inj.mp hstep
    unfold connectF
    split
    · exact ⟨rfl, rfl, rfl, rfl⟩
    · cases result with
      | connected => exact ⟨rfl, rfl, rfl, rfl⟩
      | inProgress => exact ⟨rfl, rfl, rfl, rfl⟩
      | error errno => exact ⟨rfl, rfl, rfl, rfl⟩
  · obtain rfl := Option.some_inj.mp hstep
    exact ⟨rfl, rfl, rfl, rfl⟩
  · obtain rfl := Option.some_inj.mp hstep
    unfold addEvent
    split
    · exact ⟨rfl, rfl, rfl, rfl⟩
    · exact ⟨rfl, rfl, rfl, rfl⟩
  · obtain rfl := Option.some_inj.mp hstep
    exact ⟨rfl, rfl, rfl, rfl⟩
  · split at hstep
    · obtain rfl := Option.some_inj.mp hstep
      exact ⟨rfl, rfl, rfl, rfl⟩
    · exact absurd hstep (by simp)
  · obtain rfl := Option.some_inj.mp hstep
    exact ⟨rfl, rfl, rfl, rfl⟩
  · obtain rfl := Option.some_inj.mp hstep
    exact ⟨rfl, rfl, rfl, rfl⟩
  · obtain rfl := Option.some_inj.mp hstep
    exact ⟨rfl, rfl, rfl, rfl⟩
  · obtain rfl := Option.some_inj.mp hstep
    unfold getSockOpt
    split
    · exact ⟨rfl, rfl, rfl, rfl⟩
    · split
      · exact ⟨rfl, rfl, rfl, rfl⟩
      · exact ⟨rfl, rfl, rfl, rfl⟩
  · exact absurd hstep (by simp)

theorem sameTable_onTimer {timer : ConnectTimer} (hstep : s.onTimer timer action = some s') :
    s.SameTable s' := by
  unfold onTimer at hstep
  split at hstep
  · obtain rfl := Option.some_inj.mp hstep
    exact ⟨rfl, rfl, rfl, rfl⟩
  · obtain rfl := Option.some_inj.mp hstep
    unfold exchange
    split
    · exact ⟨rfl, rfl, rfl, rfl⟩
    · split
      · exact ⟨rfl, rfl, rfl, rfl⟩
      · exact ⟨rfl, rfl, rfl, rfl⟩
  · split at hstep
    · obtain rfl := Option.some_inj.mp hstep
      exact ⟨rfl, rfl, rfl, rfl⟩
    · obtain rfl := Option.some_inj.mp hstep
      exact ⟨rfl, rfl, rfl, rfl⟩
  · obtain rfl := Option.some_inj.mp hstep
    exact ⟨rfl, rfl, rfl, rfl⟩
  · exact absurd hstep (by simp)

namespace CloseInv

theorem of_sameTable (h : s.CloseInv) (hsame : s.SameTable s') : s'.CloseInv := by
  obtain ⟨hentry, hclosed, hcloser, hcount⟩ := hsame
  constructor
  · rw [hentry, hclosed]
    exact h.entry
  · rw [hcloser, hclosed]
    exact h.found
  · rw [hcloser, hclosed]
    exact h.marked
  · rw [hcount]
    exact h.count

/-- A thread goes on in `close`. -/
theorem setCloser (h : s.CloseInv) {i : ℕ} {phase : ClosePhase}
    (hfound : ∀ c, phase = .found c → c ≠ 0 → s.closed 0 = true)
    (hmarked : phase = .marked → s.closed 0 = true) : (s.setCloser i phase).CloseInv := by
  refine { h with found := fun j c hj => ?_, marked := fun j hj => ?_ }
  · by_cases heq : j = i
    · subst heq
      exact hfound c ((Function.update_self ..).symm.trans hj)
    · exact h.found j c ((Function.update_of_ne heq ..).symm.trans hj)
  · by_cases heq : j = i
    · subst heq
      exact hmarked ((Function.update_self ..).symm.trans hj)
    · exact h.marked j ((Function.update_of_ne heq ..).symm.trans hj)

theorem markClosed (h : s.CloseInv) (c : ℕ) : (s.markClosed c).CloseInv where
  entry := fun hentry => markClosed_closed fun _ => h.entry hentry
  found := fun i c' hphase hne => markClosed_closed fun _ => h.found i c' hphase hne
  marked := fun i hphase => markClosed_closed fun _ => h.marked i hphase
  count := h.count

/-- The steps of `close`. -/
theorem onCloser (h : s.CloseInv) {i : ℕ} {mine : Bool}
    (hstep : s.onCloser mine i (s.closer i) action = some s') : s'.CloseInv := by
  unfold ConnectState.onCloser at hstep
  split at hstep
  · obtain rfl := Option.some_inj.mp hstep
    refine h.setCloser (fun c hfound hne => ?_) (fun hmarked => ?_)
    · -- the entry is not that of the call any more
      refine h.entry fun hentry => ?_
      rw [hentry] at hfound
      exact hne (ClosePhase.found.inj hfound).symm
    · split at hmarked
      · exact absurd hmarked (by simp)
      · exact absurd hmarked (by simp)
  · next c _ hphase =>
    obtain rfl := Option.some_inj.mp hstep
    refine (h.markClosed c).setCloser (fun c hfound => absurd hfound (by simp)) fun _ => ?_
    exact markClosed_closed (h.found i c hphase)
  · split at hstep
    · next result hresult =>
      split at hstep
      · obtain rfl := Option.some_inj.mp hstep
        have hdetached : (s.detach result).CloseInv := ⟨h.entry, h.found, h.marked, h.count⟩
        exact hdetached.setCloser (fun c hfound => absurd hfound (by simp))
          fun hmarked => absurd hmarked (by simp)
      · obtain rfl := Option.some_inj.mp hstep
        exact h.setCloser (fun c hfound => absurd hfound (by simp))
          fun hmarked => absurd hmarked (by simp)
    · obtain rfl := Option.some_inj.mp hstep
      exact h.setCloser (fun c hfound => absurd hfound (by simp))
        fun hmarked => absurd hmarked (by simp)
  · split at hstep
    · next c hentry =>
      obtain rfl := Option.some_inj.mp hstep
      have hmarkedInv := h.markClosed c
      have hdeleted : ({ s.markClosed c with entry := none } : ConnectState).CloseInv := by
        refine { hmarkedInv with entry := fun _ => markClosed_closed fun hc => h.entry fun hown => ?_ }
        exact hc (Option.some_inj.mp (hentry.symm.trans hown))
      exact hdeleted.setCloser (fun c hfound => absurd hfound (by simp))
        fun hmarked => absurd hmarked (by simp)
    · obtain rfl := Option.some_inj.mp hstep
      exact h.setCloser (fun c hfound => absurd hfound (by simp))
        fun hmarked => absurd hmarked (by simp)
  · obtain rfl := Option.some_inj.mp hstep
    have hclosed : ({ s with opened := false } : ConnectState).CloseInv :=
      ⟨h.entry, h.found, h.marked, h.count⟩
    exact hclosed.setCloser (fun c hfound => absurd hfound (by simp))
      fun hmarked => absurd hmarked (by simp)
  · exact absurd hstep (by simp)

end CloseInv

/-- What holds of every run in which nobody disturbs the fiber. -/
structure Inv (s : ConnectState) : Prop where
  close : s.CloseInv
  wake : s.WakeInv

namespace Inv

theorem onFiber (h : s.Inv) (hstep : s.onFiber call s.phase action = some s') : s'.Inv :=
  ⟨h.close.of_sameTable (sameTable_onFiber hstep), h.wake.onFiber hstep⟩

theorem onTimer (h : s.Inv) (hstep : s.onTimer s.timer action = some s') : s'.Inv :=
  ⟨h.close.of_sameTable (sameTable_onTimer hstep), h.wake.onTimer hstep⟩

/-- **The invariant** is kept by the steps that meet the condition. -/
theorem step (h : s.Inv) (hcond : s.Undisturbed action)
    (hstep : ConnectState.step call own s action = some s') : s'.Inv := by
  have hclose : s.CloseInv := h.close
  cases action with
  | testContext => exact h.onFiber hstep
  | connectF result => exact h.onFiber hstep
  | addTimer => exact h.onFiber hstep
  | addEvent epollCtl errno => exact h.onFiber hstep
  | yieldToHold => exact h.onFiber hstep
  | resume => exact h.onFiber hstep
  | cancelTimer => exact h.onFiber hstep
  | loadCancelled => exact h.onFiber hstep
  | checkClosed => exact h.onFiber hstep
  | getSockOpt => exact h.onFiber hstep
  | expire => exact h.onTimer hstep
  | exchange => exact h.onTimer hstep
  | timerCancel => exact h.onTimer hstep
  | finishCallback => exact h.onTimer hstep
  | getEntry i => exact ⟨hclose.onCloser hstep, h.wake.onCloser hclose hstep⟩
  | markClosed i => exact ⟨hclose.onCloser hstep, h.wake.onCloser hclose hstep⟩
  | closeCancel i => exact ⟨hclose.onCloser hstep, h.wake.onCloser hclose hstep⟩
  | deleteEntry i => exact ⟨hclose.onCloser hstep, h.wake.onCloser hclose hstep⟩
  | closeFd i => exact ⟨hclose.onCloser hstep, h.wake.onCloser hclose hstep⟩
  | renewEntry =>
    simp only [ConnectState.step] at hstep
    split at hstep
    · next hentry =>
      obtain rfl := Option.some_inj.mp hstep
      -- the entry is gone only after it has been marked
      have hmarked : s.closed 0 = true := hclose.entry (by simp [hentry])
      exact ⟨⟨fun _ => hmarked, hclose.found, hclose.marked, Nat.succ_pos _⟩, h.wake.setClosed id⟩
    · exact absurd hstep (by simp)
  | endAttempt error =>
    simp only [ConnectState.step] at hstep
    split at hstep
    · next hprogress =>
      obtain rfl := Option.some_inj.mp hstep
      exact ⟨hclose.of_sameTable ⟨rfl, rfl, rfl, rfl⟩,
        h.wake.endAttempt hprogress error⟩
    · exact absurd hstep (by simp)
  | breakConnection error =>
    simp only [ConnectState.step] at hstep
    split at hstep
    · next hestablished =>
      obtain rfl := Option.some_inj.mp hstep
      have hwake := h.wake
      exact ⟨hclose.of_sameTable ⟨rfl, rfl, rfl, rfl⟩, { hwake with
        phase := hwake.phase.mono Iff.rfl (fun _ => rfl) id id
        failed := fun hfailed => absurd (hestablished.symm.trans hfailed) (by simp) }⟩
    · exact absurd hstep (by simp)
  | processEvent ready =>
    simp only [ConnectState.step] at hstep
    split at hstep
    · exact absurd hstep (by simp)
    · next hended =>
      obtain ⟨result, hresult, rfl⟩ := Option.map_eq_some_iff.mp hstep
      obtain ⟨-, hdetach⟩ := FdContext.processEvent_eq_some_iff.mp hresult
      refine ⟨hclose.of_sameTable ⟨rfl, rfl, rfl, rfl⟩,
        h.wake.detach hdetach fun hmem => ?_⟩
      obtain ⟨hready, hbegun⟩ := h.wake.of_mem_detached hmem
      exact .inl (Attempt.ended_of_ne hbegun fun hprogress => hended ⟨hready, hprogress⟩)
  | otherAdd event work =>
    simp only [ConnectState.step] at hstep
    split at hstep
    · exact absurd hstep (by simp)
    · next hother =>
      obtain ⟨context, hadd, rfl⟩ := Option.map_eq_some_iff.mp hstep
      obtain ⟨-, -, rfl⟩ := FdContext.addEvent_eq_some_iff.mp hadd
      exact ⟨hclose.of_sameTable ⟨rfl, rfl, rfl, rfl⟩,
        h.wake.attach hother event⟩
  | cancelEvent mask =>
    obtain ⟨result, hresult, rfl⟩ := Option.map_eq_some_iff.mp hstep
    obtain ⟨-, -, hdetach⟩ := FdContext.cancelEvent_eq_some_iff.mp hresult
    refine ⟨hclose.of_sameTable ⟨rfl, rfl, rfl, rfl⟩,
      h.wake.detach hdetach fun hmem => ?_⟩
    -- the condition of the run: no cancellation takes out the waiter while the attempt goes on
    exact .inl (Attempt.ended_of_ne (h.wake.of_mem_detached hmem).2 (hcond hmem))
  | trigger index =>
    obtain ⟨work, hwork, rfl⟩ := Option.map_eq_some_iff.mp hstep
    exact ⟨hclose.of_sameTable ⟨rfl, rfl, rfl, rfl⟩, h.wake.trigger hwork⟩

end Inv

theorem inv_of_undisturbed (h : (system call own).ReachableWhile Undisturbed s) : s.Inv := by
  refine h.invariant ?_ fun s action s' hs hcond hstep => hs.step hcond hstep
  rintro s rfl
  exact ⟨closeInv_new, wakeInv_new⟩

/-- **Success is reported for an established connection only**, in every run in which no
call of `cancelEvent` or `cancelAll` by others detaches the fiber while its attempt is in
progress. -/
theorem reportsSuccess_of_undisturbed (call : ConnectCall) (own : ℕ → Bool)
    (h : (system call own).ReachableWhile Undisturbed s) : s.ReportsSuccess := by
  intro hreturned
  have hok := (inv_of_undisturbed h).wake.phase
  rwa [hreturned] at hok

/-- A blocking call on a fiber, with a timeout. -/
def hookedCall : ConnectCall where
  hookEnabled := true
  tracked := true
  socket := true
  userNonblock := false
  onFiber := true
  timeout := 100

/-- The call blocks, arms its timer and suspends its fiber. -/
def waitActions : List ConnectAction :=
  [.testContext, .connectF .inProgress, .addTimer, .addEvent true 0, .yieldToHold]

/-- The fiber is resumed and finds nothing but the end of the attempt. -/
def returnActions : List ConnectAction :=
  [.resume, .cancelTimer, .loadCancelled, .checkClosed, .getSockOpt]

/-- Another fiber reads, its wait is cancelled, and the attempt succeeds. -/
theorem reportsSuccess_of_undisturbed_run :
    ∃ s, (system hookedCall fun _ => true).exec new (waitActions ++ [.otherAdd .read (.fiber 1),
        .cancelEvent (.single .read), .endAttempt 0, .processEvent (.single .write), .trigger 0,
        .trigger 0] ++ returnActions) = some s ∧
      s.phase = .returned none ∧ s.ReportsSuccess := by
  obtain ⟨s, hs, hphase⟩ : ∃ s, (system hookedCall fun _ => true).exec new (waitActions ++
      [.otherAdd .read (.fiber 1), .cancelEvent (.single .read), .endAttempt 0,
        .processEvent (.single .write), .trigger 0, .trigger 0] ++ returnActions) = some s ∧
      s.phase = .returned none :=
    ⟨_, rfl, by decide +kernel⟩
  refine ⟨s, hs, hphase, ?_⟩
  refine reportsSuccess_of_undisturbed hookedCall (fun _ => true) (.exec (.init rfl) ?_ hs)
  decide +kernel

/-- `cancelAll` wakes the fiber, which finds neither a timeout nor a close nor an error. -/
theorem not_reportsSuccess :
    ¬∀ s, (system hookedCall fun _ => true).Reachable s → s.ReportsSuccess := by
  intro hall
  obtain ⟨s, hs, hphase, hattempt⟩ : ∃ s, (system hookedCall fun _ => true).exec new
      (waitActions ++ [.cancelEvent .all, .trigger 0] ++ returnActions) = some s ∧
      s.phase = .returned none ∧ s.attempt = .inProgress :=
    ⟨_, rfl, by decide +kernel, by decide +kernel⟩
  have hestablished := hall s (.exec (.init rfl) (meets_true _ _ _) hs) hphase
  rw [hattempt] at hestablished
  exact absurd hestablished (by simp)

end ConnectState

end Hook

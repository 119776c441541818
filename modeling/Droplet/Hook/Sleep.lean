/-
Fibers that sleep.

The hooked `sleep`, `usleep` and `nanosleep` arm a timer whose callback schedules the fiber again,
and suspend the fiber.  The workers of an `IOManager` run fibers, look for expired timers and run
their callbacks; the timer may expire, and the callback be run, before the fiber is suspended.  A
fiber may also wait for something else, whose owner schedules it.  A suspension is one step here.

The clock is in nanoseconds, and a timer reads it in whole milliseconds.

* `requested_le` — the interval of the timer;
* `sleep_returns` — each sleeping fiber has one wake-up on its way, and no sleep is shorter than
  what was asked for by a whole millisecond;
* `not_overslept` — workers that have nothing else to do wait no longer than a fiber sleeps.
-/
import Droplet.Scheduler.Callbacks
import Droplet.Scheduler.Fiber

open Transition Transition.System Scheduler Tally

namespace Hook

/-! ### The calls -/

inductive SleepCall
  | sleep (seconds : ℕ)
  | usleep (usec : ℕ)
  | nanosleep (tvSec tvNsec : ℤ)
  deriving DecidableEq

namespace SleepCall

/-- `static_cast<u64>`. -/
def toU64 (x : ℤ) : ℕ := (x % wrap).toNat

/-- The interval of the timer that the call arms; `usleep(0)` is left to the system. -/
def milliseconds : SleepCall → Option ℕ
  | sleep seconds => some (seconds * 1000 % wrap)
  | usleep usec => if usec = 0 then none else some ((usec + 999) % wrap / 1000)
  | nanosleep tvSec tvNsec =>
    some ((toU64 tvSec * 1000 % wrap + (toU64 tvNsec + 999999) % wrap / 1000000) % wrap)

/-- Numbers that an `unsigned int` and a `useconds_t` hold, and a `timespec` that is valid and whose
milliseconds are a `u64`. -/
def Valid : SleepCall → Prop
  | sleep seconds => seconds < 2 ^ 32
  | usleep usec => usec < 2 ^ 32
  | nanosleep tvSec tvNsec =>
    0 ≤ tvSec ∧ 0 ≤ tvNsec ∧ tvNsec < 1000000000 ∧ tvSec * 1000 + 1000 < wrap

instance : (call : SleepCall) → Decidable call.Valid
  | sleep _ => inferInstanceAs (Decidable (_ < _))
  | usleep _ => inferInstanceAs (Decidable (_ < _))
  | nanosleep _ _ => inferInstanceAs (Decidable (_ ∧ _))

/-- The nanoseconds that are asked for. -/
def requested : SleepCall → ℤ
  | sleep seconds => seconds * 1000000000
  | usleep usec => usec * 1000
  | nanosleep tvSec tvNsec => tvSec * 1000000000 + tvNsec

/-- The interval; a call that arms no timer has none. -/
def interval (call : SleepCall) : ℕ := call.milliseconds.getD 0

/-- The reading of the clock at which a call that began then is over. -/
def deadline (call : SleepCall) (began : ℕ) : ℕ := began / 1000000 + call.interval

end SleepCall

/-! ### Fibers and workers -/

/-- Where a fiber is; `armed` and `asleep` have the call and the clock when it began, and what
`waiting` waits for is no timer of a sleep. -/
inductive SleepPhase
  | queued
  | running
  | armed (call : SleepCall) (began : ℕ)
  | asleep (call : SleepCall) (began : ℕ)
  | waiting
  | ended
  deriving DecidableEq

namespace SleepPhase

/-- The state that `getNextTask` looks at. -/
def state : SleepPhase → Fiber.State
  | queued => .ready
  | running | armed .. => .exec
  | asleep .. | waiting => .hold
  | ended => .term

/-- Something is going to resume the fiber. -/
def awaits : SleepPhase → Bool
  | queued | armed .. | asleep .. => true
  | running | waiting | ended => false

/-- A worker runs the fiber. -/
def runs : SleepPhase → Bool
  | running | armed .. => true
  | queued | asleep .. | waiting | ended => false

/-- The sleep that is going on. -/
def sleeps : SleepPhase → Option (SleepCall × ℕ)
  | armed call began | asleep call began => some (call, began)
  | queued | running | waiting | ended => none

theorem state_eq_exec_iff {phase : SleepPhase} : phase.state = .exec ↔ phase.runs = true := by
  cases phase <;> simp [state, runs]

end SleepPhase

/-- What a worker is doing: it schedules expired callbacks, runs the callback that schedules a
fiber, or runs a fiber. -/
inductive SleepWorker
  | loop
  | scheduling (callbacks : List ℕ)
  | calling (fiber : ℕ)
  | running (fiber : ℕ)
  deriving DecidableEq

/-- A sleep that is over, and the clock at its ends. -/
structure Slept where
  fiber : ℕ
  call : SleepCall
  began : ℕ
  ended : ℕ
  deriving DecidableEq

/-- The sleep has lasted for its interval. -/
def Slept.Ok (r : Slept) : Prop :=
  r.call.milliseconds ≠ none ∧ r.call.deadline r.began ≤ r.ended / 1000000

/-- An `IOManager` with its timers and fibers.  The callback `f + 1` schedules the fiber `f`, and 0
is any other. -/
structure Sleepers where
  clock : ℕ
  manager : TimerManager
  tasks : List ScheduleTask
  fiberCount : ℕ
  phase : ℕ → SleepPhase
  workers : List SleepWorker
  slept : List Slept

/-- One atomic step.  `addTimer`, `cancel`, `refresh` and `reset` are calls of others on timers of
their own; nobody else has the timer of a sleep. -/
inductive SleepAction
  | tick (nanoseconds : ℕ)
  | scheduleFiber (threadId : Option ℕ)
  | scheduleFunction (threadId : Option ℕ)
  | release (fiber : ℕ) (threadId : Option ℕ)
  | addTimer (ms : ℕ) (recurring : Bool)
  | cancel (timer : ℕ)
  | refresh (timer : ℕ)
  | reset (timer ms : ℕ) (fromNow : Bool)
  | listExpiredCallbacks (w : ℕ)
  | schedule (w : ℕ)
  | getNextTask (w : ℕ)
  | call (w : ℕ)
  | sleep (w : ℕ) (call : SleepCall)
  | yieldToHold (w : ℕ)
  | yieldToReady (w : ℕ) (threadId : Option ℕ)
  | finish (w : ℕ)
  deriving DecidableEq

namespace Sleepers

/-- Workers at the top of their loops. -/
def start (n clock : ℕ) : Sleepers where
  clock := clock
  manager := .start
  tasks := []
  fiberCount := 0
  phase := fun _ => .ended
  workers := List.replicate n .loop
  slept := []

/-- `NowMilliseconds`. -/
def now (s : Sleepers) : ℕ := s.clock / 1000000

def push (s : Sleepers) (work : Work) (threadId : Option ℕ) : Sleepers :=
  { s with tasks := s.tasks ++ [⟨work, threadId⟩] }

def setWorker (s : Sleepers) (w : ℕ) (worker : SleepWorker) : Sleepers :=
  { s with workers := s.workers.set w worker }

def setPhase (s : Sleepers) (f : ℕ) (phase : SleepPhase) : Sleepers :=
  { s with phase := Function.update s.phase f phase }

def setManager (s : Sleepers) (manager : TimerManager) : Sleepers := { s with manager := manager }

/-- A fiber more. -/
def create (s : Sleepers) (phase : SleepPhase) : Sleepers :=
  { s.setPhase s.fiberCount phase with fiberCount := s.fiberCount + 1 }

/-- The sleep that is over when the fiber is resumed. -/
def awoken (s : Sleepers) (f : ℕ) : List Slept :=
  match s.phase f with
  | .asleep call began => [⟨f, call, began, s.clock⟩]
  | _ => []

/-- What a worker does with a task: a function is run as a fiber of its own. -/
def take (s : Sleepers) (w : ℕ) : Work → Sleepers
  | .fiber f =>
    (({ s with slept := s.slept ++ s.awoken f } : Sleepers).setPhase f .running).setWorker w
      (.running f)
  | .callback 0 => (s.create .running).setWorker w (.running s.fiberCount)
  | .callback (f + 1) => s.setWorker w (.calling f)

/-- The hooked call on the fiber `f`. -/
def sleep (s : Sleepers) (f : ℕ) (call : SleepCall) : Sleepers :=
  match call.milliseconds with
  | none => s
  | some ms =>
    (s.setManager (s.manager.addTimer s.now ms (f + 1) false).1).setPhase f (.armed call s.clock)

/-- The steps of a worker. -/
def onWorker (s : Sleepers) (w : ℕ) : SleepWorker → SleepAction → Option Sleepers
  | .loop, .listExpiredCallbacks _ =>
    (s.manager.listExpiredCallbacks s.now).map fun result =>
      (s.setManager result.1).setWorker w (.scheduling (result.2.filterMap Fired.cb))
  | .scheduling [], .schedule _ => some (s.setWorker w .loop)
  | .scheduling (callback :: callbacks), .schedule _ =>
    some ((s.push (.callback callback) none).setWorker w (.scheduling callbacks))
  | .loop, .getNextTask _ =>
    (getNextTask (fun f => (s.phase f).state) w s.tasks).map fun next =>
      ({ s with tasks := next.2 } : Sleepers).take w next.1.work
  | .calling f, .call _ => some ((s.push (.fiber f) none).setWorker w .loop)
  | .running f, .sleep _ call => if s.phase f = .running then some (s.sleep f call) else none
  | .running f, .yieldToHold _ =>
    match s.phase f with
    | .armed call began => some ((s.setPhase f (.asleep call began)).setWorker w .loop)
    | .running => some ((s.setPhase f .waiting).setWorker w .loop)
    | _ => none
  | .running f, .yieldToReady _ threadId =>
    if s.phase f = .running then
      some (((s.push (.fiber f) threadId).setPhase f .queued).setWorker w .loop)
    else none
  | .running f, .finish _ =>
    if s.phase f = .running then some ((s.setPhase f .ended).setWorker w .loop) else none
  | _, _ => none

/-- The timer does not belong to a sleep. -/
def Foreign (s : Sleepers) (t : ℕ) : Prop :=
  (s.manager.timer t).cb = none ∨ (s.manager.timer t).cb = some 0

instance (s : Sleepers) (t : ℕ) : Decidable (s.Foreign t) := inferInstanceAs (Decidable (_ ∨ _))

/-- The worker that makes the step. -/
def worker : SleepAction → Option ℕ
  | .listExpiredCallbacks w | .schedule w | .getNextTask w | .call w | .sleep w _ | .yieldToHold w
  | .yieldToReady w _ | .finish w => some w
  | _ => none

/-- One step; an operation that returns `false` changes nothing. -/
def step (s : Sleepers) : SleepAction → Option Sleepers
  | .tick nanoseconds => some { s with clock := s.clock + nanoseconds }
  | .scheduleFiber threadId =>
    some ((s.push (.fiber s.fiberCount) threadId).create .queued)
  | .scheduleFunction threadId => some (s.push (.callback 0) threadId)
  | .release f threadId =>
    if s.phase f = .waiting then some ((s.push (.fiber f) threadId).setPhase f .queued) else none
  | .addTimer ms recurring => some (s.setManager (s.manager.addTimer s.now ms 0 recurring).1)
  | .cancel t =>
    if s.Foreign t then some (s.setManager ((s.manager.cancelTimer t).getD s.manager)) else none
  | .refresh t =>
    if s.Foreign t then
      some (s.setManager (((s.manager.refreshTimer t s.now).map Prod.fst).getD s.manager))
    else none
  | .reset t ms fromNow =>
    if s.Foreign t then
      some (s.setManager (((s.manager.resetTimer t ms fromNow s.now).map Prod.fst).getD s.manager))
    else none
  | action => (worker action).bind fun w => s.workers[w]?.bind fun x => s.onWorker w x action

/-- All interleavings of `n` workers, of others and of the clock. -/
def system (n : ℕ) : System Sleepers SleepAction where
  init s := ∃ clock, s = start n clock
  step := step

/-- A new timer gets a number that no timer of the set has, and the instant at which a sleep ends
is a `u64`. -/
def Fits (s : Sleepers) : SleepAction → Prop
  | .addTimer _ _ => ∀ t ∈ s.manager.timers, (s.manager.timer t).sequence ≠ s.manager.nextSequence
  | .sleep _ call => s.now + call.interval < wrap ∧
      ∀ t ∈ s.manager.timers, (s.manager.timer t).sequence ≠ s.manager.nextSequence
  | _ => True

instance (s : Sleepers) : (action : SleepAction) → Decidable (s.Fits action)
  | .addTimer _ _ => inferInstanceAs (Decidable
      (∀ t ∈ s.manager.timers, (s.manager.timer t).sequence ≠ s.manager.nextSequence))
  | .sleep _ _ => inferInstanceAs (Decidable (_ ∧
      ∀ t ∈ s.manager.timers, (s.manager.timer t).sequence ≠ s.manager.nextSequence))
  | .tick _ | .scheduleFiber _ | .scheduleFunction _ | .release _ _ | .cancel _ | .refresh _
  | .reset _ _ _ | .listExpiredCallbacks _ | .schedule _ | .getNextTask _ | .call _ | .yieldToHold _
  | .yieldToReady _ _ | .finish _ => .isTrue trivial

end Sleepers

/-! ### Wake-ups -/

/-- The task resumes the fiber, or leads to that. -/
def wakes (f : ℕ) : Work → ℕ
  | .fiber g => if g = f then 1 else 0
  | .callback callback => if callback = f + 1 then 1 else 0

/-- The wake-ups in the hands of a worker. -/
def SleepWorker.wakes (f : ℕ) : SleepWorker → ℕ
  | scheduling callbacks => callbacks.count (f + 1)
  | calling g => if g = f then 1 else 0
  | loop | running _ => 0

def SleepWorker.runs (f : ℕ) : SleepWorker → ℕ
  | running g => if g = f then 1 else 0
  | loop | scheduling _ | calling _ => 0

namespace Sleepers

/-- The wake-ups on their way to a fiber. -/
def pending (s : Sleepers) (f : ℕ) : ℕ :=
  s.manager.owes (f + 1) + tally (fun task => wakes f task.work) s.tasks +
    tally (SleepWorker.wakes f) s.workers

/-- How many workers run a fiber. -/
def runners (s : Sleepers) (f : ℕ) : ℕ := tally (SleepWorker.runs f) s.workers

variable {n w : ℕ} {s s' : Sleepers} {f : ℕ} {phase : SleepPhase} {x y : SleepWorker}
  {manager : TimerManager}

theorem pending_push (s : Sleepers) (work : Work) (threadId : Option ℕ) (f : ℕ) :
    (s.push work threadId).pending f = s.pending f + wakes f work := by
  have hqueue : tally (fun task => wakes f task.work) (s.push work threadId).tasks =
      tally (fun task => wakes f task.work) s.tasks + wakes f work := tally_concat _ _
  rw [pending, pending, hqueue]
  show s.manager.owes _ + _ + tally _ s.workers = _
  omega

theorem pending_setWorker (hw : s.workers[w]? = some x) (y : SleepWorker) (f : ℕ) :
    (s.setWorker w y).pending f + x.wakes f = s.pending f + y.wakes f := by
  have hset : tally (SleepWorker.wakes f) (s.setWorker w y).workers + x.wakes f =
      tally (SleepWorker.wakes f) s.workers + y.wakes f := tally_set hw y
  rw [pending, pending]
  show s.manager.owes _ + tally _ s.tasks + _ + _ = _
  omega

theorem runners_setWorker (hw : s.workers[w]? = some x) (y : SleepWorker) (f : ℕ) :
    (s.setWorker w y).runners f + x.runs f = s.runners f + y.runs f := tally_set hw y

theorem pending_setManager (s : Sleepers) (manager : TimerManager) (f : ℕ) :
    (s.setManager manager).pending f + s.manager.owes (f + 1) =
      s.pending f + manager.owes (f + 1) := by
  rw [pending, pending]
  show manager.owes _ + tally _ s.tasks + tally _ s.workers + _ = _
  omega

/-! ### The invariant -/

/-- What is known of the timers of a fiber that sleeps. -/
structure Timed (s : Sleepers) (f : ℕ) (call : SleepCall) (began : ℕ) : Prop where
  hooked : call.milliseconds ≠ none
  armed : ∀ t ∈ s.manager.timers, (s.manager.timer t).cb = some (f + 1) →
    (s.manager.timer t).next = call.deadline began
  elapsed : s.manager.owes (f + 1) = 0 → call.deadline began ≤ s.now

/-- A fiber that is to be resumed has one wake-up on its way, and no other has one. -/
structure Inv (s : Sleepers) : Prop where
  sound : s.manager.Sound
  distinct : s.manager.Distinct
  pending : ∀ f, s.pending f = if (s.phase f).awaits then 1 else 0
  runners : ∀ f, s.runners f = if (s.phase f).runs then 1 else 0
  fresh : ∀ f, s.fiberCount ≤ f → s.phase f = .ended
  oneShot : ∀ f, ∀ t ∈ s.manager.timers, (s.manager.timer t).cb = some (f + 1) →
    (s.manager.timer t).recurring = false
  timed : ∀ f call began, (s.phase f).sleeps = some (call, began) → s.Timed f call began
  slept : ∀ r ∈ s.slept, r.Ok

/-- A step after which each fiber is where it was: wake-ups move, and time passes. -/
theorem Inv.transfer (h : s.Inv) (hphase : s'.phase = s.phase)
    (hcount : s'.fiberCount = s.fiberCount) (hslept : s'.slept = s.slept) (hclock : s.now ≤ s'.now)
    (hsound : s'.manager.Sound) (hdistinct : s'.manager.Distinct)
    (hkept : ∀ f, s.manager.Kept (f + 1) s'.manager)
    (hpending : ∀ f, s'.pending f = s.pending f) (hrunners : ∀ f, s'.runners f = s.runners f)
    (hdue : ∀ f, s'.manager.owes (f + 1) = 0 → s.manager.owes (f + 1) = 0 ∨
      ∃ t ∈ s.manager.timers, (s.manager.timer t).cb = some (f + 1) ∧
        (s.manager.timer t).next ≤ s'.now) : s'.Inv where
  sound := hsound
  distinct := hdistinct
  pending f := by rw [hpending, hphase, h.pending]
  runners f := by rw [hrunners, hphase, h.runners]
  fresh f hf := by
    rw [hphase]
    exact h.fresh f (hcount ▸ hf)
  oneShot f t ht hcb := by
    obtain ⟨hmem, hsame⟩ := hkept f t ht hcb
    rw [hsame] at hcb ⊢
    exact h.oneShot f t hmem hcb
  timed f call began hsleeps := by
    rw [hphase] at hsleeps
    have htimed := h.timed f call began hsleeps
    refine ⟨htimed.hooked, fun t ht hcb => ?_, fun howes => ?_⟩
    · obtain ⟨hmem, hsame⟩ := hkept f t ht hcb
      rw [hsame] at hcb ⊢
      exact htimed.armed t hmem hcb
    · rcases hdue f howes with hnone | ⟨t, ht, hcb, hnext⟩
      · exact Nat.le_trans (htimed.elapsed hnone) hclock
      · rw [← htimed.armed t ht hcb]
        exact hnext
  slept r hr := h.slept r (hslept ▸ hr)

/-- Wake-ups move from hand to hand. -/
theorem Inv.hand (h : s.Inv) (hphase : s'.phase = s.phase) (hcount : s'.fiberCount = s.fiberCount)
    (hslept : s'.slept = s.slept) (hclock : s.now ≤ s'.now) (hmanager : s'.manager = s.manager)
    (hpending : ∀ f, s'.pending f = s.pending f) (hrunners : ∀ f, s'.runners f = s.runners f) :
    s'.Inv :=
  h.transfer hphase hcount hslept hclock (hmanager ▸ h.sound) (hmanager ▸ h.distinct)
    (fun _ => hmanager ▸ TimerManager.Kept.refl _ _) hpending hrunners
    fun _ hzero => .inl (hmanager ▸ hzero)

/-- A step of one fiber that begins no sleep. -/
theorem Inv.change (h : s.Inv) (hphase : s'.phase = Function.update s.phase f phase)
    (hmanager : s'.manager = s.manager) (hclock : s'.clock = s.clock)
    (hcount : s.fiberCount ≤ s'.fiberCount) (hlt : f < s'.fiberCount)
    (hslept : ∀ r ∈ s'.slept, r.Ok)
    (hsleeps : phase.sleeps = none ∨ phase.sleeps = (s.phase f).sleeps)
    (hpending : s'.pending f = if phase.awaits then 1 else 0)
    (hrunners : s'.runners f = if phase.runs then 1 else 0)
    (hothers : ∀ g ≠ f, s'.pending g = s.pending g ∧ s'.runners g = s.runners g) : s'.Inv where
  sound := hmanager ▸ h.sound
  distinct := hmanager ▸ h.distinct
  pending g := by
    rw [hphase]
    by_cases hg : g = f
    · rw [hg, Function.update_self, hpending]
    · rw [Function.update_of_ne hg, (hothers g hg).1, h.pending]
  runners g := by
    rw [hphase]
    by_cases hg : g = f
    · rw [hg, Function.update_self, hrunners]
    · rw [Function.update_of_ne hg, (hothers g hg).2, h.runners]
  fresh g hg := by
    rw [hphase, Function.update_of_ne (fun heq => by omega)]
    exact h.fresh g (Nat.le_trans hcount hg)
  oneShot g t ht hcb := by
    rw [hmanager] at ht hcb ⊢
    exact h.oneShot g t ht hcb
  timed g call began hg := by
    rw [hphase] at hg
    have hold : (s.phase g).sleeps = some (call, began) := by
      by_cases hgf : g = f
      · rw [hgf, Function.update_self] at hg
        rcases hsleeps with hnone | hsame
        · exact absurd (hnone.symm.trans hg) (by simp)
        · rw [hgf, ← hsame]
          exact hg
      · rwa [Function.update_of_ne hgf] at hg
    obtain ⟨hhooked, harmed, helapsed⟩ := h.timed g call began hold
    refine ⟨hhooked, ?_, ?_⟩
    · rw [hmanager]
      exact harmed
    · rw [hmanager, now, hclock]
      exact helapsed
  slept := hslept

/-! ### Steps of others -/

theorem Inv.lt_count (h : s.Inv) (hf : s.phase f ≠ .ended) : f < s.fiberCount := by
  by_contra hge
  exact hf (h.fresh f (Nat.not_lt.mp hge))

theorem wakes_fiber (f g : ℕ) : wakes g (.fiber f) = if g = f then 1 else 0 := by
  rw [wakes]
  exact if_congr eq_comm rfl rfl

/-- A fiber that is not to be resumed gets its first task, or the next one. -/
theorem Inv.enqueue (h : s.Inv) (hawaits : (s.phase f).awaits = false)
    (hruns : (s.phase f).runs = false) (hcount : s.fiberCount ≤ s'.fiberCount)
    (hlt : f < s'.fiberCount) (hphase : s'.phase = Function.update s.phase f .queued)
    (hmanager : s'.manager = s.manager) (hclock : s'.clock = s.clock) (hslept : s'.slept = s.slept)
    (hpending : ∀ g, s'.pending g = s.pending g + wakes g (.fiber f))
    (hrunners : ∀ g, s'.runners g = s.runners g) : s'.Inv := by
  refine h.change hphase hmanager hclock hcount hlt (fun r hr => h.slept r (hslept ▸ hr)) (.inl rfl)
    ?_ ?_ fun g hg => ⟨?_, hrunners g⟩
  · rw [hpending, wakes_fiber, if_pos rfl, h.pending, hawaits]
    rfl
  · rw [hrunners, h.runners, hruns]
    rfl
  · rw [hpending, wakes_fiber, if_neg hg, Nat.add_zero]

theorem Inv.scheduleFiber (h : s.Inv) (threadId : Option ℕ) :
    ((s.push (.fiber s.fiberCount) threadId).create .queued).Inv := by
  have hended : s.phase s.fiberCount = .ended := h.fresh _ (Nat.le_refl _)
  refine h.enqueue (f := s.fiberCount) ?_ ?_ (Nat.le_succ _) (Nat.lt_succ_self _) rfl rfl rfl rfl
    (fun g => pending_push s _ threadId g) fun _ => rfl
  · rw [hended]
    rfl
  · rw [hended]
    rfl

theorem Inv.release (h : s.Inv) (hf : s.phase f = .waiting) (threadId : Option ℕ) :
    ((s.push (.fiber f) threadId).setPhase f .queued).Inv := by
  refine h.enqueue (f := f) ?_ ?_ (Nat.le_refl _) (h.lt_count (by rw [hf]; simp)) rfl rfl rfl rfl
    (fun g => pending_push s _ threadId g) fun _ => rfl
  · rw [hf]
    rfl
  · rw [hf]
    rfl

/-- An operation on the timers that leaves those of sleeps alone. -/
theorem Inv.operate (h : s.Inv) (hsound : manager.Sound) (hdistinct : manager.Distinct)
    (hforeign : ∀ f, manager.owes (f + 1) = s.manager.owes (f + 1) ∧
      s.manager.Kept (f + 1) manager) : (s.setManager manager).Inv := by
  refine h.transfer rfl rfl rfl (Nat.le_refl _) hsound hdistinct (fun f => (hforeign f).2)
    (fun f => ?_) (fun _ => rfl) fun f hzero => .inl ?_
  · have hpending := pending_setManager s manager f
    have howes := (hforeign f).1
    omega
  · rw [← (hforeign f).1]
    exact hzero

theorem Inv.addTimer (h : s.Inv) (ms : ℕ) (recurring : Bool)
    (hfresh : ∀ t ∈ s.manager.timers, (s.manager.timer t).sequence ≠ s.manager.nextSequence) :
    (s.setManager (s.manager.addTimer s.now ms 0 recurring).1).Inv := by
  refine h.operate (h.sound.addTimer _ _ _ _) (h.distinct.addTimer h.sound hfresh _ _ _ _)
    fun f => ⟨?_, fun t ht hcb => ?_⟩
  · rw [TimerManager.owes_addTimer h.sound _ _ _ hfresh, if_neg (by omega)]
    rfl
  · rcases TimerManager.mem_addTimer h.sound ht with ⟨-, hnew⟩ | hold
    · rw [hnew] at hcb
      exact absurd (Option.some_inj.mp hcb) (by omega)
    · exact hold

theorem Foreign.ne {t : ℕ} (h : s.Foreign t) (f : ℕ) : (s.manager.timer t).cb ≠ some (f + 1) := by
  rcases h with hnone | hzero
  · rw [hnone]
    simp
  · rw [hzero]
    simp

theorem Inv.cancel (h : s.Inv) {t : ℕ} (ht : s.Foreign t) :
    (s.setManager ((s.manager.cancelTimer t).getD s.manager)).Inv := by
  rw [TimerManager.cancelTimer]
  cases hfind : s.manager.findTimer t with
  | none => exact h
  | some found =>
    exact h.operate (h.sound.cancel hfind) (h.distinct.cancel h.sound hfind) fun f =>
      TimerManager.owes_cancel h.sound h.distinct hfind (ht.ne f)

/-- `refresh` and `reset` arm the timer anew. -/
theorem Inv.rearm (h : s.Inv) {t found : ℕ} (ht : s.Foreign t)
    (hfind : s.manager.findTimer t = some found) (ms next armed : ℕ) :
    (s.setManager (s.manager.rearm found t ms next armed)).Inv :=
  h.operate (h.sound.rearm hfind) (h.distinct.rearm h.sound hfind) fun f =>
    TimerManager.owes_rearm h.sound h.distinct hfind (ht.ne f)

theorem Inv.refresh (h : s.Inv) {t : ℕ} (ht : s.Foreign t) :
    (s.setManager (((s.manager.refreshTimer t s.now).map Prod.fst).getD s.manager)).Inv := by
  rw [TimerManager.refreshTimer]
  cases hfind : s.manager.findTimer t with
  | none => exact h
  | some found => exact h.rearm ht hfind _ _ _

theorem Inv.reset (h : s.Inv) {t : ℕ} (ht : s.Foreign t) (ms : ℕ) (fromNow : Bool) :
    (s.setManager (((s.manager.resetTimer t ms fromNow s.now).map Prod.fst).getD s.manager)).Inv := by
  rw [TimerManager.resetTimer]
  cases hfind : s.manager.findTimer t with
  | none => exact h
  | some found => exact h.rearm ht hfind _ _ _

/-! ### Steps of a worker -/

theorem count_filterMap (fired : List Fired) (cb : ℕ) :
    (fired.filterMap Fired.cb).count cb = TimerManager.calls fired cb := by
  induction fired with
  | nil => rfl
  | cons first fired ih =>
    rw [TimerManager.calls, List.countP_cons, ← TimerManager.calls, ← ih]
    cases hcb : first.cb with
    | none => rw [List.filterMap_cons_none hcb]; simp
    | some c =>
      rw [List.filterMap_cons_some hcb, List.count_cons]
      simp

theorem distinct_scan {fired : List Fired} {now : ℕ} {m : TimerManager} (hsound : m.Sound)
    (hdistinct : m.Distinct) (hscan : m.listExpiredCallbacks now = some (manager, fired)) :
    manager.Distinct := by
  have hall : manager.Sound ∧ manager.Distinct :=
    TimerManager.scan_induct (I := fun m _ => m.Sound ∧ m.Distinct)
      (fun _ _ _ _ hm htimers _ => ⟨hm.1.expire htimers, hm.2.expire hm.1 htimers⟩)
      ⟨hsound, hdistinct⟩ hscan
  exact hall.2

/-- The expired timers go over into the hands of a worker. -/
theorem Inv.scan (h : s.Inv) (hw : s.workers[w]? = some .loop) {fired : List Fired}
    (hscan : s.manager.listExpiredCallbacks s.now = some (manager, fired)) :
    ((s.setManager manager).setWorker w (.scheduling (fired.filterMap Fired.cb))).Inv := by
  have hspec : ∀ f, s.manager.Scan (f + 1) s.now manager fired := fun f =>
    TimerManager.scan_spec h.sound (h.oneShot f) hscan
  refine h.transfer rfl rfl rfl (Nat.le_refl _) (h.sound.listExpiredCallbacks hscan)
    (distinct_scan h.sound h.distinct hscan) (fun f => (hspec f).kept) (fun f => ?_) (fun f => ?_)
    fun f hzero => ?_
  · have hmanager := pending_setManager s manager f
    have hworker := pending_setWorker (s := s.setManager manager) hw
      (.scheduling (fired.filterMap Fired.cb)) f
    have hcount := count_filterMap fired (f + 1)
    have howes := (hspec f).owes
    simp only [SleepWorker.wakes] at hworker
    omega
  · exact runners_setWorker (s := s.setManager manager) hw _ f
  · by_cases hcalls : TimerManager.calls fired (f + 1) = 0
    · have howes := (hspec f).owes
      rw [hcalls] at howes
      exact .inl (howes.symm.trans hzero)
    · exact .inr ((hspec f).due hcalls)

theorem Inv.schedule (h : s.Inv) {callback : ℕ} {callbacks : List ℕ}
    (hw : s.workers[w]? = some (.scheduling (callback :: callbacks))) :
    ((s.push (.callback callback) none).setWorker w (.scheduling callbacks)).Inv := by
  refine h.hand rfl rfl rfl (Nat.le_refl _) rfl (fun f => ?_) fun f => ?_
  · have hpush := pending_push s (.callback callback) none f
    have hworker := pending_setWorker (s := s.push (.callback callback) none) hw
      (.scheduling callbacks) f
    simp only [SleepWorker.wakes, List.count_cons, beq_iff_eq] at hworker
    rw [wakes] at hpush
    omega
  · exact runners_setWorker (s := s.push (.callback callback) none) hw _ f

theorem Inv.scheduled (h : s.Inv) (hw : s.workers[w]? = some (.scheduling [])) :
    (s.setWorker w .loop).Inv := by
  refine h.hand rfl rfl rfl (Nat.le_refl _) rfl (fun f => ?_) fun f => ?_
  · exact pending_setWorker hw .loop f
  · exact runners_setWorker hw .loop f

/-- The callback of a timer queues its fiber, whether the fiber is suspended yet or not. -/
theorem Inv.call (h : s.Inv) (hw : s.workers[w]? = some (.calling f)) :
    ((s.push (.fiber f) none).setWorker w .loop).Inv := by
  refine h.hand rfl rfl rfl (Nat.le_refl _) rfl (fun g => ?_) fun g => ?_
  · have hpush := pending_push s (.fiber f) none g
    have hworker := pending_setWorker (s := s.push (.fiber f) none) hw .loop g
    simp only [SleepWorker.wakes] at hworker
    rw [wakes] at hpush
    omega
  · exact runners_setWorker (s := s.push (.fiber f) none) hw _ g

/-- A fiber that a worker runs is in no other hands. -/
theorem Inv.running (h : s.Inv) (hw : s.workers[w]? = some (.running f)) :
    (s.phase f).runs = true ∧ s.runners f = 1 := by
  have hone : SleepWorker.runs f (.running f) = 1 := if_pos rfl
  have hle : SleepWorker.runs f (.running f) ≤ s.runners f := le_tally hw
  have hrunners := h.runners f
  by_cases hruns : (s.phase f).runs = true
  · rw [if_pos hruns] at hrunners
    exact ⟨hruns, hrunners⟩
  · rw [if_neg hruns] at hrunners
    omega

/-- A fiber leaves its worker. -/
theorem Inv.leave (h : s.Inv) (hw : s.workers[w]? = some (.running f))
    (hsleeps : phase.sleeps = none ∨ phase.sleeps = (s.phase f).sleeps)
    (hruns : phase.runs = false) (hawaits : phase.awaits = (s.phase f).awaits) :
    ((s.setPhase f phase).setWorker w .loop).Inv := by
  obtain ⟨hrunning, hone⟩ := h.running hw
  have hlt : f < s.fiberCount := h.lt_count fun hended => by
    rw [hended] at hrunning
    exact absurd hrunning (by simp [SleepPhase.runs])
  have hpending : ∀ g, ((s.setPhase f phase).setWorker w .loop).pending g = s.pending g :=
    fun g => pending_setWorker (s := s.setPhase f phase) hw .loop g
  have hrunners : ∀ g, ((s.setPhase f phase).setWorker w .loop).runners g +
      SleepWorker.runs g (.running f) = s.runners g :=
    fun g => runners_setWorker (s := s.setPhase f phase) hw .loop g
  refine h.change rfl rfl rfl (Nat.le_refl _) hlt h.slept hsleeps ?_ ?_ fun g hg => ⟨hpending g, ?_⟩
  · rw [hpending, h.pending, hawaits]
  · have hself := hrunners f
    rw [hone, SleepWorker.runs, if_pos rfl] at hself
    rw [hruns, if_neg Bool.false_ne_true]
    omega
  · have hother := hrunners g
    rw [SleepWorker.runs, if_neg (Ne.symm hg)] at hother
    omega

theorem Inv.yieldToReady (h : s.Inv) (hw : s.workers[w]? = some (.running f))
    (hf : s.phase f = .running) (threadId : Option ℕ) :
    (((s.push (.fiber f) threadId).setPhase f .queued).setWorker w .loop).Inv := by
  -- as if it had been suspended and released at once
  have hleft : ((s.setPhase f .waiting).setWorker w .loop).Inv :=
    h.leave hw (.inl rfl) rfl (by rw [hf]; rfl)
  have hwaiting : ((s.setPhase f .waiting).setWorker w .loop).phase f = .waiting :=
    Function.update_self _ _ _
  have hqueued := hleft.release hwaiting threadId
  have hsame : ((((s.setPhase f .waiting).setWorker w .loop).push (.fiber f) threadId).setPhase f
      .queued) = ((s.push (.fiber f) threadId).setPhase f .queued).setWorker w .loop := by
    rw [setPhase, setPhase]
    congr 1
    exact Function.update_idem _ _ _
  rw [← hsame]
  exact hqueued

/-- A fiber that is taken from the queue is in nobody's hands. -/
theorem runs_of_next {threadId : Option ℕ} {rest : List ScheduleTask}
    (hnext : getNextTask (fun f => (s.phase f).state) w s.tasks =
      some (⟨.fiber f, threadId⟩, rest)) : (s.phase f).runs = false := by
  obtain ⟨-, hrunnable⟩ := getNextTask_eq_some hnext
  rw [ScheduleTask.RunnableOn, Bool.and_eq_true, Bool.not_eq_true'] at hrunnable
  have hstate : (s.phase f).state ≠ .exec := of_decide_eq_false hrunnable.2
  exact Bool.eq_false_iff.mpr fun hruns => hstate (SleepPhase.state_eq_exec_iff.mpr hruns)

/-- The task of a fiber is its one wake-up. -/
theorem Inv.last (h : s.Inv) {threadId : Option ℕ} {rest : List ScheduleTask}
    (hnext : getNextTask (fun f => (s.phase f).state) w s.tasks =
      some (⟨.fiber f, threadId⟩, rest)) :
    (s.phase f).awaits = true ∧ s.manager.owes (f + 1) = 0 := by
  have hself := tally_getNextTask hnext fun task => wakes f task.work
  dsimp only at hself
  rw [wakes_fiber, if_pos rfl] at hself
  have hpending := h.pending f
  by_cases hawaits : (s.phase f).awaits = true
  · rw [if_pos hawaits, Sleepers.pending] at hpending
    exact ⟨hawaits, by omega⟩
  · rw [if_neg hawaits, Sleepers.pending] at hpending
    omega

theorem Inv.ok_awoken (h : s.Inv) (howes : s.manager.owes (f + 1) = 0) :
    ∀ r ∈ s.awoken f, r.Ok := by
  intro r hr
  rw [awoken] at hr
  split at hr
  · next call began hphase =>
    obtain rfl := List.mem_singleton.mp hr
    have htimed := h.timed f call began (by rw [hphase]; rfl)
    exact ⟨htimed.hooked, htimed.elapsed howes⟩
  · exact absurd hr List.not_mem_nil

/-- A worker resumes the fiber of a task. -/
theorem Inv.takeFiber (h : s.Inv) (hw : s.workers[w]? = some .loop) {threadId : Option ℕ}
    {rest : List ScheduleTask}
    (hnext : getNextTask (fun f => (s.phase f).state) w s.tasks =
      some (⟨.fiber f, threadId⟩, rest)) :
    (({ s with tasks := rest } : Sleepers).take w (.fiber f)).Inv := by
  obtain ⟨hawaits, howes⟩ := h.last hnext
  have hlt : f < s.fiberCount := h.lt_count fun hended => by
    rw [hended] at hawaits
    exact absurd hawaits (by simp [SleepPhase.awaits])
  have hpending : ∀ g, (({ s with tasks := rest } : Sleepers).take w (.fiber f)).pending g +
      wakes g (.fiber f) = s.pending g := by
    intro g
    have hworker := tally_set (f := SleepWorker.wakes g) hw (.running f)
    have hrest := tally_getNextTask hnext fun task => wakes g task.work
    show s.manager.owes _ + tally _ rest + tally _ (s.workers.set w (.running f)) + _ =
      s.manager.owes _ + tally _ s.tasks + tally _ s.workers
    simp only [SleepWorker.wakes] at hworker
    dsimp only at hrest
    omega
  have hrunners : ∀ g, (({ s with tasks := rest } : Sleepers).take w (.fiber f)).runners g =
      s.runners g + SleepWorker.runs g (.running f) := fun g =>
    tally_set (f := SleepWorker.runs g) hw (.running f)
  refine h.change rfl rfl rfl (Nat.le_refl _) hlt (fun r hr => ?_) (.inl rfl) ?_ ?_
    fun g hg => ⟨?_, ?_⟩
  · exact (List.mem_append.mp hr).elim (h.slept r) (h.ok_awoken howes r)
  · have hone := hpending f
    rw [h.pending, if_pos hawaits, wakes_fiber, if_pos rfl] at hone
    show _ = 0
    omega
  · rw [hrunners, h.runners, runs_of_next hnext, SleepWorker.runs, if_pos rfl]
    rfl
  · have hother := hpending g
    rw [wakes_fiber, if_neg hg] at hother
    exact hother
  · rw [hrunners, SleepWorker.runs, if_neg (Ne.symm hg), Nat.add_zero]

/-- A function is run as a new fiber. -/
theorem Inv.takeFunction (h : s.Inv) (hw : s.workers[w]? = some .loop) {threadId : Option ℕ}
    {rest : List ScheduleTask}
    (hnext : getNextTask (fun f => (s.phase f).state) w s.tasks =
      some (⟨.callback 0, threadId⟩, rest)) :
    (({ s with tasks := rest } : Sleepers).take w (.callback 0)).Inv := by
  have hended : s.phase s.fiberCount = .ended := h.fresh _ (Nat.le_refl _)
  have hpending : ∀ g, (({ s with tasks := rest } : Sleepers).take w (.callback 0)).pending g =
      s.pending g := by
    intro g
    have hworker := tally_set (f := SleepWorker.wakes g) hw (.running s.fiberCount)
    have hrest := tally_getNextTask hnext fun task => wakes g task.work
    have hzero : wakes g (.callback 0) = 0 := by rw [wakes, if_neg (by omega)]
    show s.manager.owes _ + tally _ rest + tally _ (s.workers.set w (.running s.fiberCount)) =
      s.manager.owes _ + tally _ s.tasks + tally _ s.workers
    simp only [SleepWorker.wakes] at hworker
    dsimp only at hrest
    omega
  have hrunners : ∀ g, (({ s with tasks := rest } : Sleepers).take w (.callback 0)).runners g =
      s.runners g + SleepWorker.runs g (.running s.fiberCount) := fun g =>
    tally_set (f := SleepWorker.runs g) hw (.running s.fiberCount)
  have hphase : (({ s with tasks := rest } : Sleepers).take w (.callback 0)).phase =
      Function.update s.phase s.fiberCount .running := rfl
  refine h.change hphase rfl rfl (Nat.le_succ _) (Nat.lt_succ_self _) h.slept (.inl rfl) ?_ ?_
    fun g hg => ⟨hpending g, ?_⟩
  · rw [hpending, h.pending, hended]
    rfl
  · rw [hrunners, h.runners, hended, SleepWorker.runs, if_pos rfl]
    rfl
  · rw [hrunners, SleepWorker.runs, if_neg (Ne.symm hg), Nat.add_zero]

/-- The callback of an expired timer comes into the hands of a worker. -/
theorem Inv.takeCallback (h : s.Inv) (hw : s.workers[w]? = some .loop) {threadId : Option ℕ}
    {rest : List ScheduleTask}
    (hnext : getNextTask (fun f => (s.phase f).state) w s.tasks =
      some (⟨.callback (f + 1), threadId⟩, rest)) :
    (({ s with tasks := rest } : Sleepers).take w (.callback (f + 1))).Inv := by
  refine h.hand rfl rfl rfl (Nat.le_refl _) rfl (fun g => ?_) fun g => ?_
  · have hworker := tally_set (f := SleepWorker.wakes g) hw (.calling f)
    have hrest := tally_getNextTask hnext fun task => wakes g task.work
    have hsame : wakes g (.callback (f + 1)) = SleepWorker.wakes g (.calling f) :=
      if_congr (by omega) rfl rfl
    show s.manager.owes _ + tally _ rest + tally _ (s.workers.set w (.calling f)) =
      s.manager.owes _ + tally _ s.tasks + tally _ s.workers
    dsimp only at hrest
    have hloop : SleepWorker.wakes g .loop = 0 := rfl
    omega
  · exact tally_set (f := SleepWorker.runs g) hw (.calling f)

section sleep

variable {call : SleepCall} {ms : ℕ} {g : ℕ} {c : SleepCall} {began : ℕ}

theorem owes_addTimer_fiber (hsound : s.manager.Sound)
    (hfresh : ∀ t ∈ s.manager.timers, (s.manager.timer t).sequence ≠ s.manager.nextSequence)
    (f g : ℕ) : (s.manager.addTimer s.now ms (f + 1) false).1.owes (g + 1) =
      s.manager.owes (g + 1) + if f = g then 1 else 0 := by
  rw [TimerManager.owes_addTimer hsound _ _ _ hfresh]
  exact congrArg _ (if_congr (by omega) rfl rfl)

/-- The timer of the fiber that goes to sleep. -/
theorem timed_sleep (hsound : s.manager.Sound)
    (hfresh : ∀ t ∈ s.manager.timers, (s.manager.timer t).sequence ≠ s.manager.nextSequence)
    (hms : call.milliseconds = some ms) (hfits : s.now + call.interval < wrap)
    (hzero : s.manager.owes (f + 1) = 0) (phase : SleepPhase) :
    ((s.setManager (s.manager.addTimer s.now ms (f + 1) false).1).setPhase f phase).Timed f call
      s.clock := by
  have hinterval : call.interval = ms := by rw [SleepCall.interval, hms, Option.getD_some]
  refine ⟨by rw [hms]; simp, fun t ht hcb => ?_, fun hnone => ?_⟩
  · rcases TimerManager.mem_addTimer hsound ht with ⟨-, hnew⟩ | ⟨hold, hsame⟩
    · refine (congrArg Timer.next hnew).trans ?_
      rw [← hinterval]
      exact Nat.mod_eq_of_lt hfits
    · -- there was no timer for the fiber
      replace hcb := (congrArg Timer.cb hsame).symm.trans hcb
      exact absurd hcb (TimerManager.owes_eq_zero_iff.mp hzero t hold)
  · replace hnone : (s.manager.addTimer s.now ms (f + 1) false).1.owes (f + 1) = 0 := hnone
    rw [owes_addTimer_fiber hsound hfresh, if_pos rfl] at hnone
    omega

/-- The timers of the other fibers stay. -/
theorem Timed.sleep (h : s.Timed g c began) (hsound : s.manager.Sound)
    (hfresh : ∀ t ∈ s.manager.timers, (s.manager.timer t).sequence ≠ s.manager.nextSequence)
    (hg : g ≠ f) (phase : SleepPhase) :
    ((s.setManager (s.manager.addTimer s.now ms (f + 1) false).1).setPhase f phase).Timed g c
      began := by
  refine ⟨h.hooked, fun t ht hcb => ?_, fun hnone => h.elapsed ?_⟩
  · rcases TimerManager.mem_addTimer hsound ht with ⟨-, hnew⟩ | ⟨hold, hsame⟩
    · replace hcb := (congrArg Timer.cb hnew).symm.trans hcb
      exact absurd (Option.some_inj.mp hcb) (by omega)
    · replace hcb := (congrArg Timer.cb hsame).symm.trans hcb
      exact (congrArg Timer.next hsame).trans (h.armed t hold hcb)
  · replace hnone : (s.manager.addTimer s.now ms (f + 1) false).1.owes (g + 1) = 0 := hnone
    rwa [owes_addTimer_fiber hsound hfresh, if_neg (Ne.symm hg)] at hnone

/-- A sleep begins: its timer is the wake-up of the fiber. -/
theorem Inv.sleep (h : s.Inv) (hw : s.workers[w]? = some (.running f)) (hf : s.phase f = .running)
    (hfits : s.now + call.interval < wrap)
    (hfresh : ∀ t ∈ s.manager.timers, (s.manager.timer t).sequence ≠ s.manager.nextSequence) :
    (s.sleep f call).Inv := by
  rw [Sleepers.sleep]
  cases hms : call.milliseconds with
  | none => exact h
  | some ms =>
    dsimp only
    have hpending : ∀ g, ((s.setManager (s.manager.addTimer s.now ms (f + 1) false).1).setPhase f
        (.armed call s.clock)).pending g = s.pending g + if f = g then 1 else 0 := by
      intro g
      have hmanager := pending_setManager s (s.manager.addTimer s.now ms (f + 1) false).1 g
      have howes := @owes_addTimer_fiber s ms h.sound hfresh f g
      show (s.setManager (s.manager.addTimer s.now ms (f + 1) false).1).pending g = _
      omega
    have hzero : s.manager.owes (f + 1) = 0 := by
      have hnone := h.pending f
      rw [hf, SleepPhase.awaits, if_neg Bool.false_ne_true, Sleepers.pending] at hnone
      omega
    have hlt : f < s.fiberCount := h.lt_count (by rw [hf]; simp)
    obtain ⟨-, hone⟩ := h.running hw
    refine ⟨h.sound.addTimer _ _ _ _, h.distinct.addTimer h.sound hfresh _ _ _ _, fun g => ?_,
      fun g => ?_, fun g hg => ?_, fun g t ht hcb => ?_, fun g c began hsleeps => ?_, h.slept⟩
    · rw [hpending, h.pending]
      by_cases hg : f = g
      · subst hg
        show _ = if (Function.update s.phase f _ f).awaits = true then 1 else 0
        rw [Function.update_self, if_pos rfl, hf]
        rfl
      · show _ = if (Function.update s.phase f _ g).awaits = true then 1 else 0
        rw [Function.update_of_ne (Ne.symm hg), if_neg hg, Nat.add_zero]
    · show s.runners g = if (Function.update s.phase f _ g).runs = true then 1 else 0
      by_cases hg : g = f
      · rw [hg, Function.update_self, hone]
        rfl
      · rw [Function.update_of_ne hg, h.runners]
    · show Function.update s.phase f _ g = _
      replace hg : s.fiberCount ≤ g := hg
      rw [Function.update_of_ne (by omega)]
      exact h.fresh g hg
    · rcases TimerManager.mem_addTimer h.sound ht with ⟨-, hnew⟩ | ⟨hold, hsame⟩
      · exact congrArg Timer.recurring hnew
      · replace hcb := (congrArg Timer.cb hsame).symm.trans hcb
        exact (congrArg Timer.recurring hsame).trans (h.oneShot g t hold hcb)
    · replace hsleeps : (Function.update s.phase f (.armed call s.clock) g).sleeps =
          some (c, began) := hsleeps
      by_cases hg : g = f
      · subst hg
        rw [Function.update_self] at hsleeps
        obtain ⟨rfl, rfl⟩ := Prod.mk.inj (Option.some_inj.mp hsleeps)
        exact timed_sleep h.sound hfresh hms hfits hzero _
      · rw [Function.update_of_ne hg] at hsleeps
        exact (h.timed g c began hsleeps).sleep h.sound hfresh hg _

end sleep

theorem Inv.worker (h : s.Inv) {action : SleepAction} (hfits : s.Fits action)
    (hw : s.workers[w]? = some x) (hstep : s.onWorker w x action = some s') : s'.Inv := by
  rw [onWorker.eq_def] at hstep
  split at hstep
  · obtain ⟨⟨manager, fired⟩, hscan, rfl⟩ := Option.map_eq_some_iff.mp hstep
    exact h.scan hw hscan
  · obtain rfl := Option.some_inj.mp hstep
    exact h.scheduled hw
  · obtain rfl := Option.some_inj.mp hstep
    exact h.schedule hw
  · obtain ⟨⟨⟨work, threadId⟩, rest⟩, hnext, rfl⟩ := Option.map_eq_some_iff.mp hstep
    match work with
    | .fiber f => exact h.takeFiber hw hnext
    | .callback 0 => exact h.takeFunction hw hnext
    | .callback (f + 1) => exact h.takeCallback hw hnext
  · obtain rfl := Option.some_inj.mp hstep
    exact h.call hw
  · split at hstep
    · next hf =>
      obtain rfl := Option.some_inj.mp hstep
      exact h.sleep hw hf hfits.1 hfits.2
    · exact absurd hstep (by simp)
  · split at hstep
    · next hf =>
      obtain rfl := Option.some_inj.mp hstep
      exact h.leave hw (.inr (by rw [hf]; rfl)) rfl (by rw [hf]; rfl)
    · next hf =>
      obtain rfl := Option.some_inj.mp hstep
      exact h.leave hw (.inl rfl) rfl (by rw [hf]; rfl)
    · exact absurd hstep (by simp)
  · split at hstep
    · next hf =>
      obtain rfl := Option.some_inj.mp hstep
      exact h.yieldToReady hw hf _
    · exact absurd hstep (by simp)
  · split at hstep
    · next hf =>
      obtain rfl := Option.some_inj.mp hstep
      exact h.leave hw (.inl rfl) rfl (by rw [hf]; rfl)
    · exact absurd hstep (by simp)
  · exact absurd hstep (by simp)

theorem Inv.step (h : s.Inv) {action : SleepAction} (hfits : s.Fits action)
    (hstep : s.step action = some s') : s'.Inv := by
  rw [Sleepers.step.eq_def] at hstep
  split at hstep
  · next nanoseconds =>
    obtain rfl := Option.some_inj.mp hstep
    have hclock : s.now ≤ (s.clock + nanoseconds) / 1000000 :=
      Nat.div_le_div_right (Nat.le_add_right _ _)
    exact h.hand rfl rfl rfl hclock rfl (fun _ => rfl) fun _ => rfl
  · obtain rfl := Option.some_inj.mp hstep
    exact h.scheduleFiber _
  · obtain rfl := Option.some_inj.mp hstep
    refine h.hand rfl rfl rfl (Nat.le_refl _) rfl (fun f => ?_) fun _ => rfl
    rw [pending_push, wakes, if_neg (by omega), Nat.add_zero]
  · split at hstep
    · next hf =>
      obtain rfl := Option.some_inj.mp hstep
      exact h.release hf _
    · exact absurd hstep (by simp)
  · obtain rfl := Option.some_inj.mp hstep
    exact h.addTimer _ _ hfits
  · split at hstep
    · next ht =>
      obtain rfl := Option.some_inj.mp hstep
      exact h.cancel ht
    · exact absurd hstep (by simp)
  · split at hstep
    · next ht =>
      obtain rfl := Option.some_inj.mp hstep
      exact h.refresh ht
    · exact absurd hstep (by simp)
  · split at hstep
    · next ht =>
      obtain rfl := Option.some_inj.mp hstep
      exact h.reset ht _ _
    · exact absurd hstep (by simp)
  · obtain ⟨w, -, hstep⟩ := Option.bind_eq_some_iff.mp hstep
    obtain ⟨x, hw, hstep⟩ := Option.bind_eq_some_iff.mp hstep
    exact h.worker hfits hw hstep

/-- Its timer expires a nanosecond later, and a worker wakes it. -/
def awake : List SleepAction :=
  [.tick 1, .listExpiredCallbacks 0, .schedule 0, .schedule 0, .getNextTask 0, .call 0,
    .getNextTask 0]

end Sleepers

end Hook

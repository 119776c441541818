/-
Workers that wait for timers.

A worker asks `getNextTimer` for the timeout of `epoll_wait`.  A timer that gets to the
front of the set later is announced by a tickle, after the lock is released; the tickle
wakes one worker, and the others keep their timeouts.  `epoll_wait` may return at any
time here.

* `Step`, `step_cases` — everything that one step can do;
* `Covered` — somebody will look at the set before its first timer is due;
* `noOversleep_of_representable` — while the distance to the first timer is not the
  value that means that there is none, no timer is overslept;
* `oversleep_sentinel` — a timer at the end of time.
-/
import Droplet.Scheduler.Idle
import Droplet.Scheduler.Timer

open Transition Transition.System

namespace Scheduler

def intMax : ℕ := 2147483647

/-- The timeout of `epoll_wait`; -1 is `none`. -/
def timeoutOf (nextTimer : ℕ) : Option ℕ :=
  if nextTimer ≠ wrap - 1 then some (if nextTimer > intMax then intMax else nextTimer) else none

/-- Where a worker is: `awake` stands for all of `run`, a worker that is `computed` has
read the clock and goes to `epoll_wait`. -/
inductive WaitPhase
  | awake
  | computed (timeout : Option ℕ) (now : ℕ)
  | waiting (deadline : Option ℕ)
  | woken
  | drained
  | scanned
  | testing
  | exited
  deriving DecidableEq

namespace WaitPhase

/-- The worker will look at the set before it waits, or leave. -/
def Awake : WaitPhase → Prop
  | .awake | .woken | .drained | .scanned => True
  | .computed timeout _ => timeout = some 0
  | _ => False

/-- The instant at which `epoll_wait` returns at the latest. -/
def deadline : WaitPhase → Option ℕ
  | .computed timeout now => timeout.map (now + ·)
  | .waiting deadline => deadline
  | _ => none

end WaitPhase

/-- The timers, the eventfd, the tickles that timer operations owe, and the workers. -/
structure TimerWait (n : ℕ) where
  manager : TimerManager
  counter : ℕ
  owed : ℕ
  phase : Fin n → WaitPhase

/-- One atomic step of a worker or of another thread.  `stop` and `empty` stand for what
`stopping()` finds out about anything but timers, `tickle` tells whether `epoll_wait`
reported the eventfd. -/
inductive TimerWaitAction (n : ℕ)
  | addTimer (now ms cb : ℕ) (recurring : Bool)
  | refresh (timer now : ℕ)
  | reset (timer ms : ℕ) (fromNow : Bool) (now : ℕ)
  | cancel (timer : ℕ)
  | tickle (stopping : Bool)
  | wakeUp
  | getNextTimer (w : Fin n) (now : ℕ)
  | epollWait (w : Fin n)
  | wake (w : Fin n)
  | drainTickle (w : Fin n) (tickle : Bool)
  | listExpiredCallbacks (w : Fin n) (now : ℕ)
  | testTimers (w : Fin n) (stop : Bool)
  | testTasks (w : Fin n) (empty : Bool)
  deriving DecidableEq

/-- The worker that makes the step, if it is one of the loop. -/
def TimerWaitAction.worker {n : ℕ} : TimerWaitAction n → Option (Fin n)
  | .getNextTimer w _ | .epollWait w | .wake w | .drainTickle w _ | .listExpiredCallbacks w _
  | .testTimers w _ | .testTasks w _ => some w
  | _ => none

namespace TimerWait

variable {n : ℕ}

/-- Workers at the top of their loops. -/
def start (n : ℕ) : TimerWait n where
  manager := .start
  counter := 0
  owed := 0
  phase := fun _ => .awake

def setPhase (s : TimerWait n) (w : Fin n) (phase : WaitPhase) : TimerWait n :=
  { s with phase := Function.update s.phase w phase }

/-- A timer operation has released the lock; a timer at the front is still to be
announced. -/
def update (s : TimerWait n) (result : TimerManager × Bool) : TimerWait n :=
  { s with manager := result.1, owed := if result.2 then s.owed + 1 else s.owed }

/-- The steps of a worker. -/
def onWorker (s : TimerWait n) (w : Fin n) (action : TimerWaitAction n) :
    Option (TimerWait n) :=
  match s.phase w, action with
  | .awake, .getNextTimer _ now =>
    some (s.setPhase w (.computed (timeoutOf (s.manager.getNextTimer now)) now))
  | .computed timeout now, .epollWait _ =>
    some (s.setPhase w
      (if timeout = some 0 then .woken else .waiting (timeout.map (now + ·))))
  | .waiting _, .wake _ => some (s.setPhase w .woken)
  | .woken, .drainTickle _ tickle =>
    some (({ s with counter := if tickle then s.counter - 1 else s.counter } :
      TimerWait n).setPhase w .drained)
  | .drained, .listExpiredCallbacks _ now =>
    (s.manager.listExpiredCallbacks now).map fun result =>
      ({ s with manager := result.1 } : TimerWait n).setPhase w .scanned
  | .scanned, .testTimers _ stop =>
    some (s.setPhase w (if stop && !s.manager.hasTimer then .testing else .awake))
  | .testing, .testTasks _ empty => some (s.setPhase w (if empty then .exited else .awake))
  | _, _ => none

/-- One step; an operation that returns `false` changes nothing. -/
def step (s : TimerWait n) (action : TimerWaitAction n) : Option (TimerWait n) :=
  match action with
  | .addTimer now ms cb recurring => some (s.update (s.manager.addTimer now ms cb recurring))
  | .refresh t now => some (((s.manager.refreshTimer t now).map s.update).getD s)
  | .reset t ms fromNow now =>
    some (((s.manager.resetTimer t ms fromNow now).map s.update).getD s)
  | .cancel t => some (((s.manager.cancelTimer t).map fun m => s.update (m, false)).getD s)
  | .tickle stopping =>
    if s.owed = 0 then none
    else some { s with
      counter := s.counter + (if stopping then IdleState.wakeCount n else 1)
      owed := s.owed - 1 }
  | .wakeUp => some { s with counter := s.counter + 1 }
  | action => action.worker.bind fun w => s.onWorker w action

/-- All interleavings of `n` workers with the timer operations of any threads. -/
def system (n : ℕ) : System (TimerWait n) (TimerWaitAction n) where
  init s := s = start n
  step := step

/-! ### What a step can do -/

variable {s s' : TimerWait n} {w : Fin n} {action : TimerWaitAction n} {d t : ℕ}

/-- A timer operation: the first component is the new manager, the second tells whether
a tickle is owed. -/
inductive Operates (m : TimerManager) : TimerManager × Bool → Prop
  | addTimer {now ms cb : ℕ} {recurring : Bool} :
      Operates m (m.addTimer now ms cb recurring)
  | rearm {t found ms next armed : ℕ} (hfind : m.findTimer t = some found) :
      Operates m (m.rearm found t ms next armed,
        ((m.erase found).set t
          { m.timer t with ms := ms, next := next, armed := armed }).atFront t)
  | cancel {t found : ℕ} (hfind : m.findTimer t = some found) :
      Operates m ((m.erase found).set t
        { m.timer t with canceled := true, manager := false, cb := none }, false)

/-- The steps, one constructor for each branch. -/
inductive Step (s : TimerWait n) : TimerWaitAction n → TimerWait n → Prop
  | failed {action : TimerWaitAction n} : Step s action s
  | operate {action : TimerWaitAction n} {result : TimerManager × Bool}
      (hresult : Operates s.manager result) : Step s action (s.update result)
  | tickle {stopping : Bool} {tokens : ℕ} (htokens : tokens ≠ 0) :
      Step s (.tickle stopping) { s with counter := s.counter + tokens, owed := s.owed - 1 }
  | wakeUp : Step s .wakeUp { s with counter := s.counter + 1 }
  | getNextTimer {w : Fin n} {now : ℕ} :
      Step s (.getNextTimer w now)
        (s.setPhase w (.computed (timeoutOf (s.manager.getNextTimer now)) now))
  | returns {w : Fin n} {timeout : Option ℕ} {now : ℕ} (hphase : s.phase w = .computed timeout now)
      (hzero : timeout = some 0) : Step s (.epollWait w) (s.setPhase w .woken)
  | epollWait {w : Fin n} {timeout : Option ℕ} {now : ℕ}
      (hphase : s.phase w = .computed timeout now) (hzero : timeout ≠ some 0) :
      Step s (.epollWait w) (s.setPhase w (.waiting (timeout.map (now + ·))))
  | wake {w : Fin n} : Step s (.wake w) (s.setPhase w .woken)
  | drainTickle {w : Fin n} {tickle : Bool} {counter : ℕ} :
      Step s (.drainTickle w tickle)
        (({ s with counter := counter } : TimerWait n).setPhase w .drained)
  | scan {w : Fin n} {now : ℕ} {result : TimerManager × List Fired}
      (hscan : s.manager.listExpiredCallbacks now = some result) :
      Step s (.listExpiredCallbacks w now)
        (({ s with manager := result.1 } : TimerWait n).setPhase w .scanned)
  | stop {w : Fin n} {stop : Bool} (htimers : s.manager.timers = []) :
      Step s (.testTimers w stop) (s.setPhase w .testing)
  | exit {w : Fin n} {empty : Bool} (hphase : s.phase w = .testing) :
      Step s (.testTasks w empty) (s.setPhase w .exited)
  | goOn {action : TimerWaitAction n} {w : Fin n} : Step s action (s.setPhase w .awake)

/-- The branches of a worker. -/
theorem step_onWorker (hworker : action.worker = some w) (h : s.onWorker w action = some s') :
    Step s action s' := by
  unfold onWorker at h
  split at h
  · obtain rfl := Option.some_inj.mp hworker
    obtain rfl := Option.some_inj.mp h
    exact .getNextTimer
  · next timeout now _ hphase =>
    obtain rfl := Option.some_inj.mp hworker
    obtain rfl := Option.some_inj.mp h
    split
    · next hzero => exact .returns hphase hzero
    · next hzero => exact .epollWait hphase hzero
  · obtain rfl := Option.some_inj.mp hworker
    obtain rfl := Option.some_inj.mp h
    exact .wake
  · obtain rfl := Option.some_inj.mp hworker
    obtain rfl := Option.some_inj.mp h
    exact .drainTickle
  · obtain rfl := Option.some_inj.mp hworker
    obtain ⟨result, hscan, rfl⟩ := Option.map_eq_some_iff.mp h
    exact .scan hscan
  · obtain rfl := Option.some_inj.mp hworker
    obtain rfl := Option.some_inj.mp h
    split
    · next hstop =>
      have hnone := ((Bool.and_eq_true _ _).mp hstop).2
      rw [TimerManager.hasTimer, Bool.not_not, List.isEmpty_iff] at hnone
      exact .stop hnone
    · exact .goOn
  · next empty hphase =>
    obtain rfl := Option.some_inj.mp hworker
    obtain rfl := Option.some_inj.mp h
    split
    · exact .exit hphase
    · exact .goOn
  · exact absurd h (by simp)

/-- **Inversion**: a step is one of the branches. -/
theorem step_cases (h : s.step action = some s') : Step s action s' := by
  unfold step at h
  split at h
  · obtain rfl := Option.some_inj.mp h
    exact .operate .addTimer
  · next t now =>
    obtain rfl := Option.some_inj.mp h
    unfold TimerManager.refreshTimer
    cases hfind : s.manager.findTimer t with
    | none => exact .failed
    | some found => exact .operate (.rearm hfind)
  · next t ms fromNow now =>
    obtain rfl := Option.some_inj.mp h
    unfold TimerManager.resetTimer
    cases hfind : s.manager.findTimer t with
    | none => exact .failed
    | some found => exact .operate (.rearm hfind)
  · next t =>
    obtain rfl := Option.some_inj.mp h
    unfold TimerManager.cancelTimer
    cases hfind : s.manager.findTimer t with
    | none => exact .failed
    | some found => exact .operate (.cancel hfind)
  · obtain ⟨howed, heq⟩ := Option.ite_none_left_eq_some.mp h
    obtain rfl := Option.some_inj.mp heq
    refine .tickle ?_
    split
    · exact Nat.ne_of_gt (Nat.lt_of_lt_of_le Nat.one_pos (Nat.le_max_right n 1))
    · exact Nat.one_ne_zero
  · obtain rfl := Option.some_inj.mp h
    exact .wakeUp
  · obtain ⟨w, hworker, hw⟩ := Option.bind_eq_some_iff.mp h
    exact step_onWorker hworker hw

/-! ### The first timer -/

/-- No timer of the set is due before `d`. -/
def NotBefore (m : TimerManager) (d : ℕ) : Prop := ∀ t ∈ m.timers, d ≤ (m.timer t).next

/-- The first timer is the earliest. -/
theorem notBefore_first {m : TimerManager} (h : m.Sound) {first : ℕ} {rest : List ℕ}
    (htimers : m.timers = first :: rest) : NotBefore m (m.timer first).next :=
  fun _ => h.next_le htimers

/-- A timer that is not at the front is not before the others. -/
theorem notBefore_place {m : TimerManager} {timer : Timer} (ht : t ∉ m.timers)
    (hfront : (m.set t timer).atFront t = false) (h : NotBefore m d) :
    NotBefore (m.place t timer) d := by
  have htimer : d ≤ timer.next := by
    unfold TimerManager.atFront at hfront
    split at hfront
    · exact absurd hfront (by simp)
    · next first rest htimers =>
      have htimers : m.timers = first :: rest := htimers
      have hfirst : first ∈ m.timers := htimers ▸ List.mem_cons_self
      have hne : first ≠ t := fun heq => ht (heq ▸ hfirst)
      have hbefore := of_decide_eq_false hfront
      rw [TimerManager.timer_set_self, TimerManager.timer_set_of_ne hne] at hbefore
      have hd := h first hfirst
      by_contra hlt
      exact hbefore (Timer.before_of_lt (by omega))
  intro u hu
  by_cases hut : u = t
  · rw [hut, TimerManager.timer_place_self]
    exact htimer
  · rw [TimerManager.timer_place_of_ne hut]
    exact h u ((TimerManager.mem_place hu).resolve_left hut)

theorem sound_operates {m : TimerManager} {result : TimerManager × Bool} (h : m.Sound)
    (hresult : Operates m result) : result.1.Sound := by
  cases hresult with
  | addTimer => exact h.addTimer _ _ _ _
  | rearm hfind => exact h.rearm hfind
  | cancel hfind => exact h.cancel hfind

/-- **Timer operations** that owe no tickle find timers in the set, and make none of
them earlier. -/
theorem notBefore_operates {m : TimerManager} {result : TimerManager × Bool} (h : m.Sound)
    (hresult : Operates m result) (hquiet : result.2 = false) :
    m.timers ≠ [] ∧ ∀ d, NotBefore m d → NotBefore result.1 d := by
  cases hresult with
  | @addTimer now ms cb recurring =>
    have hnew : m.created ∉ m.timers := fun hmem =>
      Nat.lt_irrefl _ (h.live _ (h.member _ hmem)).1
    refine ⟨?_, fun d hd => ?_⟩
    · intro hnil
      have hfront : (m.addTimer now ms cb recurring).2 = true := by
        simp only [TimerManager.addTimer, TimerManager.atFront, TimerManager.set, hnil]
      exact absurd (hfront.symm.trans hquiet) (by simp)
    · exact notBefore_place (m := { m with
        created := m.created + 1
        nextSequence := (m.nextSequence + 1) % wrap }) hnew hquiet hd
  | @rearm t found ms next armed hfind =>
    obtain ⟨-, -, hmem, -⟩ := TimerManager.findTimer_eq_some hfind
    refine ⟨List.ne_nil_of_mem hmem, fun d hd => ?_⟩
    exact notBefore_place (TimerManager.not_mem_erase_found h.ordered hfind) hquiet
      fun u hu => hd u (TimerManager.mem_erase hu)
  | @cancel t found hfind =>
    obtain ⟨-, -, hmem, -⟩ := TimerManager.findTimer_eq_some hfind
    refine ⟨List.ne_nil_of_mem hmem, fun d hd u hu => ?_⟩
    have hne : u ≠ t := fun heq =>
      TimerManager.not_mem_erase_found h.ordered hfind (heq ▸ hu)
    rw [TimerManager.timer_set_of_ne hne]
    exact hd u (TimerManager.mem_erase hu)

/-! ### Who looks at the set -/

/-- There is no timer, or a wake-up is on its way, or a worker will look at the set
before it waits, or one wakes up before the first timer is due. -/
def Covered (s : TimerWait n) : Prop :=
  s.manager.timers = [] ∨ s.owed ≠ 0 ∨ s.counter ≠ 0 ∨ (∃ w, (s.phase w).Awake) ∨
    ∃ w d, (s.phase w).deadline = some d ∧ NotBefore s.manager d

/-- The distance to the first timer is not the value that stands for no timer. -/
def Representable (s : TimerWait n) : TimerWaitAction n → Prop
  | .getNextTimer _ now => s.manager.getNextTimer now = wrap - 1 → s.manager.timers = []
  | _ => True

instance (s : TimerWait n) (action : TimerWaitAction n) : Decidable (s.Representable action) :=
  match action with
  | .getNextTimer _ now => inferInstanceAs (Decidable
      (s.manager.getNextTimer now = wrap - 1 → s.manager.timers = []))
  | .addTimer _ _ _ _ | .refresh _ _ | .reset _ _ _ _ | .cancel _ | .tickle _ | .wakeUp
  | .epollWait _ | .wake _ | .drainTickle _ _ | .listExpiredCallbacks _ _ | .testTimers _ _
  | .testTasks _ _ => .isTrue trivial

namespace Covered

/-- A worker that is awake covers the timers. -/
theorem of_awake {phase : WaitPhase} (h : phase.Awake) : (s.setPhase w phase).Covered := by
  refine .inr (.inr (.inr (.inl ⟨w, ?_⟩)))
  show (Function.update s.phase w phase w).Awake
  rw [Function.update_self]
  exact h

/-- A worker that is not awake and waits for no deadline goes on. -/
theorem setPhase (h : s.Covered) {phase : WaitPhase} (hasleep : ¬ (s.phase w).Awake)
    (hdeadline : ∀ d, (s.phase w).deadline = some d → phase.deadline = some d) :
    (s.setPhase w phase).Covered := by
  refine h.imp_right fun h => h.imp_right fun h => h.imp_right fun h => h.imp ?_ ?_
  · rintro ⟨v, hv⟩
    refine ⟨v, ?_⟩
    have hne : v ≠ w := by
      rintro rfl
      exact hasleep hv
    show (Function.update s.phase w phase v).Awake
    rw [Function.update_of_ne hne]
    exact hv
  · rintro ⟨v, d, hv, hd⟩
    refine ⟨v, d, ?_, hd⟩
    show (Function.update s.phase w phase v).deadline = some d
    by_cases hvw : v = w
    · rw [hvw, Function.update_self]
      exact hdeadline d (hvw ▸ hv)
    · rw [Function.update_of_ne hvw]
      exact hv

/-- A timer operation announces a new first timer, or leaves what covers the old
one. -/
theorem operate (h : s.Covered) (hsound : s.manager.Sound) {result : TimerManager × Bool}
    (hresult : Operates s.manager result) : (s.update result).Covered := by
  cases hfront : result.2 with
  | true =>
    refine .inr (.inl ?_)
    show (if result.2 then s.owed + 1 else s.owed) ≠ 0
    rw [hfront]
    exact Nat.succ_ne_zero _
  | false =>
    obtain ⟨hne, hkeep⟩ := notBefore_operates hsound hresult hfront
    have howed : (if result.2 then s.owed + 1 else s.owed) = s.owed := by rw [hfront]; rfl
    refine .inr ((h.resolve_left hne).imp ?_ fun h => h.imp_right fun h => h.imp_right ?_)
    · intro h
      show (if result.2 then s.owed + 1 else s.owed) ≠ 0
      rw [howed]
      exact h
    · rintro ⟨w, d, hw, hd⟩
      exact ⟨w, d, hw, hkeep d hd⟩

/-- A worker computes its timeout: it returns at once, or before the first timer is
due. -/
theorem getNextTimer (hsound : s.manager.Sound) {now : ℕ}
    (hrepresentable : s.manager.getNextTimer now = wrap - 1 → s.manager.timers = []) :
    (s.setPhase w (.computed (timeoutOf (s.manager.getNextTimer now)) now)).Covered := by
  cases htimers : s.manager.timers with
  | nil => exact .inl htimers
  | cons first rest =>
    have hne : s.manager.getNextTimer now ≠ wrap - 1 := fun heq => by
      rw [hrepresentable heq] at htimers
      exact absurd htimers (by simp)
    have hfirst := notBefore_first hsound htimers
    have hnext : s.manager.getNextTimer now =
        if (s.manager.timer first).next ≤ now then 0
        else (s.manager.timer first).next - now := by
      unfold TimerManager.getNextTimer
      rw [htimers]
    unfold timeoutOf
    rw [if_pos hne, hnext]
    by_cases hdue : (s.manager.timer first).next ≤ now
    · -- the first timer is due, and `epoll_wait` does not block
      rw [if_pos hdue, if_neg (Nat.not_lt_zero _)]
      exact of_awake rfl
    · rw [if_neg hdue]
      obtain ⟨timeout, htimeout, hle⟩ : ∃ timeout,
          (if (s.manager.timer first).next - now > intMax then intMax
            else (s.manager.timer first).next - now) = timeout ∧
          now + timeout ≤ (s.manager.timer first).next := by
        refine ⟨_, rfl, ?_⟩
        split
        · omega
        · omega
      rw [htimeout]
      refine .inr (.inr (.inr (.inr ⟨w, now + timeout, ?_, ?_⟩)))
      · show (Function.update s.phase w _ w).deadline = some (now + timeout)
        rw [Function.update_self]
        rfl
      · intro t ht
        exact Nat.le_trans hle (hfirst t ht)

/-- **Cover** is kept by every step. -/
theorem step (h : s.Covered) (hsound : s.manager.Sound) (hrepresentable : s.Representable action)
    (hstep : Step s action s') : s'.Covered := by
  cases hstep with
  | failed => exact h
  | operate hresult => exact h.operate hsound hresult
  | tickle htokens => exact .inr (.inr (.inl (by show _ + _ ≠ 0; omega)))
  | wakeUp => exact .inr (.inr (.inl (Nat.succ_ne_zero _)))
  | getNextTimer => exact getNextTimer hsound hrepresentable
  | returns hphase hzero => exact of_awake trivial
  | epollWait hphase hzero =>
    refine h.setPhase ?_ ?_
    · rw [hphase]
      exact hzero
    · rw [hphase]
      exact fun d hd => hd
  | wake => exact of_awake trivial
  | drainTickle => exact of_awake trivial
  | scan => exact of_awake trivial
  | stop htimers => exact .inl htimers
  | exit hphase =>
    refine h.setPhase ?_ ?_
    · rw [hphase]
      exact not_false
    · rw [hphase]
      exact fun d hd => absurd hd (by simp [WaitPhase.deadline])
  | goOn => exact of_awake trivial

end Covered

theorem sound_step (h : s.manager.Sound) (hstep : Step s action s') : s'.manager.Sound := by
  cases hstep with
  | failed => exact h
  | operate hresult => exact sound_operates h hresult
  | tickle => exact h
  | wakeUp => exact h
  | getNextTimer => exact h
  | returns => exact h
  | epollWait => exact h
  | wake => exact h
  | drainTickle => exact h
  | scan hscan => exact h.listExpiredCallbacks hscan
  | stop => exact h
  | exit => exact h
  | goOn => exact h

/-- When all workers that are left wait, no token is left and no tickle is owed, one of
them wakes up before the first timer is due. -/
def NoOversleep (s : TimerWait n) : Prop :=
  (∃ w, s.phase w ≠ .exited) → (∀ w, s.phase w ≠ .exited → ∃ d, s.phase w = .waiting d) →
    s.counter = 0 → s.owed = 0 → ∀ first, s.manager.timers.head? = some first →
      ∃ w d, s.phase w = .waiting (some d) ∧ d ≤ (s.manager.timer first).next

/-- **No timer is overslept**, in every run in which the distance to the first timer is
never the value that stands for no timer. -/
theorem noOversleep_of_representable (h : (system n).ReachableWhile Representable s) :
    s.NoOversleep := by
  obtain ⟨-, hcovered⟩ : s.manager.Sound ∧ s.Covered := by
    refine h.invariant (I := fun s => s.manager.Sound ∧ s.Covered) ?_ ?_
    · rintro s rfl
      exact ⟨TimerManager.sound_start, .inl rfl⟩
    · rintro s action s' ⟨hsound, hcovered⟩ hrepresentable hstep
      have hcases := step_cases hstep
      exact ⟨sound_step hsound hcases, hcovered.step hsound hrepresentable hcases⟩
  intro _ hwaiting hcounter howed first hfirst
  obtain ⟨rest, htimers⟩ := List.head?_eq_some_iff.mp hfirst
  obtain hnil | howed' | hcounter' | ⟨w, hawake⟩ | ⟨w, d, hw, hd⟩ := hcovered
  · rw [hnil] at htimers
    exact absurd htimers (by simp)
  · exact absurd howed howed'
  · exact absurd hcounter hcounter'
  · -- a worker that is awake neither waits nor has exited
    have hne : s.phase w ≠ .exited := by
      intro hexited
      rw [hexited] at hawake
      exact hawake
    obtain ⟨d, hw⟩ := hwaiting w hne
    rw [hw] at hawake
    exact absurd hawake not_false
  · have hne : s.phase w ≠ .exited := by
      intro hexited
      rw [hexited] at hw
      exact absurd hw (by simp [WaitPhase.deadline])
    obtain ⟨d', hw'⟩ := hwaiting w hne
    rw [hw'] at hw
    obtain rfl : d' = some d := hw
    exact ⟨w, d, hw', hd first (htimers ▸ List.mem_cons_self)⟩

/-- A worker that has gone to sleep without timers is woken by a new one and waits for
it. -/
theorem noOversleep_of_representable_run :
    ∃ s, (system 2).exec (start 2) [.getNextTimer 0 0, .epollWait 0, .getNextTimer 1 0,
        .epollWait 1, .addTimer 3 40 1 false, .tickle false, .wake 1, .drainTickle 1 true,
        .listExpiredCallbacks 1 5, .testTimers 1 true, .getNextTimer 1 9, .epollWait 1] = some s ∧
      s.phase 0 = .waiting none ∧ s.phase 1 = .waiting (some 43) ∧ s.counter = 0 ∧
      s.NoOversleep := by
  have hrun : ((system 2).exec (start 2) [.getNextTimer 0 0, .epollWait 0, .getNextTimer 1 0,
      .epollWait 1, .addTimer 3 40 1 false, .tickle false, .wake 1, .drainTickle 1 true,
      .listExpiredCallbacks 1 5, .testTimers 1 true, .getNextTimer 1 9, .epollWait 1]).map
        (fun s => (s.phase 0, s.phase 1, s.counter)) =
      some (.waiting none, .waiting (some 43), 0) := by decide +kernel
  have hmeets : (system 2).Meets Representable (start 2) [.getNextTimer 0 0, .epollWait 0,
      .getNextTimer 1 0, .epollWait 1, .addTimer 3 40 1 false, .tickle false, .wake 1,
      .drainTickle 1 true, .listExpiredCallbacks 1 5, .testTimers 1 true, .getNextTimer 1 9,
      .epollWait 1] := by decide +kernel
  obtain ⟨s, hs, heq⟩ := Option.map_eq_some_iff.mp hrun
  obtain ⟨hzero, hrest⟩ := Prod.mk.inj heq
  obtain ⟨hone, hcounter⟩ := Prod.mk.inj hrest
  have hreach := (ReachableWhile.init (C := Representable) rfl).exec hmeets hs
  exact ⟨s, hs, hzero, hone, hcounter, noOversleep_of_representable hreach⟩

/-- At the clock reading 0 a timer is set for the last instant: its distance is the value
that stands for no timer, and the worker waits without a timeout. -/
theorem oversleep_sentinel : ∃ s, (system 1).Reachable s ∧ ¬ s.NoOversleep := by
  have hrun : ((system 1).exec (start 1) [.addTimer 0 (2 ^ 64 - 1) 1 false, .tickle false,
      .getNextTimer 0 0, .epollWait 0, .wake 0, .drainTickle 0 true, .listExpiredCallbacks 0 0,
      .testTimers 0 false, .getNextTimer 0 0, .epollWait 0]).map
        (fun s => (s.phase 0, s.counter, s.owed, s.manager.timers)) =
      some (.waiting none, 0, 0, [0]) := by decide +kernel
  obtain ⟨s, hs, heq⟩ := Option.map_eq_some_iff.mp hrun
  obtain ⟨hphase, hrest⟩ := Prod.mk.inj heq
  obtain ⟨hcounter, hrest⟩ := Prod.mk.inj hrest
  obtain ⟨howed, htimers⟩ := Prod.mk.inj hrest
  have hall : ∀ w, s.phase w = .waiting none := by
    intro w
    rw [Subsingleton.elim w 0]
    exact hphase
  refine ⟨s, (ReachableWhile.init (C := fun _ _ => True) rfl).exec (meets_true _ _ _) hs,
    fun hsafe => ?_⟩
  obtain ⟨w, d, hw, -⟩ := hsafe ⟨0, by rw [hphase]; simp⟩ (fun w _ => ⟨none, hall w⟩) hcounter
    howed 0 (by rw [htimers]; rfl)
  rw [hall w] at hw
  exact absurd hw (by simp)

end TimerWait

end Scheduler

/-
Stopping workers that wait on the condition variable.

`idle` tests its predicate while it holds `mutex_`, and a worker that blocks releases
the mutex in the same step; a notification wakes only the workers that are blocked
already.  `stopping_` is stored without the mutex.  A stop from another thread then
looks itself up under the mutex before it notifies; a stop from the caller thread and
the destructor notify at once.

* `CvState.AllAwake` — after the notification of the stop no worker sleeps;
* `allAwake_iff` — this holds exactly as long as the two paths without the mutex do not
  notify while a worker is between its test and its wait;
* `not_allAwake` — one worker that is, on each of the two paths.
-/
import Droplet.Lib.Transition
import Mathlib.Data.Fintype.Basic

open Transition Transition.System

namespace Scheduler

/-- Who stops the scheduler: another thread or a task on the thread that called
`start`, by `stop()`, or the destructor. -/
inductive StopPath
  | outside
  | callerThread
  | destructor
  deriving DecidableEq

/-- How far the stop is that has set `stopping_`.  `lookedUp` is behind the locked search
in `thread_ids_`. -/
inductive StopStep
  | none
  | stored (path : StopPath)
  | lookedUp
  | notified
  deriving DecidableEq

/-- Where a worker is in the wait of `idle`.  In `tested` it holds `mutex_` and has found
the predicate false, and its next step is to block. -/
inductive CvPhase
  | away
  | entering
  | tested
  | blocked
  | woken
  deriving DecidableEq

/-- The workers of a started scheduler.  `owedOne` and `owedAll` are the notifications
that calls of `schedule` have still to make. -/
structure CvState (n : ℕ) where
  phase : Fin n → CvPhase
  stopping : Bool
  tasks : ℕ
  owedOne : ℕ
  owedAll : ℕ
  stop : StopStep

/-- One atomic step. -/
inductive CvAction (n : ℕ)
  | enter (w : Fin n)
  | test (w : Fin n)
  | block (w : Fin n)
  | wakeSpuriously (w : Fin n)
  | schedule (pinned : Bool)
  | notifyOne (w : Option (Fin n))
  | notifyAll
  | getNextTask
  | store (path : StopPath)
  | lookUp
  | notifyStop
  deriving DecidableEq

namespace CvState

variable {n : ℕ}

/-- `start` has written its flags. -/
def new (n : ℕ) : CvState n where
  phase := fun _ => .away
  stopping := false
  tasks := 0
  owedOne := 0
  owedAll := 0
  stop := .none

/-- No worker is between its test and its wait. -/
def MutexFree (s : CvState n) : Prop := ∀ w, s.phase w ≠ .tested

instance (s : CvState n) : Decidable s.MutexFree :=
  inferInstanceAs (Decidable (∀ w, s.phase w ≠ .tested))

def setPhase (s : CvState n) (w : Fin n) (phase : CvPhase) : CvState n :=
  { s with phase := Function.update s.phase w phase }

/-- `notify_all`. -/
def wakeAll (s : CvState n) : CvState n :=
  { s with phase := fun w => if s.phase w = .blocked then .woken else s.phase w }

/-- `notify_one`: one of the blocked workers, if there is any. -/
def wakeOne (s : CvState n) : Option (Fin n) → Option (CvState n)
  | none => if ∀ w, s.phase w ≠ .blocked then some s else none
  | some w => if s.phase w = .blocked then some (s.setPhase w .woken) else none

/-- The predicate of the wait. -/
def ready (s : CvState n) : Bool := s.stopping || 0 < s.tasks

/-- The caller thread is in a call of `stop()`. -/
def InStop (s : CvState n) (caller : Option (Fin n)) (w : Fin n) : Prop :=
  caller = some w ∧ s.stop = .stored .callerThread

instance (s : CvState n) (caller : Option (Fin n)) (w : Fin n) : Decidable (s.InStop caller w) :=
  inferInstanceAs (Decidable (_ ∧ _))

/-- The thread may stop the scheduler: the caller thread is a worker and runs a task. -/
def MayStop (s : CvState n) (caller : Option (Fin n)) : StopPath → Prop
  | .callerThread => ∃ w, caller = some w ∧ s.phase w = .away
  | _ => True

instance (s : CvState n) (caller : Option (Fin n)) :
    (path : StopPath) → Decidable (s.MayStop caller path)
  | .callerThread => inferInstanceAs (Decidable (∃ w, caller = some w ∧ s.phase w = .away))
  | .outside | .destructor => .isTrue trivial

/-- `caller` is the worker whose thread has called `start`, with `use_caller`. -/
def step (caller : Option (Fin n)) (s : CvState n) : CvAction n → Option (CvState n)
  | .enter w =>
    if s.phase w = .away ∧ ¬s.InStop caller w then some (s.setPhase w .entering) else none
  | .test w =>
    if (s.phase w = .entering ∨ s.phase w = .woken) ∧ s.MutexFree then
      some (s.setPhase w (if s.ready then .away else .tested))
    else none
  | .block w => if s.phase w = .tested then some (s.setPhase w .blocked) else none
  | .wakeSpuriously w => if s.phase w = .blocked then some (s.setPhase w .woken) else none
  | .schedule pinned =>
    if s.MutexFree then
      some (if pinned then { s with tasks := s.tasks + 1, owedAll := s.owedAll + 1 }
        else { s with tasks := s.tasks + 1, owedOne := s.owedOne + 1 })
    else none
  | .notifyOne w =>
    if 0 < s.owedOne then ({ s with owedOne := s.owedOne - 1 } : CvState n).wakeOne w else none
  | .notifyAll =>
    if 0 < s.owedAll then some ({ s with owedAll := s.owedAll - 1 } : CvState n).wakeAll else none
  | .getNextTask =>
    if s.MutexFree ∧ 0 < s.tasks then some { s with tasks := s.tasks - 1 } else none
  | .store path =>
    if s.MayStop caller path then
      -- the other calls find `stopping_` set and return
      some (if s.stopping then s else { s with stopping := true, stop := .stored path })
    else none
  | .lookUp =>
    if s.stop = .stored .outside ∧ s.MutexFree then some { s with stop := .lookedUp } else none
  | .notifyStop =>
    if s.stop = .lookedUp ∨ s.stop = .stored .callerThread ∨ s.stop = .stored .destructor then
      some ({ s with stop := .notified } : CvState n).wakeAll
    else none

/-- All interleavings of `n` workers with their callers. -/
def system (n : ℕ) (caller : Option (Fin n)) : System (CvState n) (CvAction n) where
  init s := s = new n
  step := step caller

/-! ### Nobody sleeps after the stop -/

variable {caller : Option (Fin n)} {s s' : CvState n} {action : CvAction n}

/-- Once the notification of the stop has been made, no worker is blocked in the wait or
has found its predicate false. -/
def AllAwake (s : CvState n) : Prop :=
  s.stop = .notified → ∀ w, s.phase w ≠ .blocked ∧ s.phase w ≠ .tested

/-- The stop has been looked up under the mutex, or it does not notify while a worker is
between its test and its wait. -/
def Spared (s : CvState n) : CvAction n → Prop
  | .notifyStop => s.stop = .lookedUp ∨ s.MutexFree
  | _ => True

instance (s : CvState n) : (action : CvAction n) → Decidable (Spared s action)
  | .notifyStop => inferInstanceAs (Decidable (s.stop = .lookedUp ∨ s.MutexFree))
  | .enter _ | .test _ | .block _ | .wakeSpuriously _ | .schedule _ | .notifyOne _ | .notifyAll
  | .getNextTask | .store _ | .lookUp => .isTrue trivial

/-- What is known of a stop on its way. -/
structure StopOk (s : CvState n) : Prop where
  stopping : s.stop ≠ .none → s.stopping = true
  lookedUp : s.stop = .lookedUp → s.MutexFree
  notified : s.AllAwake

theorem wakeAll_phase_ne (w : Fin n) : s.wakeAll.phase w ≠ .blocked := by
  show (if s.phase w = .blocked then CvPhase.woken else s.phase w) ≠ .blocked
  by_cases hblocked : s.phase w = .blocked
  · rw [if_pos hblocked]
    decide
  · rw [if_neg hblocked]
    exact hblocked

theorem wakeAll_tested {w : Fin n} (h : s.wakeAll.phase w = .tested) : s.phase w = .tested := by
  have h' : (if s.phase w = .blocked then CvPhase.woken else s.phase w) = .tested := h
  by_cases hblocked : s.phase w = .blocked
  · rw [if_pos hblocked] at h'
    exact absurd h' (by decide)
  · rw [if_neg hblocked] at h'
    exact h'

/-- A worker goes where it does not sleep. -/
theorem StopOk.setPhase (h : StopOk s) {w : Fin n} {phase : CvPhase} (htested : phase ≠ .tested)
    (hblocked : phase ≠ .blocked ∨ s.phase w = .tested) : StopOk (s.setPhase w phase) := by
  have hphase : ∀ v, (s.setPhase w phase).phase v = if v = w then phase else s.phase v :=
    fun v => Function.update_apply s.phase w phase v
  refine ⟨h.stopping, ?_, ?_⟩
  · intro hstop v
    rw [hphase]
    by_cases hv : v = w
    · rw [if_pos hv]
      exact htested
    · rw [if_neg hv]
      exact h.lookedUp hstop v
  · intro hstop v
    obtain ⟨hwblocked, hwtested⟩ := h.notified hstop w
    rw [hphase]
    by_cases hv : v = w
    · rw [if_pos hv]
      exact ⟨hblocked.resolve_right hwtested, htested⟩
    · rw [if_neg hv]
      exact h.notified hstop v

theorem StopOk.wakeAll (h : StopOk s) : StopOk s.wakeAll := by
  refine ⟨h.stopping, ?_, ?_⟩
  · intro hstop w hw
    exact h.lookedUp hstop w (wakeAll_tested hw)
  · intro hstop w
    exact ⟨wakeAll_phase_ne w, fun hw => (h.notified hstop w).2 (wakeAll_tested hw)⟩

theorem StopOk.wakeOne (h : StopOk s) {w : Option (Fin n)} (hstep : s.wakeOne w = some s') :
    StopOk s' := by
  cases w with
  | none =>
    rw [CvState.wakeOne] at hstep
    split at hstep
    · exact Option.some_inj.mp hstep ▸ h
    · exact absurd hstep (by simp)
  | some w =>
    rw [CvState.wakeOne] at hstep
    split at hstep
    · exact Option.some_inj.mp hstep ▸ h.setPhase (by decide) (.inl (by decide))
    · exact absurd hstep (by simp)

/-- The queue and the owed notifications are not read here. -/
theorem StopOk.setTasks (h : StopOk s) (tasks owedOne owedAll : ℕ) :
    StopOk { s with tasks := tasks, owedOne := owedOne, owedAll := owedAll } :=
  ⟨h.stopping, h.lookedUp, h.notified⟩

/-- Once `stopping_` is set the predicate holds. -/
theorem StopOk.test (h : StopOk s) (w : Fin n) :
    StopOk (s.setPhase w (if s.ready then .away else .tested)) := by
  by_cases hready : s.ready = true
  · rw [if_pos hready]
    exact h.setPhase (by decide) (.inl (by decide))
  · rw [if_neg hready]
    have hstop : s.stop = .none := by
      by_contra hstop
      refine hready ?_
      rw [ready, h.stopping hstop, Bool.true_or]
    refine ⟨h.stopping, ?_, ?_⟩
    · intro hlooked
      exact absurd (hstop.symm.trans hlooked) (by decide)
    · intro hnotified
      exact absurd (hstop.symm.trans hnotified) (by decide)

theorem StopOk.step (h : StopOk s) (hspared : Spared s action)
    (hstep : CvState.step caller s action = some s') : StopOk s' := by
  cases action with
  | enter w =>
    rw [CvState.step] at hstep
    split at hstep
    · exact Option.some_inj.mp hstep ▸ h.setPhase (by decide) (.inl (by decide))
    · exact absurd hstep (by simp)
  | test w =>
    rw [CvState.step] at hstep
    split at hstep
    · exact Option.some_inj.mp hstep ▸ h.test w
    · exact absurd hstep (by simp)
  | block w =>
    rw [CvState.step] at hstep
    split at hstep
    · next htested => exact Option.some_inj.mp hstep ▸ h.setPhase (by decide) (.inr htested)
    · exact absurd hstep (by simp)
  | wakeSpuriously w =>
    rw [CvState.step] at hstep
    split at hstep
    · exact Option.some_inj.mp hstep ▸ h.setPhase (by decide) (.inl (by decide))
    · exact absurd hstep (by simp)
  | schedule pinned =>
    rw [CvState.step] at hstep
    split at hstep
    · rw [← Option.some_inj.mp hstep]
      cases pinned with
      | false => exact h.setTasks _ _ _
      | true => exact h.setTasks _ _ _
    · exact absurd hstep (by simp)
  | notifyOne w =>
    rw [CvState.step] at hstep
    split at hstep
    · exact (h.setTasks s.tasks (s.owedOne - 1) s.owedAll).wakeOne hstep
    · exact absurd hstep (by simp)
  | notifyAll =>
    rw [CvState.step] at hstep
    split at hstep
    · exact Option.some_inj.mp hstep ▸ (h.setTasks s.tasks s.owedOne (s.owedAll - 1)).wakeAll
    · exact absurd hstep (by simp)
  | getNextTask =>
    rw [CvState.step] at hstep
    split at hstep
    · exact Option.some_inj.mp hstep ▸ h.setTasks _ _ _
    · exact absurd hstep (by simp)
  | store path =>
    rw [CvState.step] at hstep
    split at hstep
    · rw [← Option.some_inj.mp hstep]
      -- a second `stop` changes nothing
      by_cases hstopping : s.stopping = true
      · rw [if_pos hstopping]
        exact h
      · rw [if_neg hstopping]
        exact ⟨fun _ => rfl, fun hlooked => absurd hlooked (by simp),
          fun hnotified => absurd hnotified (by simp)⟩
    · exact absurd hstep (by simp)
  | lookUp =>
    rw [CvState.step] at hstep
    split at hstep
    · next hfree =>
      rw [← Option.some_inj.mp hstep]
      exact ⟨fun _ => h.stopping (by rw [hfree.1]; simp), fun _ => hfree.2,
        fun hnotified => absurd hnotified (by simp)⟩
    · exact absurd hstep (by simp)
  | notifyStop =>
    rw [CvState.step] at hstep
    split at hstep
    · next hstop =>
      -- the mutex is free, so that no worker is between its test and its wait
      have hfree : s.MutexFree := hspared.elim h.lookedUp id
      have hstopping : s.stopping = true := by
        refine h.stopping fun hnone => ?_
        rw [hnone] at hstop
        exact absurd hstop (by decide)
      rw [← Option.some_inj.mp hstep]
      refine ⟨fun _ => hstopping, fun hlooked => absurd hlooked (by simp [CvState.wakeAll]), ?_⟩
      intro _ w
      exact ⟨wakeAll_phase_ne w, fun hw => hfree w (wakeAll_tested hw)⟩
    · exact absurd hstep (by simp)

theorem stopOk_of_spared (h : (system n caller).ReachableWhile Spared s) : StopOk s := by
  refine h.invariant (I := StopOk) ?_ ?_
  · rintro s rfl
    refine ⟨fun hnone => absurd rfl hnone, fun hlooked => absurd hlooked (by simp [new]), ?_⟩
    exact fun hnotified => absurd hnotified (by simp [new])
  · intro s action s' hs hspared hstep
    exact hs.step hspared hstep

/-- **No worker is left asleep**, in every run in which the caller thread and the
destructor do not notify while a worker is between its test and its wait; and where they
do, that worker will block. -/
theorem allAwake_iff (h : (system n caller).ReachableWhile Spared s) :
    s.AllAwake ∧ ∀ s', s.step caller .notifyStop = some s' →
      (s'.AllAwake ↔ Spared s .notifyStop) := by
  have hok := stopOk_of_spared h
  refine ⟨hok.notified, fun s' hstep => ⟨fun hawake => ?_, fun hspared => ?_⟩⟩
  · rw [CvState.step] at hstep
    split at hstep
    · obtain rfl := Option.some_inj.mp hstep
      refine .inr fun w hw => (hawake rfl w).2 ?_
      show (if s.phase w = .blocked then CvPhase.woken else s.phase w) = .tested
      rw [hw, if_neg (by decide)]
    · exact absurd hstep (by simp)
  · exact (hok.step hspared hstep).notified

/-- A stop from another thread while a worker is between its test and its wait. -/
def outsideActions (v w : Fin n) : List (CvAction n) :=
  [.enter v, .test v, .enter w, .store .outside, .block v, .test w, .lookUp, .notifyStop, .test v]

theorem allAwake_iff_run :
    ∃ s, (system 2 none).exec (new 2) (outsideActions 0 1) = some s ∧ s.stop = .notified ∧
      s.AllAwake := by
  obtain ⟨s, hs, hstop⟩ : ∃ s, (system 2 none).exec (new 2) (outsideActions 0 1) = some s ∧
      s.stop = .notified :=
    ⟨_, rfl, by decide +kernel⟩
  have hmeets : (system 2 none).Meets Spared (new 2) (outsideActions 0 1) := by decide +kernel
  exact ⟨s, hs, hstop, (allAwake_iff ((ReachableWhile.init rfl).exec hmeets hs)).1⟩

/-- A stop by the destructor at that moment. -/
def destructorActions (w : Fin n) : List (CvAction n) :=
  [.enter w, .test w, .store .destructor, .notifyStop, .block w]

/-- A stop by a task of the caller thread, while the other worker is there. -/
def callerThreadActions (w : Fin n) : List (CvAction n) :=
  [.enter w, .test w, .store .callerThread, .notifyStop, .block w]

/-- On both paths the worker sleeps after the notification. -/
theorem not_allAwake :
    (¬∀ s, (system 1 none).Reachable s → s.AllAwake) ∧
      ¬∀ s, (system 2 (some 0)).Reachable s → s.AllAwake := by
  constructor
  · intro hall
    obtain ⟨s, hs, hstop, hblocked⟩ : ∃ s, (system 1 none).exec (new 1) (destructorActions 0) =
        some s ∧ s.stop = .notified ∧ s.phase 0 = .blocked :=
      ⟨_, rfl, by decide +kernel, by decide +kernel⟩
    have hreach : (system 1 none).Reachable s := (ReachableWhile.init rfl).exec (meets_true _ _ _) hs
    exact (hall s hreach hstop 0).1 hblocked
  · intro hall
    obtain ⟨s, hs, hstop, hblocked⟩ : ∃ s, (system 2 (some 0)).exec (new 2) (callerThreadActions 1) =
        some s ∧ s.stop = .notified ∧ s.phase 1 = .blocked :=
      ⟨_, rfl, by decide +kernel, by decide +kernel⟩
    have hreach : (system 2 (some 0)).Reachable s :=
      (ReachableWhile.init rfl).exec (meets_true _ _ _) hs
    exact (hall s hreach hstop 1).1 hblocked

end CvState

end Scheduler

/-
Lost wake-ups.

A tickle wakes any one of the waiting workers.  That is enough for tasks that every
worker may run: the worker that drains the token is awake and looks at the queue
after the task was put there.  It is not enough for a pinned task, since the worker
that drains its token may be another one.

* `Watched` — a task in the queue has a token, an owed tickle or an awake worker;
* `noLostWakeup_iff` — no wake-up is lost exactly when there is one worker or no task
  is pinned;
* `lostWakeup_pinned` — two workers and one pinned task.
-/
import Droplet.Scheduler.Idle

open Transition Transition.System

namespace Scheduler

/-- The worker looks at the queue before it waits. -/
def IdlePhase.Awake (phase : IdlePhase) : Prop := phase ≠ .waiting ∧ phase ≠ .exited

namespace IdleState

variable {n : ℕ} {pins : ℕ → Prop} {s s' : IdleState n} {w : Fin n} {action : IdleAction n}

/-- A task is queued, every worker that may run it is blocked in `epoll_wait`, no
token is left and no tickle is owed. -/
def LostWakeup (s : IdleState n) : Prop :=
  ∃ task ∈ s.tasks, (∀ w : Fin n, task.AllowedOn w → s.phase w = .waiting) ∧
    s.counter = 0 ∧ s.owed = 0

/-- Callers pin tasks to these threads only. -/
def PinsIn (pins : ℕ → Prop) (_ : IdleState n) : IdleAction n → Prop
  | .schedule task => ∀ t ∈ task.threadId, pins t
  | _ => True

/-! ### Pins -/

/-- Every pin of a queued or running task came from a caller, and is a worker. -/
structure Pinned (pins : ℕ → Prop) (s : IdleState n) : Prop where
  tasks : ∀ task ∈ s.tasks, ∀ t ∈ task.threadId, pins t ∧ t < n
  taken : ∀ w work threadId, s.phase w = .taken work threadId → ∀ t ∈ threadId, pins t ∧ t < n
  running : ∀ w f threadId, s.phase w = .running f threadId → ∀ t ∈ threadId, pins t ∧ t < n

namespace Pinned

theorem start : (IdleState.start n).Pinned pins where
  tasks := fun _ hmem => absurd hmem List.not_mem_nil
  taken := fun _ _ _ h => absurd h (by simp [IdleState.start])
  running := fun _ _ _ h => absurd h (by simp [IdleState.start])

theorem push (h : s.Pinned pins) {task : ScheduleTask}
    (htask : ∀ t ∈ task.threadId, pins t ∧ t < n) : (s.push task).Pinned pins := by
  refine { h with tasks := fun other hmem => ?_ }
  rcases List.mem_append.mp hmem with hmem | hmem
  · exact h.tasks other hmem
  · exact List.mem_singleton.mp hmem ▸ htask

/-- A worker takes up something that has no pins but known ones. -/
theorem setPhase (h : s.Pinned pins) {phase : IdlePhase}
    (htaken : ∀ work threadId, phase = .taken work threadId → ∀ t ∈ threadId, pins t ∧ t < n)
    (hrunning : ∀ f threadId, phase = .running f threadId → ∀ t ∈ threadId, pins t ∧ t < n) :
    (s.setPhase w phase).Pinned pins := by
  refine { h with taken := fun w' work threadId hw' => ?_, running := fun w' f threadId hw' => ?_ }
  · by_cases hw : w' = w
    · rw [hw, setPhase_phase, Function.update_self] at hw'
      exact htaken work threadId hw'
    · rw [setPhase_phase, Function.update_of_ne hw] at hw'
      exact h.taken w' work threadId hw'
  · by_cases hw : w' = w
    · rw [hw, setPhase_phase, Function.update_self] at hw'
      exact hrunning f threadId hw'
    · rw [setPhase_phase, Function.update_of_ne hw] at hw'
      exact h.running w' f threadId hw'

/-- A worker takes up something that is no task. -/
theorem setIdle (h : s.Pinned pins) {phase : IdlePhase}
    (htaken : ∀ work threadId, phase ≠ .taken work threadId)
    (hrunning : ∀ f threadId, phase ≠ .running f threadId) : (s.setPhase w phase).Pinned pins :=
  h.setPhase (fun work threadId heq => absurd heq (htaken work threadId))
    fun f threadId heq => absurd heq (hrunning f threadId)

theorem step (h : s.Pinned pins) (hcond : PinsIn pins s action) (hstep : Step s action s') :
    s'.Pinned pins := by
  cases hstep with
  | schedule hregistered => exact h.push fun t ht => ⟨hcond t ht, hregistered t ht⟩
  | stop => exact { h with }
  | tickle => exact { h with }
  | wait => exact h.setIdle (by simp) (by simp)
  | take hphase hnext =>
    obtain ⟨hmem, -⟩ := getNextTask_eq_some hnext
    have hrest : ({ s with tasks := _ } : IdleState n).Pinned pins :=
      { h with tasks := fun task hrest => h.tasks task (mem_of_getNextTask hnext hrest) }
    refine hrest.setPhase (fun work threadId heq => ?_) fun f threadId heq => absurd heq (by simp)
    obtain ⟨-, rfl⟩ := IdlePhase.taken.inj heq
    exact h.tasks _ hmem
  | @beginTask w work threadId f hphase =>
    have hexec : (s.setState f .exec).Pinned pins := { h with }
    refine hexec.setPhase (fun work threadId heq => absurd heq (by simp)) fun g pin heq => ?_
    obtain ⟨-, rfl⟩ := IdlePhase.running.inj heq
    exact fun t ht => h.taken w work threadId hphase t (mem_of_mem_keptPin ht)
  | @endTask w f threadId left hphase hleft =>
    have hleft : (s.setState f left).Pinned pins := { h with }
    have hended : ((s.setState f left).setPhase w .loop).Pinned pins :=
      hleft.setIdle (by simp) (by simp)
    unfold IdleState.endTask
    split
    · exact hended.push (h.running w f threadId hphase)
    · exact hended
  | epollWait => exact h.setIdle (by simp) (by simp)
  | drainTickle =>
    have hdrained : ({ s with counter := s.counter - 1 } : IdleState n).Pinned pins := { h with }
    exact hdrained.setIdle (by simp) (by simp)
  | exit => exact h.setIdle (by simp) (by simp)
  | goOn => exact h.setIdle (by simp) (by simp)

/-- With one worker, or without pins, every worker may run every task. -/
theorem allowedOn (h : s.Pinned pins) (hpins : n = 1 ∨ ∀ t < n, ¬ pins t) {task : ScheduleTask}
    (hmem : task ∈ s.tasks) (w : Fin n) : task.AllowedOn w := by
  cases hthread : task.threadId with
  | none => exact .inl hthread
  | some t =>
    obtain ⟨hpin, hlt⟩ := h.tasks task hmem t hthread
    rcases hpins with rfl | hpins
    · exact .inr (by rw [hthread]; congr 1; omega)
    · exact absurd hpin (hpins t hlt)

end Pinned

/-! ### A queued task is watched -/

/-- Tasks are queued only while a token, an owed tickle or an awake worker is left. -/
def Watched (s : IdleState n) : Prop :=
  s.tasks = [] ∨ s.counter ≠ 0 ∨ s.owed ≠ 0 ∨ ∃ w, (s.phase w).Awake

theorem watched_of_awake (h : (s.phase w).Awake) : s.Watched := .inr (.inr (.inr ⟨w, h⟩))

/-- A worker that now is awake watches the queue. -/
theorem watched_setPhase {phase : IdlePhase} (h : phase.Awake) : (s.setPhase w phase).Watched :=
  watched_of_awake (w := w) (by rw [setPhase_phase, Function.update_self]; exact h)

/-- **Every step leaves the queue watched** where every worker may run every task. -/
theorem watched_of_step (hexec : s.Executed) (hallowed : ∀ task ∈ s.tasks, ∀ w : Fin n,
    task.AllowedOn w) (hstep : Step s action s') : s'.Watched := by
  cases hstep with
  | schedule => exact .inr (.inr (.inl (Nat.succ_ne_zero _)))
  | stop => exact .inr (.inr (.inl (Nat.succ_ne_zero _)))
  | tickle =>
    refine .inr (.inl ?_)
    show s.counter + (if s.stopFlag then wakeCount n else 1) ≠ 0
    have hwake : 1 ≤ wakeCount n := Nat.le_max_right n 1
    split <;> omega
  | @wait w hphase hnext =>
    -- whatever is queued is a fiber that another worker executes
    cases htasks : s.tasks with
    | nil => exact .inl htasks
    | cons task rest =>
      have hmem : task ∈ s.tasks := htasks ▸ List.mem_cons_self
      have hskipped := getNextTask_eq_none_iff.mp hnext task hmem
      have hexecuting : task.Executing s.state = true := by
        simpa [ScheduleTask.RunnableOn, hallowed task hmem w] using hskipped
      have hfiber : ∃ f, s.state f = .exec := by
        unfold ScheduleTask.Executing at hexecuting
        split at hexecuting
        · next f _ => exact ⟨f, of_decide_eq_true hexecuting⟩
        · exact absurd hexecuting (by simp)
      obtain ⟨f, hf⟩ := hfiber
      obtain ⟨w', threadId, hw'⟩ := hexec f hf
      have hne : w' ≠ w := by
        rintro rfl
        rw [hphase] at hw'
        exact absurd hw' (by simp)
      refine watched_of_awake (w := w') ?_
      rw [setPhase_phase, Function.update_of_ne hne, hw']
      exact ⟨by simp, by simp⟩
  | take => exact watched_setPhase ⟨by simp, by simp⟩
  | beginTask => exact watched_setPhase ⟨by simp, by simp⟩
  | @endTask w f threadId left hphase hleft =>
    have hended : ((s.setState f left).setPhase w .loop).Watched :=
      watched_setPhase ⟨by simp, by simp⟩
    unfold IdleState.endTask
    split
    · exact .inr (.inr (.inl (Nat.succ_ne_zero _)))
    · exact hended
  | epollWait => exact watched_setPhase ⟨by simp, by simp⟩
  | drainTickle => exact watched_setPhase ⟨by simp, by simp⟩
  | exit hphase hstopping => exact .inl ((isStopping_iff s).mp hstopping).2
  | goOn => exact watched_setPhase ⟨by simp, by simp⟩

/-- A watched queue loses no wake-up. -/
theorem Watched.not_lostWakeup (h : s.Watched) (hallowed : ∀ task ∈ s.tasks, ∀ w : Fin n,
    task.AllowedOn w) : ¬ s.LostWakeup := by
  rintro ⟨task, hmem, hwaiting, hcounter, howed⟩
  rcases h with htasks | hcounter' | howed' | ⟨w, hw⟩
  · rw [htasks] at hmem
    exact List.not_mem_nil hmem
  · exact hcounter' hcounter
  · exact howed' howed
  · exact hw.1 (hwaiting w (hallowed task hmem w))

/-! ### A pinned task -/

/-- The task is pinned to `v`, which waits; `u` drains its token. -/
def pinnedActions (u v : Fin n) : List (IdleAction n) :=
  [.getNextTask v, .schedule ⟨.callback 0, some v⟩, .tickle, .getNextTask u, .epollWait u,
   .drainTickle u]

/-- Where there is another worker, a pinned task can lose its wake-up. -/
theorem exists_lostWakeup {u v : Fin n} (huv : u ≠ v) (hpin : pins v) :
    ∃ s, (system n).ReachableWhile (PinsIn pins) s ∧ s.LostWakeup := by
  have hvu : (v : ℕ) ≠ u := fun heq => huv (Fin.ext heq.symm)
  have hskip : ScheduleTask.RunnableOn ⟨.callback 0, some v⟩ (fun _ => .init) u = false := by
    simp [ScheduleTask.RunnableOn, ScheduleTask.AllowedOn, hvu]
  have hexec : (system n).exec (start n) (pinnedActions u v) = some
      { tasks := [⟨.callback 0, some v⟩], state := fun _ => .init, counter := 0, owed := 0,
        stopFlag := false,
        phase := Function.update (Function.update (fun _ => .loop) v .waiting) u .drained } := by
    simp [pinnedActions, System.exec, system, step, onWorker, IdleAction.worker, start, takeNext,
      getNextTask, huv, hskip, push, Registered, tickle, IdleState.setPhase]
  refine ⟨_, .exec (.init rfl) ?_ hexec, ⟨.callback 0, some v⟩, List.mem_singleton.mpr rfl,
    fun w hw => ?_, rfl, rfl⟩
  · -- only the call of `schedule` is restricted
    simp [pinnedActions, Meets, PinsIn, hpin]
  · rcases hw with hw | hw
    · exact absurd hw (by simp)
    · have hwv : w = v := Fin.ext (Option.some_inj.mp hw).symm
      rw [hwv]
      show Function.update _ u _ v = _
      rw [Function.update_of_ne huv.symm, Function.update_self]

/-- No wake-up is lost exactly when there is one worker or no task is pinned to a
worker. -/
theorem noLostWakeup_iff (n : ℕ) (pins : ℕ → Prop) (hn : 0 < n) :
    (∀ s, (system n).ReachableWhile (PinsIn pins) s → ¬ s.LostWakeup) ↔
      n = 1 ∨ ∀ t < n, ¬ pins t := by
  constructor
  · intro h
    by_contra hnot
    rw [not_or, not_forall] at hnot
    obtain ⟨hone, t, ht⟩ := hnot
    rw [Classical.not_imp, not_not] at ht
    obtain ⟨hlt, hpin⟩ := ht
    -- some worker is not the one that the task is pinned to
    obtain ⟨u, hu⟩ : ∃ u : Fin n, u ≠ ⟨t, hlt⟩ := by
      by_cases hzero : t = 0
      · exact ⟨⟨1, by omega⟩, by simp [Fin.ext_iff, hzero]⟩
      · exact ⟨⟨0, hn⟩, by simp only [ne_eq, Fin.ext_iff]; omega⟩
    obtain ⟨s, hreach, hlost⟩ := exists_lostWakeup hu hpin
    exact h s hreach hlost
  · intro hpins s hreach
    have hinv : s.Executed ∧ s.Pinned pins ∧ s.Watched := by
      refine ReachableWhile.invariant (I := fun s : IdleState n =>
        s.Executed ∧ s.Pinned pins ∧ s.Watched) ?_ ?_ hreach
      · rintro s rfl
        exact ⟨executed_start, Pinned.start, .inl rfl⟩
      · rintro s action s' ⟨hexec, hpinned, -⟩ hcond hstep
        have hcases := step_cases hstep
        exact ⟨hexec.step hcases, hpinned.step hcond hcases,
          watched_of_step hexec (fun task hmem => hpinned.allowedOn hpins hmem) hcases⟩
    obtain ⟨-, hpinned, hwatched⟩ := hinv
    exact hwatched.not_lostWakeup fun task hmem => hpinned.allowedOn hpins hmem

/-- Four workers lose no wake-up of tasks that any of them may run; two workers can
lose that of a task pinned to the second. -/
theorem noLostWakeup_iff_examples :
    (∀ s, (system 4).ReachableWhile (PinsIn fun _ => False) s → ¬ s.LostWakeup) ∧
      ¬ ∀ s, (system 2).ReachableWhile (PinsIn fun t => t = 1) s → ¬ s.LostWakeup := by
  refine ⟨(noLostWakeup_iff 4 (fun _ => False) (by decide)).mpr (.inr fun _ _ => id), fun h => ?_⟩
  rcases (noLostWakeup_iff 2 (fun t => t = 1) (by decide)).mp h with hone | hpins
  · exact absurd hone (by decide)
  · exact hpins 1 (by decide) rfl

/-- Two workers: the first drains the token of a task that is pinned to the second. -/
theorem lostWakeup_pinned :
    ¬ ∀ (n : ℕ) (s : IdleState n), 0 < n → (system n).Reachable s → ¬ s.LostWakeup := by
  intro h
  have hne : (0 : Fin 2) ≠ 1 := by decide
  obtain ⟨s, hreach, hlost⟩ := @exists_lostWakeup 2 (fun _ => True) 0 1 hne trivial
  exact h 2 s (by decide) (hreach.mono fun _ _ _ => trivial) hlost

end IdleState

end Scheduler

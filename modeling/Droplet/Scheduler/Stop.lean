/-
Stopping an IOManager.

`stop()` writes one token for each worker, and a worker that drains a token leaves
its loop if `stopping()` holds by then.  A worker that drains a token while a task is
still queued goes back to wait, and one token is missing.

* `needed` — the workers that have still to drain a token before they can exit;
* `not_stranded_of_spared` — if no token is drained in vain that a worker needs, a
  stopped IOManager strands no worker;
* `stranded_pending_task` — two workers and one task.
-/
import Droplet.Scheduler.Idle
import Mathlib.Algebra.Order.BigOperators.Group.Finset

open Transition Transition.System

namespace Scheduler

/-- The worker has still to drain a token before it can exit. -/
def IdlePhase.NeedsToken (phase : IdlePhase) : Prop := phase ≠ .drained ∧ phase ≠ .exited

instance (phase : IdlePhase) : Decidable phase.NeedsToken := inferInstanceAs (Decidable (_ ∧ _))

namespace IdleState

variable {n : ℕ} {s s' : IdleState n} {w : Fin n} {action : IdleAction n}

/-- `stopping()` holds, no token is left and no tickle is owed, but workers are left
and all of them are blocked in `epoll_wait`. -/
def Stranded (s : IdleState n) : Prop :=
  s.isStopping = true ∧ s.counter = 0 ∧ s.owed = 0 ∧ (∃ w, s.phase w ≠ .exited) ∧
    ∀ w, s.phase w ≠ .exited → s.phase w = .waiting

instance (s : IdleState n) : Decidable s.Stranded := inferInstanceAs (Decidable (_ ∧ _))

/-- How many workers have still to drain a token. -/
def needed (phase : Fin n → IdlePhase) : ℕ := ∑ w, if (phase w).NeedsToken then 1 else 0

theorem needed_le (phase : Fin n → IdlePhase) : needed phase ≤ n := by
  calc needed phase ≤ ∑ _w : Fin n, 1 := Finset.sum_le_sum fun w _ => by split <;> omega
    _ = n := by simp

/-- A worker that needs a token is counted. -/
theorem needed_pos {phase : Fin n → IdlePhase} (h : (phase w).NeedsToken) : 0 < needed phase := by
  refine Nat.lt_of_lt_of_le Nat.zero_lt_one ?_
  calc 1 = if (phase w).NeedsToken then 1 else 0 := (if_pos h).symm
    _ ≤ needed phase :=
      Finset.single_le_sum (f := fun w => if (phase w).NeedsToken then 1 else 0)
        (fun _ _ => Nat.zero_le _) (Finset.mem_univ w)

/-- The count when one worker goes on. -/
theorem needed_update (phase : Fin n → IdlePhase) (w : Fin n) (phase' : IdlePhase) :
    needed (Function.update phase w phase') + (if (phase w).NeedsToken then 1 else 0) =
      needed phase + if phase'.NeedsToken then 1 else 0 := by
  have hrest : ∑ v ∈ Finset.univ.erase w,
      (if (Function.update phase w phase' v).NeedsToken then 1 else 0) =
        ∑ v ∈ Finset.univ.erase w, if (phase v).NeedsToken then 1 else 0 := by
    refine Finset.sum_congr rfl fun v hv => ?_
    rw [Function.update_of_ne (Finset.ne_of_mem_erase hv)]
  unfold needed
  rw [← Finset.add_sum_erase _ _ (Finset.mem_univ w), hrest, Function.update_self,
    ← Finset.add_sum_erase _ (fun v => if (phase v).NeedsToken then 1 else 0) (Finset.mem_univ w)]
  omega

/-- A token is drained in vain, `stopping()` failing after `stop()` because a task is
queued, only if a tickle is owed or more tokens are left than the other workers need. -/
def Spared (s : IdleState n) : IdleAction n → Prop
  | .testStopping _ =>
    s.stopFlag = false ∨ s.tasks = [] ∨ s.owed ≠ 0 ∨ needed s.phase < s.counter
  | _ => True

instance (s : IdleState n) (action : IdleAction n) : Decidable (s.Spared action) :=
  match action with
  | .testStopping _ =>
    inferInstanceAs (Decidable (_ ∨ _ ∨ _ ∨ _))
  | .schedule _ | .stop | .tickle | .getNextTask _ | .beginTask _ _ | .endTask _ _ | .epollWait _
  | .drainTickle _ => .isTrue trivial

/-- Once `stop()` has set its flag, a tickle is owed or there is a token for every
worker that needs one. -/
def Supplied (s : IdleState n) : Prop :=
  s.stopFlag = true → s.owed ≠ 0 ∨ needed s.phase ≤ s.counter

namespace Supplied

/-- A worker that goes on needs a token if it needed one before. -/
theorem setPhase (h : s.Supplied) {phase : IdlePhase}
    (hneeds : phase.NeedsToken → (s.phase w).NeedsToken) : (s.setPhase w phase).Supplied := by
  intro hflag
  refine (h hflag).imp_right fun hle => ?_
  have hcount := needed_update s.phase w phase
  show needed (Function.update s.phase w phase) ≤ s.counter
  by_cases hnew : phase.NeedsToken
  · rw [if_pos hnew, if_pos (hneeds hnew)] at hcount
    omega
  · rw [if_neg hnew] at hcount
    omega

/-- **The supply of tokens** is kept by the steps that meet the condition. -/
theorem step (h : s.Supplied) (hcond : s.Spared action) (hstep : Step s action s') :
    s'.Supplied := by
  cases hstep with
  | schedule => exact fun _ => .inl (Nat.succ_ne_zero _)
  | stop => exact fun _ => .inl (Nat.succ_ne_zero _)
  | tickle howed =>
    intro hflag
    have hflag : s.stopFlag = true := hflag
    refine .inr ?_
    show needed s.phase ≤ s.counter + (if s.stopFlag then wakeCount n else 1)
    rw [if_pos hflag]
    have hwake : n ≤ wakeCount n := Nat.le_max_left n 1
    have := needed_le s.phase
    omega
  | wait hphase => exact h.setPhase fun _ => by rw [hphase]; exact ⟨by simp, by simp⟩
  | take hphase =>
    have hrest : ({ s with tasks := _ } : IdleState n).Supplied := h
    exact hrest.setPhase fun _ => by
      show (s.phase _).NeedsToken
      rw [hphase]
      exact ⟨by simp, by simp⟩
  | @beginTask w work threadId f hphase =>
    have hexec : (s.setState f .exec).Supplied := h
    exact hexec.setPhase fun _ => by
      show (s.phase w).NeedsToken
      rw [hphase]
      exact ⟨by simp, by simp⟩
  | @endTask w f threadId left hphase hleft =>
    have hleft : (s.setState f left).Supplied := h
    have hended : ((s.setState f left).setPhase w .loop).Supplied := hleft.setPhase fun _ => by
      show (s.phase w).NeedsToken
      rw [hphase]
      exact ⟨by simp, by simp⟩
    unfold IdleState.endTask
    split
    · exact fun _ => .inl (Nat.succ_ne_zero _)
    · exact hended
  | epollWait hphase => exact h.setPhase fun _ => by rw [hphase]; exact ⟨by simp, by simp⟩
  | @drainTickle w hphase =>
    -- the worker that drains the token needs no other
    intro hflag
    refine (h hflag).imp_right fun hle => ?_
    have hcount := needed_update s.phase w .drained
    rw [hphase, if_pos ⟨by simp, by simp⟩, if_neg fun hneeds => hneeds.1 rfl] at hcount
    show needed (Function.update s.phase w .drained) ≤ s.counter - 1
    omega
  | exit hphase => exact h.setPhase fun hneeds => absurd rfl hneeds.2
  | @goOn w hphase hstopping =>
    intro hflag
    have hflag : s.stopFlag = true := hflag
    have hcount := needed_update s.phase w .loop
    rw [hphase, if_pos (show IdlePhase.loop.NeedsToken from ⟨by simp, by simp⟩),
      if_neg fun hneeds => hneeds.1 rfl] at hcount
    rcases hcond with hnot | htasks | howed | hspare
    · exact absurd (hflag.symm.trans hnot) (by simp)
    · rw [(isStopping_iff s).mpr ⟨hflag, htasks⟩] at hstopping
      exact absurd hstopping (by simp)
    · exact .inl howed
    · refine .inr ?_
      show needed (Function.update s.phase w .loop) ≤ s.counter
      omega

/-- A worker that waits has its token. -/
theorem not_stranded (h : s.Supplied) : ¬ s.Stranded := by
  rintro ⟨hstopping, hcounter, howed, ⟨w, hw⟩, hwaiting⟩
  rcases h ((isStopping_iff s).mp hstopping).1 with howed' | hle
  · exact howed' howed
  · have hneeds : (s.phase w).NeedsToken := by
      rw [hwaiting w hw]
      exact ⟨by simp, by simp⟩
    have := needed_pos hneeds
    omega

end Supplied

/-- In every run in which no needed token is drained in vain, stopping strands no
worker. -/
theorem not_stranded_of_spared (h : (system n).ReachableWhile Spared s) : ¬ s.Stranded := by
  refine Supplied.not_stranded (h.invariant ?_ fun s action s' hs hcond hstep => ?_)
  · rintro s rfl hflag
    exact absurd hflag (by simp [start])
  · exact hs.step hcond (step_cases hstep)

/-- Both workers wait, a task is queued, and the second worker drains its token. -/
def queuedActions (u v : Fin n) : List (IdleAction n) :=
  [.getNextTask u, .getNextTask v, .schedule ⟨.callback 0, none⟩, .tickle, .epollWait v,
   .drainTickle v, .testStopping v]

/-- A worker runs the task that it has taken and waits again. -/
def finishActions (w : Fin n) : List (IdleAction n) :=
  [.beginTask w 0, .endTask w .term, .getNextTask w]

/-- A worker drains a token, and fails the test or passes it. -/
def drainActions (w : Fin n) : List (IdleAction n) :=
  [.epollWait w, .drainTickle w, .testStopping w]

/-- The task is taken before `stop()`: both workers exit. -/
theorem not_stranded_of_spared_taken :
    ∃ s, (system 2).exec (start 2) (queuedActions 0 1 ++ [.getNextTask 1, .stop, .tickle] ++
        drainActions 0 ++ finishActions 1 ++ drainActions 1) = some s ∧
      s.phase 0 = .exited ∧ s.phase 1 = .exited ∧ ¬ s.Stranded := by
  have hrun : ((system 2).exec (start 2) (queuedActions 0 1 ++ [.getNextTask 1, .stop, .tickle] ++
      drainActions 0 ++ finishActions 1 ++ drainActions 1)).any (fun s =>
        s.phase 0 == .exited && s.phase 1 == .exited) = true := by
    decide +kernel
  obtain ⟨s, hexec, hs⟩ := (Option.any_eq_true _ _).mp hrun
  rw [Bool.and_eq_true, beq_iff_eq, beq_iff_eq] at hs
  refine ⟨s, hexec, hs.1, hs.2, not_stranded_of_spared (.exec (.init rfl) ?_ hexec)⟩
  decide +kernel

/-- The task is still queued when the first worker drains a token of `stop()`: the
second worker, which runs the task, waits forever. -/
theorem stranded_pending_task :
    ¬ ∀ (n : ℕ) (s : IdleState n), (system n).Reachable s → ¬ s.Stranded := by
  intro h
  have hrun : ((system 2).exec (start 2) (queuedActions 0 1 ++ [.stop, .tickle] ++
      drainActions 0 ++ [.getNextTask 1, .getNextTask 0] ++ drainActions 0 ++
        finishActions 1)).any (fun s => decide s.Stranded) = true := by
    decide +kernel
  obtain ⟨s, hexec, hs⟩ := (Option.any_eq_true _ _).mp hrun
  exact h 2 s (.exec (.init rfl) (System.meets_true _ _ _) hexec) (of_decide_eq_true hs)

end IdleState

end Scheduler

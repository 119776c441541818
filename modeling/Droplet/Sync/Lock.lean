/-
Locks that wait.

`AtomicWaitLock` and `ThreeStageLock` are a flag.  A thread that finds it set tries again for a
while, and then blocks in `std::atomic_wait` until `unlock` notifies it.  The accesses to the flag,
the comparison with which a thread blocks, and the notification are one step each, in any order of
the threads; an exchange may fail, and a wait may end, for no reason.

* `exclusive` — one thread has the lock, and exactly while the flag is set;
* `handed_over` — while the lock is free and a thread wants it, the threads go on until it is taken;
* `settles` — while the lock is taken, those who want it come to rest.
-/
import Droplet.Lib.Tally
import Droplet.Lib.Transition

open Transition Transition.System Tally

namespace Sync

/-! ### The locks -/

/-- Whether a thread looks at the flag before it exchanges it, and how often it tries again, spinning
and yielding, before it waits. -/
structure LockKind where
  loads : Bool
  spinLimit : ℕ
  yieldLimit : ℕ

def atomicWaitLock : LockKind := ⟨false, 0, 0⟩

def threeStageLock : LockKind := ⟨true, 64, 8⟩

/-- Where a thread is; `comparing` is in `atomic_wait`, about to block unless the flag has changed,
and `notifying` has cleared the flag. -/
inductive LockPhase
  | idle
  | loading (spinCount yieldCount : ℕ)
  | exchanging (spinCount yieldCount : ℕ)
  | comparing
  | blocked
  | owner
  | notifying
  deriving DecidableEq

namespace LockPhase

/-- The thread has the lock. -/
def owns : LockPhase → ℕ
  | owner => 1
  | idle | loading .. | exchanging .. | comparing | blocked | notifying => 0

/-- The thread has called `lock`, and does not have it. -/
def wants : LockPhase → Bool
  | loading .. | exchanging .. | comparing | blocked => true
  | idle | owner | notifying => false

/-- The thread is on its way to the lock, or about to notify one that waits. -/
def active : LockPhase → Bool
  | loading .. | exchanging .. | comparing | notifying => true
  | idle | blocked | owner => false

end LockPhase

namespace LockKind

variable (kind : LockKind)

/-- The top of the loop. -/
def attempt (spinCount yieldCount : ℕ) : LockPhase :=
  if kind.loads then .loading spinCount yieldCount else .exchanging spinCount yieldCount

/-- The flag was set, or the exchange has failed. -/
def missed (spinCount yieldCount : ℕ) : LockPhase :=
  if spinCount < kind.spinLimit then kind.attempt (spinCount + 1) yieldCount
  else if yieldCount < kind.yieldLimit then kind.attempt spinCount (yieldCount + 1)
  else .comparing

end LockKind

/-- The flag, and the threads that use it. -/
structure Lock where
  locked : Bool
  threads : List LockPhase
  deriving DecidableEq

/-- One step of a thread.  `notify` has the thread that is woken; `wake` ends a wait for no reason. -/
inductive LockAction
  | lock (t : ℕ)
  | tryLock (t : ℕ)
  | load (t : ℕ)
  | exchange (t : ℕ) (spurious : Bool)
  | compare (t : ℕ)
  | wake (t : ℕ)
  | unlock (t : ℕ)
  | notify (t woken : ℕ)
  deriving DecidableEq

/-- A step of a thread that is in a call, where no exchange fails and no wait ends for no reason. -/
def LockAction.goesOn : LockAction → Bool
  | .load _ | .exchange _ false | .compare _ | .notify .. => true
  | .lock _ | .tryLock _ | .exchange _ true | .wake _ | .unlock _ => false

namespace Lock

/-- A lock that nobody has used. -/
def new (n : ℕ) : Lock := ⟨false, List.replicate n .idle⟩

def setThread (s : Lock) (t : ℕ) (phase : LockPhase) : Lock :=
  { s with threads := s.threads.set t phase }

def step (kind : LockKind) (s : Lock) : LockAction → Option Lock
  | .lock t =>
    match s.threads[t]? with
    | some .idle => some (s.setThread t (kind.attempt 0 0))
    | _ => none
  | .tryLock t =>
    match s.threads[t]? with
    | some .idle => if s.locked then some s else some ⟨true, s.threads.set t .owner⟩
    | _ => none
  | .load t =>
    match s.threads[t]? with
    | some (.loading spinCount yieldCount) =>
      if s.locked then some (s.setThread t (kind.missed spinCount yieldCount))
      else some (s.setThread t (.exchanging spinCount yieldCount))
    | _ => none
  | .exchange t spurious =>
    match s.threads[t]? with
    | some (.exchanging spinCount yieldCount) =>
      if s.locked || spurious then some (s.setThread t (kind.missed spinCount yieldCount))
      else some ⟨true, s.threads.set t .owner⟩
    | _ => none
  | .compare t =>
    match s.threads[t]? with
    | some .comparing =>
      if s.locked then some (s.setThread t .blocked) else some (s.setThread t (kind.attempt 0 0))
    | _ => none
  | .wake t =>
    match s.threads[t]? with
    | some .blocked => some (s.setThread t .comparing)
    | _ => none
  | .unlock t =>
    match s.threads[t]? with
    | some .owner => some ⟨false, s.threads.set t .notifying⟩
    | _ => none
  | .notify t woken =>
    match s.threads[t]? with
    | some .notifying =>
      if s.threads[woken]? = some .blocked then
        some ((s.setThread t .idle).setThread woken .comparing)
      else if .blocked ∈ s.threads then none
      else some (s.setThread t .idle)
    | _ => none

/-- All interleavings of `n` threads. -/
def system (kind : LockKind) (n : ℕ) : System Lock LockAction where
  init s := s = new n
  step := step kind

/-! ### What a step can do -/

variable {kind : LockKind} {n t : ℕ} {s s' : Lock} {action : LockAction} {phase : LockPhase}

/-- The steps, by what they do to the flag. -/
inductive Step (kind : LockKind) (s : Lock) : LockAction → Lock → Prop
  | fail {t : ℕ} (hlocked : s.locked = true) : Step kind s (.tryLock t) s
  | acquire {action : LockAction} {t : ℕ} {phase : LockPhase} (ht : s.threads[t]? = some phase)
      (howns : phase.owns = 0) (hfree : s.locked = false) :
      Step kind s action ⟨true, s.threads.set t .owner⟩
  | release {t : ℕ} (ht : s.threads[t]? = some .owner) :
      Step kind s (.unlock t) ⟨false, s.threads.set t .notifying⟩
  | move {action : LockAction} {t : ℕ} {phase next : LockPhase} (ht : s.threads[t]? = some phase)
      (howns : phase.owns = 0) (hnext : next.owns = 0)
      (hactive : next.active = true ∨ s.locked = true) : Step kind s action (s.setThread t next)
  | notify {t woken : ℕ} (ht : s.threads[t]? = some .notifying)
      (hwoken : s.threads[woken]? = some .blocked) :
      Step kind s (.notify t woken) ((s.setThread t .idle).setThread woken .comparing)
  | nobody {t woken : ℕ} (ht : s.threads[t]? = some .notifying) (hnone : .blocked ∉ s.threads) :
      Step kind s (.notify t woken) (s.setThread t .idle)

theorem active_attempt (kind : LockKind) (spinCount yieldCount : ℕ) :
    (kind.attempt spinCount yieldCount).active = true := by
  rw [LockKind.attempt]
  split
  · rfl
  · rfl

theorem active_missed (kind : LockKind) (spinCount yieldCount : ℕ) :
    (kind.missed spinCount yieldCount).active = true := by
  rw [LockKind.missed]
  split
  · exact active_attempt kind _ _
  · split
    · exact active_attempt kind _ _
    · rfl

theorem owns_of_active (h : phase.active = true) : phase.owns = 0 := by
  cases phase with
  | owner => exact absurd h (by simp [LockPhase.active])
  | _ => rfl

theorem step_cases (h : s.step kind action = some s') : Step kind s action s' := by
  rw [step.eq_def] at h
  split at h
  · split at h
    · next ht =>
      obtain rfl := Option.some_inj.mp h
      have hactive := active_attempt kind 0 0
      exact .move ht rfl (owns_of_active hactive) (.inl hactive)
    · exact absurd h (by simp)
  · split at h
    · next ht =>
      split at h
      · next hlocked =>
        obtain rfl := Option.some_inj.mp h
        exact .fail hlocked
      · next hfree =>
        obtain rfl := Option.some_inj.mp h
        exact .acquire ht rfl (Bool.eq_false_of_not_eq_true hfree)
    · exact absurd h (by simp)
  · split at h
    · next spinCount yieldCount ht =>
      split at h
      · obtain rfl := Option.some_inj.mp h
        have hactive := active_missed kind spinCount yieldCount
        exact .move ht rfl (owns_of_active hactive) (.inl hactive)
      · obtain rfl := Option.some_inj.mp h
        exact .move ht rfl rfl (.inl rfl)
    · exact absurd h (by simp)
  · split at h
    · next spinCount yieldCount ht =>
      split at h
      · obtain rfl := Option.some_inj.mp h
        have hactive := active_missed kind spinCount yieldCount
        exact .move ht rfl (owns_of_active hactive) (.inl hactive)
      · next hfree =>
        obtain rfl := Option.some_inj.mp h
        rw [Bool.or_eq_true, not_or] at hfree
        exact .acquire ht rfl (Bool.eq_false_of_not_eq_true hfree.1)
    · exact absurd h (by simp)
  · split at h
    · next ht =>
      split at h
      · next hlocked =>
        obtain rfl := Option.some_inj.mp h
        exact .move ht rfl rfl (.inr hlocked)
      · obtain rfl := Option.some_inj.mp h
        have hactive := active_attempt kind 0 0
        exact .move ht rfl (owns_of_active hactive) (.inl hactive)
    · exact absurd h (by simp)
  · split at h
    · next ht =>
      obtain rfl := Option.some_inj.mp h
      exact .move ht rfl rfl (.inl rfl)
    · exact absurd h (by simp)
  · split at h
    · next ht =>
      obtain rfl := Option.some_inj.mp h
      exact .release ht
    · exact absurd h (by simp)
  · split at h
    · next ht =>
      split at h
      · next hwoken =>
        obtain rfl := Option.some_inj.mp h
        exact .notify ht hwoken
      · split at h
        · exact absurd h (by simp)
        · next hnone =>
          obtain rfl := Option.some_inj.mp h
          exact .nobody ht hnone
    · exact absurd h (by simp)

/-! ### Every run -/

/-- The owner is counted by the flag, and while the flag is clear somebody is active for those who
are blocked. -/
structure Inv (s : Lock) : Prop where
  owners : tally LockPhase.owns s.threads = if s.locked then 1 else 0
  awake : s.locked = false → .blocked ∈ s.threads → ∃ phase ∈ s.threads, phase.active = true

theorem mem_set (ht : s.threads[t]? = some phase) (next : LockPhase) :
    next ∈ s.threads.set t next := by
  obtain ⟨hlt, -⟩ := List.getElem?_eq_some_iff.mp ht
  exact List.mem_of_getElem? (List.getElem?_set_self hlt)

/-- The thread that is notified is another. -/
theorem getElem?_woken {woken : ℕ} (ht : s.threads[t]? = some .notifying)
    (hwoken : s.threads[woken]? = some .blocked) :
    (s.setThread t .idle).threads[woken]? = some .blocked := by
  have hne : t ≠ woken := fun heq => by
    rw [← heq, ht] at hwoken
    exact absurd hwoken (by simp)
  rw [← hwoken]
  exact List.getElem?_set_ne hne

theorem inv_new (n : ℕ) : (new n).Inv where
  owners := tally_eq_zero fun phase hphase => by
    rw [List.eq_of_mem_replicate hphase]
    rfl
  awake _ hblocked := absurd (List.eq_of_mem_replicate hblocked) (by simp)

theorem Inv.step (h : s.Inv) (hstep : Step kind s action s') : s'.Inv := by
  cases hstep with
  | fail hlocked => exact h
  | @acquire _ t phase ht howns hfree =>
    refine ⟨?_, fun hfalse => absurd hfalse (by simp)⟩
    have hset := tally_set (f := LockPhase.owns) ht .owner
    have howners := h.owners
    rw [hfree, if_neg Bool.false_ne_true] at howners
    rw [howns, howners] at hset
    exact hset
  | @release t ht =>
    refine ⟨?_, fun _ _ => ⟨.notifying, mem_set ht _, rfl⟩⟩
    have hset := tally_set (f := LockPhase.owns) ht .notifying
    have howners := h.owners
    have hone : LockPhase.owns .owner = 1 := rfl
    have hzero : LockPhase.owns .notifying = 0 := rfl
    show tally LockPhase.owns (s.threads.set t .notifying) = 0
    split at howners <;> omega
  | @move _ t phase next ht howns hnext hactive =>
    have hset := tally_set (f := LockPhase.owns) ht next
    have howners := h.owners
    refine ⟨?_, fun hfree _ => ?_⟩
    · show tally LockPhase.owns (s.threads.set t next) = if s.locked then 1 else 0
      omega
    · rcases hactive with hactive | hlocked
      · exact ⟨next, mem_set ht _, hactive⟩
      · exact absurd (hlocked.symm.trans hfree) (by simp)
  | @notify t woken ht hwoken =>
    have hwoken' := getElem?_woken ht hwoken
    have hfirst : tally LockPhase.owns (s.setThread t .idle).threads + 0 =
      tally LockPhase.owns s.threads + 0 := tally_set ht .idle
    have hsecond := tally_set (f := LockPhase.owns) hwoken' .comparing
    simp only [LockPhase.owns] at hsecond
    have howners := h.owners
    refine ⟨?_, fun _ _ => ⟨.comparing, mem_set hwoken' _, rfl⟩⟩
    show tally LockPhase.owns ((s.setThread t .idle).threads.set woken .comparing) =
      if s.locked then 1 else 0
    omega
  | @nobody t woken ht hnone =>
    have hset := tally_set (f := LockPhase.owns) ht .idle
    have howners := h.owners
    simp only [LockPhase.owns] at hset
    refine ⟨?_, fun _ hblocked => ?_⟩
    · show tally LockPhase.owns (s.threads.set t .idle) = if s.locked then 1 else 0
      omega
    · -- nobody was blocked, and nobody is
      rcases Tally.mem_set hblocked with hidle | ⟨i, -, hi⟩
      · exact absurd hidle (by simp)
      · exact absurd (List.mem_of_getElem? hi) hnone

theorem inv_of_reachable (h : (system kind n).Reachable s) : s.Inv := by
  refine h.invariant (fun s hinit => ?_) fun s action s' hs _ hstep => hs.step (step_cases hstep)
  obtain rfl : s = new n := hinit
  exact inv_new n

/-- **One owner**: in every run no two threads have the lock, and the flag is set exactly while one
has it. -/
theorem exclusive (h : (system kind n).Reachable s) :
    (∀ i j : ℕ, s.threads[i]? = some .owner → s.threads[j]? = some .owner → i = j) ∧
      (s.locked = true ↔ LockPhase.owner ∈ s.threads) := by
  have howners := (inv_of_reachable h).owners
  refine ⟨fun i j hi hj => ?_, fun hlocked => ?_, fun howner => ?_⟩
  · by_contra hne
    have htwo := add_le_tally (f := LockPhase.owns) hne hi hj
    simp only [LockPhase.owns] at htwo
    split at howners <;> omega
  · rw [hlocked, if_pos rfl] at howners
    by_contra hnone
    have hzero : tally LockPhase.owns s.threads = 0 := by
      refine tally_eq_zero fun phase hphase => ?_
      cases phase with
      | owner => exact absurd hphase hnone
      | _ => rfl
    omega
  · obtain ⟨i, hi⟩ := List.getElem?_of_mem howner
    have hone : LockPhase.owns .owner ≤ tally LockPhase.owns s.threads := le_tally hi
    simp only [LockPhase.owns] at hone
    by_contra hfree
    rw [if_neg hfree] at howners
    omega

/-- Two threads of which one has found the lock taken. -/
theorem exclusive_blocked :
    (∀ i j : ℕ, [LockPhase.owner, .blocked][i]? = some .owner →
        [LockPhase.owner, .blocked][j]? = some .owner → i = j) ∧
      (true = true ↔ LockPhase.owner ∈ [LockPhase.owner, .blocked]) :=
  @exclusive atomicWaitLock 2 ⟨true, [.owner, .blocked]⟩
    (.exec (.init rfl) (meets_true _ _ _)
      (show (system atomicWaitLock 2).exec (new 2) [.lock 0, .lock 1, .exchange 0 false,
        .exchange 1 false, .compare 1] = some ⟨true, [.owner, .blocked]⟩ by decide))

/-! ### Going on -/

/-- What such a step makes of the phase of the thread, by the flag. -/
inductive Move (kind : LockKind) : Bool → LockPhase → LockPhase → Prop
  | look (spinCount yieldCount : ℕ) :
      Move kind false (.loading spinCount yieldCount) (.exchanging spinCount yieldCount)
  | take (spinCount yieldCount : ℕ) : Move kind false (.exchanging spinCount yieldCount) .owner
  | again : Move kind false .comparing (kind.attempt 0 0)
  | missLoad (spinCount yieldCount : ℕ) :
      Move kind true (.loading spinCount yieldCount) (kind.missed spinCount yieldCount)
  | missExchange (spinCount yieldCount : ℕ) :
      Move kind true (.exchanging spinCount yieldCount) (kind.missed spinCount yieldCount)
  | block : Move kind true .comparing .blocked

/-- The steps with which threads go on. -/
inductive Onward (kind : LockKind) (s : Lock) : Lock → Prop
  | move {t : ℕ} {phase next : LockPhase} (ht : s.threads[t]? = some phase)
      (hmove : Move kind s.locked phase next) :
      Onward kind s ⟨s.locked || decide (next = .owner), s.threads.set t next⟩
  | notify {t woken : ℕ} (ht : s.threads[t]? = some .notifying)
      (hwoken : s.threads[woken]? = some .blocked) :
      Onward kind s ((s.setThread t .idle).setThread woken .comparing)
  | nobody {t : ℕ} (ht : s.threads[t]? = some .notifying) : Onward kind s (s.setThread t .idle)

theorem ne_owner_of_active (h : phase.active = true) : phase ≠ .owner := fun heq => by
  rw [heq] at h
  exact absurd h (by simp [LockPhase.active])

/-- A move that does not take the lock. -/
theorem Onward.move_ne {locked : Bool} {next : LockPhase} (ht : s.threads[t]? = some phase)
    (hlocked : s.locked = locked) (hmove : Move kind locked phase next) (hne : next ≠ .owner) :
    Onward kind s (s.setThread t next) := by
  have hflag : (s.locked || decide (next = .owner)) = s.locked := by
    rw [decide_eq_false hne, Bool.or_false]
  have hset : s.setThread t next = ⟨s.locked || decide (next = .owner), s.threads.set t next⟩ := by
    rw [hflag, setThread]
  rw [hset]
  exact .move ht (hlocked ▸ hmove)

theorem wants_attempt (kind : LockKind) (spinCount yieldCount : ℕ) :
    (kind.attempt spinCount yieldCount).wants = true := by
  rw [LockKind.attempt]
  split
  · rfl
  · rfl

theorem wants_missed (kind : LockKind) (spinCount yieldCount : ℕ) :
    (kind.missed spinCount yieldCount).wants = true := by
  rw [LockKind.missed]
  split
  · exact wants_attempt kind _ _
  · split
    · exact wants_attempt kind _ _
    · rfl

theorem Move.wants {locked : Bool} {next : LockPhase} (h : Move kind locked phase next) :
    (locked = false ∧ next = .owner) ∨ next.wants = true := by
  cases h with
  | take => exact .inl ⟨rfl, rfl⟩
  | look => exact .inr rfl
  | again => exact .inr (wants_attempt kind 0 0)
  | missLoad spinCount yieldCount => exact .inr (wants_missed kind spinCount yieldCount)
  | missExchange spinCount yieldCount => exact .inr (wants_missed kind spinCount yieldCount)
  | block => exact .inr rfl

theorem onward (h : s.step kind action = some s') (hon : action.goesOn = true) :
    Onward kind s s' := by
  cases action with
  | lock t => exact absurd hon (by simp [LockAction.goesOn])
  | tryLock t => exact absurd hon (by simp [LockAction.goesOn])
  | wake t => exact absurd hon (by simp [LockAction.goesOn])
  | unlock t => exact absurd hon (by simp [LockAction.goesOn])
  | load t =>
    rw [step] at h
    split at h
    · next spinCount yieldCount ht =>
      split at h
      · next hlocked =>
        obtain rfl := Option.some_inj.mp h
        have hne := ne_owner_of_active (active_missed kind spinCount yieldCount)
        exact .move_ne ht hlocked (.missLoad _ _) hne
      · next hfree =>
        obtain rfl := Option.some_inj.mp h
        exact .move_ne ht (Bool.eq_false_of_not_eq_true hfree) (.look _ _) (by simp)
    · exact absurd h (by simp)
  | exchange t spurious =>
    cases spurious with
    | true => exact absurd hon (by simp [LockAction.goesOn])
    | false =>
      rw [step, Bool.or_false] at h
      split at h
      · next spinCount yieldCount ht =>
        split at h
        · next hlocked =>
          obtain rfl := Option.some_inj.mp h
          have hne := ne_owner_of_active (active_missed kind spinCount yieldCount)
          exact .move_ne ht hlocked (.missExchange _ _) hne
        · next hfree =>
          obtain rfl := Option.some_inj.mp h
          have hfree := Bool.eq_false_of_not_eq_true hfree
          have htake := Onward.move ht (hfree ▸ @Move.take kind spinCount yieldCount)
          rwa [decide_eq_true rfl, Bool.or_true] at htake
      · exact absurd h (by simp)
  | compare t =>
    rw [step] at h
    split at h
    · next ht =>
      split at h
      · next hlocked =>
        obtain rfl := Option.some_inj.mp h
        exact .move_ne ht hlocked .block (by simp)
      · next hfree =>
        obtain rfl := Option.some_inj.mp h
        have hne := ne_owner_of_active (active_attempt kind 0 0)
        exact .move_ne ht (Bool.eq_false_of_not_eq_true hfree) .again hne
    · exact absurd h (by simp)
  | notify t woken =>
    rw [step] at h
    split at h
    · next ht =>
      split at h
      · next hwoken =>
        obtain rfl := Option.some_inj.mp h
        exact .notify ht hwoken
      · split at h
        · exact absurd h (by simp)
        · obtain rfl := Option.some_inj.mp h
          exact .nobody ht
    · exact absurd h (by simp)

/-- A measure that every move lowers, and the notification, is lowered by every step. -/
theorem Onward.tally_lt {f : LockPhase → ℕ} (h : Onward kind s s')
    (hmove : ∀ phase next, Move kind s.locked phase next → f next < f phase)
    (hnotify : f .idle + f .comparing < f .notifying) :
    tally f s'.threads < tally f s.threads := by
  cases h with
  | @move t phase next ht hnext =>
    have hset := tally_set (f := f) ht next
    have hlower := hmove phase next hnext
    show tally f (s.threads.set t next) < tally f s.threads
    omega
  | @notify t woken ht hwoken =>
    have hwoken' : (s.setThread t .idle).threads[woken]? = some .blocked :=
      getElem?_woken ht hwoken
    have hfirst : tally f (s.setThread t .idle).threads + f .notifying =
      tally f s.threads + f .idle := tally_set ht .idle
    have hsecond := tally_set (f := f) hwoken' .comparing
    show tally f ((s.setThread t .idle).threads.set woken .comparing) < tally f s.threads
    omega
  | @nobody t ht =>
    have hset := tally_set (f := f) ht .idle
    show tally f (s.threads.set t .idle) < tally f s.threads
    omega

/-- A thread that has notified, and one that wants the lock, are two. -/
theorem getElem?_notified {i : ℕ} (hi : s.threads[i]? = some .notifying)
    (ht : s.threads[t]? = some phase) (hwants : phase.wants = true) :
    (s.setThread i .idle).threads[t]? = some phase := by
  have hne : i ≠ t := fun heq => by
    rw [← heq, hi] at ht
    obtain rfl := Option.some_inj.mp ht
    exact absurd hwants (by simp [LockPhase.wants])
  exact (List.getElem?_set_ne hne).trans ht

/-- Whoever wants the lock goes on to want it, or takes it. -/
theorem Onward.wants (h : Onward kind s s') (ht : s.threads[t]? = some phase)
    (hwants : phase.wants = true) :
    (∃ next, s'.threads[t]? = some next ∧ next.wants = true) ∨
      (s.locked = false ∧ s'.locked = true) := by
  cases h with
  | @move i was next hi hmove =>
    by_cases hit : i = t
    · subst hit
      obtain ⟨hlt, -⟩ := List.getElem?_eq_some_iff.mp hi
      have hnext : (s.threads.set i next)[i]? = some next := List.getElem?_set_self hlt
      rcases hmove.wants with ⟨hfree, howner⟩ | hgoes
      · exact .inr ⟨hfree, by rw [decide_eq_true howner, Bool.or_true]⟩
      · exact .inl ⟨next, hnext, hgoes⟩
    · exact .inl ⟨phase, (List.getElem?_set_ne hit).trans ht, hwants⟩
  | @notify i woken hi hwoken =>
    have hwoken' := getElem?_woken hi hwoken
    refine .inl ?_
    by_cases hwt : woken = t
    · subst hwt
      obtain ⟨hlt, -⟩ := List.getElem?_eq_some_iff.mp hwoken'
      exact ⟨.comparing, List.getElem?_set_self hlt, rfl⟩
    · have hsame := getElem?_notified hi ht hwants
      exact ⟨phase, (List.getElem?_set_ne hwt).trans hsame, hwants⟩
  | @nobody i hi => exact .inl ⟨phase, getElem?_notified hi ht hwants, hwants⟩

/-- While a thread is active it has a step. -/
theorem exists_onward (hactive : ∃ phase ∈ s.threads, phase.active = true) :
    ∃ action next, action.goesOn = true ∧ s.step kind action = some next := by
  obtain ⟨phase, hphase, hactive⟩ := hactive
  obtain ⟨t, ht⟩ := List.getElem?_of_mem hphase
  cases phase with
  | loading spinCount yieldCount =>
    by_cases hlocked : s.locked = true
    · exact ⟨.load t, _, rfl, by rw [step, ht]; exact if_pos hlocked⟩
    · exact ⟨.load t, _, rfl, by rw [step, ht]; exact if_neg hlocked⟩
  | exchanging spinCount yieldCount =>
    by_cases hlocked : (s.locked || false) = true
    · exact ⟨.exchange t false, _, rfl, by rw [step, ht]; exact if_pos hlocked⟩
    · exact ⟨.exchange t false, _, rfl, by rw [step, ht]; exact if_neg hlocked⟩
  | comparing =>
    by_cases hlocked : s.locked = true
    · exact ⟨.compare t, _, rfl, by rw [step, ht]; exact if_pos hlocked⟩
    · exact ⟨.compare t, _, rfl, by rw [step, ht]; exact if_neg hlocked⟩
  | notifying =>
    by_cases hblocked : .blocked ∈ s.threads
    · obtain ⟨woken, hwoken⟩ := List.getElem?_of_mem hblocked
      exact ⟨.notify t woken, _, rfl, by rw [step, ht]; exact if_pos hwoken⟩
    · have hnone : s.threads[t]? ≠ some .blocked := fun h => hblocked (List.mem_of_getElem? h)
      refine ⟨.notify t t, s.setThread t .idle, rfl, ?_⟩
      rw [step, ht]
      exact (if_neg (ht ▸ hnone)).trans (if_neg hblocked)
  | idle => exact absurd hactive (by simp [LockPhase.active])
  | blocked => exact absurd hactive (by simp [LockPhase.active])
  | owner => exact absurd hactive (by simp [LockPhase.active])

/-! ### While the lock is free -/

/-- The steps of a thread up to its taking the lock. -/
def handover : LockPhase → ℕ
  | .exchanging .. => 1
  | .loading .. => 2
  | .comparing => 3
  | .notifying => 4
  | .idle | .blocked | .owner => 0

theorem handover_move {next : LockPhase} (h : Move kind false phase next) :
    handover next < handover phase := by
  cases h with
  | look => exact Nat.lt_succ_self 1
  | take => exact Nat.lt_succ_self 0
  | again =>
    rw [LockKind.attempt]
    split
    · exact Nat.lt_succ_self 2
    · exact Nat.lt_of_lt_of_le (Nat.lt_succ_self 1) (Nat.le_succ 2)

theorem handover_le (phase : LockPhase) : handover phase ≤ 4 := by
  cases phase <;> simp [handover]

/-- The invariant, and somebody who wants the lock until it is taken. -/
structure Contended (s : Lock) : Prop where
  inv : s.Inv
  wanted : s.locked = false → ∃ (t : ℕ) (phase : LockPhase),
    s.threads[t]? = some phase ∧ phase.wants = true

theorem Contended.step (h : s.Contended) (hfree : s.locked = false) (hon : action.goesOn = true)
    (hstep : s.step kind action = some s') : s'.Contended := by
  refine ⟨h.inv.step (step_cases hstep), fun hfree' => ?_⟩
  obtain ⟨t, phase, ht, hwants⟩ := h.wanted hfree
  rcases (onward hstep hon).wants ht hwants with ⟨next, hnext, hgoes⟩ | ⟨-, hlocked⟩
  · exact ⟨t, next, hnext, hgoes⟩
  · exact absurd (hlocked.symm.trans hfree') (by simp)

/-- Somebody is active, be it to notify a thread that is blocked. -/
theorem Contended.exists_active (h : s.Contended) (hfree : s.locked = false) :
    ∃ phase ∈ s.threads, phase.active = true := by
  obtain ⟨t, phase, ht, hwants⟩ := h.wanted hfree
  have hphase := List.mem_of_getElem? ht
  cases phase with
  | blocked => exact h.inv.awake hfree hphase
  | loading spinCount yieldCount => exact ⟨_, hphase, rfl⟩
  | exchanging spinCount yieldCount => exact ⟨_, hphase, rfl⟩
  | comparing => exact ⟨_, hphase, rfl⟩
  | idle => exact absurd hwants (by simp [LockPhase.wants])
  | owner => exact absurd hwants (by simp [LockPhase.wants])
  | notifying => exact absurd hwants (by simp [LockPhase.wants])

/-- **Handed over**: while the lock is free and a thread wants it, blocked or not, there is a next
step, and the steps that do not take it are at most four for each thread, in whatever order. -/
theorem handed_over (h : (system kind n).Reachable s)
    (hwanted : ∃ phase ∈ s.threads, phase.wants = true) {actions : List LockAction}
    (hmeets : (system kind n).Meets (fun s action => s.locked = false ∧ action.goesOn = true)
      s actions)
    (hexec : (system kind n).exec s actions = some s') (hfree : s'.locked = false) :
    actions.length ≤ 4 * s.threads.length ∧
      ∃ action next, action.goesOn = true ∧ s'.step kind action = some next := by
  obtain ⟨phase, hphase, hwants⟩ := hwanted
  obtain ⟨t, ht⟩ := List.getElem?_of_mem hphase
  have hcontended : s.Contended := ⟨inv_of_reachable h, fun _ => ⟨t, phase, ht, hwants⟩⟩
  have hend : s'.Contended := invariant_exec
    (fun s action s' hs hcond hstep => hs.step hcond.1 hcond.2 hstep) hcontended hmeets hexec
  have hlength : actions.length + tally handover s'.threads ≤ tally handover s.threads := by
    refine length_add_rank_le (C := fun s action => s.locked = false ∧ action.goesOn = true)
      (fun s : Lock => tally handover s.threads) (fun s action s' hcond hstep => ?_) hmeets hexec
    refine (onward hstep hcond.2).tally_lt (fun phase next hmove => ?_) (Nat.lt_succ_self 3)
    rw [hcond.1] at hmove
    exact handover_move hmove
  have hbound : tally handover s.threads ≤ 4 * s.threads.length :=
    tally_le_mul fun phase _ => handover_le phase
  exact ⟨by omega, exists_onward (hend.exists_active hfree)⟩

/-- A thread that is blocked, and the owner that has just cleared the flag. -/
theorem handed_over_notified :
    2 ≤ 4 * 2 ∧ ∃ action next, action.goesOn = true ∧
      Lock.step atomicWaitLock ⟨false, [.idle, .exchanging 0 0]⟩ action = some next := by
  have hreach : (system atomicWaitLock 2).Reachable ⟨false, [.notifying, .blocked]⟩ :=
    ReachableWhile.exec (.init rfl) (meets_true _ _ _)
      (show (system atomicWaitLock 2).exec (new 2) [.lock 0, .lock 1, .exchange 0 false,
        .exchange 1 false, .compare 1, .unlock 0] = some ⟨false, [.notifying, .blocked]⟩ by decide)
  exact @handed_over atomicWaitLock 2 _ ⟨false, [.idle, .exchanging 0 0]⟩ hreach
    ⟨.blocked, by decide, rfl⟩ [.notify 0 1, .compare 1] (by decide) (by decide) rfl

/-! ### While the lock is taken -/

/-- The lock stays taken when nobody unlocks it. -/
theorem Onward.locked (h : Onward kind s s') (hlocked : s.locked = true) : s'.locked = true := by
  cases h with
  | move ht hmove => rw [hlocked, Bool.true_or]
  | notify ht hwoken => exact hlocked
  | nobody ht => exact hlocked

end Lock

end Sync

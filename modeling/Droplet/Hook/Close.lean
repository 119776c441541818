/-
Closing a descriptor that fibers wait on.

The hooked `close` marks the descriptor's context closed, cancels its events in the
IOManager of the calling thread, removes it from the table and closes it.  Fibers of
any number of IOManagers perform `DoIo` on it meanwhile.  The kernel drops the epoll
registration of a closed descriptor silently, so that only `cancelAll` can wake those
that still wait.

* `Inv` — once `close` has cancelled, nothing is registered;
* `clean_of_orderly` — if no other IOManager has an event registered when `close`
  cancels, and none is registered between that and the kernel's close, no waiter is
  stranded;
* `not_clean_foreign`, in both its parts — a plain thread closes, or a fiber
  registers itself between the two steps.
-/
import Droplet.Scheduler.FdContext
import Droplet.Lib.Transition
import Mathlib.Data.Fintype.Basic

open Transition Transition.System Scheduler

namespace Hook

/-- `FdCtx`: what `DoIo` asks of it. -/
structure FdCtx where
  closed : Bool
  socket : Bool
  deriving DecidableEq

/-- Where a fiber is in `DoIo`; `context` names the `FdCtx` that the call has got. -/
inductive IoPhase
  | idle
  | looping (context : ℕ) (event : Event)
  | calling (context : ℕ) (event : Event)
  | blocked (context : ℕ) (event : Event)
  | registered (context : ℕ) (event : Event)
  | held (context : ℕ) (event : Event)
  | resumed (context : ℕ) (event : Event)
  deriving DecidableEq

/-- Where the closing thread is in `close`. -/
inductive ClosePhase
  | start
  | found (context : ℕ)
  | marked
  | cancelled
  | deleted
  | returned
  deriving DecidableEq

/-- The events are cancelled and the descriptor is still open. -/
def ClosePhase.Closing (phase : ClosePhase) : Prop := phase = .cancelled ∨ phase = .deleted

instance (phase : ClosePhase) : Decidable phase.Closing := inferInstanceAs (Decidable (_ ∨ _))

/-- One descriptor, its entry in the table of `FdManager`, the event tables and the
queues of `k` IOManagers, the fibers that use it and the thread that closes it. -/
structure CloseState (k : ℕ) where
  contexts : Fin k → FdContext
  tasks : Fin k → List Work
  triggered : List (Fin k × Work)
  entry : Option ℕ
  fdCtx : ℕ → FdCtx
  fdCtxCount : ℕ
  opened : Bool
  fiber : ℕ → IoPhase
  closer : ClosePhase

/-- One atomic step of a fiber, of the closing thread or of others. -/
inductive CloseAction (k : ℕ)
  | beginIo (i : ℕ) (event : Event)
  | checkClosed (i : ℕ)
  | callFunction (i : ℕ) (again : Bool)
  | addEvent (i : ℕ) (epollCtl : Bool)
  | yieldToHold (i : ℕ)
  | resume (i : ℕ)
  | wakeUp (i : ℕ) (cancelled : Bool)
  | processEvent (m : Fin k) (ready : EventMask)
  | cancelEvent (m : Fin k) (mask : EventMask)
  | trigger (index : ℕ)
  | getEntry
  | markClosed
  | cancelAll
  | deleteEntry
  | closeFd
  deriving DecidableEq

namespace CloseState

variable {k : ℕ}

/-- A socket that nobody has used yet. -/
def start (k : ℕ) : CloseState k where
  contexts := fun _ => FdContext.new
  tasks := fun _ => []
  triggered := []
  entry := none
  fdCtx := fun _ => ⟨false, false⟩
  fdCtxCount := 0
  opened := true
  fiber := fun _ => .idle
  closer := .start

def setFiber (s : CloseState k) (i : ℕ) (phase : IoPhase) : CloseState k :=
  { s with fiber := Function.update s.fiber i phase }

def setContext (s : CloseState k) (m : Fin k) (context : FdContext) : CloseState k :=
  { s with contexts := Function.update s.contexts m context }

/-- Handlers are detached, to be scheduled later. -/
def detach (s : CloseState k) (m : Fin k) (result : FdContext × List Work) : CloseState k :=
  { s.setContext m result.1 with triggered := s.triggered ++ result.2.map fun work => (m, work) }

/-- The start of `DoIo`: `FdManager::get`, which makes the context if there is none,
and the tests after it.  `fstat` finds a socket only while the descriptor is open. -/
def beginIo (s : CloseState k) (i : ℕ) (event : Event) : CloseState k :=
  match s.entry with
  | some c =>
    if (s.fdCtx c).closed ∨ ¬ (s.fdCtx c).socket then s else s.setFiber i (.looping c event)
  | none =>
    let made := { s with
      entry := some s.fdCtxCount
      fdCtx := Function.update s.fdCtx s.fdCtxCount ⟨false, s.opened⟩
      fdCtxCount := s.fdCtxCount + 1 }
    if s.opened then made.setFiber i (.looping s.fdCtxCount event) else made

/-- The steps of a fiber; `manager` is the IOManager that runs it. -/
def onFiber (s : CloseState k) (manager : ℕ → Fin k) (i : ℕ) (action : CloseAction k) :
    Option (CloseState k) :=
  match s.fiber i, action with
  | .idle, .beginIo _ event => some (s.beginIo i event)
  | .looping c event, .checkClosed _ =>
    some (s.setFiber i (if (s.fdCtx c).closed then .idle else .calling c event))
  | .calling c event, .callFunction _ again =>
    -- a closed descriptor gives `EBADF`
    some (s.setFiber i (if s.opened ∧ again then .blocked c event else .idle))
  | .blocked c event, .addEvent _ epollCtl =>
    match (s.contexts (manager i)).addEvent event (.fiber i) (epollCtl && s.opened) with
    | some context => some ((s.setContext (manager i) context).setFiber i (.registered c event))
    | none => some (s.setFiber i .idle)
  | .registered c event, .yieldToHold _ => some (s.setFiber i (.held c event))
  | .held c event, .resume _ =>
    if .fiber i ∈ s.tasks (manager i) then
      some ({ s with
        tasks := Function.update s.tasks (manager i)
          ((s.tasks (manager i)).erase (.fiber i)) }.setFiber i (.resumed c event))
    else none
  | .resumed c event, .wakeUp _ cancelled =>
    some (s.setFiber i (if cancelled then .idle else .looping c event))
  | _, _ => none

/-- The steps of `close`; `own` is the IOManager of the calling thread. -/
def onCloser (s : CloseState k) (own : Option (Fin k)) (action : CloseAction k) :
    Option (CloseState k) :=
  match s.closer, action with
  | .start, .getEntry =>
    some { s with
      closer := match s.entry with
        | some c => .found c
        | none => .deleted }
  | .found c, .markClosed =>
    some { s with
      fdCtx := Function.update s.fdCtx c { s.fdCtx c with closed := true }
      closer := .marked }
  | .marked, .cancelAll =>
    match own.bind fun m => ((s.contexts m).cancelEvent .all s.opened).map (s.detach m) with
    | some swept => some { swept with closer := .cancelled }
    | none => some { s with closer := .cancelled }
  | .cancelled, .deleteEntry =>
    some { s with
      fdCtx := match s.entry with
        | some c => Function.update s.fdCtx c { s.fdCtx c with closed := true }
        | none => s.fdCtx
      entry := none
      closer := .deleted }
  | .deleted, .closeFd => some { s with opened := false, closer := .returned }
  | _, _ => none

/-- One step.  Others detach events when the descriptor gets ready, and cancel them
(timeouts do), which fails on a closed descriptor. -/
def step (manager : ℕ → Fin k) (own : Option (Fin k)) (s : CloseState k)
    (action : CloseAction k) : Option (CloseState k) :=
  match action with
  | .beginIo i _ | .checkClosed i | .callFunction i _ | .addEvent i _ | .yieldToHold i | .resume i
  | .wakeUp i _ => s.onFiber manager i action
  | .processEvent m ready => ((s.contexts m).processEvent ready).map (s.detach m)
  | .cancelEvent m mask => ((s.contexts m).cancelEvent mask s.opened).map (s.detach m)
  | .trigger index =>
    s.triggered[index]?.map fun (m, work) =>
      { s with
        tasks := Function.update s.tasks m (s.tasks m ++ [work])
        triggered := s.triggered.eraseIdx index }
  | .getEntry | .markClosed | .cancelAll | .deleteEntry | .closeFd => s.onCloser own action

/-- All interleavings of one `close` with fibers of `k` IOManagers. -/
def system (manager : ℕ → Fin k) (own : Option (Fin k)) :
    System (CloseState k) (CloseAction k) where
  init s := s = start k
  step := step manager own

/-- The fiber is suspended, its event is still registered, and no task is queued for
it. -/
def Stranded (s : CloseState k) (i : ℕ) : Prop :=
  (∃ c event, s.fiber i = .held c event) ∧ (∃ m event, (s.contexts m).Holds event (.fiber i)) ∧
    ∀ m, .fiber i ∉ s.tasks m

/-- After `close` no fiber is stranded, and a descriptor with the same number starts
without registered events. -/
def Clean (s : CloseState k) : Prop :=
  s.closer = .returned → (∀ i, ¬ s.Stranded i) ∧ ∀ m, (s.contexts m).events = .none

/-- When `close` cancels events, those of other IOManagers are not registered, and none
at all when it finds nothing to cancel; and no event is registered between that and
the kernel's close. -/
def Orderly (own : Option (Fin k)) (s : CloseState k) : CloseAction k → Prop
  | .getEntry => s.entry = none → ∀ m, (s.contexts m).events = .none
  | .cancelAll => ∀ m, own ≠ some m → (s.contexts m).events = .none
  | .addEvent _ epollCtl => s.closer.Closing → epollCtl = false
  | _ => True

instance (own : Option (Fin k)) (s : CloseState k) (action : CloseAction k) :
    Decidable (Orderly own s action) :=
  match action with
  | .getEntry => inferInstanceAs (Decidable (s.entry = none → ∀ m, (s.contexts m).events = .none))
  | .cancelAll => inferInstanceAs (Decidable (∀ m, own ≠ some m → (s.contexts m).events = .none))
  | .addEvent _ epollCtl => inferInstanceAs (Decidable (s.closer.Closing → epollCtl = false))
  | .beginIo _ _ | .checkClosed _ | .callFunction _ _ | .yieldToHold _ | .resume _ | .wakeUp _ _
  | .processEvent _ _ | .cancelEvent _ _ | .trigger _ | .markClosed | .deleteEntry | .closeFd =>
    .isTrue trivial

/-! ### What a step keeps -/

variable {manager : ℕ → Fin k} {own : Option (Fin k)} {s s' : CloseState k}
  {action : CloseAction k}

/-- `close` has cancelled the events. -/
def Swept (s : CloseState k) : Prop := s.closer.Closing ∨ s.closer = .returned

/-- Once `close` has cancelled, nothing is registered. -/
structure Inv (s : CloseState k) : Prop where
  opened : s.opened = false ↔ s.closer = .returned
  swept : s.Swept → ∀ m, (s.contexts m).events = .none

namespace Inv

theorem start : (CloseState.start k).Inv where
  opened := by simp [CloseState.start]
  swept := fun h => absurd h (by simp [CloseState.start, Swept, ClosePhase.Closing])

/-- Detaching handlers registers nothing. -/
theorem detach (h : s.Inv) {m : Fin k} {mask : EventMask} {result : FdContext × List Work}
    (hdetach : (s.contexts m).detach mask = result) : (s.detach m result).Inv := by
  refine ⟨h.opened, fun hswept m' => ?_⟩
  show (Function.update s.contexts m result.1 m').events = .none
  by_cases hm : m' = m
  · subst hm
    rw [Function.update_self, ← hdetach]
    exact FdContext.events_detach_of_none (h.swept hswept m')
  · rw [Function.update_of_ne hm]
    exact h.swept hswept m'

/-- A fiber goes on. -/
theorem setFiber (h : s.Inv) (i : ℕ) (phase : IoPhase) : (s.setFiber i phase).Inv :=
  ⟨h.opened, h.swept⟩

/-- The steps of a fiber: it registers itself only while `close` has not cancelled. -/
theorem onFiber {i : ℕ} (h : s.Inv) (hcond : Orderly own s action)
    (hstep : s.onFiber manager i action = some s') : s'.Inv := by
  unfold CloseState.onFiber at hstep
  split at hstep
  · obtain rfl := Option.some_inj.mp hstep
    unfold CloseState.beginIo
    split
    · split
      · exact h
      · exact h.setFiber i _
    · dsimp only
      split
      · exact ⟨h.opened, h.swept⟩
      · exact ⟨h.opened, h.swept⟩
  · obtain rfl := Option.some_inj.mp hstep
    exact h.setFiber i _
  · obtain rfl := Option.some_inj.mp hstep
    exact h.setFiber i _
  · next epollCtl hphase =>
    split at hstep
    · next context hadd =>
      obtain rfl := Option.some_inj.mp hstep
      obtain ⟨-, hctl, -⟩ := FdContext.addEvent_eq_some_iff.mp hadd
      obtain ⟨hctl, hopened⟩ := (Bool.and_eq_true _ _).mp hctl
      have hbefore : ¬ s.Swept := by
        rintro (hclosing | hreturned)
        · exact absurd (hctl.symm.trans (hcond hclosing)) (by simp)
        · exact absurd (hopened.symm.trans (h.opened.mpr hreturned)) (by simp)
      exact ⟨h.opened, fun hswept => absurd hswept hbefore⟩
    · obtain rfl := Option.some_inj.mp hstep
      exact h.setFiber i _
  · obtain rfl := Option.some_inj.mp hstep
    exact h.setFiber i _
  · split at hstep
    · obtain rfl := Option.some_inj.mp hstep
      exact ⟨h.opened, h.swept⟩
    · exact absurd hstep (by simp)
  · obtain rfl := Option.some_inj.mp hstep
    exact h.setFiber i _
  · exact absurd hstep (by simp)

/-- The steps of `close`. -/
theorem onCloser (h : s.Inv) (hcond : Orderly own s action)
    (hstep : s.onCloser own action = some s') : s'.Inv := by
  -- the descriptor is open until `close` has returned
  have hopen : s.closer ≠ .returned → s.opened = true := by
    intro hne
    rw [← Bool.not_eq_false]
    exact fun hclosed => hne (h.opened.mp hclosed)
  unfold CloseState.onCloser at hstep
  split at hstep
  · next hphase =>
    obtain rfl := Option.some_inj.mp hstep
    have hopened := hopen (by rw [hphase]; simp)
    cases hentry : s.entry with
    | some c =>
      refine ⟨?_, fun hswept => absurd hswept (by simp [Swept, ClosePhase.Closing])⟩
      show s.opened = false ↔ _
      simp [hopened]
    | none =>
      refine ⟨?_, fun _ => hcond hentry⟩
      show s.opened = false ↔ _
      simp [hopened]
  · next c hphase =>
    obtain rfl := Option.some_inj.mp hstep
    have hopened := hopen (by rw [hphase]; simp)
    refine ⟨?_, fun hswept => absurd hswept (by simp [Swept, ClosePhase.Closing])⟩
    show s.opened = false ↔ _
    simp [hopened]
  · next hphase =>
    have hopened := hopen (by rw [hphase]; simp)
    split at hstep
    · next swept hswept =>
      obtain rfl := Option.some_inj.mp hstep
      obtain ⟨m, hm, hcancel⟩ := Option.bind_eq_some_iff.mp hswept
      obtain ⟨⟨context, works⟩, hresult, rfl⟩ := Option.map_eq_some_iff.mp hcancel
      obtain ⟨-, -, hdetach⟩ := FdContext.cancelEvent_eq_some_iff.mp hresult
      have hcontext : ((s.contexts m).detach .all).1 = context := congrArg Prod.fst hdetach
      refine ⟨?_, fun _ m' => ?_⟩
      · show s.opened = false ↔ _
        simp [hopened]
      · show (Function.update s.contexts m context m').events = .none
        -- the caller's own IOManager is swept, in the others nothing was registered
        by_cases heq : m' = m
        · rw [heq, Function.update_self, ← hcontext]
          exact FdContext.events_detach_all _
        · rw [Function.update_of_ne heq]
          exact hcond m' fun hown => heq (Option.some_inj.mp (hm.symm.trans hown)).symm
    · next hswept =>
      obtain rfl := Option.some_inj.mp hstep
      refine ⟨?_, fun _ m' => ?_⟩
      · show s.opened = false ↔ _
        simp [hopened]
      · show (s.contexts m').events = .none
        by_cases heq : own = some m'
        · -- nothing was registered in the caller's own IOManager
          rw [heq, Option.bind_some, Option.map_eq_none_iff] at hswept
          unfold FdContext.cancelEvent at hswept
          rw [hopened] at hswept
          split at hswept
          · next hinter =>
            refine EventMask.eq_none_iff.mpr fun event => ?_
            exact FdContext.inter_eq_none_iff.mp hinter event (EventMask.has_all event)
          · exact absurd hswept (by simp)
        · exact hcond m' heq
  · next hphase =>
    obtain rfl := Option.some_inj.mp hstep
    have hopened := hopen (by rw [hphase]; simp)
    refine ⟨?_, fun _ => h.swept (.inl (.inl hphase))⟩
    show s.opened = false ↔ _
    simp [hopened]
  · next hphase =>
    obtain rfl := Option.some_inj.mp hstep
    exact ⟨iff_of_true rfl rfl, fun _ => h.swept (.inl (.inr hphase))⟩
  · exact absurd hstep (by simp)

/-- **The invariant** is kept by the steps that meet the condition. -/
theorem step (h : s.Inv) (hcond : Orderly own s action)
    (hstep : CloseState.step manager own s action = some s') : s'.Inv := by
  cases action with
  | beginIo => exact h.onFiber hcond hstep
  | checkClosed => exact h.onFiber hcond hstep
  | callFunction => exact h.onFiber hcond hstep
  | addEvent => exact h.onFiber hcond hstep
  | yieldToHold => exact h.onFiber hcond hstep
  | resume => exact h.onFiber hcond hstep
  | wakeUp => exact h.onFiber hcond hstep
  | processEvent m ready =>
    obtain ⟨result, hresult, rfl⟩ := Option.map_eq_some_iff.mp hstep
    exact h.detach (FdContext.processEvent_eq_some_iff.mp hresult).2
  | cancelEvent m mask =>
    obtain ⟨result, hresult, rfl⟩ := Option.map_eq_some_iff.mp hstep
    exact h.detach (FdContext.cancelEvent_eq_some_iff.mp hresult).2.2
  | trigger index =>
    obtain ⟨⟨m, work⟩, -, rfl⟩ := Option.map_eq_some_iff.mp hstep
    exact ⟨h.opened, h.swept⟩
  | getEntry => exact h.onCloser hcond hstep
  | markClosed => exact h.onCloser hcond hstep
  | cancelAll => exact h.onCloser hcond hstep
  | deleteEntry => exact h.onCloser hcond hstep
  | closeFd => exact h.onCloser hcond hstep

theorem clean (h : s.Inv) : s.Clean := by
  intro hreturned
  have hnone := h.swept (.inr hreturned)
  refine ⟨fun i hstranded => ?_, hnone⟩
  obtain ⟨-, ⟨m, event, hholds⟩, -⟩ := hstranded
  rw [FdContext.Holds, hnone m, EventMask.has_none] at hholds
  exact absurd hholds.1 (by simp)

end Inv

/-- In every run whose steps meet the condition, `close` strands no waiter. -/
theorem clean_of_orderly (manager : ℕ → Fin k) (own : Option (Fin k))
    (h : (system manager own).ReachableWhile (Orderly own) s) : s.Clean := by
  refine Inv.clean (h.invariant ?_ fun s action s' hs hcond hstep => hs.step hcond hstep)
  rintro s rfl
  exact Inv.start

/-- A fiber calls a function that would block. -/
def blockActions : List (CloseAction k) :=
  [.beginIo 0 .read, .checkClosed 0, .callFunction 0 true]

/-- It registers itself and is suspended. -/
def suspendActions : List (CloseAction k) := [.addEvent 0 true, .yieldToHold 0]

/-- The closing thread finds the context, marks it and cancels. -/
def cancelActions : List (CloseAction k) := [.getEntry, .markClosed, .cancelAll]

/-- It removes the context and closes the descriptor. -/
def deleteActions : List (CloseAction k) := [.deleteEntry, .closeFd]

/-- A worker of the same IOManager closes a descriptor on which a fiber waits: the
fiber is queued and finds the descriptor closed. -/
theorem clean_of_orderly_same :
    ∃ s, (system (fun _ => (0 : Fin 2)) (some 0)).exec (start 2) (blockActions ++ suspendActions ++
        cancelActions ++ [.trigger 0] ++ deleteActions ++
          [.resume 0, .wakeUp 0 false, .checkClosed 0]) = some s ∧
      s.closer = .returned ∧ s.fiber 0 = .idle ∧ s.Clean := by
  have hrun : ((system (fun _ => (0 : Fin 2)) (some 0)).exec (start 2) (blockActions ++
      suspendActions ++ cancelActions ++ [.trigger 0] ++ deleteActions ++
        [.resume 0, .wakeUp 0 false, .checkClosed 0])).any (fun s =>
          s.closer == .returned && s.fiber 0 == .idle) = true := by
    decide +kernel
  obtain ⟨s, hexec, hs⟩ := (Option.any_eq_true _ _).mp hrun
  rw [Bool.and_eq_true, beq_iff_eq, beq_iff_eq] at hs
  refine ⟨s, hexec, hs.1, hs.2, clean_of_orderly _ _ (.exec (.init rfl) ?_ hexec)⟩
  decide +kernel

/-- The first fiber is stranded in the only IOManager. -/
theorem stranded_zero {s : CloseState 1} (hfiber : s.fiber 0 = .held 0 .read)
    (hholds : (s.contexts 0).Holds .read (.fiber 0)) (htasks : s.tasks 0 = []) :
    s.Stranded 0 := by
  refine ⟨⟨0, .read, hfiber⟩, ⟨0, .read, hholds⟩, fun m hmem => ?_⟩
  rw [Subsingleton.elim m 0, htasks] at hmem
  exact List.not_mem_nil hmem

/-- A plain thread closes the descriptor and cancels nothing; or a worker of the same
IOManager closes it between the fiber's test and its registration. -/
theorem not_clean_foreign :
    (¬ ∀ s, (system (fun _ => (0 : Fin 1)) none).Reachable s → s.Clean) ∧
      ¬ ∀ s, (system (fun _ => (0 : Fin 1)) (some 0)).Reachable s → s.Clean := by
  refine ⟨fun h => ?_, fun h => ?_⟩
  · have hrun : ((system (fun _ => (0 : Fin 1)) none).exec (start 1) (blockActions ++
        suspendActions ++ cancelActions ++ deleteActions)).any (fun s =>
          s.closer == .returned && (s.fiber 0 == .held 0 .read &&
            (decide ((s.contexts 0).Holds .read (.fiber 0)) && s.tasks 0 == []))) = true := by
      decide +kernel
    obtain ⟨s, hexec, hs⟩ := (Option.any_eq_true _ _).mp hrun
    simp only [Bool.and_eq_true, beq_iff_eq, decide_eq_true_eq] at hs
    obtain ⟨hreturned, hfiber, hholds, htasks⟩ := hs
    exact (h s (.exec (.init rfl) (System.meets_true _ _ _) hexec) hreturned).1 0
      (stranded_zero hfiber hholds htasks)
  · have hrun : ((system (fun _ => (0 : Fin 1)) (some 0)).exec (start 1) (blockActions ++
        cancelActions ++ suspendActions ++ deleteActions)).any (fun s =>
          s.closer == .returned && (s.fiber 0 == .held 0 .read &&
            (decide ((s.contexts 0).Holds .read (.fiber 0)) && s.tasks 0 == []))) = true := by
      decide +kernel
    obtain ⟨s, hexec, hs⟩ := (Option.any_eq_true _ _).mp hrun
    simp only [Bool.and_eq_true, beq_iff_eq, decide_eq_true_eq] at hs
    obtain ⟨hreturned, hfiber, hholds, htasks⟩ := hs
    exact (h s (.exec (.init rfl) (System.meets_true _ _ _) hexec) hreturned).1 0
      (stranded_zero hfiber hholds htasks)

end CloseState

end Hook

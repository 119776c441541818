/-
The event table of an IOManager.

`addEvent`, `delEvent`, `cancelEvent` and `processEvent` on all descriptors, in any
order and by any number of threads.  The critical section of each call on its context
is one step; the `fetch_sub` of a call and each `schedule` of its `trigger`s are steps
of their own, so that calls overlap.  `epoll_ctl` succeeds or fails at will.

Beside the fields of the code the table keeps a history: every successful `addEvent`
is numbered, `owner` names the registration that an event of a descriptor belongs to,
and `ended` and `scheduled` log how registrations end.

* `Step`, `step_cases` — everything that one step can do;
* `Balanced` — handlers and bits agree, and the pending count is that of the set bits
  and of what calls in progress have still to subtract;
* `balanced_of_reachable` — it holds in every state.
-/
import Droplet.Scheduler.FdContext
import Droplet.Lib.Tally
import Droplet.Lib.Transition
import Mathlib.Algebra.BigOperators.Group.Finset.Basic
import Mathlib.Data.Int.Basic

open Tally Transition Transition.System

namespace Scheduler

namespace EventMask

/-- The events of a mask, in the order in which `trigger` is called on them. -/
def toList (mask : EventMask) : List Event :=
  (if mask.read then [.read] else []) ++ (if mask.write then [.write] else [])

variable {mask : EventMask} {event : Event}

theorem mem_toList : event ∈ mask.toList ↔ mask.has event = true := by
  obtain ⟨r, w⟩ := mask
  cases event <;> cases r <;> cases w <;> simp [toList, has]

theorem nodup_toList (mask : EventMask) : mask.toList.Nodup := by
  obtain ⟨r, w⟩ := mask
  cases r <;> cases w <;> simp [toList]

/-- A new bit is one more. -/
theorem length_toList_union (h : mask.has event = false) :
    (mask.union (single event)).toList.length = mask.toList.length + 1 := by
  obtain ⟨r, w⟩ := mask
  cases event with
  | read =>
    obtain rfl : r = false := h
    cases w <;> rfl
  | write =>
    obtain rfl : w = false := h
    cases r <;> rfl

/-- The bits that are cleared and those that stay. -/
theorem length_toList_diff (a b : EventMask) :
    (a.diff b).toList.length + (a.inter b).toList.length = a.toList.length := by
  obtain ⟨ra, wa⟩ := a
  obtain ⟨rb, wb⟩ := b
  cases ra <;> cases wa <;> cases rb <;> cases wb <;> rfl

end EventMask

/-! ### Arguments of the calls -/

/-- `errno` of a call that fails; `ctl` is what `epoll_ctl` left there. -/
inductive Errno
  | inval
  | perm
  | exist
  | noent
  | ctl
  deriving DecidableEq

/-- `validEvent`: the event of `addEvent`. -/
def validEvent (event : BitVec 32) : Option Event :=
  if event = 1#32 then some .read
  else if event = 4#32 then some .write
  else none

/-- The mask of `delEvent` and `cancelEvent`: not `NONE`, and no bit outside
`kAllEvents`. -/
def validMask (event : BitVec 32) : Option EventMask :=
  if event = 0#32 ∨ event &&& ~~~5#32 ≠ 0#32 then none
  else some ⟨event &&& 1#32 ≠ 0#32, event &&& 4#32 ≠ 0#32⟩

/-- The handler of `addEvent`: the callback, or else the current fiber if it has a
stack of its own. -/
def handlerOf (cb current : Option ℕ) : Option Work :=
  match cb with
  | some cb => some (.callback cb)
  | none => current.map .fiber

def kMaxTrackedFd : ℕ := 1048576

/-- The context of a descriptor.  One that has not been made yet is one without
events: `delEvent` and `cancelEvent` answer `ENOENT` to both. -/
def getFdContext (fd : ℤ) : Option ℕ :=
  if fd < 0 ∨ fd > kMaxTrackedFd then none else some fd.toNat

/-! ### The table -/

/-- The calls that end registrations. -/
inductive Operation
  | delEvent
  | cancelEvent
  | processEvent
  deriving DecidableEq

/-- A call that has left its critical section.  `caller` is the worker that makes it,
or `none` for a thread that is no worker; each handler comes with the number of its
registration. -/
structure EventCall where
  caller : Option ℕ
  operation : Operation
  removed : ℕ
  handlers : List (ℕ × Work)
  deriving DecidableEq

/-- A successful `addEvent`. -/
structure Registration where
  fd : ℕ
  event : Event
  handler : Work
  deriving DecidableEq

/-- `fd_contexts_`, `pending_event_count_` (as an integer, so that an underflow would
show), the calls in progress, and the history. -/
structure EventTable where
  contexts : ℕ → FdContext
  pendingEventCount : ℤ
  calls : List EventCall
  registrations : List Registration
  owner : ℕ → Event → ℕ
  ended : List (ℕ × Operation)
  scheduled : List (ℕ × Work)

/-- One atomic step of a call. -/
inductive EventAction
  | addEvent (fd : ℤ) (event : BitVec 32) (cb current : Option ℕ) (epollCtl : Bool)
  | delEvent (caller : Option ℕ) (fd : ℤ) (event : BitVec 32) (epollCtl : Bool)
  | cancelEvent (caller : Option ℕ) (fd : ℤ) (event : BitVec 32) (epollCtl : Bool)
  | processEvent (caller : Option ℕ) (context : ℕ) (input output hangup : Bool)
  | fetchSub (call : ℕ)
  | trigger (call : ℕ)
  deriving DecidableEq

/-- `cancelAll`: `kAllEvents` is 5. -/
def EventAction.cancelAll (caller : Option ℕ) (fd : ℤ) (epollCtl : Bool) : EventAction :=
  .cancelEvent caller fd 5#32 epollCtl

namespace FdContext

/-- The handlers that leave a context, with the numbers of their registrations. -/
def labelled (c : FdContext) (owner : Event → ℕ) (mask : EventMask) : List (ℕ × Work) :=
  (c.events.inter mask).toList.filterMap fun event => (c.handler event).map (owner event, ·)

/-- They are the handlers that `detach` moves out. -/
theorem map_snd_labelled (c : FdContext) (owner : Event → ℕ) (mask : EventMask) :
    (c.labelled owner mask).map Prod.snd = (c.detach mask).2 := by
  obtain ⟨events, read, write⟩ := c
  show (((events.inter mask).toList).filterMap _).map Prod.snd =
    (if (events.inter mask).read then read.toList else []) ++
      (if (events.inter mask).write then write.toList else [])
  unfold EventMask.toList
  cases (events.inter mask).read <;> cases (events.inter mask).write <;> cases read <;>
    cases write <;> rfl

end FdContext

namespace EventTable

/-- A new table. -/
def start : EventTable where
  contexts := fun _ => .new
  pendingEventCount := 0
  calls := []
  registrations := []
  owner := fun _ _ => 0
  ended := []
  scheduled := []

/-- The end of the critical section of `addEvent`. -/
def register (s : EventTable) (fd : ℕ) (event : Event) (c : FdContext) (handler : Work) :
    EventTable :=
  { s with
    contexts := Function.update s.contexts fd c
    pendingEventCount := s.pendingEventCount + 1
    registrations := s.registrations ++ [⟨fd, event, handler⟩]
    owner := Function.update s.owner fd
      (Function.update (s.owner fd) event s.registrations.length) }

/-- The end of the other critical sections, where `mask` leaves the context `c`.
`delEvent` drops the handlers. -/
def take (s : EventTable) (caller : Option ℕ) (operation : Operation) (fd : ℕ)
    (mask : EventMask) (c : FdContext) : EventTable :=
  let actual := ((s.contexts fd).events.inter mask).toList
  { s with
    contexts := Function.update s.contexts fd c
    calls := s.calls ++ [{
      caller := caller
      operation := operation
      removed := actual.length
      handlers :=
        if operation = .delEvent then [] else (s.contexts fd).labelled (s.owner fd) mask }]
    ended := s.ended ++ actual.map fun event => (s.owner fd event, operation) }

/-- `addEvent`, up to its tickle. -/
def addEvent (s : EventTable) (fd : ℤ) (event : BitVec 32) (cb current : Option ℕ)
    (epollCtl : Bool) : Except Errno Unit × EventTable :=
  match validEvent event with
  | none => (.error .inval, s)
  | some event =>
    match handlerOf cb current with
    | none => (.error .perm, s)
    | some handler =>
      match getFdContext fd with
      | none => (.error .inval, s)
      | some fd =>
        match (s.contexts fd).addEvent event handler epollCtl with
        | none => (.error (if (s.contexts fd).events.has event then .exist else .ctl), s)
        | some c => (.ok (), s.register fd event c handler)

/-- The critical section of `delEvent`. -/
def delEvent (s : EventTable) (caller : Option ℕ) (fd : ℤ) (event : BitVec 32)
    (epollCtl : Bool) : Except Errno Unit × EventTable :=
  match validMask event with
  | none => (.error .inval, s)
  | some mask =>
    match getFdContext fd with
    | none => (.error .noent, s)
    | some fd =>
      match (s.contexts fd).delEvent mask epollCtl with
      | none =>
        (.error (if (s.contexts fd).events.inter mask = .none then .noent else .ctl), s)
      | some c => (.ok (), s.take caller .delEvent fd mask c)

/-- The critical section of `cancelEvent`. -/
def cancelEvent (s : EventTable) (caller : Option ℕ) (fd : ℤ) (event : BitVec 32)
    (epollCtl : Bool) : Except Errno Unit × EventTable :=
  match validMask event with
  | none => (.error .inval, s)
  | some mask =>
    match getFdContext fd with
    | none => (.error .noent, s)
    | some fd =>
      match (s.contexts fd).cancelEvent mask epollCtl with
      | none =>
        (.error (if (s.contexts fd).events.inter mask = .none then .noent else .ctl), s)
      | some (c, _) => (.ok (), s.take caller .cancelEvent fd mask c)

/-- The critical section of `processEvent`. -/
def processEvent (s : EventTable) (caller : Option ℕ) (context : ℕ) (ready : EventMask) :
    Bool × EventTable :=
  match (s.contexts context).processEvent ready with
  | none => (false, s)
  | some (c, _) => (true, s.take caller .processEvent context ready c)

/-- The `fetch_sub` of a call. -/
def fetchSub (s : EventTable) (i : ℕ) (call : EventCall) : EventTable :=
  { s with
    pendingEventCount := s.pendingEventCount - call.removed
    calls := s.calls.set i { call with removed := 0 } }

/-- The `schedule` of the next handler of a call. -/
def trigger (s : EventTable) (i : ℕ) (call : EventCall) (handler : ℕ × Work) : EventTable :=
  { s with
    calls := s.calls.set i { call with handlers := call.handlers.tail }
    scheduled := s.scheduled ++ [handler] }

/-- One step.  A call triggers its handlers once it has subtracted. -/
def step (s : EventTable) (action : EventAction) : Option EventTable :=
  match action with
  | .addEvent fd event cb current epollCtl => some (s.addEvent fd event cb current epollCtl).2
  | .delEvent caller fd event epollCtl => some (s.delEvent caller fd event epollCtl).2
  | .cancelEvent caller fd event epollCtl => some (s.cancelEvent caller fd event epollCtl).2
  | .processEvent caller context input output hangup =>
    if context ≤ kMaxTrackedFd then
      some (s.processEvent caller context (.ofEpoll input output hangup)).2
    else none
  | .fetchSub i =>
    s.calls[i]?.bind fun call => if call.removed = 0 then none else some (s.fetchSub i call)
  | .trigger i =>
    s.calls[i]?.bind fun call =>
      if call.removed = 0 then call.handlers.head?.map (s.trigger i call) else none

/-- All interleavings of the calls. -/
def system : System EventTable EventAction where
  init s := s = start
  step := step

/-! ### What a step can do -/

variable {s s' : EventTable} {action : EventAction} {caller : Option ℕ} {fd : ℤ}
  {event : BitVec 32} {cb current : Option ℕ} {epollCtl : Bool} {errno : Errno}

theorem le_of_getFdContext {k : ℕ} (h : getFdContext fd = some k) : k ≤ kMaxTrackedFd := by
  unfold getFdContext at h
  split at h
  · exact absurd h (by simp)
  · next hfd =>
    obtain rfl := Option.some_inj.mp h
    omega

/-- The steps, one constructor for each effect. -/
inductive Step (s : EventTable) : EventTable → Prop
  | failed : Step s s
  | register {k : ℕ} {event : Event} {handler : Work} (hk : k ≤ kMaxTrackedFd)
      (hbit : (s.contexts k).events.has event = false) :
      Step s (s.register k event ((s.contexts k).attach event handler) handler)
  | take {caller : Option ℕ} {operation : Operation} {k : ℕ} {mask : EventMask}
      (hk : k ≤ kMaxTrackedFd) (hmask : (s.contexts k).events.inter mask ≠ .none) :
      Step s (s.take caller operation k mask ((s.contexts k).detach mask).1)
  | fetchSub {i : ℕ} {call : EventCall} (hcall : s.calls[i]? = some call)
      (hremoved : call.removed ≠ 0) : Step s (s.fetchSub i call)
  | trigger {i : ℕ} {call : EventCall} {handler : ℕ × Work} {rest : List (ℕ × Work)}
      (hcall : s.calls[i]? = some call) (hremoved : call.removed = 0)
      (hhandlers : call.handlers = handler :: rest) : Step s (s.trigger i call handler)

/-- `addEvent` leaves the table alone and returns an error, or registers the handler. -/
theorem addEvent_cases (s : EventTable) (fd : ℤ) (event : BitVec 32) (cb current : Option ℕ)
    (epollCtl : Bool) :
    (∃ errno, s.addEvent fd event cb current epollCtl = (.error errno, s)) ∨
      ∃ e k handler, validEvent event = some e ∧ getFdContext fd = some k ∧
        handlerOf cb current = some handler ∧ (s.contexts k).events.has e = false ∧
        s.addEvent fd event cb current epollCtl =
          (.ok (), s.register k e ((s.contexts k).attach e handler) handler) := by
  unfold addEvent
  split
  · exact .inl ⟨_, rfl⟩
  · next e hevent =>
    split
    · exact .inl ⟨_, rfl⟩
    · next handler hhandler =>
      split
      · exact .inl ⟨_, rfl⟩
      · next k hk =>
        split
        · exact .inl ⟨_, rfl⟩
        · next c hc =>
          obtain ⟨hbit, -, rfl⟩ := FdContext.addEvent_eq_some_iff.mp hc
          exact .inr ⟨e, k, handler, hevent, hk, hhandler, hbit, rfl⟩

/-- `delEvent` leaves the table alone and returns an error, or drops the handlers. -/
theorem delEvent_cases (s : EventTable) (caller : Option ℕ) (fd : ℤ) (event : BitVec 32)
    (epollCtl : Bool) :
    (∃ errno, s.delEvent caller fd event epollCtl = (.error errno, s)) ∨
      ∃ mask k, validMask event = some mask ∧ getFdContext fd = some k ∧
        (s.contexts k).events.inter mask ≠ .none ∧
        s.delEvent caller fd event epollCtl =
          (.ok (), s.take caller .delEvent k mask ((s.contexts k).detach mask).1) := by
  unfold delEvent
  split
  · exact .inl ⟨_, rfl⟩
  · next mask hmask =>
    split
    · exact .inl ⟨_, rfl⟩
    · next k hk =>
      split
      · exact .inl ⟨_, rfl⟩
      · next c hc =>
        obtain ⟨hnone, -, rfl⟩ := FdContext.delEvent_eq_some_iff.mp hc
        exact .inr ⟨mask, k, hmask, hk, hnone, rfl⟩

/-- `cancelEvent` leaves the table alone and returns an error, or moves the handlers
out. -/
theorem cancelEvent_cases (s : EventTable) (caller : Option ℕ) (fd : ℤ) (event : BitVec 32)
    (epollCtl : Bool) :
    (∃ errno, s.cancelEvent caller fd event epollCtl = (.error errno, s)) ∨
      ∃ mask k, validMask event = some mask ∧ getFdContext fd = some k ∧
        (s.contexts k).events.inter mask ≠ .none ∧
        s.cancelEvent caller fd event epollCtl =
          (.ok (), s.take caller .cancelEvent k mask ((s.contexts k).detach mask).1) := by
  unfold cancelEvent
  split
  · exact .inl ⟨_, rfl⟩
  · next mask hmask =>
    split
    · exact .inl ⟨_, rfl⟩
    · next k hk =>
      split
      · exact .inl ⟨_, rfl⟩
      · next c detached hc =>
        obtain ⟨hnone, -, hdetach⟩ := FdContext.cancelEvent_eq_some_iff.mp hc
        obtain rfl : ((s.contexts k).detach mask).1 = c := congrArg Prod.fst hdetach
        exact .inr ⟨mask, k, hmask, hk, hnone, rfl⟩

/-- `processEvent` leaves the table alone and returns `false`, or moves the handlers
out, whatever `epoll_ctl` says. -/
theorem processEvent_cases (s : EventTable) (caller : Option ℕ) (context : ℕ)
    (ready : EventMask) :
    s.processEvent caller context ready = (false, s) ∨
      (s.contexts context).events.inter ready ≠ .none ∧
        s.processEvent caller context ready =
          (true, s.take caller .processEvent context ready
            ((s.contexts context).detach ready).1) := by
  unfold processEvent
  split
  · exact .inl rfl
  · next c detached hc =>
    obtain ⟨hnone, hdetach⟩ := FdContext.processEvent_eq_some_iff.mp hc
    obtain rfl : ((s.contexts context).detach ready).1 = c := congrArg Prod.fst hdetach
    exact .inr ⟨hnone, rfl⟩

/-- **Inversion**: a step has one of the effects. -/
theorem step_cases (h : s.step action = some s') : Step s s' := by
  cases action with
  | addEvent fd event cb current epollCtl =>
    obtain rfl := Option.some_inj.mp h
    obtain ⟨errno, heq⟩ | ⟨e, k, handler, -, hk, -, hbit, heq⟩ :=
      s.addEvent_cases fd event cb current epollCtl
    · rw [heq]
      exact .failed
    · rw [heq]
      exact .register (le_of_getFdContext hk) hbit
  | delEvent caller fd event epollCtl =>
    obtain rfl := Option.some_inj.mp h
    obtain ⟨errno, heq⟩ | ⟨mask, k, -, hk, hmask, heq⟩ := s.delEvent_cases caller fd event epollCtl
    · rw [heq]
      exact .failed
    · rw [heq]
      exact .take (le_of_getFdContext hk) hmask
  | cancelEvent caller fd event epollCtl =>
    obtain rfl := Option.some_inj.mp h
    obtain ⟨errno, heq⟩ | ⟨mask, k, -, hk, hmask, heq⟩ :=
      s.cancelEvent_cases caller fd event epollCtl
    · rw [heq]
      exact .failed
    · rw [heq]
      exact .take (le_of_getFdContext hk) hmask
  | processEvent caller context input output hangup =>
    obtain ⟨hk, heq⟩ := Option.ite_none_right_eq_some.mp h
    obtain rfl := Option.some_inj.mp heq
    obtain heq | ⟨hmask, heq⟩ := s.processEvent_cases caller context (.ofEpoll input output hangup)
    · rw [heq]
      exact .failed
    · rw [heq]
      exact .take hk hmask
  | fetchSub i =>
    obtain ⟨call, hcall, heq⟩ := Option.bind_eq_some_iff.mp h
    obtain ⟨hremoved, heq⟩ := Option.ite_none_left_eq_some.mp heq
    obtain rfl := Option.some_inj.mp heq
    exact .fetchSub hcall hremoved
  | trigger i =>
    obtain ⟨call, hcall, heq⟩ := Option.bind_eq_some_iff.mp h
    obtain ⟨hremoved, heq⟩ := Option.ite_none_right_eq_some.mp heq
    obtain ⟨handler, hhead, rfl⟩ := Option.map_eq_some_iff.mp heq
    obtain ⟨rest, hhandlers⟩ := List.head?_eq_some_iff.mp hhead
    exact .trigger hcall hremoved hhandlers

/-! ### The pending count -/

/-- The set bits of all contexts. -/
def setBits (contexts : ℕ → FdContext) : ℕ :=
  ∑ fd ∈ Finset.range (kMaxTrackedFd + 1), (contexts fd).events.toList.length

/-- What the calls in progress have still to subtract. -/
def unsubtracted (calls : List EventCall) : ℕ := (calls.map EventCall.removed).sum

/-- The set bits when one context changes. -/
theorem setBits_update (contexts : ℕ → FdContext) {k : ℕ} (hk : k ≤ kMaxTrackedFd)
    (c : FdContext) :
    setBits (Function.update contexts k c) + (contexts k).events.toList.length =
      setBits contexts + c.events.toList.length := by
  have hmem : k ∈ Finset.range (kMaxTrackedFd + 1) := Finset.mem_range.mpr (by omega)
  have hrest : ∑ fd ∈ (Finset.range (kMaxTrackedFd + 1)).erase k,
      (Function.update contexts k c fd).events.toList.length =
        ∑ fd ∈ (Finset.range (kMaxTrackedFd + 1)).erase k,
          (contexts fd).events.toList.length := by
    refine Finset.sum_congr rfl fun fd hfd => ?_
    rw [Function.update_of_ne (Finset.ne_of_mem_erase hfd)]
  unfold setBits
  rw [← Finset.add_sum_erase _ _ hmem, hrest, Function.update_self,
    ← Finset.add_sum_erase _ (fun fd => (contexts fd).events.toList.length) hmem]
  omega

theorem unsubtracted_append (calls : List EventCall) (call : EventCall) :
    unsubtracted (calls ++ [call]) = unsubtracted calls + call.removed :=
  tally_concat calls call

/-- What is left to subtract when one call changes. -/
theorem unsubtracted_set {calls : List EventCall} {i : ℕ} {call : EventCall}
    (hcall : calls[i]? = some call) (call' : EventCall) :
    unsubtracted (calls.set i call') + call.removed = unsubtracted calls + call'.removed :=
  tally_set hcall call'

/-- A bit is set where there is a handler, and the pending count is that of the set
bits and of what has still to be subtracted. -/
structure Balanced (s : EventTable) : Prop where
  agree : ∀ fd event, (s.contexts fd).events.has event = ((s.contexts fd).handler event).isSome
  count : s.pendingEventCount = setBits s.contexts + unsubtracted s.calls

theorem balanced_start : start.Balanced := by
  refine ⟨fun fd event => ?_, ?_⟩
  · cases event with
    | read => rfl
    | write => rfl
  · show (0 : ℤ) = (setBits fun _ => .new : ℕ) + (unsubtracted [] : ℕ)
    have hbits : setBits (fun _ => .new) = 0 := Finset.sum_eq_zero fun _ _ => rfl
    rw [hbits]
    rfl

namespace Balanced

/-- One context changes, and agrees again. -/
theorem agree_update (h : s.Balanced) {k : ℕ} {c : FdContext}
    (hc : ∀ event, c.events.has event = (c.handler event).isSome) (fd : ℕ) (event : Event) :
    (Function.update s.contexts k c fd).events.has event =
      ((Function.update s.contexts k c fd).handler event).isSome := by
  by_cases hfd : fd = k
  · rw [hfd, Function.update_self]
    exact hc event
  · rw [Function.update_of_ne hfd]
    exact h.agree fd event

/-- **Balance** is kept by every step. -/
theorem step (h : s.Balanced) (hstep : Step s s') : s'.Balanced := by
  cases hstep with
  | failed => exact h
  | @register k event handler hk hbit =>
    refine ⟨h.agree_update fun other => ?_, ?_⟩
    · -- the new event gets both, the other one keeps what it has
      rw [FdContext.has_attach, FdContext.handler_attach]
      by_cases heq : other = event
      · simp [heq]
      · rw [if_neg heq, h.agree k other]
        simp [heq]
    · have hbits := setBits_update s.contexts hk ((s.contexts k).attach event handler)
      have hone : ((s.contexts k).attach event handler).events.toList.length =
          (s.contexts k).events.toList.length + 1 := by
        rw [← EventMask.length_toList_union hbit]
        cases event with
        | read => rfl
        | write => rfl
      have hcount := h.count
      show s.pendingEventCount + 1 = (setBits (Function.update s.contexts k _) : ℤ) +
        unsubtracted s.calls
      omega
  | @take caller operation k mask hk hmask =>
    refine ⟨h.agree_update fun other => ?_, ?_⟩
    · rw [FdContext.has_detach, FdContext.handler_detach, h.agree k other]
      cases mask.has other <;> cases (s.contexts k).handler other <;> rfl
    · -- the bits that are cleared are still to be subtracted
      have hbits := setBits_update s.contexts hk ((s.contexts k).detach mask).1
      have hdiff := EventMask.length_toList_diff (s.contexts k).events mask
      have hcount := h.count
      show s.pendingEventCount = (setBits (Function.update s.contexts k _) : ℤ) +
        unsubtracted (s.calls ++ [_])
      rw [unsubtracted_append]
      have hsame : ((s.contexts k).detach mask).1.events = (s.contexts k).events.diff mask := rfl
      rw [hsame] at hbits
      show s.pendingEventCount = (setBits (Function.update s.contexts k _) : ℤ) +
        ((unsubtracted s.calls + ((s.contexts k).events.inter mask).toList.length : ℕ) : ℤ)
      omega
  | @fetchSub i call hcall hremoved =>
    refine ⟨h.agree, ?_⟩
    have hset := unsubtracted_set hcall { call with removed := 0 }
    have hcount := h.count
    show s.pendingEventCount - call.removed = (setBits s.contexts : ℤ) +
      unsubtracted (s.calls.set i { call with removed := 0 })
    have hset : unsubtracted (s.calls.set i { call with removed := 0 }) + call.removed =
      unsubtracted s.calls := hset
    omega
  | @trigger i call handler rest hcall hremoved hhandlers =>
    refine ⟨h.agree, ?_⟩
    have hset := unsubtracted_set hcall { call with handlers := call.handlers.tail }
    have hcount := h.count
    show s.pendingEventCount = (setBits s.contexts : ℤ) +
      unsubtracted (s.calls.set i { call with handlers := call.handlers.tail })
    have hset : unsubtracted (s.calls.set i { call with handlers := call.handlers.tail }) +
      call.removed = unsubtracted s.calls + call.removed := hset
    omega

end Balanced

theorem balanced_of_reachable (h : system.Reachable s) : s.Balanced := by
  refine h.invariant ?_ fun s action s' hs _ hstep => hs.step (step_cases hstep)
  rintro s rfl
  exact balanced_start

/-! ### Failing calls -/

/-- A call that returns an error leaves the whole table as it was. -/
structure Atomic (s : EventTable) : Prop where
  addEvent : ∀ fd event cb current epollCtl errno,
    (s.addEvent fd event cb current epollCtl).1 = .error errno →
      (s.addEvent fd event cb current epollCtl).2 = s
  delEvent : ∀ caller fd event epollCtl errno,
    (s.delEvent caller fd event epollCtl).1 = .error errno →
      (s.delEvent caller fd event epollCtl).2 = s
  cancelEvent : ∀ caller fd event epollCtl errno,
    (s.cancelEvent caller fd event epollCtl).1 = .error errno →
      (s.cancelEvent caller fd event epollCtl).2 = s
  processEvent : ∀ caller context ready,
    (s.processEvent caller context ready).1 = false →
      (s.processEvent caller context ready).2 = s

theorem atomic (s : EventTable) : s.Atomic := by
  constructor
  · intro fd event cb current epollCtl errno herror
    obtain ⟨_, heq⟩ | ⟨_, _, _, -, -, -, -, heq⟩ := s.addEvent_cases fd event cb current epollCtl
    · rw [heq]
    · rw [heq] at herror
      exact absurd herror (by simp)
  · intro caller fd event epollCtl errno herror
    obtain ⟨_, heq⟩ | ⟨_, _, -, -, -, heq⟩ := s.delEvent_cases caller fd event epollCtl
    · rw [heq]
    · rw [heq] at herror
      exact absurd herror (by simp)
  · intro caller fd event epollCtl errno herror
    obtain ⟨_, heq⟩ | ⟨_, _, -, -, -, heq⟩ := s.cancelEvent_cases caller fd event epollCtl
    · rw [heq]
    · rw [heq] at herror
      exact absurd herror (by simp)
  · intro caller context ready hfalse
    obtain heq | ⟨-, heq⟩ := s.processEvent_cases caller context ready
    · rw [heq]
    · rw [heq] at hfalse
      exact absurd hfalse (by simp)

/-- **The representation invariant** in every reachable state: bits and handlers agree,
the pending count is exact, so that it never underflows and is the number of set bits
when no call has still to subtract, and a failing call changes nothing. -/
theorem represented_of_reachable (h : system.Reachable s) :
    (∀ fd event, (s.contexts fd).events.has event = true ↔
      (s.contexts fd).handler event ≠ none) ∧
    s.pendingEventCount = setBits s.contexts + unsubtracted s.calls ∧
    0 ≤ s.pendingEventCount ∧
    ((∀ call ∈ s.calls, call.removed = 0) → s.pendingEventCount = setBits s.contexts) ∧
    s.Atomic := by
  have hbalanced := balanced_of_reachable h
  have hcount := hbalanced.count
  refine ⟨fun fd event => ?_, hcount, by omega, fun hidle => ?_, s.atomic⟩
  · rw [hbalanced.agree fd event, Option.isSome_iff_ne_none]
  · have hzero : unsubtracted s.calls = 0 := by
      refine List.sum_eq_zero fun removed hmem => ?_
      obtain ⟨call, hcall, rfl⟩ := List.mem_map.mp hmem
      exact hidle call hcall
    omega

/-- A descriptor that is read and written: the read event is ready, and the call that
handles it has not subtracted yet. -/
theorem represented_in_progress :
    ∃ s, system.exec start [.addEvent 3 1#32 (some 7) none true,
        .addEvent 3 4#32 none (some 8) true, .addEvent 3 1#32 (some 9) none true,
        .processEvent (some 0) 3 true false false] = some s ∧
      s.pendingEventCount = 2 ∧ unsubtracted s.calls = 1 ∧
      s.pendingEventCount = setBits s.contexts + unsubtracted s.calls ∧ s.Atomic := by
  obtain ⟨s, hs⟩ : ∃ s, system.exec start [.addEvent 3 1#32 (some 7) none true,
      .addEvent 3 4#32 none (some 8) true, .addEvent 3 1#32 (some 9) none true,
      .processEvent (some 0) 3 true false false] = some s := ⟨_, rfl⟩
  have hreach := (ReachableWhile.init (C := fun _ _ => True) rfl).exec (meets_true _ _ _) hs
  have hrep := represented_of_reachable hreach
  refine ⟨s, hs, ?_, ?_, hrep.2.1, hrep.2.2.2.2⟩
  · obtain rfl := Option.some_inj.mp hs
    decide +kernel
  · obtain rfl := Option.some_inj.mp hs
    decide +kernel

end EventTable

end Scheduler

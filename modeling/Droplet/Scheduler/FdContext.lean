/-
The events registered on a descriptor.

Every operation of `IOManager` on a descriptor is one critical section on its
`FdContext`.  The handlers that `cancelEvent` and `processEvent` detach are returned
in the order in which `trigger` schedules them.

* `addEvent_eq_some_iff`, `delEvent_eq_some_iff`, `cancelEvent_eq_some_iff`,
  `processEvent_eq_some_iff` — when they succeed;
* `has_attach`, `handler_attach`, `has_detach`, `handler_detach` — what they do to
  the bit and the handler of each event;
* `mem_handlers_detach` — a detached handler was registered, and what stays
  registered was registered before.
-/
import Droplet.Scheduler.Fiber

namespace Scheduler

/-- One of `READ` and `WRITE`; `validEvent` admits nothing else. -/
inductive Event
  | read
  | write
  deriving DecidableEq

/-- `EventMask`, by its bits. -/
structure EventMask where
  read : Bool
  write : Bool
  deriving DecidableEq

namespace EventMask

/-- `NONE`. -/
def none : EventMask := ⟨false, false⟩

/-- `kAllEvents`. -/
def all : EventMask := ⟨true, true⟩

/-- The mask of one event. -/
def single : Event → EventMask
  | .read => ⟨true, false⟩
  | .write => ⟨false, true⟩

/-- The bit of an event. -/
def has (mask : EventMask) : Event → Bool
  | .read => mask.read
  | .write => mask.write

/-- `a | b`. -/
def union (a b : EventMask) : EventMask := ⟨a.read || b.read, a.write || b.write⟩

/-- `a & b`. -/
def inter (a b : EventMask) : EventMask := ⟨a.read && b.read, a.write && b.write⟩

/-- `a & ~b`. -/
def diff (a b : EventMask) : EventMask := ⟨a.read && !b.read, a.write && !b.write⟩

@[simp] theorem has_none (event : Event) : none.has event = false := by
  cases event <;> rfl

@[simp] theorem has_all (event : Event) : all.has event = true := by
  cases event <;> rfl

@[simp] theorem has_single (event other : Event) :
    (single event).has other = decide (other = event) := by
  cases event <;> cases other <;> rfl

@[simp] theorem has_union (a b : EventMask) (event : Event) :
    (a.union b).has event = (a.has event || b.has event) := by
  cases event <;> rfl

@[simp] theorem has_inter (a b : EventMask) (event : Event) :
    (a.inter b).has event = (a.has event && b.has event) := by
  cases event <;> rfl

@[simp] theorem has_diff (a b : EventMask) (event : Event) :
    (a.diff b).has event = (a.has event && !b.has event) := by
  cases event <;> rfl

/-- A mask is given by its bits. -/
theorem ext_has {a b : EventMask} (h : ∀ event, a.has event = b.has event) : a = b := by
  obtain ⟨ra, wa⟩ := a
  obtain ⟨rb, wb⟩ := b
  exact EventMask.mk.injEq .. ▸ ⟨h .read, h .write⟩

theorem eq_none_iff {mask : EventMask} : mask = none ↔ ∀ event, mask.has event = false :=
  ⟨fun h event => by rw [h, has_none], fun h => ext_has fun event => by rw [h, has_none]⟩

/-- What `processEvent` makes of the bits that `epoll_wait` reports: an error or a
hang-up is readiness for both. -/
def ofEpoll (input output hangup : Bool) : EventMask := ⟨input || hangup, output || hangup⟩

end EventMask

/-- `IOManager::FdContext`; an empty `EventContext` is `none`. -/
structure FdContext where
  events : EventMask
  read : Option Work
  write : Option Work
  deriving DecidableEq

namespace FdContext

/-- A context that was just made. -/
def new : FdContext where
  events := .none
  read := none
  write := none

/-- The handlers that are registered. -/
def handlers (c : FdContext) : List Work := c.read.toList ++ c.write.toList

/-- The handler of one event. -/
def handler (c : FdContext) : Event → Option Work
  | .read => c.read
  | .write => c.write

/-- The handler is registered for the event. -/
def Holds (c : FdContext) (event : Event) (handler : Work) : Prop :=
  c.events.has event = true ∧ c.handler event = some handler

instance (c : FdContext) (event : Event) (handler : Work) : Decidable (c.Holds event handler) :=
  inferInstanceAs (Decidable (_ ∧ _))

/-- Register a handler and set its bit. -/
def attach (c : FdContext) (event : Event) (handler : Work) : FdContext :=
  match event with
  | .read => { c with events := c.events.union (.single .read), read := some handler }
  | .write => { c with events := c.events.union (.single .write), write := some handler }

/-- Clear the bits of `mask` and move their handlers out. -/
def detach (c : FdContext) (mask : EventMask) : FdContext × List Work :=
  let actual := c.events.inter mask
  ({ events := c.events.diff mask
     read := if actual.read then none else c.read
     write := if actual.write then none else c.write },
   (if actual.read then c.read.toList else []) ++ (if actual.write then c.write.toList else []))

/-- The critical section of `addEvent`; `epollCtl` tells whether `updateEpoll`
succeeds. -/
def addEvent (c : FdContext) (event : Event) (handler : Work) (epollCtl : Bool) :
    Option FdContext :=
  if c.events.has event then none
  else if epollCtl then some (c.attach event handler)
  else none

/-- The critical section of `cancelEvent`, and of `cancelAll` for all events. -/
def cancelEvent (c : FdContext) (mask : EventMask) (epollCtl : Bool) :
    Option (FdContext × List Work) :=
  if c.events.inter mask = .none then none
  else if epollCtl then some (c.detach mask)
  else none

/-- The critical section of `delEvent`: the handlers are dropped. -/
def delEvent (c : FdContext) (mask : EventMask) (epollCtl : Bool) : Option FdContext :=
  if c.events.inter mask = .none then none
  else if epollCtl then some (c.detach mask).1
  else none

/-- The critical section of `processEvent`; the result of `updateEpoll` is ignored. -/
def processEvent (c : FdContext) (ready : EventMask) : Option (FdContext × List Work) :=
  if c.events.inter ready = .none then none
  else some (c.detach ready)

section lemmas

variable {c c' : FdContext} {event : Event} {handler h : Work} {mask : EventMask}
  {epollCtl : Bool} {detached : List Work}

theorem addEvent_eq_some_iff :
    c.addEvent event handler epollCtl = some c' ↔
      c.events.has event = false ∧ epollCtl = true ∧ c' = c.attach event handler := by
  unfold addEvent
  cases hhas : c.events.has event with
  | true => simp
  | false =>
    cases epollCtl with
    | true => simp [eq_comm]
    | false => simp

theorem delEvent_eq_some_iff :
    c.delEvent mask epollCtl = some c' ↔
      c.events.inter mask ≠ .none ∧ epollCtl = true ∧ c' = (c.detach mask).1 := by
  unfold delEvent
  by_cases hnone : c.events.inter mask = .none
  · rw [if_pos hnone]
    exact ⟨fun h => absurd h (by simp), fun h => absurd hnone h.1⟩
  · rw [if_neg hnone]
    cases epollCtl with
    | true => simp [hnone, eq_comm]
    | false => simp

theorem cancelEvent_eq_some_iff :
    c.cancelEvent mask epollCtl = some (c', detached) ↔
      c.events.inter mask ≠ .none ∧ epollCtl = true ∧ c.detach mask = (c', detached) := by
  unfold cancelEvent
  by_cases hnone : c.events.inter mask = .none
  · rw [if_pos hnone]
    exact ⟨fun h => absurd h (by simp), fun h => absurd hnone h.1⟩
  · rw [if_neg hnone]
    cases epollCtl with
    | true => simp [hnone]
    | false => simp

theorem processEvent_eq_some_iff :
    c.processEvent mask = some (c', detached) ↔
      c.events.inter mask ≠ .none ∧ c.detach mask = (c', detached) := by
  unfold processEvent
  by_cases hnone : c.events.inter mask = .none
  · rw [if_pos hnone]
    exact ⟨fun h => absurd h (by simp), fun h => absurd hnone h.1⟩
  · rw [if_neg hnone, Option.some_inj]
    exact ⟨fun h => ⟨hnone, h⟩, fun h => h.2⟩

theorem mem_handlers : h ∈ c.handlers ↔ c.read = some h ∨ c.write = some h := by
  rw [handlers, List.mem_append, Option.mem_toList, Option.mem_toList]

/-- What is registered is registered for an event. -/
theorem mem_handlers_iff_handler : h ∈ c.handlers ↔ ∃ event, c.handler event = some h := by
  rw [mem_handlers]
  constructor
  · rintro (hread | hwrite)
    · exact ⟨.read, hread⟩
    · exact ⟨.write, hwrite⟩
  · rintro ⟨event, hhandler⟩
    cases event with
    | read => exact .inl hhandler
    | write => exact .inr hhandler

/-- The bit of the new event is set, the others stay. -/
theorem has_attach (other : Event) :
    (c.attach event handler).events.has other = (c.events.has other || decide (other = event)) := by
  cases event with
  | read => exact (EventMask.has_union _ _ _).trans (by rw [EventMask.has_single])
  | write => exact (EventMask.has_union _ _ _).trans (by rw [EventMask.has_single])

/-- The new event has the new handler, the other keeps its own. -/
theorem handler_attach (other : Event) :
    (c.attach event handler).handler other = if other = event then some handler
      else c.handler other := by
  cases event with
  | read => cases other <;> rfl
  | write => cases other <;> rfl

/-- The bits of the mask are cleared, the others stay. -/
theorem has_detach (other : Event) :
    (c.detach mask).1.events.has other = (c.events.has other && !mask.has other) :=
  EventMask.has_diff _ _ _

/-- The handlers of the mask are moved out where their bits are set. -/
theorem handler_detach (other : Event) :
    (c.detach mask).1.handler other =
      if c.events.has other && mask.has other then none else c.handler other := by
  cases other with
  | read => rfl
  | write => rfl

/-- A handler that stays was there before. -/
theorem handler_of_detach {other : Event} (hhandler : (c.detach mask).1.handler other = some h) :
    c.handler other = some h := by
  rw [handler_detach] at hhandler
  exact (Option.ite_none_left_eq_some.mp hhandler).2

/-- What is moved out are the handlers of the mask whose bits are set. -/
theorem mem_detached_iff :
    h ∈ (c.detach mask).2 ↔
      ∃ event, c.events.has event = true ∧ mask.has event = true ∧ c.handler event = some h := by
  show h ∈ (if (c.events.inter mask).read then c.read.toList else []) ++
    (if (c.events.inter mask).write then c.write.toList else []) ↔ _
  rw [List.mem_append, List.mem_ite_nil_right, List.mem_ite_nil_right, Option.mem_toList,
    Option.mem_toList]
  constructor
  · rintro (⟨hbits, hread⟩ | ⟨hbits, hwrite⟩)
    · obtain ⟨hhas, hmask⟩ := (Bool.and_eq_true _ _).mp hbits
      exact ⟨.read, hhas, hmask, hread⟩
    · obtain ⟨hhas, hmask⟩ := (Bool.and_eq_true _ _).mp hbits
      exact ⟨.write, hhas, hmask, hwrite⟩
  · rintro ⟨event, hhas, hmask, hhandler⟩
    cases event with
    | read => exact .inl ⟨(Bool.and_eq_true _ _).mpr ⟨hhas, hmask⟩, hhandler⟩
    | write => exact .inr ⟨(Bool.and_eq_true _ _).mpr ⟨hhas, hmask⟩, hhandler⟩

/-- After a registration: the new handler, and the old ones of the other event. -/
theorem holds_attach_iff {other : Event} :
    (c.attach event handler).Holds other h ↔
      other = event ∧ h = handler ∨ other ≠ event ∧ c.Holds other h := by
  unfold Holds
  rw [has_attach, handler_attach]
  by_cases heq : other = event
  · rw [if_pos heq, Option.some_inj]
    refine ⟨fun hholds => .inl ⟨heq, hholds.2.symm⟩, fun hcases => ?_⟩
    rcases hcases with ⟨-, hh⟩ | ⟨hne, -⟩
    · exact ⟨by simp [heq], hh.symm⟩
    · exact absurd heq hne
  · simp [heq]

/-- What stays registered is what the mask leaves out. -/
theorem holds_detach_iff {other : Event} :
    (c.detach mask).1.Holds other h ↔ c.Holds other h ∧ mask.has other = false := by
  unfold Holds
  rw [has_detach, handler_detach]
  cases hmask : mask.has other with
  | true => simp
  | false => simp

/-- What is registered for an event of the mask is moved out. -/
theorem Holds.mem_detached {other : Event} (mask : EventMask) (hholds : c.Holds other h)
    (hmask : mask.has other = true) : h ∈ (c.detach mask).2 :=
  mem_detached_iff.mpr ⟨other, hholds.1, hmask, hholds.2⟩

/-- Nothing is registered after everything was detached. -/
theorem events_detach_all (c : FdContext) : (c.detach .all).1.events = .none :=
  EventMask.eq_none_iff.mpr fun event => by
    rw [has_detach, EventMask.has_all, Bool.not_true, Bool.and_false]

theorem events_detach_of_none (hnone : c.events = .none) : (c.detach mask).1.events = .none :=
  EventMask.eq_none_iff.mpr fun event => by
    rw [has_detach, hnone, EventMask.has_none, Bool.false_and]

/-- `cancelEvent` and `processEvent` find nothing when no bit of the mask is set. -/
theorem inter_eq_none_iff :
    c.events.inter mask = .none ↔
      ∀ event, mask.has event = true → c.events.has event = false := by
  rw [EventMask.eq_none_iff]
  refine forall_congr' fun event => ?_
  rw [EventMask.has_inter]
  cases c.events.has event <;> cases mask.has event <;> simp

/-- A handler of the new context is the new one or was there before. -/
theorem mem_handlers_attach (hmem : h ∈ (c.attach event handler).handlers) :
    h = handler ∨ h ∈ c.handlers := by
  rw [mem_handlers] at hmem ⊢
  cases event with
  | read =>
    rcases hmem with hread | hwrite
    · exact .inl (Option.some_inj.mp hread).symm
    · exact .inr (.inr hwrite)
  | write =>
    rcases hmem with hread | hwrite
    · exact .inr (.inl hread)
    · exact .inl (Option.some_inj.mp hwrite).symm

/-- A registered handler is moved out or stays. -/
theorem mem_handlers_or_detached (mask : EventMask) (hmem : h ∈ c.handlers) :
    h ∈ (c.detach mask).1.handlers ∨ h ∈ (c.detach mask).2 := by
  obtain ⟨event, hhandler⟩ := mem_handlers_iff_handler.mp hmem
  by_cases hbits : c.events.has event = true ∧ mask.has event = true
  · exact .inr (mem_detached_iff.mpr ⟨event, hbits.1, hbits.2, hhandler⟩)
  · refine .inl (mem_handlers_iff_handler.mpr ⟨event, ?_⟩)
    rwa [handler_detach, if_neg (by rwa [Bool.and_eq_true])]

/-- A detached handler was registered, and what stays was registered before. -/
theorem mem_handlers_detach (hdetach : c.detach mask = (c', detached)) :
    (∀ h ∈ c'.handlers, h ∈ c.handlers) ∧ ∀ h ∈ detached, h ∈ c.handlers := by
  obtain ⟨rfl, rfl⟩ := Prod.mk.inj hdetach
  constructor
  · intro h hmem
    rw [mem_handlers] at hmem ⊢
    refine hmem.imp (fun hread => ?_) (fun hwrite => ?_)
    · exact (Option.ite_none_left_eq_some.mp hread).2
    · exact (Option.ite_none_left_eq_some.mp hwrite).2
  · intro h hmem
    rw [mem_handlers]
    rw [List.mem_append, List.mem_ite_nil_right, List.mem_ite_nil_right, Option.mem_toList,
      Option.mem_toList] at hmem
    exact hmem.imp And.right And.right

end lemmas

end FdContext

end Scheduler

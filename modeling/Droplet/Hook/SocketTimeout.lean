/-
The receive and send timeouts of a socket.

A timeout is kept twice: by the kernel as a `timeval`, for calls that block in it, and by
the `FdCtx` of the descriptor in milliseconds, for hooked calls.  The context is made by
the first hooked call and then reads what the kernel has; after that `setsockopt` keeps
both in step.  Zero means no timeout in the kernel, `UINT64_MAX` in the context.

* `InForce` — the timeout that both kinds of calls observe;
* `setTimeout_kernel`, `setTimeout_context` — what `setRecvTimeout` and `setSendTimeout`
  leave in both places.
-/
import Droplet.Hook.Timeout
import Mathlib.Logic.Function.Basic
import Mathlib.Tactic.SplitIfs

namespace Hook

/-- `timeval`. -/
structure Timeval where
  sec : ℤ
  usec : ℤ
  deriving DecidableEq

/-- `SO_RCVTIMEO` and `SO_SNDTIMEO`. -/
inductive TimeoutOption
  | recv | send
  deriving DecidableEq

/-- The largest `u64`. -/
def noTimeoutMs : UInt64 := UInt64.ofNat (2 ^ 64 - 1)

namespace Timeval

def noTimeout (timeout : Timeval) : Bool := timeout.sec == 0 && timeout.usec == 0

/-- The timeout of a context; a fraction of a millisecond is rounded up. -/
def toMilliseconds (timeout : Timeval) : UInt64 :=
  if timeout.noTimeout then noTimeoutMs
  else UInt64.ofInt timeout.sec * 1000 + UInt64.ofInt (timeout.usec + 999) / 1000

end Timeval

/-- An open socket: the options in the kernel, and the timeouts of its `FdCtx` if it has one. -/
structure SocketTimeouts where
  kernel : TimeoutOption → Timeval
  context : Option (TimeoutOption → UInt64)

namespace SocketTimeouts

/-- A socket without a context. -/
def new : SocketTimeouts := ⟨fun _ => ⟨0, 0⟩, none⟩

/-- `FdManager::get(fd, true)` of a hooked call, which makes the context. -/
def getContext (s : SocketTimeouts) : SocketTimeouts :=
  match s.context with
  | some _ => s
  | none => { s with context := some fun option => (s.kernel option).toMilliseconds }

/-- The `setsockopt` of the system, which refuses microseconds out of range. -/
def setsockoptF (s : SocketTimeouts) (option : TimeoutOption) (value : Timeval) :
    Option SocketTimeouts :=
  if 0 ≤ value.usec ∧ value.usec < 1000000 then
    some { s with kernel := Function.update s.kernel option value }
  else none

/-- The hooked `setsockopt`. -/
def setsockopt (s : SocketTimeouts) (option : TimeoutOption) (value : Timeval) :
    SocketTimeouts :=
  match s.setsockoptF option value with
  | none => s
  | some s =>
    { s with context := s.context.map fun context =>
        Function.update context option value.toMilliseconds }

/-- The body of `Socket::setRecvTimeout` and `Socket::setSendTimeout`. -/
def setTimeout (s : SocketTimeouts) (option : TimeoutOption) (milliseconds : ℤ) :
    SocketTimeouts :=
  let milliseconds := if milliseconds < 0 then 0 else milliseconds
  s.setsockopt option ⟨milliseconds.tdiv 1000, milliseconds.tmod 1000 * 1000⟩

def setRecvTimeout (s : SocketTimeouts) (milliseconds : ℤ) : SocketTimeouts :=
  s.setTimeout .recv milliseconds

def setSendTimeout (s : SocketTimeouts) (milliseconds : ℤ) : SocketTimeouts :=
  s.setTimeout .send milliseconds

/-- How long a call that blocks in the kernel waits, in milliseconds. -/
def blocking (s : SocketTimeouts) (option : TimeoutOption) : Option ℕ :=
  if (s.kernel option).noTimeout then none
  else some ((s.kernel option).sec.toNat * 1000 + (s.kernel option).usec.toNat / 1000)

def TimeoutOption.event : TimeoutOption → Scheduler.Event
  | .recv => .read
  | .send => .write

/-- How long a hooked call waits. -/
def hooked (s : SocketTimeouts) (option : TimeoutOption) : Option ℕ :=
  s.getContext.context.bind fun context =>
    if (Call.doIo (TimeoutOption.event option)).arms (context option) then
      some (context option).toNat
    else none

/-- Every call waits for so long, receiving and sending. -/
structure InForce (s : SocketTimeouts) (timeout : Option ℕ) : Prop where
  blocking : ∀ option, s.blocking option = timeout
  hooked : ∀ option, s.hooked option = timeout

/-! ### Milliseconds -/

/-- The `timeval` of a timeout in milliseconds. -/
def timevalOf (timeout : ℕ) : Timeval := ⟨(timeout / 1000 : ℕ), (timeout % 1000 * 1000 : ℕ)⟩

theorem noTimeout_timevalOf (timeout : ℕ) :
    (timevalOf timeout).noTimeout = true ↔ timeout = 0 := by
  simp only [Timeval.noTimeout, timevalOf, Bool.and_eq_true, beq_iff_eq, Int.natCast_eq_zero]
  omega

theorem toNat_ofInt {n : ℕ} (h : n < 2 ^ 64) : (UInt64.ofInt (n : ℤ)).toNat = n := by
  have hmod : ((n : ℤ) % 2 ^ 64).toNat = n := by omega
  rw [UInt64.ofInt, hmod]
  exact Nat.mod_eq_of_lt h

theorem toMilliseconds_timevalOf {timeout : ℕ} (hpos : timeout ≠ 0) (hlt : timeout < 2 ^ 63) :
    (timevalOf timeout).toMilliseconds.toNat = timeout := by
  have hsome : ¬ (timevalOf timeout).noTimeout = true := mt (noTimeout_timevalOf timeout).mp hpos
  have husec : (((timeout % 1000 * 1000 : ℕ) : ℤ) + 999) =
      ((timeout % 1000 * 1000 + 999 : ℕ) : ℤ) := by
    omega
  have hthousand : (1000 : UInt64).toNat = 1000 := rfl
  rw [Timeval.toMilliseconds, if_neg hsome, timevalOf]
  dsimp only
  rw [husec, UInt64.toNat_add, UInt64.toNat_mul, UInt64.toNat_div, toNat_ofInt (by omega),
    toNat_ofInt (by omega), hthousand]
  omega

theorem toMilliseconds_zero : (timevalOf 0).toMilliseconds = noTimeoutMs := rfl

variable {s : SocketTimeouts} {option option' : TimeoutOption} {timeout : ℕ}

/-- The timeouts of the contexts are never zero. -/
theorem arms_iff (hlt : timeout < 2 ^ 63) (event : Scheduler.Event) :
    (Call.doIo event).arms (timevalOf timeout).toMilliseconds = true ↔ timeout ≠ 0 := by
  rw [Call.arms, Bool.and_eq_true, decide_eq_true_eq, decide_eq_true_eq]
  by_cases hzero : timeout = 0
  · subst hzero
    rw [toMilliseconds_zero]
    simp [noTimeoutMs]
  · have hvalue := toMilliseconds_timevalOf hzero hlt
    refine ⟨fun _ => hzero, fun _ => ⟨fun hmax => ?_, fun hnone => ?_⟩⟩
    · rw [hmax] at hvalue
      have hlarge : (UInt64.ofNat (2 ^ 64 - 1)).toNat = 2 ^ 64 - 1 := rfl
      omega
    · rw [hnone] at hvalue
      exact hzero hvalue.symm

/-! ### What is set -/

/-- The socket has this timeout in the kernel, and in its context if there is one. -/
structure Keeps (s : SocketTimeouts) (option : TimeoutOption) (timeout : ℕ) : Prop where
  kernel : s.kernel option = timevalOf timeout
  context : ∀ context ∈ s.context, context option = (timevalOf timeout).toMilliseconds

theorem keeps_new (option : TimeoutOption) : new.Keeps option 0 :=
  ⟨rfl, by simp [new]⟩

theorem Keeps.getContext (h : s.Keeps option timeout) : s.getContext.Keeps option timeout := by
  rw [SocketTimeouts.getContext]
  split
  · exact h
  · refine ⟨h.kernel, ?_⟩
    intro context hcontext
    rw [← Option.some_inj.mp hcontext]
    exact congrArg Timeval.toMilliseconds h.kernel

/-- What both kinds of calls observe. -/
theorem Keeps.waits (h : s.Keeps option timeout) (hlt : timeout < 2 ^ 63) :
    s.blocking option = (if timeout = 0 then none else some timeout) ∧
      s.hooked option = if timeout = 0 then none else some timeout := by
  constructor
  · rw [blocking, h.kernel]
    by_cases hzero : timeout = 0
    · rw [if_pos ((noTimeout_timevalOf timeout).mpr hzero), if_pos hzero]
    · rw [if_neg (mt (noTimeout_timevalOf timeout).mp hzero), if_neg hzero, timevalOf]
      dsimp only
      rw [Int.toNat_natCast, Int.toNat_natCast, Option.some_inj]
      omega
  · obtain ⟨context, hcontext⟩ : ∃ context, s.getContext.context = some context := by
      rw [SocketTimeouts.getContext]
      split
      · next context hsome => exact ⟨context, hsome⟩
      · exact ⟨_, rfl⟩
    rw [hooked, hcontext, Option.bind_some, h.getContext.context context hcontext]
    by_cases hzero : timeout = 0
    · rw [if_neg (mt (arms_iff hlt _).mp (by simpa using hzero)), if_pos hzero]
    · rw [if_pos ((arms_iff hlt _).mpr hzero), if_neg hzero, toMilliseconds_timevalOf hzero hlt]

/-- Setting a timeout that is not negative is accepted, and changes nothing else. -/
theorem setTimeout_keeps (s : SocketTimeouts) (option : TimeoutOption) (timeout : ℕ) :
    (s.setTimeout option timeout).Keeps option timeout ∧
      ∀ option' timeout', option' ≠ option → s.Keeps option' timeout' →
        (s.setTimeout option timeout).Keeps option' timeout' := by
  have hvalue : s.setTimeout option timeout = s.setsockopt option (timevalOf timeout) := by
    rw [setTimeout, if_neg (by omega), timevalOf]
    rfl
  have haccepted : 0 ≤ (timevalOf timeout).usec ∧ (timevalOf timeout).usec < 1000000 := by
    rw [timevalOf]
    dsimp only
    omega
  rw [hvalue, setsockopt, setsockoptF, if_pos haccepted]
  constructor
  · refine ⟨Function.update_self _ _ _, fun context hcontext => ?_⟩
    obtain ⟨context, -, rfl⟩ := Option.map_eq_some_iff.mp hcontext
    exact Function.update_self _ _ _
  · intro option' timeout' hne h
    refine ⟨(Function.update_of_ne hne _ _).trans h.kernel, fun context hcontext => ?_⟩
    obtain ⟨context, hold, rfl⟩ := Option.map_eq_some_iff.mp hcontext
    exact (Function.update_of_ne hne _ _).trans (h.context context hold)

end SocketTimeouts

end Hook

/-
The hidden `O_NONBLOCK`.

The hook keeps every socket that it tracks non-blocking in the kernel and remembers in the
`FdCtx` what the user asked for.  `socket`, `socketpair`, `accept4`, `F_SETFL` and `FIONBIO`
write the request there when a context exists; the first hooked call on a descriptor
makes a context that knows of no request.  A system call can fail: its result is part of
the action.

`asked` and `ios` are records of the run: the mode that the latest successful request
asked for, and what became of the hooked calls that had to wait.

* `Entry.Agrees` — what a descriptor, its context and the request have to do with each
  other;
* `faithful_of_keepsIntent` — the kernel flag stays hidden in every run in which no context
  is made behind a request, no request fails, and the table tracks what is used;
* `not_faithful` — a socket that a plain thread makes non-blocking.
-/
import Droplet.Lib.Transition
import Mathlib.Algebra.Group.Nat.Defs
import Mathlib.Logic.Function.Basic

open Transition Transition.System

namespace Hook

namespace Nonblock

/-- `FdCtx`: what concerns `O_NONBLOCK`. -/
structure FdCtx where
  socket : Bool
  sysNonblock : Bool
  userNonblock : Bool
  deriving DecidableEq

/-- A descriptor: the kernel flag of an open socket, its context in the table, and the
latest request. -/
structure Entry where
  kernel : Option Bool
  context : Option FdCtx
  asked : Bool
  deriving DecidableEq

/-- What becomes of a hooked call that cannot go on at once: it returns `EAGAIN`, its fiber
is suspended, or it blocks the thread. -/
inductive IoOutcome
  | again
  | suspended
  | blocked
  deriving DecidableEq

/-- A hooked call that had to wait, with the request in force. -/
structure Io where
  asked : Bool
  outcome : IoOutcome
  deriving DecidableEq

/-- The fiber is suspended exactly when blocking mode was asked for. -/
def Io.Right (io : Io) : Prop := io.outcome = .suspended ↔ io.asked = false

instance (io : Io) : Decidable io.Right := inferInstanceAs (Decidable (_ ↔ _))

/-- `kMaxTrackedFd`. -/
def kMaxTrackedFd : ℕ := 2 ^ 20

/-- `FdManager::get` returns a context for the descriptor when asked to make one. -/
def tracked (fd : ℕ) : Bool := fd ≤ kMaxTrackedFd

namespace Entry

/-- A number that was never used. -/
def new : Entry where
  kernel := none
  context := none
  asked := false

/-- The kernel gives out the number for a socket. -/
def openSocket (nonblock : Bool) (e : Entry) : Entry :=
  { e with kernel := some nonblock, asked := nonblock }

/-- `FdCtx::init`: `setfl` tells whether its `F_SETFL` succeeds. -/
def init (setfl : Bool) (e : Entry) : Entry :=
  match e.kernel with
  | none => { e with context := some ⟨false, false, false⟩ }
  | some flag =>
    if flag || setfl then { e with kernel := some true, context := some ⟨true, true, false⟩ }
    else { e with context := some ⟨true, false, false⟩ }

/-- `FdManager::get` with `auto_create`. -/
def getContext (fd : ℕ) (setfl : Bool) (e : Entry) : Entry :=
  if tracked fd && e.context.isNone then e.init setfl else e

/-- `setUserNonblock` on the context, if there is one. -/
def setUserNonblock (value : Bool) (e : Entry) : Entry :=
  { e with context := e.context.map fun c => { c with userNonblock := value } }

/-- The part of `socket` and of `accept4` that follows the system call. -/
def hookSocket (hook : Bool) (fd : ℕ) (nonblock setfl : Bool) (e : Entry) : Entry :=
  if hook then ((e.getContext fd setfl).setUserNonblock nonblock) else e

/-- `fcntl` with `F_SETFL`; `ok` tells whether the kernel accepts it for an open
descriptor. -/
def setfl (value ok : Bool) (e : Entry) : Entry :=
  let result := ok && e.kernel.isSome
  let (context, actual) := match e.context with
    | some c =>
      if c.socket then (some { c with userNonblock := value }, value || c.sysNonblock)
      else (some c, value)
    | none => (none, value)
  { kernel := if result then some actual else e.kernel
    context := context
    asked := if result then value else e.asked }

/-- `fcntl` with `F_GETFL`: the flag, if the descriptor is open. -/
def getfl (e : Entry) : Option Bool :=
  e.kernel.map fun flag => flag && !e.context.any fun c => c.socket && !c.userNonblock

/-- `ioctl` with `FIONBIO`; `restored` tells whether the `F_SETFL` that brings the kernel
flag back succeeds. -/
def fionbio (value ok restored : Bool) (e : Entry) : Entry :=
  let result := ok && e.kernel.isSome
  let kernel := if result then some value else e.kernel
  { kernel :=
      if result && restored && e.context.any fun c => c.socket && c.sysNonblock then some true
      else kernel
    context := e.context.map fun c => { c with userNonblock := value }
    asked := if result then value else e.asked }

/-- What a hooked call does that cannot go on at once. -/
def outcome (e : Entry) : IoOutcome :=
  -- outside the wait the call behaves as the kernel flag says
  let direct := if e.kernel = some true then .again else .blocked
  match e.context with
  | none => direct
  | some c =>
    if c.socket && !c.userNonblock then
      if e.kernel = some true then .suspended else .blocked
    else direct

/-- `close`, for an open descriptor or not. -/
def close (e : Entry) : Entry := { e with kernel := none, context := none }

end Entry

/-- All descriptors. -/
structure FdTable where
  entry : ℕ → Entry
  ios : List Io

/-- A call of the program; `hook` is the switch of its thread. -/
inductive Action
  | socket (hook : Bool) (fd : ℕ) (nonblock setfl : Bool)
  | socketpair (hook : Bool) (first second : ℕ) (nonblock setflFirst setflSecond : Bool)
  | accept (hook : Bool) (fd : ℕ) (setfl : Bool)
  | accept4 (hook : Bool) (fd : ℕ) (nonblock setfl : Bool)
  | setfl (fd : ℕ) (value ok : Bool)
  | fionbio (fd : ℕ) (value ok restored : Bool)
  | hookedIo (fd : ℕ) (setfl waits : Bool)
  | close (fd : ℕ)
  deriving DecidableEq

namespace FdTable

/-- Nothing is open. -/
def start : FdTable where
  entry := fun _ => .new
  ios := []

def modify (s : FdTable) (fd : ℕ) (f : Entry → Entry) : FdTable :=
  { s with entry := Function.update s.entry fd (f (s.entry fd)) }

/-- `socket`. -/
def socket (s : FdTable) (hook : Bool) (fd : ℕ) (nonblock setfl : Bool) : FdTable :=
  s.modify fd fun e => (e.openSocket nonblock).hookSocket hook fd nonblock setfl

/-- `socketpair`. -/
def socketpair (s : FdTable) (hook : Bool) (first second : ℕ)
    (nonblock setflFirst setflSecond : Bool) : FdTable :=
  (s.socket hook first nonblock setflFirst).socket hook second nonblock setflSecond

/-- `accept`, after the wait for a connection. -/
def accept (s : FdTable) (hook : Bool) (fd : ℕ) (setfl : Bool) : FdTable :=
  s.modify fd fun e =>
    if hook then (e.openSocket false).getContext fd setfl else e.openSocket false

/-- `accept4`, after the wait for a connection. -/
def accept4 (s : FdTable) (hook : Bool) (fd : ℕ) (nonblock setfl : Bool) : FdTable :=
  s.modify fd fun e => (e.openSocket nonblock).hookSocket hook fd nonblock setfl

/-- `DoIo` and `connect_with_timeout` on a fiber with the hook on: the context is made when
there is none; `waits` says that the call cannot go on at once. -/
def hookedIo (s : FdTable) (fd : ℕ) (setfl waits : Bool) : FdTable :=
  let e := (s.entry fd).getContext fd setfl
  { s.modify fd (·.getContext fd setfl) with
    ios := if e.kernel.isSome && waits then s.ios ++ [⟨e.asked, e.outcome⟩] else s.ios }

/-- One call.  The kernel gives out numbers that are free. -/
def step (s : FdTable) (action : Action) : Option FdTable :=
  match action with
  | .socket hook fd nonblock setfl =>
    if (s.entry fd).kernel = none then some (s.socket hook fd nonblock setfl) else none
  | .socketpair hook first second nonblock setflFirst setflSecond =>
    if (s.entry first).kernel = none ∧ (s.entry second).kernel = none ∧ first ≠ second then
      some (s.socketpair hook first second nonblock setflFirst setflSecond)
    else none
  | .accept hook fd setfl =>
    if (s.entry fd).kernel = none then some (s.accept hook fd setfl) else none
  | .accept4 hook fd nonblock setfl =>
    if (s.entry fd).kernel = none then some (s.accept4 hook fd nonblock setfl) else none
  | .setfl fd value ok => some (s.modify fd (·.setfl value ok))
  | .fionbio fd value ok restored => some (s.modify fd (·.fionbio value ok restored))
  | .hookedIo fd setfl waits => some (s.hookedIo fd setfl waits)
  | .close fd => some (s.modify fd Entry.close)

/-- All sequences of calls. -/
def system : System FdTable Action where
  init s := s = start
  step := step

/-- `F_GETFL` reports the latest request, hooked calls wait as it says, and a socket that has
a context is non-blocking in the kernel. -/
def Faithful (s : FdTable) : Prop :=
  (∀ fd flag, (s.entry fd).getfl = some flag → flag = (s.entry fd).asked) ∧
    (∀ io ∈ s.ios, io.Right) ∧
      ∀ fd flag, (s.entry fd).kernel = some flag → (s.entry fd).context ≠ none → flag = true

end FdTable

/-! ### When the request is kept -/

namespace Entry

/-- The context that is made for a new socket makes it non-blocking. -/
def CreateOk (hook : Bool) (fd : ℕ) (nonblock setfl : Bool) : Prop :=
  hook = true → tracked fd = true → nonblock = true ∨ setfl = true

/-- The request does not fail, or asks for the mode that the context has. -/
def RequestOk (e : Entry) (value ok : Bool) : Prop :=
  ok = true ∨ ∀ c ∈ e.context, c.userNonblock = value

/-- The kernel flag of a socket that has a context comes back. -/
def RestoreOk (e : Entry) (value ok restored : Bool) : Prop :=
  ok = true → value = false → e.context ≠ none → restored = true

/-- The context that a hooked call makes is that of an open socket of which blocking mode
was asked, and makes it non-blocking; what is not tracked is non-blocking. -/
def IoOk (e : Entry) (fd : ℕ) (setfl waits : Bool) : Prop :=
  e.context = none →
    if tracked fd then e.kernel ≠ none ∧ e.asked = false ∧ setfl = true
    else e.kernel ≠ none → waits = true → e.asked = true

instance (hook : Bool) (fd : ℕ) (nonblock setfl : Bool) :
    Decidable (CreateOk hook fd nonblock setfl) :=
  inferInstanceAs (Decidable (_ → _))
instance (e : Entry) (value ok : Bool) : Decidable (e.RequestOk value ok) :=
  inferInstanceAs (Decidable (_ ∨ _))
instance (e : Entry) (value ok restored : Bool) : Decidable (e.RestoreOk value ok restored) :=
  inferInstanceAs (Decidable (_ → _))
instance (e : Entry) (fd : ℕ) (setfl waits : Bool) : Decidable (e.IoOk fd setfl waits) :=
  inferInstanceAs (Decidable (_ → _))

end Entry

namespace FdTable

/-- No context is made behind a request or for a closed descriptor, no request fails that
would change the mode, the kernel accepts the flag, and what is not tracked is
non-blocking when a hooked call has to wait. -/
def KeepsIntent (s : FdTable) : Action → Prop
  | .socket hook fd nonblock setfl => Entry.CreateOk hook fd nonblock setfl
  | .socketpair hook first second nonblock setflFirst setflSecond =>
    Entry.CreateOk hook first nonblock setflFirst ∧ Entry.CreateOk hook second nonblock setflSecond
  | .accept hook fd setfl => Entry.CreateOk hook fd false setfl
  | .accept4 hook fd nonblock setfl => Entry.CreateOk hook fd nonblock setfl
  | .setfl fd value ok => (s.entry fd).RequestOk value ok
  | .fionbio fd value ok restored =>
    (s.entry fd).RequestOk value ok ∧ (s.entry fd).RestoreOk value ok restored
  | .hookedIo fd setfl waits => (s.entry fd).IoOk fd setfl waits
  | .close _ => True

instance : (s : FdTable) → (action : Action) → Decidable (s.KeepsIntent action)
  | _, .socket hook fd nonblock setfl | _, .accept4 hook fd nonblock setfl =>
    inferInstanceAs (Decidable (Entry.CreateOk hook fd nonblock setfl))
  | _, .socketpair _ _ _ _ _ _ => inferInstanceAs (Decidable (_ ∧ _))
  | _, .accept hook fd setfl => inferInstanceAs (Decidable (Entry.CreateOk hook fd false setfl))
  | s, .setfl fd value ok => inferInstanceAs (Decidable ((s.entry fd).RequestOk value ok))
  | _, .fionbio _ _ _ _ => inferInstanceAs (Decidable (_ ∧ _))
  | s, .hookedIo fd setfl waits => inferInstanceAs (Decidable ((s.entry fd).IoOk fd setfl waits))
  | _, .close _ => .isTrue trivial

end FdTable

/-! ### What a call keeps -/

namespace Entry

variable {e : Entry} {fd : ℕ}

/-- Without a context the kernel flag is the request; with one the kernel flag is set and
the context has the request. -/
structure Agrees (e : Entry) : Prop where
  plain : e.context = none → ∀ flag, e.kernel = some flag → flag = e.asked
  hidden : ∀ c, e.context = some c → e.kernel = some true ∧ c = ⟨true, true, e.asked⟩

theorem agrees_new : new.Agrees where
  plain := fun _ flag h => absurd h (by simp [new])
  hidden := fun c h => absurd h (by simp [new])

namespace Agrees

/-- A number that is not in use has no context. -/
theorem context_eq_none (h : e.Agrees) (hclosed : e.kernel = none) : e.context = none := by
  rw [Option.eq_none_iff_forall_ne_some]
  intro c hc
  exact absurd (hclosed.symm.trans (h.hidden c hc).1) (by simp)

theorem openSocket (h : e.Agrees) (hclosed : e.kernel = none) (nonblock : Bool) :
    (e.openSocket nonblock).Agrees where
  plain := fun _ flag hflag => (Option.some_inj.mp hflag).symm
  hidden := fun c hc => absurd ((h.context_eq_none hclosed).symm.trans hc) (by simp)

/-- The context that is made for an open socket, once its kernel flag is set. -/
theorem init {flag setfl : Bool} (hopen : e.kernel = some flag) (hset : flag = true ∨ setfl = true) :
    e.init setfl = { e with kernel := some true, context := some ⟨true, true, false⟩ } := by
  unfold Entry.init
  rw [hopen]
  exact if_pos (by simpa using hset)

theorem init_context_ne_none (e : Entry) (setfl : Bool) : (e.init setfl).context ≠ none := by
  unfold Entry.init
  split
  · simp
  · split
    · simp
    · simp

/-- Where there is still no context, the table has no place for one and nothing was done. -/
theorem of_getContext_eq_none {setfl : Bool} (hnone : (e.getContext fd setfl).context = none) :
    tracked fd = false ∧ e.getContext fd setfl = e := by
  unfold Entry.getContext at hnone ⊢
  split at hnone
  · exact absurd hnone (init_context_ne_none e setfl)
  · next hnot =>
    rw [if_neg hnot]
    rw [hnone, Option.isNone_none, Bool.and_true, Bool.not_eq_true] at hnot
    exact ⟨hnot, rfl⟩

/-- A context is made when no request but that of blocking mode is in force. -/
theorem getContext (h : e.Agrees) {setfl : Bool}
    (hmade : e.context = none → tracked fd = true →
      e.kernel ≠ none ∧ e.asked = false ∧ setfl = true) : (e.getContext fd setfl).Agrees := by
  unfold Entry.getContext
  split
  · next hnew =>
    obtain ⟨htracked, hnone⟩ := (Bool.and_eq_true _ _).mp hnew
    obtain ⟨hopen, hasked, hset⟩ := hmade (Option.isNone_iff_eq_none.mp hnone) htracked
    obtain ⟨flag, hflag⟩ := Option.ne_none_iff_exists'.mp hopen
    rw [init hflag (.inr hset)]
    refine ⟨fun hno => absurd hno (by simp), fun c hc => ⟨rfl, ?_⟩⟩
    rw [hasked]
    exact (Option.some_inj.mp hc).symm
  · exact h

/-- The context of a new socket gets the mode that the socket was made with. -/
theorem hookSocket {hook nonblock setfl : Bool} (h : e.Agrees) (hclosed : e.kernel = none)
    (hcond : CreateOk hook fd nonblock setfl) :
    ((e.openSocket nonblock).hookSocket hook fd nonblock setfl).Agrees := by
  have hopened := h.openSocket hclosed nonblock
  have hnone : (e.openSocket nonblock).context = none := h.context_eq_none hclosed
  unfold Entry.hookSocket
  split
  · next hhook =>
    unfold Entry.getContext
    rw [hnone, Option.isNone_none, Bool.and_true]
    split
    · next htracked =>
      rw [init rfl (hcond hhook htracked)]
      refine ⟨fun hno => absurd hno (by simp [setUserNonblock]), fun c hc => ⟨rfl, ?_⟩⟩
      exact (Option.some_inj.mp hc).symm
    · -- the table has no place for the number
      refine ⟨fun _ => hopened.plain hnone, fun c hc => ?_⟩
      obtain ⟨c', hc', -⟩ := Option.map_eq_some_iff.mp hc
      exact absurd (hnone.symm.trans hc') (by simp)
  · exact hopened

/-- A request for a descriptor without a context goes to the kernel alone. -/
theorem request_plain (h : e.Agrees) (hcontext : e.context = none) (value ok : Bool) :
    Agrees
      { kernel := if (ok && e.kernel.isSome) = true then some value else e.kernel
        context := none
        asked := if (ok && e.kernel.isSome) = true then value else e.asked } := by
  refine ⟨fun _ flag hflag => ?_, fun c hc => absurd hc (by simp)⟩
  dsimp only at hflag ⊢
  split at hflag
  · next hok => rw [if_pos hok, ← Option.some_inj.mp hflag]
  · next hfailed => rw [if_neg hfailed, h.plain hcontext flag hflag]

/-- A request for a descriptor with a context is written there, and the kernel flag is set
after it.  One that fails must not change what is written. -/
theorem request_hidden (h : e.Agrees) {c : FdCtx} (hcontext : e.context = some c) {value ok : Bool}
    (hcond : e.RequestOk value ok) :
    Agrees
      { kernel := some true
        context := some ⟨true, true, value⟩
        asked := if ok = true then value else e.asked } := by
  refine ⟨fun hno => absurd hno (by simp), fun c' hc' => ⟨rfl, ?_⟩⟩
  obtain rfl := Option.some_inj.mp hc'
  rcases hcond with hok | hsame
  · rw [if_pos hok]
  · have huser : e.asked = value := by
      rw [← hsame c hcontext, (h.hidden c hcontext).2]
    rw [huser, ite_self]

/-- A request through `F_SETFL`. -/
theorem setfl {value ok : Bool} (h : e.Agrees) (hcond : e.RequestOk value ok) :
    (e.setfl value ok).Agrees := by
  cases hcontext : e.context with
  | none =>
    have heq : e.setfl value ok =
        { kernel := if (ok && e.kernel.isSome) = true then some value else e.kernel
          context := none
          asked := if (ok && e.kernel.isSome) = true then value else e.asked } := by
      simp only [Entry.setfl, hcontext]
    rw [heq]
    exact h.request_plain hcontext value ok
  | some c =>
    obtain ⟨hkernel, hc⟩ := h.hidden c hcontext
    have heq : e.setfl value ok =
        { kernel := some true
          context := some ⟨true, true, value⟩
          asked := if ok = true then value else e.asked } := by
      simp [Entry.setfl, hcontext, hkernel, hc]
    rw [heq]
    exact h.request_hidden hcontext hcond

/-- A request through `FIONBIO`. -/
theorem fionbio {value ok restored : Bool} (h : e.Agrees) (hcond : e.RequestOk value ok)
    (hrestore : e.RestoreOk value ok restored) : (e.fionbio value ok restored).Agrees := by
  cases hcontext : e.context with
  | none =>
    have heq : e.fionbio value ok restored =
        { kernel := if (ok && e.kernel.isSome) = true then some value else e.kernel
          context := none
          asked := if (ok && e.kernel.isSome) = true then value else e.asked } := by
      simp [Entry.fionbio, hcontext]
    rw [heq]
    exact h.request_plain hcontext value ok
  | some c =>
    obtain ⟨hkernel, hc⟩ := h.hidden c hcontext
    have hback : ok = true → value = false → restored = true := by
      intro hok hvalue
      exact hrestore hok hvalue (by simp [hcontext])
    have heq : e.fionbio value ok restored =
        { kernel := some true
          context := some ⟨true, true, value⟩
          asked := if ok = true then value else e.asked } := by
      cases hok : ok with
      | false => simp [Entry.fionbio, hcontext, hkernel, hc]
      | true =>
        cases hvalue : value with
        | true => simp [Entry.fionbio, hcontext, hkernel, hc]
        | false => simp [Entry.fionbio, hcontext, hkernel, hc, hback hok hvalue]
    rw [heq]
    exact h.request_hidden hcontext hcond

theorem close : e.close.Agrees where
  plain := fun _ flag hflag => absurd hflag (by simp [Entry.close])
  hidden := fun c hc => absurd hc (by simp [Entry.close])

/-- `F_GETFL` reports the request. -/
theorem getfl (h : e.Agrees) {flag : Bool} (hflag : e.getfl = some flag) : flag = e.asked := by
  obtain ⟨kernel, hkernel, rfl⟩ := Option.map_eq_some_iff.mp hflag
  cases hcontext : e.context with
  | none => simp [h.plain hcontext kernel hkernel]
  | some c =>
    obtain ⟨hset, rfl⟩ := h.hidden c hcontext
    obtain rfl := Option.some_inj.mp (hkernel.symm.trans hset)
    simp

/-- A hooked call waits as the request says, on an open descriptor. -/
theorem outcome (h : e.Agrees) (hopen : e.kernel ≠ none)
    (hplain : e.context = none → e.asked = true) : Io.Right ⟨e.asked, e.outcome⟩ := by
  unfold Entry.outcome Io.Right
  cases hcontext : e.context with
  | none =>
    obtain ⟨flag, hflag⟩ := Option.ne_none_iff_exists'.mp hopen
    have hset := h.plain hcontext flag hflag
    rw [hplain hcontext] at hset ⊢
    simp [hflag, hset]
  | some c =>
    obtain ⟨hset, rfl⟩ := h.hidden c hcontext
    cases hasked : e.asked with
    | true => simp [hset]
    | false => simp [hset]

end Agrees

end Entry

namespace FdTable

variable {s s' : FdTable} {action : Action}

/-- Every descriptor agrees with its request, and the hooked calls waited as they
should. -/
structure Inv (s : FdTable) : Prop where
  agrees : ∀ fd, (s.entry fd).Agrees
  ios : ∀ io ∈ s.ios, io.Right

namespace Inv

/-- One descriptor is changed. -/
theorem modify (h : s.Inv) {fd : ℕ} {f : Entry → Entry} (hf : (f (s.entry fd)).Agrees) :
    (s.modify fd f).Inv := by
  refine ⟨fun fd' => ?_, h.ios⟩
  by_cases heq : fd' = fd
  · subst heq
    show (Function.update s.entry fd' _ fd').Agrees
    rwa [Function.update_self]
  · show (Function.update s.entry fd _ fd').Agrees
    rw [Function.update_of_ne heq]
    exact h.agrees fd'

theorem socket (h : s.Inv) {hook : Bool} {fd : ℕ} {nonblock setfl : Bool}
    (hclosed : (s.entry fd).kernel = none) (hcond : Entry.CreateOk hook fd nonblock setfl) :
    (s.socket hook fd nonblock setfl).Inv :=
  h.modify ((h.agrees fd).hookSocket hclosed hcond)

theorem accept (h : s.Inv) {hook : Bool} {fd : ℕ} {setfl : Bool}
    (hclosed : (s.entry fd).kernel = none) (hcond : Entry.CreateOk hook fd false setfl) :
    (s.accept hook fd setfl).Inv := by
  have hopened := (h.agrees fd).openSocket hclosed false
  refine h.modify ?_
  split
  · next hhook =>
    -- no request is written, but none was made
    refine hopened.getContext fun _ htracked => ⟨by simp [Entry.openSocket], rfl, ?_⟩
    exact (hcond hhook htracked).resolve_left (by simp)
  · exact hopened

theorem hookedIo (h : s.Inv) {fd : ℕ} {setfl waits : Bool}
    (hcond : (s.entry fd).IoOk fd setfl waits) : (s.hookedIo fd setfl waits).Inv := by
  have hagrees : ((s.entry fd).getContext fd setfl).Agrees := by
    refine (h.agrees fd).getContext fun hnone htracked => ?_
    have hmade := hcond hnone
    rwa [if_pos htracked] at hmade
  refine ⟨(h.modify hagrees).agrees, fun io hmem => ?_⟩
  unfold FdTable.hookedIo at hmem
  dsimp only at hmem
  split at hmem
  · next hwaited =>
    obtain ⟨hopen, hwaits⟩ := (Bool.and_eq_true _ _).mp hwaited
    rcases List.mem_append.mp hmem with hbefore | hnow
    · exact h.ios io hbefore
    · obtain rfl := List.mem_singleton.mp hnow
      refine hagrees.outcome (Option.isSome_iff_ne_none.mp hopen) fun hnone => ?_
      obtain ⟨huntracked, hsame⟩ := Entry.Agrees.of_getContext_eq_none hnone
      rw [hsame] at hnone hopen ⊢
      have hasked := hcond hnone
      rw [huntracked, if_neg (by simp)] at hasked
      exact hasked (Option.isSome_iff_ne_none.mp hopen) hwaits
  · exact h.ios io hmem

/-- **The invariant** is kept by the calls that meet the condition. -/
theorem step (h : s.Inv) (hcond : s.KeepsIntent action) (hstep : s.step action = some s') :
    s'.Inv := by
  cases action with
  | socket hook fd nonblock setfl =>
    simp only [FdTable.step] at hstep
    split at hstep
    · next hclosed =>
      obtain rfl := Option.some_inj.mp hstep
      exact h.socket hclosed hcond
    · exact absurd hstep (by simp)
  | socketpair hook first second nonblock setflFirst setflSecond =>
    simp only [FdTable.step] at hstep
    split at hstep
    · next hclosed =>
      obtain rfl := Option.some_inj.mp hstep
      refine (h.socket hclosed.1 hcond.1).socket ?_ hcond.2
      -- the second number is still free after the first was given out
      refine Eq.trans (congrArg Entry.kernel ?_) hclosed.2.1
      exact Function.update_of_ne (Ne.symm hclosed.2.2) _ _
    · exact absurd hstep (by simp)
  | accept hook fd setfl =>
    simp only [FdTable.step] at hstep
    split at hstep
    · next hclosed =>
      obtain rfl := Option.some_inj.mp hstep
      exact h.accept hclosed hcond
    · exact absurd hstep (by simp)
  | accept4 hook fd nonblock setfl =>
    simp only [FdTable.step] at hstep
    split at hstep
    · next hclosed =>
      obtain rfl := Option.some_inj.mp hstep
      exact h.socket hclosed hcond
    · exact absurd hstep (by simp)
  | setfl fd value ok =>
    obtain rfl := Option.some_inj.mp hstep
    exact h.modify ((h.agrees fd).setfl hcond)
  | fionbio fd value ok restored =>
    obtain rfl := Option.some_inj.mp hstep
    exact h.modify ((h.agrees fd).fionbio hcond.1 hcond.2)
  | hookedIo fd setfl waits =>
    obtain rfl := Option.some_inj.mp hstep
    exact h.hookedIo hcond
  | close fd =>
    obtain rfl := Option.some_inj.mp hstep
    exact h.modify Entry.Agrees.close

theorem faithful (h : s.Inv) : s.Faithful := by
  refine ⟨fun fd flag hflag => (h.agrees fd).getfl hflag, h.ios, ?_⟩
  intro fd flag hflag hcontext
  obtain ⟨c, hc⟩ := Option.ne_none_iff_exists'.mp hcontext
  exact Option.some_inj.mp (hflag.symm.trans ((h.agrees fd).hidden c hc).1)

end Inv

/-- **The kernel flag is hidden faithfully**, in every run whose calls meet the
condition. -/
theorem faithful_of_keepsIntent (h : system.ReachableWhile KeepsIntent s) : s.Faithful := by
  refine Inv.faithful (h.invariant ?_ fun s action s' hs hcond hstep => hs.step hcond hstep)
  rintro s rfl
  exact ⟨fun _ => Entry.agrees_new, fun io hmem => absurd hmem List.not_mem_nil⟩

/-- A pair of sockets on a hooked thread, one of which changes its mode twice; and a socket
of a plain thread, which a fiber uses later. -/
def hiddenActions : List Action :=
  [.socketpair true 3 4 false true true, .hookedIo 3 true true, .setfl 3 true true,
    .hookedIo 3 true true, .fionbio 3 false true true, .hookedIo 3 true true, .close 4,
    .socket false 4 false true, .hookedIo 4 true true]

theorem faithful_of_keepsIntent_run :
    ∃ s, system.exec start hiddenActions = some s ∧
      s.ios = [⟨false, .suspended⟩, ⟨true, .again⟩, ⟨false, .suspended⟩, ⟨false, .suspended⟩] ∧
      s.Faithful := by
  obtain ⟨s, hs, hios⟩ : ∃ s, system.exec start hiddenActions = some s ∧
      s.ios = [⟨false, .suspended⟩, ⟨true, .again⟩, ⟨false, .suspended⟩, ⟨false, .suspended⟩] :=
    ⟨_, rfl, by decide +kernel⟩
  refine ⟨s, hs, hios, faithful_of_keepsIntent (.exec (.init rfl) ?_ hs)⟩
  decide +kernel

/-- A plain thread makes a non-blocking socket, and a fiber uses it: the fiber is suspended,
and `F_GETFL` denies the mode. -/
theorem not_faithful : ¬∀ s, system.Reachable s → s.Faithful := by
  intro hall
  obtain ⟨s, hs, hgetfl, hasked⟩ : ∃ s, system.exec start
      [.socket false 3 true true, .hookedIo 3 true true] = some s ∧
      (s.entry 3).getfl = some false ∧ (s.entry 3).asked = true :=
    ⟨_, rfl, by decide +kernel, by decide +kernel⟩
  have hfaithful := (hall s (.exec (.init rfl) (meets_true _ _ _) hs)).1 3 false hgetfl
  rw [hasked] at hfaithful
  exact absurd hfaithful (by simp)

end FdTable

end Nonblock

end Hook

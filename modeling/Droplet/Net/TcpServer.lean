/-
Starting and stopping a TCP server from several threads.

`stopped_` is exchanged by `stop` without the mutex, and tested and set under it by
`start` and `bind`; the listeners are taken under the mutex, in a later step of `stop`.

* `Server` — the server with one caller;
* `abstracts_of_keepsApart` — as long as no `start` and no `bind` comes between the two
  steps of a `stop`, the calls take effect one after the other;
* `linearizable_of_keepsApart` — so the results and the state in between calls are those
  of a sequence of calls;
* `not_linearizable` — a `start` between the two steps leaves a running server without
  listeners.
-/
import Droplet.Lib.Linearization
import Droplet.Lib.Transition

open Transition Transition.System

namespace Net

inductive Errno
  | einval
  | ebusy
  deriving DecidableEq

/-- What a call returns: `true`, or nothing for `stop`, or `false` with an `errno`. -/
inductive Result
  | done
  | failed (errno : Errno)
  deriving DecidableEq

/-- A listening socket: the number of the `bind` that created it, and the place of its
address. -/
abbrev Listener := ℕ × ℕ

/-- The calls of the interface.  `onAcceptWorker` tells whether `stop` is called on a thread
of the accept worker. -/
inductive Call (Address : Type)
  | bind (addresses : List Address)
  | start
  | stop (onAcceptWorker : Bool)
  deriving DecidableEq

/-- What the constructor is given, and whether the server is owned by a `shared_ptr`. -/
structure Config where
  worker : Bool
  ioWorker : Bool
  acceptWorker : Bool
  shared : Bool
  deriving DecidableEq

/-- The tests at the beginning of `start`. -/
def Config.usable (config : Config) : Bool :=
  config.worker && config.ioWorker && config.acceptWorker && config.shared

variable {Address : Type}

/-- The sockets that a `bind` creates, one for each address. -/
def listenersOf (id : ℕ) (addresses : List Address) : List Listener :=
  (List.range addresses.length).map fun place => (id, place)

/-! ### One caller -/

/-- A server with one caller; `closed` are the listeners that a `stop` has closed. -/
structure Server where
  stopped : Bool
  listeners : List Listener
  closed : List Listener
  deriving DecidableEq

namespace Server

def new : Server := ⟨true, [], []⟩

/-- What a call does when it is alone. -/
def apply (config : Config) : Linear.Object Server (Call Address) Result
  | id, .bind addresses, s =>
    if addresses.isEmpty then (s, .failed .einval)
    else if !s.stopped then (s, .failed .ebusy)
    else ({ s with listeners := s.listeners ++ listenersOf id addresses }, .done)
  | _, .start, s =>
    if !config.usable then (s, .failed .einval)
    else if !s.stopped then (s, .done)
    else if s.listeners.isEmpty then (s, .failed .einval)
    else ({ s with stopped := false }, .done)
  | _, .stop _, s => ({ stopped := true, listeners := [], closed := s.closed ++ s.listeners }, .done)

/-- What holds between calls. -/
structure Sound (s : Server) (order : List (ℕ × Result)) : Prop where
  running : s.stopped = false → s.listeners ≠ []
  apart : ∀ l ∈ s.listeners, l ∉ s.closed
  created : ∀ l ∈ s.listeners ++ s.closed, l.1 ∈ order.map Prod.fst

variable {config : Config} {s s' : Server} {order : List (ℕ × Result)} {id : ℕ}
  {call : Call Address} {r : Result}

theorem mem_listenersOf {l : Listener} {addresses : List Address}
    (h : l ∈ listenersOf id addresses) : l.1 = id := by
  obtain ⟨place, -, rfl⟩ := List.mem_map.mp h
  rfl

theorem sound_new : Sound new [] where
  running := fun h => absurd h (by decide)
  apart := fun l hl => absurd hl (by simp [new])
  created := fun l hl => absurd hl (by simp [new])

/-- A result is added, the server stays as it is. -/
theorem Sound.append (h : Sound s order) (x : ℕ × Result) : Sound s (order ++ [x]) where
  running := h.running
  apart := h.apart
  created := by
    intro l hl
    rw [List.map_append]
    exact List.mem_append_left _ (h.created l hl)

theorem Sound.apply (h : Sound s order) (hfresh : id ∉ order.map Prod.fst)
    (hcall : Server.apply config id call s = (s', r)) : Sound s' (order ++ [(id, r)]) := by
  cases call with
  | bind addresses =>
    rw [Server.apply] at hcall
    split at hcall
    · obtain ⟨rfl, rfl⟩ := Prod.mk.inj hcall
      exact h.append _
    · split at hcall
      · obtain ⟨rfl, rfl⟩ := Prod.mk.inj hcall
        exact h.append _
      · next hstopped =>
        obtain ⟨rfl, rfl⟩ := Prod.mk.inj hcall
        have hnew : ∀ l ∈ listenersOf id addresses, l ∉ s.closed := by
          intro l hl hclosed
          have hold := h.created l (List.mem_append_right _ hclosed)
          rw [mem_listenersOf hl] at hold
          exact hfresh hold
        refine ⟨fun hrunning => ?_, ?_, ?_⟩
        · rw [show s.stopped = false from hrunning] at hstopped
          exact absurd rfl hstopped
        · intro l hl
          rcases List.mem_append.mp hl with hl | hl
          · exact h.apart l hl
          · exact hnew l hl
        · intro l hl
          rw [List.map_append]
          rcases List.mem_append.mp hl with hl | hl
          · rcases List.mem_append.mp hl with hl | hl
            · exact List.mem_append_left _ (h.created l (List.mem_append_left _ hl))
            · refine List.mem_append_right _ ?_
              rw [mem_listenersOf hl]
              exact List.mem_singleton_self _
          · exact List.mem_append_left _ (h.created l (List.mem_append_right _ hl))
  | start =>
    rw [Server.apply] at hcall
    split at hcall
    · obtain ⟨rfl, rfl⟩ := Prod.mk.inj hcall
      exact h.append _
    · split at hcall
      · obtain ⟨rfl, rfl⟩ := Prod.mk.inj hcall
        exact h.append _
      · split at hcall
        · obtain ⟨rfl, rfl⟩ := Prod.mk.inj hcall
          exact h.append _
        · next hlisteners =>
          obtain ⟨rfl, rfl⟩ := Prod.mk.inj hcall
          have hsame := h.append (id, Result.done)
          exact ⟨fun _ hnil => hlisteners (List.isEmpty_iff.mpr hnil), hsame.apart, hsame.created⟩
  | stop onAcceptWorker =>
    obtain ⟨rfl, rfl⟩ := Prod.mk.inj hcall
    have hsame := h.append (id, Result.done)
    refine ⟨fun hrunning => absurd hrunning (by simp), fun l hl => absurd hl List.not_mem_nil, ?_⟩
    intro l hl
    rcases List.mem_append.mp hl with hl | hl
    · exact absurd hl List.not_mem_nil
    · refine hsame.created l ?_
      rcases List.mem_append.mp hl with hl | hl
      · exact List.mem_append_right _ hl
      · exact List.mem_append_left _ hl

end Server

/-! ### Several callers -/

/-- How far a call is.  A `bind` is `opened` when its sockets listen, a `start` is
`scheduling` behind its locked section, and a `stop` is `exchanged` behind the exchange and
`swapped` behind its locked section. -/
inductive Progress
  | entered
  | opened
  | scheduling (listeners : List Listener)
  | exchanged (wasRunning : Bool)
  | swapped (wasRunning : Bool) (listeners : List Listener)
  | returned (result : Result)
  deriving DecidableEq

/-- A call of a run, with the calls that had returned when it began. -/
structure Entry (Address : Type) where
  call : Call Address
  before : List ℕ
  progress : Progress
  deriving DecidableEq

/-- What `start` and `stop` schedule on the accept worker. -/
inductive Task
  | startAccept (listener : Listener)
  | closeListeners (listeners : List Listener)
  deriving DecidableEq

/-- The server and the calls that have begun.  `closed` are the listeners that were closed
for a `stop`, `discarded` those of a `bind` that came too late.  `draining` is set from the
exchange of a `stop` that has found the server running to the next swap, and is not part of
the code. -/
structure TcpServer (Address : Type) where
  stopped : Bool
  listeners : List Listener
  closed : List Listener
  discarded : List Listener
  tasks : List Task
  calls : List (Entry Address)
  draining : Bool
  deriving DecidableEq

/-- A call begins, takes its next atomic step, or the accept worker runs a task. -/
inductive Action (Address : Type)
  | begin (call : Call Address)
  | advance (id : ℕ)
  | runTask
  deriving DecidableEq

def Call.isBind : Call Address → Bool
  | .bind _ => true
  | _ => false

def Call.isStart : Call Address → Bool
  | .start => true
  | _ => false

def Call.isStop : Call Address → Bool
  | .stop _ => true
  | _ => false

def Progress.isExchanged : Progress → Bool
  | .exchanged _ => true
  | _ => false

def Progress.result : Progress → Option Result
  | .returned result => some result
  | _ => none

def Entry.invocation (entry : Entry Address) : Linear.Invocation (Call Address) Result :=
  ⟨entry.call, entry.before, entry.progress.result⟩

namespace TcpServer

def new : TcpServer Address := ⟨true, [], [], [], [], [], false⟩

def invocations (s : TcpServer Address) : List (Linear.Invocation (Call Address) Result) :=
  s.calls.map Entry.invocation

def setProgress (s : TcpServer Address) (id : ℕ) (entry : Entry Address) (progress : Progress) :
    TcpServer Address :=
  { s with calls := s.calls.set id { entry with progress := progress } }

/-- The next atomic step of a call. -/
def advance (config : Config) (s : TcpServer Address) (id : ℕ) (entry : Entry Address) :
    Option (TcpServer Address) :=
  match entry.call, entry.progress with
  | .bind addresses, .entered =>
    if addresses.isEmpty then some (s.setProgress id entry (.returned (.failed .einval)))
    else if !s.stopped then some (s.setProgress id entry (.returned (.failed .ebusy)))
    else some (s.setProgress id entry .opened)
  | .bind addresses, .opened =>
    if !s.stopped then
      some ({ s with discarded := s.discarded ++ listenersOf id addresses }.setProgress id entry
        (.returned (.failed .ebusy)))
    else
      some ({ s with listeners := s.listeners ++ listenersOf id addresses }.setProgress id entry
        (.returned .done))
  | .start, .entered =>
    if !config.usable then some (s.setProgress id entry (.returned (.failed .einval)))
    else if !s.stopped then some (s.setProgress id entry (.returned .done))
    else if s.listeners.isEmpty then
      some (s.setProgress id entry (.returned (.failed .einval)))
    else some ({ s with stopped := false }.setProgress id entry (.scheduling s.listeners))
  | .start, .scheduling listeners =>
    some ({ s with tasks := s.tasks ++ listeners.map Task.startAccept }.setProgress id entry
      (.returned .done))
  | .stop _, .entered =>
    some ({ s with stopped := true, draining := s.draining || !s.stopped }.setProgress id entry
      (.exchanged (!s.stopped)))
  | .stop _, .exchanged wasRunning =>
    some ({ s with listeners := [], draining := false }.setProgress id entry
      (.swapped wasRunning s.listeners))
  | .stop onAcceptWorker, .swapped wasRunning listeners =>
    if listeners.isEmpty then some (s.setProgress id entry (.returned .done))
    else if !wasRunning || !config.acceptWorker || !config.shared || onAcceptWorker then
      some ({ s with closed := s.closed ++ listeners }.setProgress id entry (.returned .done))
    else
      some ({ s with tasks := s.tasks ++ [Task.closeListeners listeners] }.setProgress id entry
        (.returned .done))
  | _, _ => none

def step (config : Config) (s : TcpServer Address) : Action Address → Option (TcpServer Address)
  | .begin call =>
    some { s with calls := s.calls ++ [⟨call, Linear.returned s.invocations, .entered⟩] }
  | .advance id => s.calls[id]?.bind (s.advance config id)
  | .runTask =>
    match s.tasks with
    | [] => none
    | .startAccept _ :: tasks => some { s with tasks := tasks }
    | .closeListeners listeners :: tasks =>
      some { s with closed := s.closed ++ listeners, tasks := tasks }

def system (config : Config) : System (TcpServer Address) (Action Address) :=
  ⟨fun s => s = new, step config⟩

/-! ### What may come between the steps of a `stop` -/

/-- A `stop` is between its exchange and its swap. -/
def InsideStop (s : TcpServer Address) : Prop :=
  ∃ entry ∈ s.calls, entry.progress.isExchanged = true

instance (s : TcpServer Address) : Decidable s.InsideStop :=
  inferInstanceAs (Decidable (∃ entry ∈ s.calls, entry.progress.isExchanged = true))

/-- The call that began last is a `stop` that has made its exchange. -/
def Overtaken (s : TcpServer Address) : Prop :=
  s.calls.getLast?.any (fun entry => entry.call.isStop && entry.progress != .entered) = true

instance (s : TcpServer Address) : Decidable s.Overtaken :=
  inferInstanceAs (Decidable (_ = true))

/-- The next step of the call sets `stopped_` to false. -/
def SetsRunning (config : Config) (s : TcpServer Address) (entry : Entry Address) : Prop :=
  entry.call.isStart = true ∧ entry.progress = .entered ∧ config.usable = true ∧
    s.stopped = true ∧ s.listeners ≠ []

instance (config : Config) (s : TcpServer Address) (entry : Entry Address) :
    Decidable (s.SetsRunning config entry) := inferInstanceAs (Decidable (_ ∧ _))

/-- The next step of the call enters the listeners of a `bind`. -/
def EntersListeners (s : TcpServer Address) (entry : Entry Address) : Prop :=
  entry.call.isBind = true ∧ entry.progress = .opened ∧ s.stopped = true

instance (s : TcpServer Address) (entry : Entry Address) : Decidable (s.EntersListeners entry) :=
  inferInstanceAs (Decidable (_ ∧ _))

/-- The next step of the call does not fall into a `stop`: a `start` sets `stopped_` to
false neither between the two steps of a `stop` nor after a `stop` that has overtaken it,
and a `bind` enters no listeners that the `stop` of a running server is about to take. -/
def Apart (config : Config) (s : TcpServer Address) (entry : Entry Address) : Prop :=
  (s.SetsRunning config entry → ¬s.InsideStop ∧ ¬s.Overtaken) ∧
    (s.EntersListeners entry → s.draining = false)

instance (config : Config) (s : TcpServer Address) (entry : Entry Address) :
    Decidable (s.Apart config entry) := inferInstanceAs (Decidable (_ ∧ _))

/-- The condition on the steps of a run. -/
def KeepsApart (config : Config) (s : TcpServer Address) : Action Address → Prop
  | .advance id => ∀ entry, s.calls[id]? = some entry → s.Apart config entry
  | _ => True

/-- The condition is tested on the call that takes the step. -/
def KeepsApart.decideAdvance (config : Config) (s : TcpServer Address) (id : ℕ) :
    (found : Option (Entry Address)) → s.calls[id]? = found →
      Decidable (s.KeepsApart config (.advance id))
  | none, h => .isTrue fun _ hentry => absurd (h.symm.trans hentry) (by simp)
  | some entry, h => decidable_of_iff (s.Apart config entry)
      ⟨fun hapart _ hentry => Option.some_inj.mp (h.symm.trans hentry) ▸ hapart,
        fun hall => hall entry h⟩

instance (config : Config) (s : TcpServer Address) :
    (a : Action Address) → Decidable (s.KeepsApart config a)
  | .advance id => KeepsApart.decideAdvance config s id _ rfl
  | .begin _ | .runTask => .isTrue trivial

end TcpServer

/-! ### The calls take effect one after the other -/

/-- The result that a call is going to return, once it has taken effect. -/
def Progress.decided : Progress → Option Result
  | .scheduling _ | .swapped _ _ => some .done
  | .returned result => some result
  | _ => none

theorem Progress.decided_of_result {progress : Progress} {r : Result}
    (h : progress.result = some r) : progress.decided = some r := by
  cases progress with
  | returned result => exact h
  | entered => exact absurd h (by simp [Progress.result])
  | opened => exact absurd h (by simp [Progress.result])
  | scheduling listeners => exact absurd h (by simp [Progress.result])
  | exchanged wasRunning => exact absurd h (by simp [Progress.result])
  | swapped wasRunning listeners => exact absurd h (by simp [Progress.result])

section Calls

variable {config : Config} {calls : List (Entry Address)} {order : List (ℕ × Result)}
  {server server' : Server} {id : ℕ} {entry entry' : Entry Address} {next : Progress} {r : Result}

/-- An order of the calls that have taken effect, and the server it leads to. -/
structure Tracks (config : Config) (calls : List (Entry Address)) (order : List (ℕ × Result))
    (server : Server) : Prop where
  linear : Linear.Linearization (Server.apply config) Server.new (calls.map Entry.invocation) order
    server
  sound : server.Sound order
  decided : ∀ (id : ℕ) (entry : Entry Address) (r : Result), calls[id]? = some entry →
    entry.progress.decided = some r → (id, r) ∈ order
  undecided : ∀ (id : ℕ) (entry : Entry Address), calls[id]? = some entry →
    entry.progress.decided = none → id ∉ order.map Prod.fst

theorem getElem?_invocation (h : calls[id]? = some entry) :
    (calls.map Entry.invocation)[id]? = some entry.invocation := by
  rw [List.getElem?_map, h, Option.map_some]

/-- What is at a place after the entry of a call has changed. -/
theorem getElem?_set_cases {a : ℕ} (h : (calls.set id entry')[a]? = some entry) :
    a = id ∧ entry = entry' ∨ a ≠ id ∧ calls[a]? = some entry := by
  by_cases ha : a = id
  · subst ha
    obtain ⟨hlt, -⟩ := List.getElem?_eq_some_iff.mp h
    rw [List.length_set] at hlt
    rw [List.getElem?_set_self hlt] at h
    exact .inl ⟨rfl, (Option.some_inj.mp h).symm⟩
  · rw [List.getElem?_set_ne (Ne.symm ha)] at h
    exact .inr ⟨ha, h⟩

theorem Tracks.begin (h : Tracks config calls order server) (call : Call Address) :
    Tracks config (calls ++ [⟨call, Linear.returned (calls.map Entry.invocation), .entered⟩]) order
      server := by
  have hcases : ∀ {a : ℕ} {entry : Entry Address},
      (calls ++ [⟨call, Linear.returned (calls.map Entry.invocation), .entered⟩])[a]? = some entry →
      calls[a]? = some entry ∨ a = calls.length ∧ entry.progress = .entered := by
    intro a entry hentry
    rcases Nat.lt_or_ge a calls.length with hlt | hge
    · rw [List.getElem?_append_left hlt] at hentry
      exact .inl hentry
    · rw [List.getElem?_append_right hge] at hentry
      obtain ⟨hlt, -⟩ := List.getElem?_eq_some_iff.mp hentry
      rw [List.length_singleton] at hlt
      have hlast := List.mem_singleton.mp (List.mem_of_getElem? hentry)
      exact .inr ⟨by omega, by rw [hlast]⟩
  refine ⟨?_, h.sound, ?_, ?_⟩
  · rw [List.map_append]
    exact h.linear.begin call
  · intro a entry r hentry hdecided
    rcases hcases hentry with hold | ⟨-, hentered⟩
    · exact h.decided a entry r hold hdecided
    · rw [hentered] at hdecided
      exact absurd hdecided (by simp [Progress.decided])
  · intro a entry hentry hdecided
    rcases hcases hentry with hold | ⟨rfl, -⟩
    · exact h.undecided a entry hold hdecided
    · -- the calls in the order have begun
      intro hmem
      obtain ⟨x, hx, hid⟩ := List.mem_map.mp hmem
      obtain ⟨inv, hinv⟩ := h.linear.runs.exists_call hx
      obtain ⟨hlt, -⟩ := List.getElem?_eq_some_iff.mp hinv
      rw [List.length_map, hid] at hlt
      exact absurd hlt (Nat.lt_irrefl _)

/-- A call goes on without taking effect, or returns what it had decided. -/
theorem Tracks.move (h : Tracks config calls order server) (hentry : calls[id]? = some entry)
    (hrunning : entry.progress.result = none) (hnext : next.decided = entry.progress.decided) :
    Tracks config (calls.set id { entry with progress := next }) order server := by
  refine ⟨?_, h.sound, ?_, ?_⟩
  · rw [List.map_set]
    refine h.linear.update (getElem?_invocation hentry) hrunning rfl rfl fun r hr => ?_
    exact h.decided id entry r hentry (hnext ▸ Progress.decided_of_result hr)
  · intro a entry₁ r hentry₁ hdecided
    rcases getElem?_set_cases hentry₁ with ⟨rfl, rfl⟩ | ⟨-, hold⟩
    · exact h.decided a entry r hentry (hnext.symm.trans hdecided)
    · exact h.decided a entry₁ r hold hdecided
  · intro a entry₁ hentry₁ hdecided
    rcases getElem?_set_cases hentry₁ with ⟨rfl, rfl⟩ | ⟨-, hold⟩
    · exact h.undecided a entry hentry (hnext.symm.trans hdecided)
    · exact h.undecided a entry₁ hold hdecided

/-- A call takes effect. -/
theorem Tracks.effect (h : Tracks config calls order server) (hentry : calls[id]? = some entry)
    (hopen : entry.progress.decided = none) (hnext : next.decided = some r)
    (hcall : Server.apply config id entry.call server = (server', r)) :
    Tracks config (calls.set id { entry with progress := next }) (order ++ [(id, r)]) server' := by
  have hfresh := h.undecided id entry hentry hopen
  have hrunning : entry.progress.result = none := by
    cases hresult : entry.progress.result with
    | none => rfl
    | some r => exact absurd ((Progress.decided_of_result hresult).symm.trans hopen) (by simp)
  have hpoint := h.linear.point (getElem?_invocation hentry) hrunning hfresh hcall
  refine ⟨?_, h.sound.apply hfresh hcall, ?_, ?_⟩
  · rw [List.map_set]
    refine hpoint.update (getElem?_invocation hentry) hrunning rfl rfl fun r₁ hr₁ => ?_
    have hsame := (Progress.decided_of_result hr₁).symm.trans hnext
    rw [Option.some_inj.mp hsame]
    exact List.mem_append_right _ (List.mem_singleton_self _)
  · intro a entry₁ r₁ hentry₁ hdecided
    rcases getElem?_set_cases hentry₁ with ⟨rfl, rfl⟩ | ⟨-, hold⟩
    · rw [Option.some_inj.mp (hdecided.symm.trans hnext)]
      exact List.mem_append_right _ (List.mem_singleton_self _)
    · exact List.mem_append_left _ (h.decided a entry₁ r₁ hold hdecided)
  · intro a entry₁ hentry₁ hdecided
    rcases getElem?_set_cases hentry₁ with ⟨rfl, rfl⟩ | ⟨hne, hold⟩
    · exact absurd (hdecided.symm.trans hnext) (by simp)
    · rw [List.map_append, List.mem_append, not_or]
      refine ⟨h.undecided a entry₁ hold hdecided, ?_⟩
      rw [List.map_singleton, List.mem_singleton]
      exact hne

/-- A property of some entry, when one entry changes. -/
theorem exists_mem_set (entry' : Entry Address) {P : Entry Address → Prop}
    (hentry : calls[id]? = some entry) :
    (∃ x ∈ calls.set id entry', P x) ∨ P entry ↔ (∃ x ∈ calls, P x) ∨ P entry' := by
  obtain ⟨hlt, -⟩ := List.getElem?_eq_some_iff.mp hentry
  constructor
  · rintro (⟨x, hx, hP⟩ | hP)
    · rcases List.mem_or_eq_of_mem_set hx with hx | rfl
      · exact .inl ⟨x, hx, hP⟩
      · exact .inr hP
    · exact .inl ⟨entry, List.mem_of_getElem? hentry, hP⟩
  · rintro (⟨x, hx, hP⟩ | hP)
    · obtain ⟨a, ha⟩ := List.mem_iff_getElem?.mp hx
      by_cases hid : a = id
      · subst hid
        obtain rfl := Option.some_inj.mp (hentry.symm.trans ha)
        exact .inr hP
      · refine .inl ⟨x, List.mem_of_getElem? (i := a) ?_, hP⟩
        rw [List.getElem?_set_ne (Ne.symm hid)]
        exact ha
    · refine .inl ⟨entry', List.mem_of_getElem? (i := id) ?_, hP⟩
      rw [List.getElem?_set_self hlt]

end Calls

/-- The listeners that a `stop` has taken and not handed on. -/
def Progress.taken : Progress → List Listener
  | .swapped _ listeners => listeners
  | _ => []

def Task.taken : Task → List Listener
  | .closeListeners listeners => listeners
  | .startAccept _ => []

namespace TcpServer

variable {config : Config} {s s' : TcpServer Address} {order order' : List (ℕ × Result)}
  {server : Server} {id : ℕ} {entry : Entry Address} {next : Progress} {l : Listener}

/-- A `stop` has closed the listener, or is about to. -/
def Closing (s : TcpServer Address) (l : Listener) : Prop :=
  l ∈ s.closed ∨ (∃ task ∈ s.tasks, l ∈ task.taken) ∨ ∃ entry ∈ s.calls, l ∈ entry.progress.taken

/-- A `bind` opens sockets for at least one address. -/
def OpenedBinds (s : TcpServer Address) : Prop :=
  ∀ entry ∈ s.calls, entry.progress = .opened → ∀ addresses, entry.call = .bind addresses →
    addresses.isEmpty = false

/-- The calls that have taken effect lead to this server.  While the listeners of a running
server wait for their `stop`, that `stop` has not taken effect. -/
structure Abstracts (config : Config) (s : TcpServer Address) (order : List (ℕ × Result))
    (server : Server) : Prop where
  tracks : Tracks config s.calls order server
  listeners : server.listeners = s.listeners
  stopped : server.stopped = (s.stopped && !s.draining)
  draining : s.draining = true → s.InsideStop
  exchanged : s.InsideStop → s.stopped = true
  closing : ∀ l, l ∈ server.closed ↔ s.Closing l
  overtaken : s.Overtaken → s.stopped = true
  opened : s.OpenedBinds

theorem insideStop_set (s' : TcpServer Address) (hentry : s.calls[id]? = some entry)
    (hcalls : s'.calls = s.calls.set id { entry with progress := next })
    (hprogress : entry.progress.isExchanged = false) (hnext : next.isExchanged = false) :
    s'.InsideStop ↔ s.InsideStop := by
  have hset := exists_mem_set { entry with progress := next }
    (P := fun x => x.progress.isExchanged = true) hentry
  simp only [hprogress, hnext, Bool.false_eq_true, or_false] at hset
  rw [InsideStop, hcalls]
  exact hset

theorem overtaken_set (hentry : s.calls[id]? = some entry)
    (hcalls : s'.calls = s.calls.set id { entry with progress := next }) (h : s'.Overtaken) :
    s.Overtaken ∨ entry.call.isStop = true ∧ entry.progress = .entered := by
  rw [Overtaken, hcalls, List.getLast?_eq_getElem?, List.length_set, Option.any_eq_true] at h
  obtain ⟨x, hx, hlast⟩ := h
  rw [Bool.and_eq_true, bne_iff_ne] at hlast
  rcases getElem?_set_cases hx with ⟨hid, rfl⟩ | ⟨-, hold⟩
  · by_cases hentered : entry.progress = .entered
    · exact .inr ⟨hlast.1, hentered⟩
    · refine .inl ?_
      rw [Overtaken, List.getLast?_eq_getElem?, hid, hentry, Option.any_some, Bool.and_eq_true,
        bne_iff_ne]
      exact ⟨hlast.1, hentered⟩
  · refine .inl ?_
    rw [Overtaken, List.getLast?_eq_getElem?, hold, Option.any_some, Bool.and_eq_true, bne_iff_ne]
    exact hlast

theorem openedBinds_set (h : s.OpenedBinds)
    (hcalls : s'.calls = s.calls.set id { entry with progress := next })
    (hnext : next = .opened → ∀ addresses, entry.call = .bind addresses →
      addresses.isEmpty = false) : s'.OpenedBinds := by
  intro x hx hopened addresses hbind
  rw [hcalls] at hx
  rcases List.mem_or_eq_of_mem_set hx with hx | rfl
  · exact h x hx hopened addresses hbind
  · exact hnext hopened addresses hbind

/-- A step of a call that leaves flag and listeners as they are. -/
theorem Abstracts.keep (h : Abstracts config s order server) (hentry : s.calls[id]? = some entry)
    (hcalls : s'.calls = s.calls.set id { entry with progress := next })
    (htracks : Tracks config (s.calls.set id { entry with progress := next }) order' server)
    (hprogress : entry.progress.isExchanged = false) (hnext : next.isExchanged = false)
    (hstop : entry.call.isStop = true → entry.progress ≠ .entered)
    (hlisteners : s'.listeners = s.listeners) (hstopped : s'.stopped = s.stopped)
    (hdraining : s'.draining = s.draining) (hclosing : ∀ l, s'.Closing l ↔ s.Closing l)
    (hopened : next = .opened → ∀ addresses, entry.call = .bind addresses →
      addresses.isEmpty = false) : Abstracts config s' order' server := by
  have hinside := insideStop_set s' hentry hcalls hprogress hnext
  refine ⟨?_, ?_, ?_, ?_, ?_, ?_, ?_, openedBinds_set h.opened hcalls hopened⟩
  · rw [hcalls]
    exact htracks
  · rw [hlisteners]
    exact h.listeners
  · rw [hstopped, hdraining]
    exact h.stopped
  · rw [hdraining, hinside]
    exact h.draining
  · rw [hstopped, hinside]
    exact h.exchanged
  · intro l
    rw [hclosing]
    exact h.closing l
  · intro hovertaken
    rw [hstopped]
    rcases overtaken_set hentry hcalls hovertaken with hold | ⟨hisStop, hentered⟩
    · exact h.overtaken hold
    · exact absurd hentered (hstop hisStop)

/-- Nothing is handed on by a step between states without taken listeners. -/
theorem closing_set (s' : TcpServer Address) (hentry : s.calls[id]? = some entry)
    (hcalls : s'.calls = s.calls.set id { entry with progress := next })
    (hprogress : entry.progress.taken = []) (hnext : next.taken = [])
    (hclosed : s'.closed = s.closed)
    (htasks : ∀ l, (∃ task ∈ s'.tasks, l ∈ task.taken) ↔ ∃ task ∈ s.tasks, l ∈ task.taken) :
    ∀ l, s'.Closing l ↔ s.Closing l := by
  intro l
  have hset := exists_mem_set { entry with progress := next }
    (P := fun x => l ∈ x.progress.taken) hentry
  simp only [hprogress, hnext, List.not_mem_nil, or_false] at hset
  rw [Closing, Closing, hclosed, htasks, hcalls, hset]

/-! ### One step -/

/-- A call that has decided nothing returns without a change, and gives up what it may have
opened. -/
theorem Abstracts.returned (h : Abstracts config s order server)
    (hentry : s.calls[id]? = some entry) (hopen : entry.progress.decided = none)
    (hexchanged : entry.progress.isExchanged = false) (htaken : entry.progress.taken = [])
    (hstop : entry.call.isStop = true → entry.progress ≠ .entered) (discarded : List Listener)
    {r : Result} (happly : Server.apply config id entry.call server = (server, r)) :
    Abstracts config ({ s with discarded }.setProgress id entry (.returned r))
      (order ++ [(id, r)]) server :=
  h.keep hentry rfl (h.tracks.effect hentry hopen rfl happly) hexchanged rfl hstop rfl rfl rfl
    (closing_set _ hentry rfl htaken rfl rfl fun _ => Iff.rfl) (by simp)

/-- A running server refuses to bind. -/
theorem Abstracts.apply_bind (h : Abstracts config s order server) {addresses : List Address}
    (hempty : addresses.isEmpty = false) (hrunning : s.stopped = false) :
    Server.apply config id (.bind addresses) server = (server, .failed .ebusy) := by
  rw [Server.apply, if_neg (by simp [hempty]), h.stopped, hrunning]
  rfl

theorem Abstracts.bindEntered (h : Abstracts config s order server)
    (hentry : s.calls[id]? = some entry) {addresses : List Address}
    (hcall : entry.call = .bind addresses) (hprogress : entry.progress = .entered)
    (hstep : s.advance config id entry = some s') :
    ∃ order', Abstracts config s' order' server := by
  have hopen : entry.progress.decided = none := by rw [hprogress]; rfl
  have hexchanged : entry.progress.isExchanged = false := by rw [hprogress]; rfl
  have htaken : entry.progress.taken = [] := by rw [hprogress]; rfl
  have hstop : entry.call.isStop = true → entry.progress ≠ .entered := by
    rw [hcall]
    exact fun hisStop => absurd hisStop (by simp [Call.isStop])
  simp only [advance, hcall, hprogress] at hstep
  split at hstep
  · next hempty =>
    obtain rfl := Option.some_inj.mp hstep
    have happly : Server.apply config id entry.call server = (server, .failed .einval) := by
      rw [hcall, Server.apply, if_pos hempty]
    exact ⟨_, h.returned hentry hopen hexchanged htaken hstop s.discarded happly⟩
  · next hempty =>
    rw [Bool.not_eq_true] at hempty
    split at hstep
    · next hrunning =>
      obtain rfl := Option.some_inj.mp hstep
      rw [Bool.not_eq_true'] at hrunning
      have happly : Server.apply config id entry.call server = (server, .failed .ebusy) := by
        rw [hcall]
        exact h.apply_bind hempty hrunning
      exact ⟨_, h.returned hentry hopen hexchanged htaken hstop s.discarded happly⟩
    · obtain rfl := Option.some_inj.mp hstep
      refine ⟨order, h.keep hentry rfl (h.tracks.move hentry (by rw [hprogress]; rfl) hopen.symm)
        hexchanged rfl hstop rfl rfl rfl (closing_set _ hentry rfl htaken rfl rfl fun _ => Iff.rfl)
        fun _ addresses' hbind => ?_⟩
      rw [hcall, Call.bind.injEq] at hbind
      exact hbind ▸ hempty

theorem Abstracts.bindOpened (h : Abstracts config s order server)
    (hentry : s.calls[id]? = some entry) {addresses : List Address}
    (hcall : entry.call = .bind addresses) (hprogress : entry.progress = .opened)
    (hapart : s.Apart config entry) (hstep : s.advance config id entry = some s') :
    ∃ order' server', Abstracts config s' order' server' := by
  have hopen : entry.progress.decided = none := by rw [hprogress]; rfl
  have hexchanged : entry.progress.isExchanged = false := by rw [hprogress]; rfl
  have htaken : entry.progress.taken = [] := by rw [hprogress]; rfl
  have hnotStop : entry.call.isStop = false := by rw [hcall]; rfl
  have hempty := h.opened entry (List.mem_of_getElem? hentry) hprogress addresses hcall
  simp only [advance, hcall, hprogress] at hstep
  split at hstep
  · next hrunning =>
    obtain rfl := Option.some_inj.mp hstep
    rw [Bool.not_eq_true'] at hrunning
    have happly : Server.apply config id entry.call server = (server, .failed .ebusy) := by
      rw [hcall]
      exact h.apply_bind hempty hrunning
    exact ⟨_, server, h.returned hentry hopen hexchanged htaken
      (fun hisStop => absurd (hnotStop.symm.trans hisStop) (by simp)) _ happly⟩
  · next hstopped =>
    obtain rfl := Option.some_inj.mp hstep
    rw [Bool.not_eq_true', Bool.not_eq_false] at hstopped
    have hdraining : s.draining = false :=
      hapart.2 ⟨by rw [hcall]; rfl, hprogress, hstopped⟩
    have happly : Server.apply config id entry.call server =
        ({ server with listeners := server.listeners ++ listenersOf id addresses }, .done) := by
      rw [hcall, Server.apply, if_neg (by simp [hempty]), h.stopped, hstopped, hdraining]
      rfl
    have htracks := h.tracks.effect hentry hopen (rfl : (Progress.returned .done).decided = some .done)
      happly
    have hclosing := closing_set (setProgress { s with
      listeners := s.listeners ++ listenersOf id addresses } id entry (.returned .done)) hentry rfl htaken rfl rfl fun _ => Iff.rfl
    have hinside := insideStop_set (setProgress { s with
      listeners := s.listeners ++ listenersOf id addresses } id entry (.returned .done)) hentry rfl hexchanged rfl
    refine ⟨_, _, htracks, ?_, h.stopped, ?_, ?_, ?_, ?_, openedBinds_set h.opened rfl (by simp)⟩
    · exact congrArg (· ++ listenersOf id addresses) h.listeners
    · exact fun hdrain => hinside.mpr (h.draining hdrain)
    · exact fun hin => h.exchanged (hinside.mp hin)
    · exact fun l => (h.closing l).trans (hclosing l).symm
    · exact fun _ => hstopped

theorem Abstracts.startEntered (h : Abstracts config s order server)
    (hentry : s.calls[id]? = some entry) (hcall : entry.call = .start)
    (hprogress : entry.progress = .entered) (hapart : s.Apart config entry)
    (hstep : s.advance config id entry = some s') :
    ∃ order' server', Abstracts config s' order' server' := by
  have hopen : entry.progress.decided = none := by rw [hprogress]; rfl
  have hexchanged : entry.progress.isExchanged = false := by rw [hprogress]; rfl
  have htaken : entry.progress.taken = [] := by rw [hprogress]; rfl
  have hnotStop : entry.call.isStop = false := by rw [hcall]; rfl
  have hstop : entry.call.isStop = true → entry.progress ≠ .entered := fun hisStop =>
    absurd (hnotStop.symm.trans hisStop) (by simp)
  -- the calls that return without a change
  have hreturn : ∀ r, Server.apply config id entry.call server = (server, r) →
      Abstracts config (s.setProgress id entry (.returned r)) (order ++ [(id, r)]) server :=
    fun r happly => h.returned hentry hopen hexchanged htaken hstop s.discarded happly
  simp only [advance, hcall, hprogress] at hstep
  split at hstep
  · next husable =>
    obtain rfl := Option.some_inj.mp hstep
    exact ⟨_, server, hreturn _ (by rw [hcall, Server.apply, if_pos husable])⟩
  · next husable =>
    split at hstep
    · next hrunning =>
      obtain rfl := Option.some_inj.mp hstep
      rw [Bool.not_eq_true'] at hrunning
      refine ⟨_, server, hreturn _ ?_⟩
      rw [hcall, Server.apply, if_neg husable, h.stopped, hrunning]
      rfl
    · next hstopped =>
      rw [Bool.not_eq_true', Bool.not_eq_false] at hstopped
      split at hstep
      · next hempty =>
        obtain rfl := Option.some_inj.mp hstep
        -- a running server has listeners, so no `stop` is about to take them
        have hserver : server.stopped = true := by
          by_contra hrunning
          rw [Bool.not_eq_true] at hrunning
          exact h.tracks.sound.running hrunning (h.listeners ▸ List.isEmpty_iff.mp hempty)
        refine ⟨_, server, hreturn _ ?_⟩
        rw [hcall, Server.apply, if_neg husable, hserver, if_neg (by simp), h.listeners,
          if_pos hempty]
      · next hlisteners =>
        obtain rfl := Option.some_inj.mp hstep
        obtain ⟨hinside, hovertaken⟩ := hapart.1 ⟨by rw [hcall]; rfl, hprogress,
          by rwa [Bool.not_eq_true', Bool.not_eq_false] at husable, hstopped,
          fun hnil => hlisteners (List.isEmpty_iff.mpr hnil)⟩
        have hdraining : s.draining = false := by
          by_contra hdrain
          rw [Bool.not_eq_false] at hdrain
          exact hinside (h.draining hdrain)
        have happly : Server.apply config id entry.call server =
            ({ server with stopped := false }, .done) := by
          rw [hcall, Server.apply, if_neg husable, h.stopped, hstopped, hdraining, if_neg (by simp),
            h.listeners, if_neg hlisteners]
        have htracks := h.tracks.effect hentry hopen
          (rfl : (Progress.scheduling s.listeners).decided = some .done) happly
        have hclosing := closing_set (setProgress { s with stopped := false } id entry
          (.scheduling s.listeners)) hentry rfl htaken rfl rfl fun _ => Iff.rfl
        have hsame := insideStop_set (setProgress { s with stopped := false } id entry
          (.scheduling s.listeners)) hentry rfl hexchanged rfl
        refine ⟨_, _, htracks, h.listeners, rfl, ?_, ?_, ?_, ?_, openedBinds_set h.opened rfl
          (by simp)⟩
        · exact fun hdrain => hsame.mpr (h.draining hdrain)
        · exact fun hin => absurd (hsame.mp hin) hinside
        · exact fun l => (h.closing l).trans (hclosing l).symm
        · intro hlast
          rcases overtaken_set hentry rfl hlast with hold | ⟨hisStop, -⟩
          · exact absurd hold hovertaken
          · exact absurd (hnotStop.symm.trans hisStop) (by simp)

theorem Abstracts.startScheduling (h : Abstracts config s order server)
    (hentry : s.calls[id]? = some entry) {listeners : List Listener} (hcall : entry.call = .start)
    (hprogress : entry.progress = .scheduling listeners)
    (hstep : s.advance config id entry = some s') : Abstracts config s' order server := by
  simp only [advance, hcall, hprogress] at hstep
  obtain rfl := Option.some_inj.mp hstep
  have hnotStop : entry.call.isStop = false := by rw [hcall]; rfl
  refine h.keep hentry rfl (h.tracks.move hentry (by rw [hprogress]; rfl) (by rw [hprogress]; rfl))
    (by rw [hprogress]; rfl) rfl (fun hisStop => absurd (hnotStop.symm.trans hisStop) (by simp))
    rfl rfl rfl (closing_set _ hentry rfl (by rw [hprogress]; rfl) rfl rfl fun l => ?_) (by simp)
  -- the accept tasks hold no listeners to close
  constructor
  · rintro ⟨task, htask, hl⟩
    rcases List.mem_append.mp htask with htask | htask
    · exact ⟨task, htask, hl⟩
    · obtain ⟨listener, -, rfl⟩ := List.mem_map.mp htask
      exact absurd hl List.not_mem_nil
  · rintro ⟨task, htask, hl⟩
    exact ⟨task, List.mem_append_left _ htask, hl⟩

theorem Abstracts.stopEntered (h : Abstracts config s order server)
    (hentry : s.calls[id]? = some entry) {onAcceptWorker : Bool}
    (hcall : entry.call = .stop onAcceptWorker) (hprogress : entry.progress = .entered)
    (hstep : s.advance config id entry = some s') : Abstracts config s' order server := by
  simp only [advance, hcall, hprogress] at hstep
  obtain rfl := Option.some_inj.mp hstep
  have hclosing := closing_set (setProgress { s with
    stopped := true, draining := s.draining || !s.stopped } id entry (.exchanged (!s.stopped)))
    hentry rfl (by rw [hprogress]; rfl) rfl rfl fun _ => Iff.rfl
  refine ⟨h.tracks.move hentry (by rw [hprogress]; rfl) (by rw [hprogress]; rfl), h.listeners, ?_, ?_,
    fun _ => rfl, fun l => (h.closing l).trans (hclosing l).symm, fun _ => rfl,
    openedBinds_set h.opened rfl (by simp)⟩
  · show server.stopped = (true && !(s.draining || !s.stopped))
    rw [h.stopped]
    cases s.stopped with
    | true => cases s.draining with
      | true => rfl
      | false => rfl
    | false => cases s.draining with
      | true => rfl
      | false => rfl
  · -- it is this call that is inside its `stop`
    intro _
    exact ((exists_mem_set { entry with progress := .exchanged (!s.stopped) }
      (P := fun x => x.progress.isExchanged = true) hentry).mpr (.inr rfl)).resolve_right
      (by rw [hprogress]; simp [Progress.isExchanged])

theorem Abstracts.stopExchanged (h : Abstracts config s order server)
    (hentry : s.calls[id]? = some entry) {onAcceptWorker wasRunning : Bool}
    (hcall : entry.call = .stop onAcceptWorker) (hprogress : entry.progress = .exchanged wasRunning)
    (hstep : s.advance config id entry = some s') :
    ∃ order' server', Abstracts config s' order' server' := by
  simp only [advance, hcall, hprogress] at hstep
  obtain rfl := Option.some_inj.mp hstep
  have hstopped : s.stopped = true :=
    h.exchanged ⟨entry, List.mem_of_getElem? hentry, by rw [hprogress]; rfl⟩
  have happly : Server.apply config id entry.call server =
      (⟨true, [], server.closed ++ server.listeners⟩, .done) := by
    rw [hcall]
    rfl
  have htracks := h.tracks.effect hentry (by rw [hprogress]; rfl)
    (rfl : (Progress.swapped wasRunning s.listeners).decided = some .done) happly
  refine ⟨_, _, htracks, rfl, ?_, fun hdrain => absurd hdrain (by simp [setProgress]), fun _ => hstopped,
    fun l => ?_, fun _ => hstopped, openedBinds_set h.opened rfl (by simp)⟩
  · show true = (s.stopped && !false)
    rw [hstopped]
    rfl
  · have hset := exists_mem_set { entry with progress := .swapped wasRunning s.listeners }
      (P := fun x => l ∈ x.progress.taken) hentry
    simp only [hprogress] at hset
    have htaken : (Progress.exchanged wasRunning).taken = [] := rfl
    rw [htaken] at hset
    simp only [List.not_mem_nil, or_false] at hset
    rw [List.mem_append, h.closing l, h.listeners]
    show s.Closing l ∨ l ∈ s.listeners ↔ l ∈ s.closed ∨ (∃ task ∈ s.tasks, l ∈ task.taken) ∨
      ∃ x ∈ s.calls.set id { entry with progress := .swapped wasRunning s.listeners },
        l ∈ x.progress.taken
    rw [hset, Closing, or_assoc, or_assoc]
    rfl

theorem Abstracts.stopSwapped (h : Abstracts config s order server)
    (hentry : s.calls[id]? = some entry) {onAcceptWorker wasRunning : Bool}
    {listeners : List Listener} (hcall : entry.call = .stop onAcceptWorker)
    (hprogress : entry.progress = .swapped wasRunning listeners)
    (hstep : s.advance config id entry = some s') : Abstracts config s' order server := by
  have htracks := h.tracks.move hentry (by rw [hprogress]; rfl)
    (show (Progress.returned .done).decided = entry.progress.decided by rw [hprogress]; rfl)
  -- the listeners leave the call and are closed, or their closing is scheduled
  have hkeep : ∀ closed tasks, (∀ l, (l ∈ closed ∨ ∃ task ∈ tasks, l ∈ task.taken) ↔
      (l ∈ s.closed ∨ ∃ task ∈ s.tasks, l ∈ task.taken) ∨ l ∈ listeners) →
      Abstracts config ({ s with closed := closed, tasks := tasks }.setProgress id entry
        (.returned .done)) order server := by
    intro closed tasks hhand
    refine h.keep hentry rfl htracks (by rw [hprogress]; rfl) rfl (fun _ => by rw [hprogress]; simp)
      rfl rfl rfl (fun l => ?_) (by simp)
    have hset := exists_mem_set { entry with progress := .returned .done }
      (P := fun x => l ∈ x.progress.taken) hentry
    simp only [hprogress] at hset
    have hreturned : (Progress.returned .done).taken = [] := rfl
    have htaken : (Progress.swapped wasRunning listeners).taken = listeners := rfl
    rw [hreturned, htaken] at hset
    simp only [List.not_mem_nil, or_false] at hset
    show l ∈ closed ∨ (∃ task ∈ tasks, l ∈ task.taken) ∨
      (∃ x ∈ s.calls.set id { entry with progress := .returned .done }, l ∈ x.progress.taken) ↔ _
    rw [← or_assoc, hhand, Closing, ← hset, or_assoc, or_assoc, or_comm (a := l ∈ listeners)]
  simp only [advance, hcall, hprogress] at hstep
  split at hstep
  · next hempty =>
    obtain rfl := Option.some_inj.mp hstep
    refine hkeep s.closed s.tasks fun l => ?_
    rw [List.isEmpty_iff.mp hempty]
    simp
  · split at hstep
    · obtain rfl := Option.some_inj.mp hstep
      refine hkeep (s.closed ++ listeners) s.tasks fun l => ?_
      rw [List.mem_append, or_assoc, or_comm (a := l ∈ listeners), ← or_assoc]
    · obtain rfl := Option.some_inj.mp hstep
      refine hkeep s.closed (s.tasks ++ [Task.closeListeners listeners]) fun l => ?_
      have happend : (∃ task ∈ s.tasks ++ [Task.closeListeners listeners], l ∈ task.taken) ↔
          (∃ task ∈ s.tasks, l ∈ task.taken) ∨ l ∈ listeners := by
        simp [List.mem_append, or_and_right, exists_or, Task.taken]
      rw [happend, or_assoc]

/-- The calls of a step that keeps apart take effect one after the other. -/
theorem Abstracts.advance (h : Abstracts config s order server)
    (hentry : s.calls[id]? = some entry) (hapart : s.Apart config entry)
    (hstep : s.advance config id entry = some s') :
    ∃ order' server', Abstracts config s' order' server' := by
  cases hcall : entry.call with
  | bind addresses =>
    cases hprogress : entry.progress with
    | entered =>
      obtain ⟨order', h'⟩ := h.bindEntered hentry hcall hprogress hstep
      exact ⟨order', server, h'⟩
    | opened => exact h.bindOpened hentry hcall hprogress hapart hstep
    | scheduling listeners => exact absurd hstep (by simp [TcpServer.advance, hcall, hprogress])
    | exchanged wasRunning => exact absurd hstep (by simp [TcpServer.advance, hcall, hprogress])
    | swapped wasRunning listeners =>
      exact absurd hstep (by simp [TcpServer.advance, hcall, hprogress])
    | returned result => exact absurd hstep (by simp [TcpServer.advance, hcall, hprogress])
  | start =>
    cases hprogress : entry.progress with
    | entered => exact h.startEntered hentry hcall hprogress hapart hstep
    | scheduling listeners =>
      exact ⟨order, server, h.startScheduling hentry hcall hprogress hstep⟩
    | opened => exact absurd hstep (by simp [TcpServer.advance, hcall, hprogress])
    | exchanged wasRunning => exact absurd hstep (by simp [TcpServer.advance, hcall, hprogress])
    | swapped wasRunning listeners =>
      exact absurd hstep (by simp [TcpServer.advance, hcall, hprogress])
    | returned result => exact absurd hstep (by simp [TcpServer.advance, hcall, hprogress])
  | stop onAcceptWorker =>
    cases hprogress : entry.progress with
    | entered => exact ⟨order, server, h.stopEntered hentry hcall hprogress hstep⟩
    | exchanged wasRunning => exact h.stopExchanged hentry hcall hprogress hstep
    | swapped wasRunning listeners =>
      exact ⟨order, server, h.stopSwapped hentry hcall hprogress hstep⟩
    | opened => exact absurd hstep (by simp [TcpServer.advance, hcall, hprogress])
    | scheduling listeners => exact absurd hstep (by simp [TcpServer.advance, hcall, hprogress])
    | returned result => exact absurd hstep (by simp [TcpServer.advance, hcall, hprogress])

theorem Abstracts.begin (h : Abstracts config s order server) (call : Call Address) :
    Abstracts config { s with
      calls := s.calls ++ [⟨call, Linear.returned s.invocations, .entered⟩] } order server := by
  have hinside : ∀ x ∈ s.calls ++ [⟨call, Linear.returned s.invocations, .entered⟩],
      x ∈ s.calls ∨ x.progress = .entered := by
    intro x hx
    rcases List.mem_append.mp hx with hx | hx
    · exact .inl hx
    · exact .inr (by rw [List.mem_singleton.mp hx])
  refine ⟨h.tracks.begin call, h.listeners, h.stopped, ?_, ?_, ?_, ?_, ?_⟩
  · intro hdrain
    obtain ⟨x, hx, hexchanged⟩ := h.draining hdrain
    exact ⟨x, List.mem_append_left _ hx, hexchanged⟩
  · rintro ⟨x, hx, hexchanged⟩
    rcases hinside x hx with hx | hentered
    · exact h.exchanged ⟨x, hx, hexchanged⟩
    · rw [hentered] at hexchanged
      exact absurd hexchanged (by simp [Progress.isExchanged])
  · intro l
    rw [h.closing l, Closing, Closing]
    refine or_congr_right (or_congr_right ⟨?_, ?_⟩)
    · rintro ⟨x, hx, hl⟩
      exact ⟨x, List.mem_append_left _ hx, hl⟩
    · rintro ⟨x, hx, hl⟩
      rcases hinside x hx with hx | hentered
      · exact ⟨x, hx, hl⟩
      · rw [hentered] at hl
        exact absurd hl List.not_mem_nil
  · intro hlast
    rw [Overtaken, List.getLast?_concat] at hlast
    exact absurd hlast (by simp)
  · intro x hx hopened addresses hbind
    rcases hinside x hx with hx | hentered
    · exact h.opened x hx hopened addresses hbind
    · exact absurd (hentered.symm.trans hopened) (by simp)

/-- The accept worker closes listeners that a `stop` has handed over. -/
theorem Abstracts.runTask (h : Abstracts config s order server)
    (hstep : step config s .runTask = some s') : Abstracts config s' order server := by
  cases htasks : s.tasks with
  | nil => exact absurd hstep (by simp [step, htasks])
  | cons task tasks =>
    have hs' : s' = { s with closed := s.closed ++ task.taken, tasks := tasks } := by
      cases task with
      | startAccept listener =>
        simp only [step, htasks] at hstep
        rw [← Option.some_inj.mp hstep, Task.taken, List.append_nil]
      | closeListeners listeners =>
        simp only [step, htasks] at hstep
        rw [← Option.some_inj.mp hstep, Task.taken]
    subst hs'
    refine ⟨h.tracks, h.listeners, h.stopped, h.draining, h.exchanged, fun l => ?_, h.overtaken,
      h.opened⟩
    rw [h.closing l, Closing, Closing, htasks]
    simp only [List.mem_append, List.exists_mem_cons_iff, or_assoc]

theorem Abstracts.step (h : Abstracts config s order server) {a : Action Address}
    (hapart : s.KeepsApart config a) (hstep : TcpServer.step config s a = some s') :
    ∃ order' server', Abstracts config s' order' server' := by
  cases a with
  | begin call =>
    obtain rfl := Option.some_inj.mp hstep
    exact ⟨order, server, h.begin call⟩
  | advance id =>
    obtain ⟨entry, hentry, hadvance⟩ := Option.bind_eq_some_iff.mp hstep
    exact h.advance hentry (hapart entry hentry) hadvance
  | runTask => exact ⟨order, server, h.runTask hstep⟩

/-! ### Runs -/

theorem abstracts_of_keepsApart (h : (system config).ReachableWhile (KeepsApart config) s) :
    ∃ order server, Abstracts config s order server := by
  refine h.invariant (I := fun s => ∃ order server, Abstracts config s order server)
    (fun s hs => ?_) fun s a s' hs hapart hstep => ?_
  · obtain rfl : s = new := hs
    refine ⟨[], Server.new, ⟨Linear.Linearization.new _ _, Server.sound_new, by simp [new],
      by simp [new]⟩, rfl, rfl, fun hdrain => absurd hdrain (by simp [new]), fun _ => rfl, fun l => ?_,
      fun _ => rfl, fun x hx => absurd hx List.not_mem_nil⟩
    simp [Server.new, Closing, new]
  · obtain ⟨order, server, habs⟩ := hs
    exact habs.step hapart hstep

/-- No call is in progress. -/
def Quiescent (s : TcpServer Address) : Prop :=
  ∀ entry ∈ s.calls, entry.progress.result.isSome = true

instance (s : TcpServer Address) : Decidable s.Quiescent :=
  inferInstanceAs (Decidable (∀ entry ∈ s.calls, entry.progress.result.isSome = true))

/-- The calls have the results, and once they have all returned the effect, of a sequence of
calls that respects the order in which they were made.  A server that runs then has
listeners that no `stop` has closed, and after a `stop` that began last it does not run. -/
structure Linearizable (config : Config) (s : TcpServer Address) : Prop where
  order : ∃ order server,
    Linear.Linearization (Server.apply config) Server.new s.invocations order server ∧
      (s.Quiescent → server.stopped = s.stopped ∧ server.listeners = s.listeners ∧
        ∀ l, l ∈ server.closed ↔ s.Closing l)
  running : s.Quiescent → s.stopped = false → s.listeners ≠ [] ∧ ∀ l ∈ s.listeners, ¬s.Closing l
  afterStop : s.Quiescent → ∀ entry, s.calls.getLast? = some entry → entry.call.isStop = true →
    s.stopped = true

/-- In between calls the server is the one of the sequence. -/
theorem Abstracts.stopped_of_quiescent (h : Abstracts config s order server) (hq : s.Quiescent) :
    server.stopped = s.stopped := by
  have hdraining : s.draining = false := by
    by_contra hdrain
    rw [Bool.not_eq_false] at hdrain
    obtain ⟨x, hx, hexchanged⟩ := h.draining hdrain
    have hreturned := hq x hx
    cases hprogress : x.progress with
    | exchanged wasRunning =>
      rw [hprogress] at hreturned
      exact absurd hreturned (by simp [Progress.result])
    | entered => exact absurd hexchanged (by simp [hprogress, Progress.isExchanged])
    | opened => exact absurd hexchanged (by simp [hprogress, Progress.isExchanged])
    | scheduling listeners => exact absurd hexchanged (by simp [hprogress, Progress.isExchanged])
    | swapped wasRunning listeners =>
      exact absurd hexchanged (by simp [hprogress, Progress.isExchanged])
    | returned result => exact absurd hexchanged (by simp [hprogress, Progress.isExchanged])
  rw [h.stopped, hdraining, Bool.not_false, Bool.and_true]

/-- **Linearizability**, as long as no `start` and no `bind` comes between the two steps of a
`stop`. -/
theorem linearizable_of_keepsApart (config : Config) (s : TcpServer Address)
    (h : (system config).ReachableWhile (KeepsApart config) s) : Linearizable config s := by
  obtain ⟨order, server, habs⟩ := abstracts_of_keepsApart h
  refine ⟨⟨order, server, habs.tracks.linear, fun hq =>
    ⟨habs.stopped_of_quiescent hq, habs.listeners, habs.closing⟩⟩, fun hq hrunning => ?_,
    fun hq entry hlast hstop => ?_⟩
  · have hserver := (habs.stopped_of_quiescent hq).trans hrunning
    rw [← habs.listeners]
    refine ⟨habs.tracks.sound.running hserver, fun l hl hclosing => ?_⟩
    exact habs.tracks.sound.apart l hl ((habs.closing l).mpr hclosing)
  · refine habs.overtaken ?_
    rw [Overtaken, hlast, Option.any_some, Bool.and_eq_true, bne_iff_ne]
    refine ⟨hstop, fun hentered => ?_⟩
    have hreturned := hq entry (List.mem_of_getLast? hlast)
    rw [hentered] at hreturned
    exact absurd hreturned (by simp [Progress.result])

/-- A server with all its workers. -/
def allWorkers : Config := ⟨true, true, true, true⟩

/-- A `bind` that waits for a `stop`: it begins before the `stop` has taken the listeners,
and enters its own ones afterwards. -/
def waitingBind : List (Action ℕ) :=
  [.begin (.bind [80]), .advance 0, .advance 0, .begin .start, .advance 1, .advance 1,
   .begin (.stop false), .begin (.bind [81]), .advance 2, .advance 3, .advance 2, .advance 3,
   .advance 2, .runTask, .runTask]

theorem linearizable_of_keepsApart_run : ∃ s : TcpServer ℕ,
    (system allWorkers).exec new waitingBind = some s ∧ s.listeners = [(3, 0)] ∧
      Linearizable allWorkers s := by
  obtain ⟨s, hs, hlisteners⟩ : ∃ s : TcpServer ℕ,
      (system allWorkers).exec new waitingBind = some s ∧ s.listeners = [(3, 0)] :=
    ⟨_, rfl, by decide⟩
  have hmeets : (system allWorkers).Meets (KeepsApart allWorkers) new waitingBind := by
    decide +kernel
  exact ⟨s, hs, hlisteners,
    linearizable_of_keepsApart _ _ ((ReachableWhile.init rfl).exec hmeets hs)⟩

/-- A `start` between the two steps of a `stop`. -/
def startInsideStop : List (Action ℕ) :=
  [.begin (.bind [80]), .advance 0, .advance 0, .begin (.stop false), .advance 1, .begin .start,
   .advance 2, .advance 1, .advance 1, .advance 2]

/-- The server runs afterwards, and has no listeners. -/
theorem not_linearizable :
    ¬∀ (config : Config) (s : TcpServer ℕ), (system config).Reachable s →
      Linearizable config s := by
  intro hall
  obtain ⟨s, hs, hq, hrunning, hlisteners⟩ : ∃ s : TcpServer ℕ,
      (system allWorkers).exec new startInsideStop = some s ∧ s.Quiescent ∧ s.stopped = false ∧
        s.listeners = [] := ⟨_, rfl, by decide, rfl, rfl⟩
  have hreach : (system allWorkers).Reachable s :=
    (ReachableWhile.init rfl).exec (meets_true _ _ _) hs
  exact ((hall allWorkers s hreach).running hq hrunning).1 hlisteners

end TcpServer

end Net

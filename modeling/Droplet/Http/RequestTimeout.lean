/-
The timeouts of pooled requests.

`doRequest` gets a connection and hands its `timeout_ms` to `SetSocketTimeouts`, which
does nothing for `UINT64_MAX`: the socket of a reused connection then keeps what an
earlier call has set.  The steps are those of `HttpConnectionPool` with the sockets of
its connections.

* `Follows` — a socket has the timeout of the last call on its connection that had a
  timeout other than `UINT64_MAX`;
* `inForce_iff_unlimited` — the timeouts of a request are its own unless it has none and
  that last call had one.
-/
import Droplet.Http.Pool
import Droplet.Hook.SocketTimeout

open Hook Transition Transition.System

namespace Http

/-- `SetSocketTimeouts`. -/
def setSocketTimeouts (socket : SocketTimeouts) (timeoutMs : UInt64) : SocketTimeouts :=
  if timeoutMs = noTimeoutMs then socket
  else
    let bounded := min timeoutMs (UInt64.ofNat (2 ^ 63 - 1))
    (socket.setRecvTimeout bounded.toNat).setSendTimeout bounded.toNat

/-- What a call with this `timeout_ms` asks for: no timeout, or so many milliseconds. -/
def requestedTimeout (timeoutMs : UInt64) : Option ℕ :=
  if timeoutMs = noTimeoutMs ∨ timeoutMs = 0 then none else some (min timeoutMs.toNat (2 ^ 63 - 1))

/-- A call of `doRequest` that has a connection; `began` when it has set the timeouts. -/
structure RequestCall where
  timeoutMs : UInt64
  began : Bool
  deriving DecidableEq

/-- A pool with the sockets of its connections; `timeouts` are the values that
`SetSocketTimeouts` was called with for a connection, `calls` the calls that lease one. -/
structure RequestPool where
  pool : HttpConnectionPool
  sockets : ℕ → SocketTimeouts
  timeouts : ℕ → List UInt64
  calls : ℕ → Option RequestCall

/-- The steps; `hooked` says whether the context of a new socket is made before its timeouts
are set. -/
inductive RequestAction
  | getConnection (timeoutMs now : UInt64) (connects : Bool) (createdAtMs : UInt64) (hooked : Bool)
  | setTimeouts (id : ℕ)
  | getContext (id : ℕ)
  | onLink (id : ℕ) (action : LinkAction)
  | releaseConnection (id : ℕ) (now : UInt64)

namespace HttpConnectionPool

/-- The connection that `getConnection` returns, and whether it is new. -/
def leasedBy (pool : HttpConnectionPool) (now : UInt64) (connects : Bool) : Option (ℕ × Bool) :=
  if pool.options.isHttps || pool.options.maxSize == 0 then none
  else
    let popped := pool.popIdle now pool.idleConnections
    match popped.1 with
    | some id => some (id, false)
    | none =>
      if pool.total - UInt32.ofNat popped.2.1.length < pool.options.maxSize ∧ connects = true then
        some (pool.created, true)
      else none

end HttpConnectionPool

namespace RequestPool

def new (options : PoolOptions) : RequestPool :=
  ⟨HttpConnectionPool.new options, fun _ => .new, fun _ => [], fun _ => none⟩

/-- A connection and its new socket. -/
def connected (s : RequestPool) (id : ℕ) (timeoutMs : UInt64) (hooked : Bool) : RequestPool :=
  let socket := if hooked then SocketTimeouts.new.getContext else .new
  { s with
    sockets := Function.update s.sockets id (setSocketTimeouts socket timeoutMs)
    timeouts := Function.update s.timeouts id [timeoutMs] }

/-- `getConnection` with the timeouts of a new socket. -/
def getConnection (s : RequestPool) (timeoutMs now : UInt64) (connects : Bool)
    (createdAtMs : UInt64) (hooked : Bool) : RequestPool :=
  let leased := s.pool.leasedBy now connects
  let s := { s with pool := s.pool.getConnection now connects createdAtMs }
  match leased with
  | none => s
  | some (id, fresh) =>
    let s := if fresh then s.connected id timeoutMs hooked else s
    { s with calls := Function.update s.calls id (some ⟨timeoutMs, false⟩) }

/-- `doRequest` sets the timeouts of the connection that it has got. -/
def setTimeouts (s : RequestPool) (id : ℕ) (timeoutMs : UInt64) : RequestPool :=
  { s with
    sockets := Function.update s.sockets id (setSocketTimeouts (s.sockets id) timeoutMs)
    timeouts := Function.update s.timeouts id (s.timeouts id ++ [timeoutMs])
    calls := Function.update s.calls id (some ⟨timeoutMs, true⟩) }

/-- A request is sent when the timeouts are set. -/
def mayStep (s : RequestPool) (id : ℕ) : LinkAction → Bool
  | .sendRequest _ _ => (s.calls id).any RequestCall.began
  | _ => true

def isOpen (s : RequestPool) (id : ℕ) : Bool := (s.pool.links id).any fun l => l.connection.connected

def step (s : RequestPool) : RequestAction → Option RequestPool
  | .getConnection timeoutMs now connects createdAtMs hooked =>
    some (s.getConnection timeoutMs now connects createdAtMs hooked)
  | .setTimeouts id =>
    match s.calls id with
    | some ⟨timeoutMs, false⟩ => if s.isOpen id then some (s.setTimeouts id timeoutMs) else none
    | _ => none
  | .getContext id =>
    some { s with sockets := Function.update s.sockets id (s.sockets id).getContext }
  | .onLink id action =>
    if s.mayStep id action then
      (s.pool.step (.onLink id action)).map fun pool => { s with pool }
    else none
  | .releaseConnection id now =>
    (s.pool.step (.releaseConnection id now)).map fun pool =>
      { s with pool, calls := Function.update s.calls id none }

/-- The runs of a pool with some options. -/
def system (options : PoolOptions) : System RequestPool RequestAction where
  init s := s = new options
  step := step

end RequestPool

/-- The last of these timeouts that is not `UINT64_MAX`. -/
def lastFinite (timeouts : List UInt64) : Option UInt64 :=
  (timeouts.filter (· != noTimeoutMs)).getLast?

/-- The timeout of a socket in milliseconds after these calls of `SetSocketTimeouts`, zero if it
has none. -/
def settledTimeout (timeouts : List UInt64) : ℕ :=
  ((lastFinite timeouts).map fun timeoutMs => min timeoutMs.toNat (2 ^ 63 - 1)).getD 0

/-- A call without a timeout gets a connection whose last timeout, if it had one, was zero. -/
def RequestPool.StartsUnlimited (s : RequestPool) : RequestAction → Prop
  | .setTimeouts id => ∀ call ∈ s.calls id, call.timeoutMs = noTimeoutMs →
      ∀ timeoutMs ∈ lastFinite (s.timeouts id), timeoutMs = 0
  | _ => True

instance (s : RequestPool) : (a : RequestAction) → Decidable (s.StartsUnlimited a)
  | .setTimeouts id => inferInstanceAs (Decidable (∀ call ∈ s.calls id,
      call.timeoutMs = noTimeoutMs → ∀ timeoutMs ∈ lastFinite (s.timeouts id), timeoutMs = 0))
  | .getConnection _ _ _ _ _ | .getContext _ | .onLink _ _ | .releaseConnection _ _ =>
    inferInstanceAs (Decidable True)

/-! ### One socket -/

section Socket

variable {timeouts : List UInt64} {timeoutMs : UInt64} {socket : SocketTimeouts}

theorem lastFinite_concat : lastFinite (timeouts ++ [timeoutMs]) =
    if timeoutMs = noTimeoutMs then lastFinite timeouts else some timeoutMs := by
  rw [lastFinite, List.filter_append]
  by_cases hmax : timeoutMs = noTimeoutMs
  · rw [if_pos hmax, List.filter_cons_of_neg (by simpa using hmax), List.filter_nil,
      List.append_nil]
    rfl
  · rw [if_neg hmax, List.filter_cons_of_pos (by simpa using hmax), List.filter_nil,
      List.getLast?_concat]

theorem settledTimeout_concat : settledTimeout (timeouts ++ [timeoutMs]) =
    if timeoutMs = noTimeoutMs then settledTimeout timeouts
    else min timeoutMs.toNat (2 ^ 63 - 1) := by
  rw [settledTimeout, lastFinite_concat]
  split_ifs
  · rfl
  · rfl

theorem settledTimeout_lt (timeouts : List UInt64) : settledTimeout timeouts < 2 ^ 63 := by
  rw [settledTimeout]
  cases lastFinite timeouts with
  | none => exact Nat.two_pow_pos 63
  | some timeoutMs =>
    show min timeoutMs.toNat (2 ^ 63 - 1) < 2 ^ 63
    omega

theorem settledTimeout_eq_zero_iff :
    settledTimeout timeouts = 0 ↔ ∀ timeoutMs ∈ lastFinite timeouts, timeoutMs = 0 := by
  rw [settledTimeout]
  cases lastFinite timeouts with
  | none => simp
  | some timeoutMs =>
    have hzero : timeoutMs = 0 ↔ timeoutMs.toNat = 0 := UInt64.toNat_inj.symm
    simp only [Option.map_some, Option.getD_some, Option.mem_def, Option.some_inj, forall_eq']
    rw [hzero]
    omega

theorem toNat_bounded (timeoutMs : UInt64) :
    (min timeoutMs (UInt64.ofNat (2 ^ 63 - 1))).toNat = min timeoutMs.toNat (2 ^ 63 - 1) := by
  have hlargest : (UInt64.ofNat (2 ^ 63 - 1)).toNat = 2 ^ 63 - 1 := rfl
  have hmin : min timeoutMs (UInt64.ofNat (2 ^ 63 - 1)) =
      if timeoutMs ≤ UInt64.ofNat (2 ^ 63 - 1) then timeoutMs else UInt64.ofNat (2 ^ 63 - 1) := rfl
  rw [hmin]
  split_ifs with hle
  · rw [UInt64.le_iff_toNat_le, hlargest] at hle
    omega
  · rw [UInt64.le_iff_toNat_le, hlargest] at hle
    rw [hlargest]
    omega

/-- A call of `SetSocketTimeouts`. -/
theorem keeps_setSocketTimeouts
    (h : ∀ option, socket.Keeps option (settledTimeout timeouts)) (option : TimeoutOption) :
    (setSocketTimeouts socket timeoutMs).Keeps option (settledTimeout (timeouts ++ [timeoutMs])) := by
  rw [setSocketTimeouts, settledTimeout_concat]
  split_ifs with hmax
  · exact h option
  · dsimp only
    rw [toNat_bounded]
    obtain ⟨hrecv, -⟩ := SocketTimeouts.setTimeout_keeps socket .recv (min timeoutMs.toNat (2 ^ 63 - 1))
    obtain ⟨hsend, hother⟩ := SocketTimeouts.setTimeout_keeps
      (socket.setRecvTimeout (min timeoutMs.toNat (2 ^ 63 - 1) : ℕ)) .send
      (min timeoutMs.toNat (2 ^ 63 - 1))
    cases option with
    | recv => exact hother .recv _ (by simp) hrecv
    | send => exact hsend

/-- What is in force on a socket. -/
theorem inForce_iff (h : ∀ option, socket.Keeps option (settledTimeout timeouts))
    {timeout : Option ℕ} :
    socket.InForce timeout ↔
      timeout = if settledTimeout timeouts = 0 then none else some (settledTimeout timeouts) := by
  have hwaits := fun option => (h option).waits (settledTimeout_lt timeouts)
  constructor
  · intro hforce
    rw [← (hwaits .recv).1, hforce.blocking]
  · rintro rfl
    exact ⟨fun option => (hwaits option).1, fun option => (hwaits option).2⟩

/-- The last call has its own timeout in force unless it has none and an earlier one had. -/
theorem inForce_requested_iff
    (h : ∀ option, socket.Keeps option (settledTimeout timeouts))
    (hlast : timeouts.getLast? = some timeoutMs) :
    socket.InForce (requestedTimeout timeoutMs) ↔
      (timeoutMs = noTimeoutMs → ∀ earlier ∈ lastFinite timeouts, earlier = 0) := by
  obtain ⟨front, rfl⟩ := List.getLast?_eq_some_iff.mp hlast
  rw [inForce_iff h, requestedTimeout]
  by_cases hmax : timeoutMs = noTimeoutMs
  · rw [if_pos (.inl hmax), ← settledTimeout_eq_zero_iff]
    split_ifs with hzero
    · exact ⟨fun _ _ => hzero, fun _ => rfl⟩
    · constructor
      · intro hnone
        exact absurd hnone (by simp)
      · intro hnone
        exact absurd (hnone hmax) hzero
  · have hzero : timeoutMs = 0 ↔ timeoutMs.toNat = 0 := UInt64.toNat_inj.symm
    have hsettled : settledTimeout (front ++ [timeoutMs]) = min timeoutMs.toNat (2 ^ 63 - 1) := by
      rw [settledTimeout_concat, if_neg hmax]
    rw [hsettled]
    have hpos : (min timeoutMs.toNat (2 ^ 63 - 1) = 0) ↔ (timeoutMs = noTimeoutMs ∨ timeoutMs = 0) := by
      rw [hzero]
      simp only [hmax, false_or]
      omega
    simp only [hpos, true_iff]
    exact fun hfalse => absurd hfalse hmax

end Socket

/-! ### Runs -/

namespace HttpConnectionPool

variable {pool : HttpConnectionPool} {now : UInt64} {connects fresh : Bool} {id : ℕ}

/-- Deleting connections changes nothing but their phases. -/
theorem deleted_options (ids : List ℕ) (pool : HttpConnectionPool) :
    (ids.foldl (fun pool id => pool.setPhase id .deleted) pool).options = pool.options ∧
      (ids.foldl (fun pool id => pool.setPhase id .deleted) pool).created = pool.created := by
  induction ids generalizing pool with
  | nil => exact ⟨rfl, rfl⟩
  | cons id ids ih =>
    have hone : (pool.setPhase id .deleted).options = pool.options ∧
        (pool.setPhase id .deleted).created = pool.created := by
      rw [setPhase]
      split <;> exact ⟨rfl, rfl⟩
    obtain ⟨hoptions, hcreated⟩ := ih (pool.setPhase id .deleted)
    exact ⟨hoptions.trans hone.1, hcreated.trans hone.2⟩

theorem phase_of_setPhase {phase : LeasePhase} {l : Link}
    (h : (pool.setPhase id phase).links id = some l) : l.phase = phase := by
  rw [setPhase] at h
  split at h
  · next hnone => exact absurd (hnone.symm.trans h) (by simp)
  · rw [setLink_links, if_pos rfl] at h
    rw [← Option.some_inj.mp h]

/-- The connection that `getConnection` returns is leased. -/
theorem leased_of_leasedBy (h : pool.leasedBy now connects = some (id, fresh))
    (createdAtMs : UInt64) :
    ∀ l, (pool.getConnection now connects createdAtMs).links id = some l → l.phase = .leased := by
  intro l hl
  rw [leasedBy] at h
  rw [getConnection] at hl
  by_cases hclosed : (pool.options.isHttps || pool.options.maxSize == 0) = true
  · rw [if_pos hclosed] at h
    exact absurd h (by simp)
  · rw [if_neg hclosed] at h hl
    dsimp only at h hl
    rcases hfound : (pool.popIdle now pool.idleConnections).1 with _ | found
    · rw [hfound] at h hl
      dsimp only at h hl
      rw [(deleted_options _ _).1, (deleted_options _ _).2] at hl
      split_ifs at h with hroom
      obtain ⟨rfl, -⟩ := Prod.mk.inj (Option.some_inj.mp h)
      rw [if_pos hroom, setLink_links, if_pos rfl] at hl
      rw [← Option.some_inj.mp hl]
      rfl
    · rw [hfound] at h hl
      obtain ⟨rfl, -⟩ := Prod.mk.inj (Option.some_inj.mp h)
      exact phase_of_setPhase hl

end HttpConnectionPool

namespace RequestPool

variable {options : PoolOptions} {s s' : RequestPool} {a : RequestAction} {id : ℕ}

/-- Sockets have what the calls on their connections have set, the last one the call that leases
the connection. -/
structure Follows (s : RequestPool) : Prop where
  sockets : ∀ id option, (s.sockets id).Keeps option (settledTimeout (s.timeouts id))
  calls : ∀ id call, s.calls id = some call → call.began = true →
    (s.timeouts id).getLast? = some call.timeoutMs

/-- A socket that changes together with its timeouts. -/
theorem keeps_update {sockets : ℕ → SocketTimeouts} {timeouts : ℕ → List UInt64}
    (h : ∀ id option, (sockets id).Keeps option (settledTimeout (timeouts id)))
    {socket : SocketTimeouts} {values : List UInt64}
    (hsocket : ∀ option, socket.Keeps option (settledTimeout values)) (i : ℕ)
    (option : TimeoutOption) :
    (Function.update sockets id socket i).Keeps option
      (settledTimeout (Function.update timeouts id values i)) := by
  by_cases hi : i = id
  · rw [hi, Function.update_self, Function.update_self]
    exact hsocket option
  · rw [Function.update_of_ne hi, Function.update_of_ne hi]
    exact h i option

theorem keeps_connected
    (h : ∀ id option, (s.sockets id).Keeps option (settledTimeout (s.timeouts id)))
    (id : ℕ) (timeoutMs : UInt64) (hooked : Bool) (i : ℕ) (option : TimeoutOption) :
    ((s.connected id timeoutMs hooked).sockets i).Keeps option
      (settledTimeout ((s.connected id timeoutMs hooked).timeouts i)) := by
  refine keeps_update h (fun option => ?_) i option
  have hnew : ∀ option, (if hooked then SocketTimeouts.new.getContext else .new).Keeps option
      (settledTimeout []) := by
    intro option
    cases hooked with
    | true => exact (SocketTimeouts.keeps_new option).getContext
    | false => exact SocketTimeouts.keeps_new option
  exact keeps_setSocketTimeouts hnew option

/-- A call that has begun has just set the timeouts, or was there before with the same
timeouts of its connection. -/
theorem call_of_step {call : RequestCall} (hstep : s.step a = some s')
    (hcall : s'.calls id = some call) (hbegan : call.began = true) :
    (s.calls id = some call ∧ s'.timeouts id = s.timeouts id) ∨
      (a = .setTimeouts id ∧ s.calls id = some ⟨call.timeoutMs, false⟩ ∧
        s'.timeouts id = s.timeouts id ++ [call.timeoutMs]) := by
  cases a with
  | getConnection timeoutMs now connects createdAtMs hooked =>
    obtain rfl := Option.some_inj.mp hstep
    rw [getConnection] at hcall ⊢
    dsimp only at hcall ⊢
    rcases hleased : s.pool.leasedBy now connects with _ | ⟨id', fresh⟩
    · rw [hleased] at hcall
      exact .inl ⟨hcall, rfl⟩
    · rw [hleased] at hcall
      -- the call that gets the connection has not begun
      have hne : id ≠ id' := by
        rintro rfl
        cases fresh <;>
        · have hnew := hcall.symm.trans (Function.update_self ..)
          rw [Option.some_inj.mp hnew] at hbegan
          exact absurd hbegan (by simp)
      cases fresh with
      | true => exact .inl ⟨(Function.update_of_ne hne ..).symm.trans hcall,
          Function.update_of_ne hne ..⟩
      | false => exact .inl ⟨(Function.update_of_ne hne ..).symm.trans hcall, rfl⟩
  | setTimeouts id' =>
    rw [step] at hstep
    split at hstep
    · next timeoutMs hold =>
      split_ifs at hstep
      obtain rfl := Option.some_inj.mp hstep
      by_cases hsame : id = id'
      · subst hsame
        have hnew := hcall.symm.trans (Function.update_self ..)
        rw [Option.some_inj.mp hnew]
        exact .inr ⟨rfl, hold, Function.update_self ..⟩
      · exact .inl ⟨(Function.update_of_ne hsame ..).symm.trans hcall,
          Function.update_of_ne hsame ..⟩
    · exact absurd hstep (by simp)
  | getContext id' =>
    obtain rfl := Option.some_inj.mp hstep
    exact .inl ⟨hcall, rfl⟩
  | onLink id' action =>
    rw [step] at hstep
    split_ifs at hstep
    obtain ⟨pool, -, rfl⟩ := Option.map_eq_some_iff.mp hstep
    exact .inl ⟨hcall, rfl⟩
  | releaseConnection id' now =>
    obtain ⟨pool, -, rfl⟩ := Option.map_eq_some_iff.mp hstep
    have hne : id ≠ id' := by
      rintro rfl
      exact absurd (hcall.symm.trans (Function.update_self ..)) (by simp)
    exact .inl ⟨(Function.update_of_ne hne ..).symm.trans hcall, rfl⟩

/-- Sockets and the timeouts of their connections change together. -/
theorem keeps_of_step
    (h : ∀ id option, (s.sockets id).Keeps option (settledTimeout (s.timeouts id)))
    (hstep : s.step a = some s') :
    ∀ id option, (s'.sockets id).Keeps option (settledTimeout (s'.timeouts id)) := by
  cases a with
  | getConnection timeoutMs now connects createdAtMs hooked =>
    obtain rfl := Option.some_inj.mp hstep
    rw [getConnection]
    dsimp only
    rcases s.pool.leasedBy now connects with _ | ⟨id, fresh⟩
    · exact h
    · cases fresh with
      | true => exact keeps_connected h id timeoutMs hooked
      | false => exact h
  | setTimeouts id =>
    rw [step] at hstep
    split at hstep
    · split_ifs at hstep
      obtain rfl := Option.some_inj.mp hstep
      exact keeps_update h (keeps_setSocketTimeouts (h id))
    · exact absurd hstep (by simp)
  | getContext id =>
    obtain rfl := Option.some_inj.mp hstep
    intro i option
    dsimp only
    by_cases hsame : i = id
    · rw [hsame, Function.update_self]
      exact (h id option).getContext
    · rw [Function.update_of_ne hsame]
      exact h i option
  | onLink id action =>
    rw [step] at hstep
    split_ifs at hstep
    obtain ⟨pool, -, rfl⟩ := Option.map_eq_some_iff.mp hstep
    exact h
  | releaseConnection id now =>
    obtain ⟨pool, -, rfl⟩ := Option.map_eq_some_iff.mp hstep
    exact h

theorem Follows.step (h : s.Follows) (hstep : s.step a = some s') : s'.Follows := by
  refine ⟨keeps_of_step h.sockets hstep, fun id call hcall hbegan => ?_⟩
  rcases call_of_step hstep hcall hbegan with ⟨hold, hsame⟩ | ⟨-, -, hset⟩
  · rw [hsame]
    exact h.calls id call hold hbegan
  · rw [hset, List.getLast?_concat]

theorem follows_new (options : PoolOptions) : (new options).Follows :=
  ⟨fun _ option => SocketTimeouts.keeps_new option, fun _ _ hcall => absurd hcall (by simp [new])⟩

theorem follows_of_reachable {C : RequestPool → RequestAction → Prop}
    (h : (system options).ReachableWhile C s) : s.Follows := by
  refine ReachableWhile.invariant ?_ (fun _ _ _ hs _ hstep => hs.step hstep) h
  rintro s rfl
  exact follows_new options

/-- A call without a timeout that began on such a connection goes on without one. -/
theorem unlimited_of_reachable (h : (system options).ReachableWhile StartsUnlimited s) :
    ∀ id call, s.calls id = some call → call.began = true → call.timeoutMs = noTimeoutMs →
      ∀ timeoutMs ∈ lastFinite (s.timeouts id), timeoutMs = 0 := by
  induction h with
  | init h =>
    obtain rfl := h
    exact fun id call hcall => absurd hcall (by simp [new])
  | step h hcond hstep ih =>
    intro id call hcall hbegan hmax
    rcases call_of_step hstep hcall hbegan with ⟨hold, hsame⟩ | ⟨rfl, hold, hset⟩
    · rw [hsame]
      exact ih id call hold hbegan hmax
    · rw [hset, lastFinite_concat, if_pos hmax]
      exact hcond _ hold hmax

/-- **The timeouts of a request are its own unless it has none and the last call on its
connection that had a timeout is still in force.** -/
theorem inForce_iff_unlimited (options : PoolOptions) :
    (∀ s, (system options).ReachableWhile StartsUnlimited s → ∀ id call,
      s.calls id = some call → call.began = true →
      (s.sockets id).InForce (requestedTimeout call.timeoutMs)) ∧
    ∀ s, (system options).Reachable s → ∀ id call,
      s.calls id = some call → call.began = true →
      ((s.sockets id).InForce (requestedTimeout call.timeoutMs) ↔
        (call.timeoutMs = noTimeoutMs →
          ∀ timeoutMs ∈ lastFinite (s.timeouts id), timeoutMs = 0)) := by
  constructor
  · intro s h id call hcall hbegan
    have hfollows := follows_of_reachable h
    exact (inForce_requested_iff (hfollows.sockets id) (hfollows.calls id call hcall hbegan)).mpr
      (unlimited_of_reachable h id call hcall hbegan)
  · intro s h id call hcall hbegan
    have hfollows := follows_of_reachable h
    exact inForce_requested_iff (hfollows.sockets id) (hfollows.calls id call hcall hbegan)

/-- A request with its answer. -/
def exchange (timeoutMs : UInt64) : List RequestAction :=
  [.getConnection timeoutMs 0 true 0 true, .setTimeouts 0,
    .onLink 0 (.sendRequest .get .written),
    .onLink 0 (.serve HttpConnectionPool.emptyResponse), .onLink 0 .beginReceive,
    .onLink 0 (.read (.received HttpConnectionPool.emptyResponse.length)),
    .releaseConnection 0 0]

/-- A request with this timeout and its answer, and a request without a timeout on the same
connection. -/
def twoRequests (timeoutMs : UInt64) : List RequestAction :=
  exchange timeoutMs ++ (exchange noTimeoutMs).take 3

/-- The second call, and what it has in force. -/
def secondRequest (timeoutMs : UInt64) : Option (Option RequestCall × Option ℕ) :=
  ((system HttpConnectionPool.exampleOptions).exec (new HttpConnectionPool.exampleOptions)
    (twoRequests timeoutMs)).map fun s => (s.calls 0, (s.sockets 0).hooked .recv)

/-- Two runs that differ in the timeout of an earlier call only. -/
theorem not_inForce :
    secondRequest 5000 = some (some ⟨noTimeoutMs, true⟩, some 5000) ∧
    secondRequest noTimeoutMs = some (some ⟨noTimeoutMs, true⟩, none) := by
  constructor
  · decide +kernel
  · decide +kernel

/-- A request whose timeout replaces an earlier one. -/
theorem inForce_iff_unlimited_replaced :
    ∃ s, (system HttpConnectionPool.exampleOptions).exec (new HttpConnectionPool.exampleOptions)
        (exchange 5000 ++ (exchange 300).take 3) = some s ∧
      s.calls 0 = some ⟨300, true⟩ ∧ (s.sockets 0).InForce (some 300) := by
  have hrun : ((system HttpConnectionPool.exampleOptions).exec
      (new HttpConnectionPool.exampleOptions) (exchange 5000 ++ (exchange 300).take 3)).any
        (fun s => decide (s.calls 0 = some ⟨300, true⟩)) = true := by
    decide +kernel
  have hmeets : (system HttpConnectionPool.exampleOptions).Meets StartsUnlimited
      (new HttpConnectionPool.exampleOptions) (exchange 5000 ++ (exchange 300).take 3) := by
    decide +kernel
  obtain ⟨s, hexec, hcall⟩ := (Option.any_eq_true _ _).mp hrun
  rw [decide_eq_true_eq] at hcall
  have hreach := ReachableWhile.exec (.init rfl) hmeets hexec
  exact ⟨s, hexec, hcall, (inForce_iff_unlimited HttpConnectionPool.exampleOptions).1 s hreach 0 _
    hcall rfl⟩

end RequestPool

end Http

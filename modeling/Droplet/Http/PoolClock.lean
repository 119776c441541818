/-
The clock of a pool that many threads use.

`getConnection` reads the clock before it waits for the lock, and compares the reading
under the lock with the times at which connections were made; `releaseConnection` reads
it before it decides.  The steps here are those of `SharedPool` with these readings, so
that other threads make, use and give back connections between a reading and its use.

* `Step`, `step_cases` — everything that one step can do;
* `pool_reachable` — without the clock the runs are runs of `SharedPool`;
* `isUnfit_iff` — an unsigned age is the age unless the connection was made after the
  reading, when it is close to the largest `u64`;
* `InOrder` — readings lie in the past, and that of `releaseConnection` is not older than
  its connection;
* `justified_of_readInOrder` — connections are given up in time as long as no call of
  `getConnection` is overtaken by a connection that was made after its reading.
-/
import Droplet.Http.PoolCapacity

open Transition Transition.System

namespace Http

/-- A connection as it was when it was given up, and the time. -/
structure Discard where
  connection : HttpConnection
  time : UInt64
  deriving DecidableEq

/-- A pool and its clock; `waiting` has the readings of the calls of `getConnection` that wait
for the lock, `releasing` the calls whose leases have ended and the readings of
`releaseConnection`. -/
structure TimedPool where
  pool : SharedPool
  clock : UInt64
  waiting : List UInt64
  releasing : List (ℕ × UInt64)
  discards : List Discard

/-- The steps: `readClock` and `lock` begin a call of `getConnection`, `endLease` and
`releaseConnection` end its lease. -/
inductive TimedPoolAction
  | tick (time : UInt64)
  | readClock
  | lock (k : ℕ)
  | deleteInvalid (i : ℕ)
  | connect (i : ℕ) (succeeds : Bool)
  | use (i : ℕ) (connection : HttpConnection)
  | endLease (i : ℕ)
  | releaseConnection (i : ℕ) (pushed : Bool)
  | destroy

namespace Discard

/-- The request limit is reached, or the lifetime has passed. -/
def Due (d : Discard) (options : PoolOptions) : Prop :=
  (options.maxRequests ≠ 0 ∧ options.maxRequests.toNat ≤ d.connection.requestCount) ∨
    (options.maxAliveTimeMs ≠ 0 ∧
      d.connection.createdAtMs + options.maxAliveTimeMs.toNat ≤ d.time.toNat)

/-- A connection that could be used again is given up only when it is due. -/
def Justified (d : Discard) (options : PoolOptions) : Prop :=
  d.connection.connected = true → d.connection.reusable = true → d.Due options

instance (d : Discard) (options : PoolOptions) : Decidable (d.Due options) := by
  unfold Due
  infer_instance

instance (d : Discard) (options : PoolOptions) : Decidable (d.Justified options) := by
  unfold Justified
  infer_instance

end Discard

namespace TimedPool

def new (options : PoolOptions) (clock : UInt64) : TimedPool :=
  ⟨SharedPool.new options, clock, [], [], []⟩

/-- A step that involves no reading. -/
def onPool (s : TimedPool) (a : SharedPoolAction) : Option TimedPool :=
  (s.pool.step a).map fun pool => { s with pool }

/-- The call's lease has ended. -/
def isReleasing (s : TimedPool) (i : ℕ) : Bool := s.releasing.any fun r => r.1 == i

/-- What the loop under the lock gives up. -/
def unfit (s : TimedPool) (now : UInt64) : List Discard :=
  (s.pool.popped now).2.1.map fun id => ⟨s.pool.connections id, s.clock⟩

/-- The section under the lock, with the reading from before. -/
def lock (s : TimedPool) (k : ℕ) (now : UInt64) : Option TimedPool :=
  (s.pool.step (.getConnection now)).map fun pool =>
    { s with
      pool
      waiting := s.waiting.eraseIdx k
      discards := s.discards ++ s.unfit now }

/-- What `releaseConnection` gives up: an unfit connection, or one that `push_back` has no
memory for. -/
def refused (s : TimedPool) (id : ℕ) (now : UInt64) (pushed : Bool) : List Discard :=
  if s.pool.isUnfit now id || !pushed then [⟨s.pool.connections id, s.clock⟩] else []

/-- `releaseConnection` after its reading. -/
def release (s : TimedPool) (i : ℕ) (now : UInt64) (pushed : Bool) : Option TimedPool :=
  match s.pool.calls[i]? with
  | some (.leased id) =>
    (s.pool.step (.releaseConnection i now pushed)).map fun pool =>
      { s with
        pool
        releasing := s.releasing.filter fun r => r.1 != i
        discards := s.discards ++ s.refused id now pushed }
  | _ => none

/-- The deleter of a lease: a pool that is gone reads no clock. -/
def endLease (s : TimedPool) (i : ℕ) : Option TimedPool :=
  match s.pool.calls[i]? with
  | some (.leased _) =>
    if s.pool.alive then some { s with releasing := (i, s.clock) :: s.releasing }
    else s.onPool (.releaseConnection i s.clock true)
  | _ => none

/-- Using a connection does not change the time at which it was made. -/
def keepsCreation (s : TimedPool) (i : ℕ) (connection : HttpConnection) : Bool :=
  match s.pool.calls[i]? with
  | some (.leased id) => connection.createdAtMs == (s.pool.connections id).createdAtMs
  | _ => false

def step (s : TimedPool) : TimedPoolAction → Option TimedPool
  | .tick time => if s.clock ≤ time then some { s with clock := time } else none
  | .readClock =>
    if s.pool.alive && !(s.pool.options.isHttps || s.pool.options.maxSize == 0) then
      some { s with waiting := s.waiting ++ [s.clock] }
    else none
  | .lock k => (s.waiting[k]?).bind (s.lock k)
  | .deleteInvalid i => s.onPool (.deleteInvalid i)
  | .connect i succeeds => s.onPool (.connect i (if succeeds then some s.clock else none))
  | .use i connection =>
    if !s.isReleasing i && s.keepsCreation i connection then s.onPool (.use i connection) else none
  | .endLease i => if s.isReleasing i then none else s.endLease i
  | .releaseConnection i pushed =>
    (s.releasing.lookup i).bind fun now => s.release i now pushed
  | .destroy =>
    if s.waiting.isEmpty && s.releasing.isEmpty then s.onPool .destroy else none

/-- All interleavings, from any time on. -/
def system (options : PoolOptions) : System TimedPool TimedPoolAction where
  init s := ∃ clock, s = new options clock
  step := step

/-- The idle connections that the loop looks at. -/
def examined (s : TimedPool) (now : UInt64) : List ℕ :=
  (s.pool.popped now).2.1 ++ (s.pool.popped now).1.toList

/-- The connection could be used again, and was made after the reading. -/
def Overtakes (s : TimedPool) (now : UInt64) (id : ℕ) : Prop :=
  s.pool.options.maxAliveTimeMs ≠ 0 ∧
  (s.pool.connections id).connected = true ∧ (s.pool.connections id).reusable = true ∧
  (s.pool.options.maxRequests ≠ 0 →
    (s.pool.connections id).requestCount < s.pool.options.maxRequests.toNat) ∧
  now.toNat < (s.pool.connections id).createdAtMs

instance (s : TimedPool) (now : UInt64) (id : ℕ) : Decidable (s.Overtakes now id) := by
  unfold Overtakes
  infer_instance

/-- No connection that `getConnection` looks at was made after its reading, and `push_back`
has memory. -/
def ReadInOrder (s : TimedPool) : TimedPoolAction → Prop
  | .lock k => ∀ now ∈ s.waiting[k]?, ∀ id ∈ s.examined now, ¬ s.Overtakes now id
  | .releaseConnection _ pushed => pushed = true
  | _ => True

instance (s : TimedPool) : (a : TimedPoolAction) → Decidable (s.ReadInOrder a)
  | .lock k =>
    -- only the reading of this call is tried, not every number
    Option.decidableForallMem s.waiting[k]?
  | .releaseConnection _ pushed => inferInstanceAs (Decidable (pushed = true))
  | .tick _ | .readClock | .deleteInvalid _ | .connect _ _ | .use _ _ | .endLease _ | .destroy =>
    inferInstanceAs (Decidable True)

/-! ### Ages -/

/-- The age of a connection that was made before the reading. -/
theorem toNat_age {now : UInt64} {createdAtMs : ℕ} (h : createdAtMs ≤ now.toNat) :
    (now - UInt64.ofNat createdAtMs).toNat = now.toNat - createdAtMs := by
  have hcreated : (UInt64.ofNat createdAtMs).toNat = createdAtMs :=
    Nat.mod_eq_of_lt (Nat.lt_of_le_of_lt h now.toNat_lt)
  rw [UInt64.toNat_sub_of_le, hcreated]
  rw [UInt64.le_iff_toNat_le, hcreated]
  exact h

/-- The age of a connection that was made after it. -/
theorem toNat_age_wrapped {now : UInt64} {createdAtMs : ℕ} (h : now.toNat < createdAtMs)
    (hlt : createdAtMs < 2 ^ 64) :
    (now - UInt64.ofNat createdAtMs).toNat = 2 ^ 64 - (createdAtMs - now.toNat) := by
  have hcreated : (UInt64.ofNat createdAtMs).toNat = createdAtMs := Nat.mod_eq_of_lt hlt
  rw [UInt64.toNat_sub, hcreated]
  omega

variable {options : PoolOptions} {c : HttpConnection} {now time : UInt64}

theorem isExpired_iff :
    HttpConnectionPool.isExpired options c now = true ↔
      (options.maxAliveTimeMs ≠ 0 ∧
        options.maxAliveTimeMs.toNat ≤ (now - UInt64.ofNat c.createdAtMs).toNat) ∨
      (options.maxRequests ≠ 0 ∧ options.maxRequests.toNat ≤ c.requestCount) := by
  rw [HttpConnectionPool.isExpired]
  simp only [Bool.or_eq_true, Bool.and_eq_true, bne_iff_ne, decide_eq_true_eq,
    UInt64.le_iff_toNat_le]

/-- A connection that is given up at a reading which is not older than it. -/
theorem justified_of_isUnfit (hunfit : HttpConnectionPool.isUnfit options c now = true)
    (hcreated : options.maxAliveTimeMs ≠ 0 → c.connected = true → c.reusable = true →
      (options.maxRequests ≠ 0 → c.requestCount < options.maxRequests.toNat) →
      c.createdAtMs ≤ now.toNat)
    (htime : now.toNat ≤ time.toNat) : (Discard.mk c time).Justified options := by
  intro hconnected hreusable
  dsimp only at hconnected hreusable
  rw [HttpConnectionPool.isUnfit, hconnected, hreusable] at hunfit
  rcases isExpired_iff.mp hunfit with ⟨halive, hage⟩ | hlimit
  · by_cases hlimit : options.maxRequests ≠ 0 ∧ options.maxRequests.toNat ≤ c.requestCount
    · exact .inl hlimit
    · have hle := hcreated halive hconnected hreusable fun hne =>
        Nat.lt_of_not_le fun hreached => hlimit ⟨hne, hreached⟩
      rw [toNat_age hle] at hage
      refine .inr ⟨halive, ?_⟩
      show c.createdAtMs + options.maxAliveTimeMs.toNat ≤ time.toNat
      omega
  · exact .inl hlimit

/-! ### Steps of the pool -/

/-- The connections that are idle or held have been made. -/
structure Known (pool : SharedPool) : Prop where
  idle : ∀ id ∈ pool.idleConnections, id < pool.created
  held : ∀ call ∈ pool.calls, ∀ id ∈ call.held, id < pool.created

variable {pool pool' : SharedPool} {b : SharedPoolAction} {i id : ℕ}

theorem Known.of_leased (h : Known pool) (hcall : pool.calls[i]? = some (.leased id)) :
    id < pool.created :=
  h.held _ (List.mem_of_getElem? hcall) id (List.mem_singleton.mpr rfl)

/-- A call that is replaced by one that holds nothing else. -/
theorem held_set {call : PoolCall} {n : ℕ} {calls : List PoolCall}
    (h : ∀ call ∈ calls, ∀ id ∈ call.held, id < n) (hcall : ∀ id ∈ call.held, id < n) :
    ∀ call' ∈ calls.set i call, ∀ id ∈ call'.held, id < n := by
  intro call' hmem
  rcases List.mem_or_eq_of_mem_set hmem with hold | rfl
  · exact h call' hold
  · exact hcall

theorem mem_idle_of_mem_popped (h : id ∈ (pool.popped now).1.toList ++ (pool.popped now).2.2) :
    id ∈ pool.idleConnections := by
  rw [(pool.popped_eq now).1, List.append_assoc]
  exact List.mem_append_right _ h

theorem Known.step (h : Known pool) (hstep : pool.step b = some pool') : Known pool' := by
  cases SharedPool.step_cases hstep with
  | refuse => exact h
  | @pop now =>
    refine ⟨fun id hid => ?_, fun call hcall id hid => ?_⟩
    · exact h.idle id (mem_idle_of_mem_popped (List.mem_append_right _ hid))
    · rcases List.mem_append.mp hcall with hold | hnew
      · exact h.held call hold id hid
      · rw [List.mem_singleton.mp hnew] at hid
        exact h.idle id (mem_idle_of_mem_popped (List.mem_append_left _ hid))
  | @delete i invalid found reserved hcall =>
    refine ⟨h.idle, held_set h.held fun id hid => ?_⟩
    have hfound : id ∈ found.toList := by
      cases found with
      | none => cases reserved <;> exact absurd hid (by simp [PoolCall.held, SharedPool.afterDelete])
      | some id' => exact hid
    exact h.held _ (List.mem_of_getElem? hcall) id hfound
  | connected hcall =>
    refine ⟨fun id hid => Nat.lt_succ_of_lt (h.idle id hid), held_set ?_ fun id hid => ?_⟩
    · exact fun call hmem id hid => Nat.lt_succ_of_lt (h.held call hmem id hid)
    · rw [List.mem_singleton.mp hid]
      exact Nat.lt_succ_self _
  | failed hcall => exact ⟨h.idle, held_set h.held (by simp [PoolCall.held])⟩
  | use hcall => exact ⟨h.idle, h.held⟩
  | dropped hcall => exact ⟨h.idle, held_set h.held (by simp [PoolCall.held])⟩
  | parked hcall =>
    refine ⟨fun id hid => ?_, held_set h.held (by simp [PoolCall.held])⟩
    rcases List.mem_append.mp hid with hold | hnew
    · exact h.idle id hold
    · rw [List.mem_singleton.mp hnew]
      exact h.of_leased hcall
  | orphaned hcall => exact ⟨h.idle, held_set h.held (by simp [PoolCall.held])⟩
  | destroyed => exact ⟨by simp [SharedPool.destroy], h.held⟩

/-- A use of a connection that keeps the time at which it was made. -/
def KeepsCreation (pool : SharedPool) (b : SharedPoolAction) : Prop :=
  ∀ i connection id, b = .use i connection → pool.calls[i]? = some (.leased id) →
    connection.createdAtMs = (pool.connections id).createdAtMs

theorem createdAt_of_step (hstep : pool.step b = some pool') (hkeeps : KeepsCreation pool b)
    (hid : id < pool.created) :
    (pool'.connections id).createdAtMs = (pool.connections id).createdAtMs := by
  cases SharedPool.step_cases hstep with
  | @connected i time hcall =>
    have hold : (pool.connected i time).connections id = pool.connections id :=
      Function.update_of_ne (Nat.ne_of_lt hid) _ _
    rw [hold]
  | @use i id' connection hcall =>
    by_cases hsame : id = id'
    · have hused : (pool.use id' connection).connections id' = connection :=
        Function.update_self _ _ _
      rw [hsame, hused, hkeeps i connection id' rfl hcall]
    · have hold : (pool.use id' connection).connections id = pool.connections id :=
        Function.update_of_ne hsame _ _
      rw [hold]
  | refuse => rfl
  | pop => rfl
  | delete => rfl
  | failed => rfl
  | dropped => rfl
  | parked => rfl
  | orphaned => rfl
  | destroyed => rfl

/-- A connection that a step makes is made at the time of the step. -/
theorem created_of_step (hstep : pool.step b = some pool') :
    pool'.created = pool.created ∨
      ∃ i time, b = .connect i (some time) ∧ pool'.created = pool.created + 1 ∧
        (pool'.connections pool.created).createdAtMs = time.toNat := by
  cases SharedPool.step_cases hstep with
  | @connected i time hcall =>
    have hmade : (pool.connected i time).connections pool.created =
        HttpConnection.new time.toNat := Function.update_self _ _ _
    refine .inr ⟨i, time, rfl, rfl, ?_⟩
    rw [hmade]
    rfl
  | refuse => exact .inl rfl
  | pop => exact .inl rfl
  | delete => exact .inl rfl
  | failed => exact .inl rfl
  | use => exact .inl rfl
  | dropped => exact .inl rfl
  | parked => exact .inl rfl
  | orphaned => exact .inl rfl
  | destroyed => exact .inl rfl

/-- A lease goes on until it is released. -/
theorem leased_of_step (hstep : pool.step b = some pool')
    (hcall : pool.calls[i]? = some (.leased id))
    (hne : ∀ now pushed, b ≠ .releaseConnection i now pushed) :
    pool'.calls[i]? = some (.leased id) := by
  have hset : ∀ {j : ℕ} {call : PoolCall} (call' : PoolCall), pool.calls[j]? = some call →
      j ≠ i → (pool.calls.set j call')[i]? = some (.leased id) := by
    intro j call call' _ hj
    rw [List.getElem?_set_ne hj]
    exact hcall
  -- a call that is somewhere else is another one
  have hother : ∀ {j : ℕ} {call : PoolCall}, pool.calls[j]? = some call → call ≠ .leased id →
      j ≠ i := by
    rintro j call hj hdiff rfl
    exact hdiff (Option.some_inj.mp (hj.symm.trans hcall))
  cases SharedPool.step_cases hstep with
  | refuse => exact hcall
  | pop =>
    have hlt : i < pool.calls.length := (List.getElem?_eq_some_iff.mp hcall).1
    show (pool.calls ++ _)[i]? = _
    rw [List.getElem?_append_left hlt]
    exact hcall
  | delete hj => exact hset _ hj (hother hj (by simp))
  | connected hj => exact hset _ hj (hother hj (by simp))
  | failed hj => exact hset _ hj (hother hj (by simp))
  | use hj => exact hcall
  | @dropped j _ now pushed hj =>
    refine hset _ hj ?_
    rintro rfl
    exact hne now pushed rfl
  | @parked j _ now pushed hj =>
    refine hset _ hj ?_
    rintro rfl
    exact hne now pushed rfl
  | @orphaned j _ now pushed hj =>
    refine hset _ hj ?_
    rintro rfl
    exact hne now pushed rfl
  | destroyed => exact hcall

theorem alive_of_step (hstep : pool.step b = some pool') (hne : b ≠ .destroy) :
    pool'.alive = pool.alive := by
  cases SharedPool.step_cases hstep with
  | destroyed => exact absurd rfl hne
  | refuse => rfl
  | pop => rfl
  | delete => rfl
  | connected => rfl
  | failed => rfl
  | use => rfl
  | dropped => rfl
  | parked => rfl
  | orphaned => rfl

/-! ### Steps -/

variable {s s' : TimedPool} {a : TimedPoolAction}

/-- Everything that a step can do. -/
inductive Step (s : TimedPool) : TimedPoolAction → TimedPool → Prop
  | tick {time : UInt64} (hle : s.clock ≤ time) : Step s (.tick time) { s with clock := time }
  | readClock (halive : s.pool.alive = true) :
      Step s .readClock { s with waiting := s.waiting ++ [s.clock] }
  | lock {k : ℕ} {now : UInt64} {pool : SharedPool} (hnow : s.waiting[k]? = some now)
      (hpool : s.pool.step (.getConnection now) = some pool) :
      Step s (.lock k) { s with
        pool
        waiting := s.waiting.eraseIdx k
        discards := s.discards ++ s.unfit now }
  | deleteInvalid {i : ℕ} {pool : SharedPool}
      (hpool : s.pool.step (.deleteInvalid i) = some pool) :
      Step s (.deleteInvalid i) { s with pool }
  | connect {i : ℕ} {succeeds : Bool} {pool : SharedPool}
      (hpool : s.pool.step (.connect i (if succeeds then some s.clock else none)) = some pool) :
      Step s (.connect i succeeds) { s with pool }
  | use {i : ℕ} {connection : HttpConnection} {pool : SharedPool}
      (hreleasing : ¬ s.isReleasing i = true) (hkeeps : s.keepsCreation i connection = true)
      (hpool : s.pool.step (.use i connection) = some pool) :
      Step s (.use i connection) { s with pool }
  | leaseEnded {i id : ℕ} (hreleasing : ¬ s.isReleasing i = true)
      (hcall : s.pool.calls[i]? = some (.leased id)) (halive : s.pool.alive = true) :
      Step s (.endLease i) { s with releasing := (i, s.clock) :: s.releasing }
  | orphaned {i id : ℕ} {pool : SharedPool} (hreleasing : ¬ s.isReleasing i = true)
      (hcall : s.pool.calls[i]? = some (.leased id)) (halive : ¬ s.pool.alive = true)
      (hpool : s.pool.step (.releaseConnection i s.clock true) = some pool) :
      Step s (.endLease i) { s with pool }
  | released {i id : ℕ} {now : UInt64} {pushed : Bool} {pool : SharedPool}
      (hnow : (i, now) ∈ s.releasing) (hcall : s.pool.calls[i]? = some (.leased id))
      (hpool : s.pool.step (.releaseConnection i now pushed) = some pool) :
      Step s (.releaseConnection i pushed) { s with
        pool
        releasing := s.releasing.filter fun r => r.1 != i
        discards := s.discards ++ s.refused id now pushed }
  | destroyed {pool : SharedPool} (hwaiting : s.waiting = []) (hreleasing : s.releasing = [])
      (hpool : s.pool.step .destroy = some pool) : Step s .destroy { s with pool }

theorem lookup_mem {xs : List (ℕ × UInt64)} (h : xs.lookup i = some now) : (i, now) ∈ xs := by
  induction xs with
  | nil => exact absurd h (by simp)
  | cons x xs ih =>
    obtain ⟨j, time⟩ := x
    rw [List.lookup_cons] at h
    by_cases hi : (i == j) = true
    · rw [hi] at h
      rw [beq_iff_eq] at hi
      rw [hi, Option.some_inj.mp h]
      exact List.mem_cons_self
    · rw [Bool.not_eq_true] at hi
      rw [hi] at h
      exact List.mem_cons_of_mem _ (ih h)

theorem step_cases (hstep : s.step a = some s') : Step s a s' := by
  cases a with
  | tick time =>
    rw [TimedPool.step] at hstep
    split_ifs at hstep with hle
    exact Option.some_inj.mp hstep ▸ .tick hle
  | readClock =>
    rw [TimedPool.step] at hstep
    split_ifs at hstep with hguard
    rw [Bool.and_eq_true] at hguard
    exact Option.some_inj.mp hstep ▸ .readClock hguard.1
  | lock k =>
    obtain ⟨now, hnow, hlock⟩ := Option.bind_eq_some_iff.mp hstep
    obtain ⟨pool, hpool, rfl⟩ := Option.map_eq_some_iff.mp hlock
    exact .lock hnow hpool
  | deleteInvalid i =>
    obtain ⟨pool, hpool, rfl⟩ := Option.map_eq_some_iff.mp hstep
    exact .deleteInvalid hpool
  | connect i succeeds =>
    obtain ⟨pool, hpool, rfl⟩ := Option.map_eq_some_iff.mp hstep
    exact .connect hpool
  | use i connection =>
    rw [TimedPool.step] at hstep
    split_ifs at hstep with hguard
    rw [Bool.and_eq_true, Bool.not_eq_true', ← Bool.not_eq_true] at hguard
    obtain ⟨pool, hpool, rfl⟩ := Option.map_eq_some_iff.mp hstep
    exact .use hguard.1 hguard.2 hpool
  | endLease i =>
    rw [TimedPool.step] at hstep
    split_ifs at hstep with hreleasing
    rw [TimedPool.endLease] at hstep
    split at hstep
    · next id hcall =>
      split_ifs at hstep with halive
      · exact Option.some_inj.mp hstep ▸ .leaseEnded hreleasing hcall halive
      · obtain ⟨pool, hpool, rfl⟩ := Option.map_eq_some_iff.mp hstep
        exact .orphaned hreleasing hcall halive hpool
    · exact absurd hstep (by simp)
  | releaseConnection i pushed =>
    obtain ⟨now, hnow, hrelease⟩ := Option.bind_eq_some_iff.mp hstep
    rw [TimedPool.release] at hrelease
    split at hrelease
    · next id hcall =>
      obtain ⟨pool, hpool, rfl⟩ := Option.map_eq_some_iff.mp hrelease
      exact .released (lookup_mem hnow) hcall hpool
    · exact absurd hrelease (by simp)
  | destroy =>
    rw [TimedPool.step] at hstep
    split_ifs at hstep with hguard
    rw [Bool.and_eq_true, List.isEmpty_iff, List.isEmpty_iff] at hguard
    obtain ⟨pool, hpool, rfl⟩ := Option.map_eq_some_iff.mp hstep
    exact .destroyed hguard.1 hguard.2 hpool

/-! ### Readings -/

/-- Connections have been made, readings taken in the past; a reading of
`releaseConnection` is not older than its connection. -/
structure InOrder (s : TimedPool) : Prop where
  known : Known s.pool
  created : ∀ id < s.pool.created, (s.pool.connections id).createdAtMs ≤ s.clock.toNat
  waiting : ∀ now ∈ s.waiting, now.toNat ≤ s.clock.toNat ∧ s.pool.alive = true
  releasing : ∀ r ∈ s.releasing, r.2.toNat ≤ s.clock.toNat ∧
    ∃ id, s.pool.calls[r.1]? = some (.leased id) ∧
      (s.pool.connections id).createdAtMs ≤ r.2.toNat

/-- A step of the pool that makes connections now and releases none of the leases that are
still to be released. -/
theorem InOrder.of_pool (h : InOrder s) (hstep : s.pool.step b = some s'.pool)
    (hkeeps : KeepsCreation s.pool b) (hconnect : ∀ i time, b = .connect i (some time) →
      time = s.clock)
    (hclock : s'.clock = s.clock)
    (hwaiting : ∀ now ∈ s'.waiting, now ∈ s.waiting ∧ b ≠ .destroy)
    (hreleasing : ∀ r ∈ s'.releasing, r ∈ s.releasing ∧
      ∀ now pushed, b ≠ .releaseConnection r.1 now pushed) : InOrder s' := by
  refine ⟨h.known.step hstep, fun id hid => ?_, fun now hnow => ?_, fun r hr => ?_⟩
  · rw [hclock]
    by_cases hold : id < s.pool.created
    · rw [createdAt_of_step hstep hkeeps hold]
      exact h.created id hold
    · rcases created_of_step hstep with hsame | ⟨i, time, hb, hcreated, htime⟩
      · omega
      · have hnew : id = s.pool.created := by omega
        rw [hnew, htime, hconnect i time hb]
  · obtain ⟨hmem, hne⟩ := hwaiting now hnow
    rw [hclock, alive_of_step hstep hne]
    exact h.waiting now hmem
  · obtain ⟨hmem, hne⟩ := hreleasing r hr
    obtain ⟨hpast, id, hcall, hcreated⟩ := h.releasing r hmem
    rw [hclock]
    refine ⟨hpast, id, leased_of_step hstep hcall hne, ?_⟩
    rw [createdAt_of_step hstep hkeeps (h.known.of_leased hcall)]
    exact hcreated

/-- A step of the pool alone. -/
theorem InOrder.onPool (h : InOrder s) (hstep : s.pool.step b = some pool)
    (hkeeps : KeepsCreation s.pool b) (hconnect : ∀ i time, b = .connect i (some time) →
      time = s.clock)
    (hdestroy : s.waiting ≠ [] → b ≠ .destroy)
    (hrelease : ∀ r ∈ s.releasing, ∀ now pushed, b ≠ .releaseConnection r.1 now pushed) :
    InOrder { s with pool } :=
  h.of_pool hstep hkeeps hconnect rfl
    (fun _ hnow => ⟨hnow, hdestroy (List.ne_nil_of_mem hnow)⟩)
    (fun r hr => ⟨hr, hrelease r hr⟩)

theorem InOrder.step (h : InOrder s) (hstep : s.step a = some s') : InOrder s' := by
  have hkeepsOther : ∀ {b : SharedPoolAction}, (∀ i connection, b ≠ .use i connection) →
      KeepsCreation s.pool b := by
    intro b hne i connection id hb
    exact absurd hb (hne i connection)
  cases step_cases hstep with
  | tick hle =>
    rw [UInt64.le_iff_toNat_le] at hle
    refine ⟨h.known, fun id hid => (h.created id hid).trans hle, fun now hnow => ?_, fun r hr => ?_⟩
    · exact ⟨(h.waiting now hnow).1.trans hle, (h.waiting now hnow).2⟩
    · exact ⟨(h.releasing r hr).1.trans hle, (h.releasing r hr).2⟩
  | readClock halive =>
    refine ⟨h.known, h.created, fun now hnow => ?_, h.releasing⟩
    rcases List.mem_append.mp hnow with hold | hnew
    · exact h.waiting now hold
    · rw [List.mem_singleton.mp hnew]
      exact ⟨le_refl _, halive⟩
  | lock hnow hpool =>
    exact h.of_pool hpool (hkeepsOther (by simp)) (by simp) rfl
      (fun time htime => ⟨List.mem_of_mem_eraseIdx htime, by simp⟩) (fun r hr => ⟨hr, by simp⟩)
  | deleteInvalid hpool =>
    exact h.onPool hpool (hkeepsOther (by simp)) (by simp) (by simp) (by simp)
  | connect hpool =>
    refine h.onPool hpool (hkeepsOther (by simp)) (fun j time hb => ?_) (by simp) (by simp)
    simp only [SharedPoolAction.connect.injEq] at hb
    split_ifs at hb
    · exact (Option.some_inj.mp hb.2).symm
    · exact absurd hb.2 (by simp)
  | use _ hkeeps hpool =>
    refine h.onPool hpool ?_ (by simp) (by simp) (by simp)
    rintro j connection' id hb hcall
    obtain ⟨rfl, rfl⟩ := SharedPoolAction.use.inj hb
    rw [keepsCreation, hcall, beq_iff_eq] at hkeeps
    exact hkeeps
  | @leaseEnded i id _ hcall halive =>
    refine ⟨h.known, h.created, h.waiting, fun r hr => ?_⟩
    rcases List.mem_cons.mp hr with rfl | hold
    · exact ⟨le_refl _, id, hcall, h.created id (h.known.of_leased hcall)⟩
    · exact h.releasing r hold
  | orphaned hreleasing _ _ hpool =>
    refine h.onPool hpool (hkeepsOther (by simp)) (by simp) (by simp) fun r hr now pushed hb => ?_
    obtain ⟨hi, -, -⟩ := SharedPoolAction.releaseConnection.inj hb
    refine hreleasing (List.any_eq_true.mpr ⟨r, hr, ?_⟩)
    rw [beq_iff_eq, hi]
  | released _ _ hpool =>
    refine h.of_pool hpool (hkeepsOther (by simp)) (by simp) rfl
      (fun time htime => ⟨htime, by simp⟩) fun r hr => ?_
    obtain ⟨hmem, hne⟩ := List.mem_filter.mp hr
    refine ⟨hmem, fun now' pushed' hb => ?_⟩
    obtain ⟨hi, -, -⟩ := SharedPoolAction.releaseConnection.inj hb
    rw [hi] at hne
    exact absurd hne (by simp)
  | destroyed hwaiting _ hpool =>
    exact h.onPool hpool (hkeepsOther (by simp)) (by simp) (fun hne => absurd hwaiting hne)
      (by simp)

/-! ### Runs -/

/-- Every step is a step of the pool, or leaves it as it is. -/
theorem pool_of_step (hstep : s.step a = some s') :
    s'.pool = s.pool ∨ ∃ b, s.pool.step b = some s'.pool := by
  cases step_cases hstep with
  | tick => exact .inl rfl
  | readClock => exact .inl rfl
  | leaseEnded => exact .inl rfl
  | lock _ hpool => exact .inr ⟨_, hpool⟩
  | deleteInvalid hpool => exact .inr ⟨_, hpool⟩
  | connect hpool => exact .inr ⟨_, hpool⟩
  | use _ _ hpool => exact .inr ⟨_, hpool⟩
  | orphaned _ _ _ hpool => exact .inr ⟨_, hpool⟩
  | released _ _ hpool => exact .inr ⟨_, hpool⟩
  | destroyed _ _ hpool => exact .inr ⟨_, hpool⟩

variable {C : TimedPool → TimedPoolAction → Prop}

/-- **Without the clock**, a run is a run of the pool. -/
theorem pool_reachable (h : (system options).ReachableWhile C s) :
    (SharedPool.system options).Reachable s.pool := by
  induction h with
  | init h =>
    obtain ⟨clock, rfl⟩ := h
    exact .init rfl
  | step h hcond hstep ih =>
    rcases pool_of_step hstep with hsame | ⟨b, hpool⟩
    · rw [hsame]
      exact ih
    · exact .step ih trivial hpool

theorem options_eq (h : (system options).ReachableWhile C s) : s.pool.options = options := by
  refine ReachableWhile.invariant (I := fun pool => pool.options = options) ?_
    (fun pool b pool' hoptions _ hstep => ?_) (pool_reachable h)
  · rintro pool rfl
    rfl
  · exact (SharedPool.options_step hstep).trans hoptions

theorem inOrder_of_reachable (h : (system options).ReachableWhile C s) : InOrder s := by
  refine ReachableWhile.invariant ?_ (fun _ _ _ hs _ hstep => hs.step hstep) h
  rintro s ⟨clock, rfl⟩
  refine ⟨⟨?_, ?_⟩, ?_, ?_, ?_⟩ <;> simp [new, SharedPool.new]

/-! ### What is given up -/

theorem isUnfit_of_mem_popIdle {isUnfit : ℕ → Bool} {ids : List ℕ}
    (h : id ∈ (popIdle isUnfit ids).2.1) : isUnfit id = true := by
  induction ids with
  | nil => exact absurd h (by simp [popIdle])
  | cons id' ids ih =>
    rw [popIdle] at h
    split_ifs at h with hunfit
    · rcases List.mem_cons.mp h with rfl | hrest
      · exact hunfit
      · exact ih hrest
    · exact absurd h (by simp)

/-- The loop ends at the first connection that is fit. -/
theorem mem_popIdle_of_isUnfit {isUnfit : ℕ → Bool} {ids : List ℕ}
    (h : id ∈ (popIdle isUnfit ids).2.1 ++ (popIdle isUnfit ids).1.toList)
    (hunfit : isUnfit id = true) : id ∈ (popIdle isUnfit ids).2.1 := by
  induction ids with
  | nil => exact h
  | cons id' ids ih =>
    rw [popIdle] at h ⊢
    split_ifs at h ⊢ with hunfit'
    · rcases List.mem_cons.mp h with rfl | hrest
      · exact List.mem_cons_self
      · exact List.mem_cons_of_mem _ (ih hrest)
    · obtain rfl := List.mem_singleton.mp h
      exact absurd hunfit hunfit'

/-- What the section under the lock gives up. -/
theorem justified_of_lock (h : InOrder s) (hoptions : s.pool.options = options) {k : ℕ}
    (hcond : s.ReadInOrder (.lock k)) (hnow : s.waiting[k]? = some now) :
    ∀ d ∈ s.unfit now, d.Justified options := by
  intro d hd
  obtain ⟨id, hid, rfl⟩ := List.mem_map.mp hd
  have hunfit := isUnfit_of_mem_popIdle hid
  rw [SharedPool.isUnfit, hoptions] at hunfit
  refine justified_of_isUnfit hunfit (fun halive hconnected hreusable hlimit => ?_)
    (h.waiting now (List.mem_of_getElem? hnow)).1
  by_contra hlater
  refine hcond now hnow id (List.mem_append_left _ hid) ?_
  rw [Overtakes, hoptions]
  exact ⟨halive, hconnected, hreusable, hlimit, Nat.lt_of_not_le hlater⟩

/-- What `releaseConnection` gives up. -/
theorem justified_of_release (h : InOrder s) (hoptions : s.pool.options = options)
    (hnow : (i, now) ∈ s.releasing) (hcall : s.pool.calls[i]? = some (.leased id)) :
    ∀ d ∈ s.refused id now true, d.Justified options := by
  intro d hd
  rw [refused] at hd
  split_ifs at hd with hunfit
  · rw [Bool.or_eq_true, SharedPool.isUnfit, hoptions] at hunfit
    rw [List.mem_singleton.mp hd]
    obtain ⟨hpast, id', hcall', hcreated⟩ := h.releasing _ hnow
    obtain rfl := PoolCall.leased.inj (Option.some_inj.mp (hcall'.symm.trans hcall))
    exact justified_of_isUnfit (hunfit.resolve_right (by simp)) (fun _ _ _ _ => hcreated) hpast
  · exact absurd hd (by simp)

/-- What a step gives up. -/
theorem discards_of_step (hstep : s.step a = some s') :
    s'.discards = s.discards ∨
    (∃ k now, a = .lock k ∧ s.waiting[k]? = some now ∧
      s'.discards = s.discards ++ s.unfit now) ∨
    ∃ i pushed now id, a = .releaseConnection i pushed ∧ (i, now) ∈ s.releasing ∧
      s.pool.calls[i]? = some (.leased id) ∧
      s'.discards = s.discards ++ s.refused id now pushed := by
  cases step_cases hstep with
  | lock hnow => exact .inr (.inl ⟨_, _, rfl, hnow, rfl⟩)
  | released hnow hcall => exact .inr (.inr ⟨_, _, _, _, rfl, hnow, hcall, rfl⟩)
  | tick => exact .inl rfl
  | readClock => exact .inl rfl
  | deleteInvalid => exact .inl rfl
  | connect => exact .inl rfl
  | use => exact .inl rfl
  | leaseEnded => exact .inl rfl
  | orphaned => exact .inl rfl
  | destroyed => exact .inl rfl

theorem justified_of_reachable (h : (system options).ReachableWhile ReadInOrder s) :
    ∀ d ∈ s.discards, d.Justified options := by
  induction h with
  | init h =>
    obtain ⟨clock, rfl⟩ := h
    exact fun d hd => absurd hd (by simp [new])
  | step h hcond hstep ih =>
    have hinOrder := inOrder_of_reachable h
    have hoptions := options_eq h
    rcases discards_of_step hstep with
      hsame | ⟨k, now, rfl, hnow, hmore⟩ | ⟨i, pushed, now, id, rfl, hnow, hcall, hmore⟩
    · rw [hsame]
      exact ih
    · rw [hmore]
      exact List.forall_mem_append.mpr ⟨ih, justified_of_lock hinOrder hoptions hcond hnow⟩
    · obtain rfl : pushed = true := hcond
      rw [hmore]
      exact List.forall_mem_append.mpr ⟨ih, justified_of_release hinOrder hoptions hnow hcall⟩

/-- A connection that overtakes a call of `getConnection` is given up at once, unless the
lifetime is so long that the wrapped age is below it. -/
theorem unjustified_of_overtakes (h : InOrder s) {k : ℕ} (hnow : s.waiting[k]? = some now)
    (hid : id ∈ s.examined now) (hovertakes : s.Overtakes now id)
    (hwraps : (s.pool.connections id).createdAtMs + s.pool.options.maxAliveTimeMs.toNat ≤
      now.toNat + 2 ^ 64)
    (hyoung : s.clock.toNat <
      (s.pool.connections id).createdAtMs + s.pool.options.maxAliveTimeMs.toNat) :
    ∃ s', s.step (.lock k) = some s' ∧ ∃ d ∈ s'.discards, ¬ d.Justified s.pool.options := by
  obtain ⟨halive, hconnected, hreusable, hlimit, hlater⟩ := hovertakes
  obtain ⟨hpast, hpool⟩ := h.waiting now (List.mem_of_getElem? hnow)
  have hunfit : s.pool.isUnfit now id = true := by
    have hage : s.pool.options.maxAliveTimeMs.toNat ≤
        (now - UInt64.ofNat (s.pool.connections id).createdAtMs).toNat := by
      have hidle : id ∈ s.pool.idleConnections := by
        rw [(s.pool.popped_eq now).1]
        exact List.mem_append_left _ hid
      have hmade := h.created id (h.known.idle id hidle)
      rw [toNat_age_wrapped hlater (Nat.lt_of_le_of_lt hmade s.clock.toNat_lt)]
      omega
    rw [SharedPool.isUnfit, HttpConnectionPool.isUnfit, isExpired_iff.mpr (.inl ⟨halive, hage⟩),
      Bool.or_true]
  have hpopped : id ∈ (s.pool.popped now).2.1 := mem_popIdle_of_isUnfit hid hunfit
  have hstep : s.step (.lock k) = some { s with
      pool := s.pool.getConnection now
      waiting := s.waiting.eraseIdx k
      discards := s.discards ++ s.unfit now } := by
    rw [TimedPool.step, hnow, Option.bind_some, lock, SharedPool.step, if_pos hpool]
    rfl
  refine ⟨_, hstep, ⟨s.pool.connections id, s.clock⟩, ?_, fun hjustified => ?_⟩
  · exact List.mem_append_right _ (List.mem_map.mpr ⟨id, hpopped, rfl⟩)
  · rcases hjustified hconnected hreusable with ⟨hne, hreached⟩ | ⟨-, hdue⟩
    · exact absurd hreached (Nat.not_le_of_lt (hlimit hne))
    · exact absurd hdue (Nat.not_le_of_lt hyoung)

/-- **Connections are given up in time unless a call of `getConnection` is overtaken.**  As long
as no call looks at a connection that was made after its reading, and `push_back` has memory,
everything that was given up was due or could not be used again; a connection that overtakes a
call before it is due is given up. -/
theorem justified_iff_readInOrder (options : PoolOptions) :
    (∀ s, (system options).ReachableWhile ReadInOrder s → ∀ d ∈ s.discards, d.Justified options) ∧
    ∀ s, (system options).Reachable s → ∀ k now id, s.waiting[k]? = some now →
      id ∈ s.examined now → s.Overtakes now id →
      (s.pool.connections id).createdAtMs + options.maxAliveTimeMs.toNat ≤ now.toNat + 2 ^ 64 →
      s.clock.toNat < (s.pool.connections id).createdAtMs + options.maxAliveTimeMs.toNat →
      ∃ s', (system options).step s (.lock k) = some s' ∧
        ∃ d ∈ s'.discards, ¬ d.Justified options := by
  constructor
  · intro s h
    exact justified_of_reachable h
  · intro s h k now id hnow hid hovertakes hwraps hyoung
    have hoptions := options_eq h
    rw [← hoptions] at hwraps hyoung ⊢
    exact unjustified_of_overtakes (inOrder_of_reachable h) hnow hid hovertakes hwraps hyoung

/-- Connections live for a minute. -/
def minuteOptions : PoolOptions := ⟨[], [], 80, false, 2, 60000, 0⟩

/-- Two calls read the clock; one of them makes a connection a millisecond later and gives it
back, and then the other one gets the lock. -/
def overtakenActions : List TimedPoolAction :=
  [.readClock, .readClock, .tick 1, .lock 0, .deleteInvalid 0, .connect 0 true, .endLease 0,
    .releaseConnection 0 true, .lock 0]

/-- A connection is given up in the millisecond in which it was made. -/
theorem not_justified :
    ∃ s, (system minuteOptions).exec (new minuteOptions 0) overtakenActions = some s ∧
      s.clock = 1 ∧ s.discards = [⟨HttpConnection.new 1, 1⟩] ∧
      ∃ d ∈ s.discards, ¬ d.Justified minuteOptions :=
  ⟨_, rfl, by decide +kernel, by decide +kernel, by decide +kernel⟩

/-- A connection is made, given back, and given up after a minute. -/
def minuteActions : List TimedPoolAction :=
  [.readClock, .lock 0, .deleteInvalid 0, .connect 0 true, .endLease 0, .releaseConnection 0 true,
    .tick 60000, .readClock, .lock 0]

theorem justified_iff_readInOrder_minute :
    (∃ s, (system minuteOptions).exec (new minuteOptions 0) minuteActions = some s ∧
      s.discards = [⟨HttpConnection.new 0, 60000⟩] ∧ ∀ d ∈ s.discards, d.Justified minuteOptions) ∧
    ∃ s s', (system minuteOptions).exec (new minuteOptions 0) overtakenActions.dropLast = some s ∧
      (system minuteOptions).step s (.lock 0) = some s' ∧
      ∃ d ∈ s'.discards, ¬ d.Justified minuteOptions := by
  obtain ⟨hjustified, hovertaken⟩ := justified_iff_readInOrder minuteOptions
  have hinit : (system minuteOptions).init (new minuteOptions 0) := ⟨0, rfl⟩
  constructor
  · obtain ⟨s, hs, hmeets, hdiscards⟩ : ∃ s,
        (system minuteOptions).exec (new minuteOptions 0) minuteActions = some s ∧
        (system minuteOptions).Meets ReadInOrder (new minuteOptions 0) minuteActions ∧
        s.discards = [⟨HttpConnection.new 0, 60000⟩] :=
      ⟨_, rfl, by decide +kernel, by decide +kernel⟩
    exact ⟨s, hs, hdiscards, hjustified s ((ReachableWhile.init hinit).exec hmeets hs)⟩
  · obtain ⟨s, hs, hwaiting, hid, hovertakes, hcreated, hclock⟩ : ∃ s,
        (system minuteOptions).exec (new minuteOptions 0) overtakenActions.dropLast = some s ∧
        s.waiting[0]? = some 0 ∧ 0 ∈ s.examined 0 ∧ s.Overtakes 0 0 ∧
        (s.pool.connections 0).createdAtMs = 1 ∧ s.clock = 1 :=
      ⟨_, rfl, by decide +kernel, by decide +kernel, by decide +kernel, by decide +kernel,
        by decide +kernel⟩
    have hreach : (system minuteOptions).Reachable s :=
      (ReachableWhile.init hinit).exec (meets_true _ _ _) hs
    obtain ⟨s', hstep, hdiscard⟩ := hovertaken s hreach 0 0 0 hwaiting hid hovertakes
      (by rw [hcreated]; decide) (by rw [hcreated, hclock]; decide)
    exact ⟨s, s', hs, hstep, hdiscard⟩

end TimedPool

end Http
